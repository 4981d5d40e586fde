import DocComment.Block

/-!
# Blocks in the making

Lines are collected one after the other.  A tagged line opens an entry under its tag, free text
continues the entry opened last, or the description while there is none, and the end delimiter
closes the block for good.
-/

namespace DocComment

structure Draft where
  block : Block
  /-- The entry opened last, which is not filed in the block yet. -/
  current : Option (Tag × Entry) := none
  closed : Bool := false
  deriving DecidableEq, Repr

namespace Draft

def new (place : Location) : Draft := { block := { place } }

/-- The block with the current entry filed last under its tag. -/
def filed (d : Draft) : Block :=
  match d.current with
  | none => d.block
  | some (tag, entry) =>
    { d.block with tags := Keyed.insert tag (d.block.entries tag ++ [entry]) d.block.tags }

/-- Takes one line. A closed draft takes no more, and a start delimiter adds nothing. -/
def take (d : Draft) (line : Line) : Draft :=
  if d.closed then d
  else match line with
    | .start => d
    | .stop => { d with closed := true }
    | .tagged tag _ => { d with block := d.filed, current := some (tag, [line]) }
    | .raw _ =>
      match d.current with
      | none => { d with block := { d.block with desc := d.block.desc ++ [line] } }
      | some (tag, entry) => { d with current := some (tag, entry ++ [line]) }

def result (d : Draft) : Except Problem Block :=
  if d.closed then .ok d.filed else .error (.unterminated d.block.place)

end Draft

end DocComment
