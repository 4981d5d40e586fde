import DocComment.Walk

/-!
# Visible blocks

A block marked private or ignored is left out of the page and of the search index, together with
everything below it, unless the settings ask for it.
-/

namespace DocComment

structure Settings where
  name : Text
  /-- The page to be filled, where it is not the built-in one. -/
  template : Option Text := none
  showPrivate : Bool := false
  deriving DecidableEq, Repr

def Settings.conceals (s : Settings) (n : Node) : Bool :=
  !s.showPrivate && n.block.any Block.isHidden

/-- The visible nodes with a block among those that a walk still visits. -/
def visibleFrom (s : Settings) (w : Walk) : List (Text × Node) :=
  match _h : w.next? with
  | none => []
  | some ((path, n), w') =>
    if s.conceals n then visibleFrom s (w'.passOver n)
    else if n.block.isSome then (path, n) :: visibleFrom s w'
    else visibleFrom s w'
termination_by w.size
decreasing_by
  · exact Nat.lt_of_le_of_lt (w'.size_passOver n) (Walk.size_next? _h)
  · exact Walk.size_next? _h
  · exact Walk.size_next? _h

def Outline.visible (o : Outline) (s : Settings) : List (Text × Node) := visibleFrom s o.walk

def Outline.searchIndex (o : Outline) (s : Settings) : List Text := (o.visible s).map (·.1)

end DocComment
