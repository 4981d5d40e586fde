import DocComment.BlockFields
import DocComment.Outline

/-!
# Exporting the outline as data

Each segment becomes an object with the block filed there, or null, and the objects below it.
Hidden blocks are exported too.
-/

namespace DocComment

def Block.exportJson (b : Block) : Except Problem Json := do
  let kind ← b.kind
  let id ← b.id
  let path ← b.path
  let parent ← b.parent
  return .object [("file", .str b.place.file), ("line", .num b.place.line),
    ("type", .str kind.name), ("id", .str id), ("path", .str path),
    ("parent", .ofOption .str parent),
    ("desc", .str b.description), ("params", .arr (b.params.map NamedField.toJson)),
    ("returns", .arr (b.returns.map TypedField.toJson)), ("examples", .texts b.examples),
    ("tags", b.tagsJson)]

mutual

def Node.exportJson : Node → Except Problem Json
  | ⟨block, _, children⟩ => do
    let entry ← match block with
      | some block => block.exportJson
      | none => .ok .null
    let children ← Node.exportChildren children
    return .object [("entry", entry), ("children", .obj children)]

def Node.exportChildren : List (Text × Node) → Except Problem (List (Text × Json))
  | [] => .ok []
  | (segment, n) :: rest => do
    let value ← n.exportJson
    let others ← Node.exportChildren rest
    return (segment, value) :: others

end

def Outline.exportJson (o : Outline) : Except Problem Json :=
  (Node.exportChildren o.root.children).map .obj

/-- The exported outline as written to a file, which ends with a line feed. -/
def Outline.exportText (o : Outline) : Except Problem Text := do
  return (← o.exportJson).pretty ++ ['\n']

end DocComment
