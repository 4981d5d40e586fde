import DocComment.Line

/-!
# Documentation blocks

A block holds the lines of one comment: its own description, and for each tag the entries headed by
a line with that tag.  From the tags follow the kind of the thing described, its name and its
place in the documentation.
-/

namespace DocComment

/-- A tagged line with the free text that continues it, or the free text of a whole block. -/
abbrev Entry := List Line

namespace Entry

def texts (e : Entry) : List Text := e.filterMap Line.desc?

/-- The texts of an entry in running text: the empty ones dropped, the others joined by spaces. -/
def running (e : Entry) : Text := [' '].intercalate (e.texts.filter (!·.isEmpty))

def firstFilled (lines : List Text) : Nat := lines.findIdx (!·.isEmpty)

/-- The position after the last non-empty line. Without such a line the range is left empty. -/
def afterFilled (lines : List Text) : Nat :=
  match lines.reverse.findIdx? (!·.isEmpty) with
  | none => firstFilled lines
  | some j => lines.length - j

/-- The texts of an entry line by line, empty lines at either end dropped. -/
def verbatim (e : Entry) : Text :=
  ['\n'].intercalate (e.texts.extract (firstFilled e.texts) (afterFilled e.texts))

end Entry

structure Block where
  /-- The file, and the line of the start delimiter. -/
  place : Location
  desc : Entry := []
  tags : Keyed Tag (List Entry) := []
  deriving DecidableEq, Repr

inductive Kind where
  | moduleBlock
  | namespaceBlock
  | classBlock
  | methodBlock
  | varBlock
  deriving DecidableEq, Repr

namespace Kind

/-- The kinds in the order in which a block is tried for them. -/
def all : List Kind := [moduleBlock, namespaceBlock, classBlock, methodBlock, varBlock]

def tag : Kind → Tag
  | moduleBlock => .moduleName
  | namespaceBlock => .namespaceName
  | classBlock => .className
  | methodBlock => .methodName
  | varBlock => .varName

def name (k : Kind) : Text := k.tag.name

end Kind

namespace Block

def entries (b : Block) (tag : Tag) : List Entry := (Keyed.get? tag b.tags).getD []

def has (b : Block) (tag : Tag) : Bool := (Keyed.get? tag b.tags).isSome

def isHidden (b : Block) : Bool := b.has .privateFlag || b.has .ignoreFlag

/-! ### Identity -/

def firstName? (b : Block) (tag : Tag) : Option Text := do
  (← (← (b.entries tag).head?).head?).name?

def kind (b : Block) : Except Problem Kind :=
  match Kind.all.find? (b.has ·.tag) with
  | some kind => .ok kind
  | none => .error (.nameless b.place)

def id (b : Block) : Except Problem Text := do
  return (b.firstName? (← b.kind).tag).getD []

/-- The tags that name a parent, the stronger first. -/
def parentTags : List Tag := [.memberOf, .methodOf]

/-- The dotted path of the parent. A module has none, whatever its tags say. -/
def parentPath (b : Block) : Except Problem (Option Text) := do
  if (← b.kind) = .moduleBlock then return none
  match parentTags.findSome? b.firstName? with
  | some parent => return some parent
  | none => .error (.orphan b.place)

def parent (b : Block) : Except Problem (Option Text) := do
  return (← b.parentPath).map fun path => (path.splitOn '.').getLastD path

def path (b : Block) : Except Problem Text := do
  let id ← b.id
  match ← b.parentPath with
  | some parent => return parent ++ '.' :: id
  | none => return id

end Block

end DocComment
