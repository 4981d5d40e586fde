import DocComment.Block

/-!
# Fields of a block

What a block says about parameters, results, notes and examples, each read from the entries of one
tag, and the access to any of them by name.
-/

namespace DocComment

/-- A described value without a name, such as a result. -/
structure TypedField where
  type : TypeUnion
  desc : Text
  deriving DecidableEq, Repr

/-- A described value with a name, such as a parameter. -/
structure NamedField where
  name : Text
  type : TypeUnion
  desc : Text
  deriving DecidableEq, Repr

/-- The outcome of access by name, in the form that the category of the tag asks for. -/
inductive Field where
  | flag (present : Bool)
  | description (desc : Text)
  | entries (entries : List Entry)
  | notes (notes : List Text)
  | typed (fields : List TypedField)
  | named (fields : List NamedField)
  | texts (texts : List Text)
  deriving DecidableEq, Repr

namespace Block

/-- The text of the block itself. -/
def description (b : Block) : Text := b.desc.running

/-- The names on all lines with a tag. -/
def labels (b : Block) (tag : Tag) : List Text :=
  (b.entries tag).filterMap fun e => e.head?.bind Line.name?

def typedFields (b : Block) (tag : Tag) : List TypedField :=
  (b.entries tag).filterMap fun e => do
    let head ← e.head?
    return ⟨← head.type?, e.running⟩

def namedFields (b : Block) (tag : Tag) : List NamedField :=
  (b.entries tag).filterMap fun e => do
    let head ← e.head?
    return ⟨← head.name?, ← head.type?, e.running⟩

def notes (b : Block) (tag : Tag) : List Text := (b.entries tag).map Entry.running

def verbatim (b : Block) (tag : Tag) : List Text := (b.entries tag).map Entry.verbatim

def params (b : Block) : List NamedField := b.namedFields .param

def properties (b : Block) : List NamedField := b.namedFields .property

def returns (b : Block) : List TypedField := b.typedFields .returns

def examples (b : Block) : List Text := b.verbatim .exampleText

def todos (b : Block) : List Text := b.notes .todo

/-- The field with a name. The name `desc` stands for the block's own text, and a delimiter names
no field. -/
def field? (b : Block) (name : Text) : Option Field :=
  if name = ("desc" : Text) then some (.description b.description)
  else do
    let tag ← Tag.ofName? name
    match tag.category with
    | .delimiter => none
    | .flag => return .flag (b.has tag)
    | .label | .value => return .entries (b.entries tag)
    | .description => return .notes (b.notes tag)
    | .typed => return .typed (b.typedFields tag)
    | .named => return .named (b.namedFields tag)
    | .text => return .texts (b.verbatim tag)

end Block

/-! ### Exported forms -/

def Entry.toJson (e : Entry) : Json := .arr (e.map Line.toJson)

def TypedField.toJson (f : TypedField) : Json :=
  .object [("type", f.type.toJson), ("desc", .str f.desc)]

def NamedField.toJson (f : NamedField) : Json :=
  .object [("name", .str f.name), ("type", f.type.toJson), ("desc", .str f.desc)]

namespace Block

def tagsJson (b : Block) : Json :=
  .object (b.tags.map fun (tag, entries) => (tag.name, .arr (entries.map Entry.toJson)))

/-- The content of a block as it was collected, line by line. -/
def toJson (b : Block) : Json :=
  .object [("file", .str b.place.file), ("line", .num b.place.line), ("desc", b.desc.toJson),
    ("tags", b.tagsJson)]

end Block

end DocComment
