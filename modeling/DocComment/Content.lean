import DocComment.BlockFields
import DocComment.Markup
import DocComment.Visibility

/-!
# The content of a page

Each visible block is a section under a heading that the menu can point to.  Modules and namespaces
have a line of text, the other kinds a card with what is known of them.
-/

namespace DocComment

namespace Content

open Markup (element richText escape)

/-- The brackets and names of a call. A bracket opens before each optional parameter, and all
close at the end. -/
def parameterList (params : List NamedField) : Text :=
  let opened := params.zipIdx.flatMap fun (param, i) =>
    List.flatten [if param.type.isOptional then "[" else "", if i = 0 then "" else ", ", param.name]
  opened ++ List.replicate (params.countP (·.type.isOptional)) ']'

def memberCodes (type : TypeUnion) : Text :=
  [' '].intercalate (type.members.map fun member => element "code" [] (escape member))

/-- The labels of the modifier of a type, each after a space. -/
def modifierCodes (type : TypeUnion) : Text :=
  Modifier.all.flatMap fun m =>
    if type.modifier = some m then ' ' :: element "code" [] m.label else []

def tableHead (cells : Text) : Text := element "thead" [] (element "tr" [] cells)

def paramRow (param : NamedField) : Text :=
  element "tr" [] <| List.flatten ["<td><i>", param.name, "</i></td><td>", memberCodes param.type,
    "</td>", element "td" [] (richText param.desc ++ modifierCodes param.type)]

def paramTable (params : List NamedField) : Text :=
  element "table" [] <|
    tableHead "<th class='fifth'>arg</th><th class='fifth'>type</th><th>description</th>" ++
      params.flatMap paramRow

def returnTable (field : TypedField) : Text :=
  element "table" [] <|
    tableHead "<th class='fifth'>return</th><th>description</th>" ++
      element "tr" [] (List.flatten ["<td><i>", memberCodes field.type, "</i></td><td>",
        richText field.desc, "</td>"])

/-- What a card says of a class or a method with the given path: the call, the description, the
tables of parameters and of the first result, the member overridden, and the examples. -/
def callCard (path : Text) (b : Block) : Text :=
  List.flatten [
    element "pre" [] (List.flatten [path, ['('], parameterList b.params, [')']]), ['\n'],
    "<br>", richText b.description, ['\n'],
    if b.params.isEmpty then "" else List.flatten ["<br>", paramTable b.params, ['\n']],
    b.returns.head?.elim [] returnTable,
    (b.labels .overrides).head?.elim [] fun name => "<br>Overrides: " ++ richText name,
    b.examples.flatMap fun code => element "pre" [] (element "code" [] (escape code))]

/-- What a card says of a variable with the given path: the description and the type. -/
def varCard (path : Text) (b : Block) : Text :=
  let type? := do (← (← (b.entries .varName).head?).head?).type?
  List.flatten [element "pre" [] path, "\n<br>", richText b.description, ['\n'],
    type?.elim [] memberCodes]

end Content

/-- A section of the page. Its path is the target of links. -/
structure Section where
  rank : Nat
  path : Text
  title : Text
  body : Text
  deriving DecidableEq, Repr

namespace Section

def ofBlock (b : Block) : Except Problem Section := do
  let kind ← b.kind
  let path ← b.path
  let id ← b.id
  let card (content : Text) : Section :=
    ⟨3, path, id, '\n' :: Markup.element "div" [("class", "card")] content⟩
  return match kind with
    | .moduleBlock | .namespaceBlock => ⟨2, path, path, Markup.richText b.description ++ ['\n']⟩
    | .classBlock | .methodBlock => card (Content.callCard path b)
    | .varBlock => card (Content.varCard path b)

def markup (s : Section) : Text :=
  List.flatten [Markup.element ('h' :: Text.ofNat s.rank) [("id", "api-" ++ s.path)] s.title,
    s.body, "<br>"]

end Section

/-- The sections of the page, one for each visible block. -/
def Outline.sections (o : Outline) (s : Settings) : Except Problem (List Section) :=
  ((o.visible s).filterMap fun (_, n) => n.block).mapM Section.ofBlock

end DocComment
