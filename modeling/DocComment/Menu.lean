import DocComment.Markup
import DocComment.Visibility

/-!
# The menu of a page

Modules, namespaces and classes are groups that fold, methods and variables are links.  A node
without a block passes on the items below it.
-/

namespace DocComment

inductive MenuItem where
  | link (path id : Text)
  | group (level path id : Text) (items : List MenuItem)

/-- The folding level of a kind that can hold others. -/
def Kind.level? : Kind → Option Text
  | moduleBlock => some "s1"
  | namespaceBlock => some "s2"
  | classBlock => some "s3"
  | methodBlock | varBlock => none

namespace MenuItem

/-- The item of a block over the items below it. -/
def ofBlock (b : Block) (items : List MenuItem) : Except Problem MenuItem := do
  let kind ← b.kind
  let path ← b.path
  let id ← b.id
  return match kind.level? with
    | some level => .group level path id items
    | none => .link path id

def arrange (items : List (Node × List MenuItem)) : List MenuItem :=
  (sortBy (fun a b => a.1.precedes b.1) items).reverse.flatMap (·.2)

mutual

/-- The items that stand for a node. There is none for a hidden one, nor for a block without a
path. -/
def ofNode (s : Settings) : Node → List MenuItem
  | ⟨block, number, children⟩ =>
    if s.conceals ⟨block, number, children⟩ then []
    else match block with
      | none => arrange (ofChildren s children)
      | some block => (ofBlock block (arrange (ofChildren s children))).toOption.toList

def ofChildren (s : Settings) : List (Text × Node) → List (Node × List MenuItem)
  | [] => []
  | (_, n) :: rest => (n, ofNode s n) :: ofChildren s rest

end

mutual

def markup : MenuItem → Text
  | .link path id => Markup.element "a" [("href", "#api-" ++ path)] id
  | .group level path id items =>
    let input := level ++ '-' :: path
    List.flatten [Markup.element "input" [("id", input), ("type", "checkbox")] [],
      Markup.element "label" [("for", input)] id,
      Markup.element "div" [("class", level)] (markupAll items)]

def markupAll : List MenuItem → Text
  | [] => []
  | item :: rest => item.markup ++ markupAll rest

end

end MenuItem

/-- The menu of the page: the items of every visible module. -/
def Outline.menu (o : Outline) (s : Settings) : List MenuItem :=
  (o.visible s).flatMap fun (_, n) =>
    match n.block.map Block.kind with
    | some (.ok .moduleBlock) => MenuItem.ofNode s n
    | _ => []

end DocComment
