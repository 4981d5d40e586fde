import DocComment.Text

/-!
# Type annotations

The annotations `{string=}`, `{?number|string}` and `{!(Array|Object)}`: the members of a union
with at most one modifier.
-/

namespace DocComment

inductive Modifier where
  | optional
  | nullable
  | nonNullable
  deriving DecidableEq, Repr

namespace Modifier

def all : List Modifier := [optional, nullable, nonNullable]

def label : Modifier → Text
  | optional => "optional"
  | nullable => "nullable"
  | nonNullable => "non nullable"

def name : Modifier → Text
  | optional => "optional"
  | nullable => "nullable"
  | nonNullable => "non-nullable"

end Modifier

structure TypeUnion where
  members : List Text
  modifier : Option Modifier
  deriving DecidableEq, Repr

namespace TypeUnion

/-- One enclosing pair of braces removed, each brace on its own. -/
def unbrace (t : Text) : Text :=
  let t := (['\x7b'].isPrefixOf? t).getD t
  (['\x7d'].isSuffixOf? t).getD t

/-- One enclosing pair of parentheses removed, both or none. -/
def unparen (t : Text) : Text :=
  ((['('].isPrefixOf? t).bind ([')'].isSuffixOf? ·)).getD t

/-- The modifier of an annotation without its braces, and what remains when every repetition of
its sign is taken off. A trailing `=` counts before a leading `?`, and that before a leading `!`. -/
def takeModifier (t : Text) : Option Modifier × Text :=
  if t.getLast? = some '=' then (some .optional, (t.reverse.dropWhile (· == '=')).reverse)
  else if t.head? = some '?' then (some .nullable, t.dropWhile (· == '?'))
  else if t.head? = some '!' then (some .nonNullable, t.dropWhile (· == '!'))
  else (none, t)

/-- Reads an annotation. The union is split at every `|`, inside parentheses too. -/
def parse (t : Text) : TypeUnion :=
  let (modifier, body) := takeModifier (unbrace t)
  ⟨(unparen body).splitOn '|', modifier⟩

def isOptional (e : TypeUnion) : Bool := e.modifier == some .optional

def print (e : TypeUnion) : Text :=
  let lead : Text := match e.modifier with
    | some .nullable => "?"
    | some .nonNullable => "!"
    | _ => ""
  let trail : Text := if e.isOptional then "=" else ""
  List.flatten ["\x7b", lead, ['|'].intercalate e.members, trail, "\x7d"]

end TypeUnion

end DocComment
