import DocComment.Problem
import DocComment.Json
import DocComment.TypeUnion

/-!
# Documentation lines

A source line inside a comment is cleaned, matched against the tag vocabulary and, when a tag
introduces it, cut at single spaces.  The words after the mark are the fields of the line, chosen
by their positions as the category of the tag demands.
-/

namespace DocComment

inductive Payload where
  | flag
  | label (name : Text)
  | description (desc : Text)
  | value (type : TypeUnion) (name : Text)
  | typed (type : TypeUnion) (desc : Text)
  | named (type : TypeUnion) (name desc : Text)
  | text (desc : Option Text)
  deriving DecidableEq, Repr

inductive Line where
  | start
  | stop
  | tagged (tag : Tag) (payload : Payload)
  /-- Free text behind a leading star. -/
  | raw (desc : Text)
  deriving DecidableEq, Repr

namespace Payload

def name? : Payload → Option Text
  | label name | value _ name | named _ name _ => some name
  | _ => none

def desc? : Payload → Option Text
  | description desc | typed _ desc | named _ _ desc => some desc
  | text desc => desc
  | _ => none

def type? : Payload → Option TypeUnion
  | value type _ | typed type _ | named type _ _ => some type
  | _ => none

def wordAt (tokens : List Text) (i : Nat) : Option Text := tokens[i]?.filter (!·.isEmpty)

def wordsFrom (tokens : List Text) (i : Nat) : Text := [' '].intercalate (tokens.drop i)

/-- Reads a payload from the tokens of a line, the mark being token 0. There is none when a
required word is missing, and delimiters carry none. -/
def ofTokens? (tokens : List Text) : Category → Option Payload
  | .delimiter => none
  | .flag => some flag
  | .label => do return label (← wordAt tokens 1)
  | .description => some (description (wordsFrom tokens 1))
  | .value => do return value (TypeUnion.parse (← wordAt tokens 1)) (← wordAt tokens 2)
  | .typed => do return typed (TypeUnion.parse (← wordAt tokens 1)) (wordsFrom tokens 2)
  | .named => do
    return named (TypeUnion.parse (← wordAt tokens 1)) (← wordAt tokens 2) (wordsFrom tokens 3)
  | .text => some (text (some (wordsFrom tokens 1) |>.filter (!·.isEmpty)))

end Payload

namespace Line

def tag? : Line → Option Tag
  | start => some .start
  | stop => some .stop
  | tagged tag _ => some tag
  | raw _ => none

def name? : Line → Option Text
  | tagged _ payload => payload.name?
  | _ => none

def desc? : Line → Option Text
  | tagged _ payload => payload.desc?
  | raw desc => some desc
  | _ => none

def type? : Line → Option TypeUnion
  | tagged _ payload => payload.type?
  | _ => none

/-- A cleaned line without its continuation star. A star is one only if text follows it. -/
def body (cleaned : Text) : Text := (("* " : Text).isPrefixOf? cleaned).getD cleaned

def ofTokens? (tokens : List Text) : Tag → Option Line
  | .start => some start
  | .stop => some stop
  | tag => (Payload.ofTokens? tokens tag.category).map (tagged tag)

/-- Recognizes a source line. The result is `none` for a line that is no documentation at all. -/
def recognize (place : Location) (source : Text) : Except Problem (Option Line) :=
  let cleaned := source.collapse
  match Tag.introducing? (body cleaned) with
  | some tag =>
    match ofTokens? ((body cleaned).splitOn ' ') tag with
    | some line => .ok (some line)
    | none => .error (.incomplete tag place)
  | none =>
    if cleaned.head? = some '*' then
      .ok (some (raw (cleaned.dropWhile fun c => c == '*' || c == ' ')))
    else .ok none

/-- Whether a source line opens a block. No field is read, so what follows the mark is free. -/
def opensBlock (source : Text) : Bool :=
  Tag.introducing? (body source.collapse) == some .start

end Line

/-! ### Exported form -/

def TypeUnion.toJson (e : TypeUnion) : Json :=
  .object [("types", .texts e.members), ("options", .texts (e.modifier.toList.map (·.name)))]

def Payload.fields : Payload → List (Text × Json)
  | flag => []
  | label name => [("name", .str name)]
  | description desc => [("desc", .str desc)]
  | value type name => [("type", type.toJson), ("name", .str name)]
  | typed type desc => [("type", type.toJson), ("desc", .str desc)]
  | named type name desc => [("type", type.toJson), ("name", .str name), ("desc", .str desc)]
  | text none => []
  | text (some desc) => [("desc", .str desc)]

/-- A delimiter has no exported form. -/
def Line.toJson : Line → Json
  | .start | .stop => .null
  | .raw desc => .object [("desc", .str desc)]
  | .tagged tag payload => .object (("tag", .str tag.name) :: payload.fields)

end DocComment
