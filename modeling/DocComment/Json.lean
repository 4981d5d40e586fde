import DocComment.Keyed
import DocComment.Text

/-!
# JSON values

The values that the program exports and their two written forms: compact, and spread over lines
with two spaces for each level.
-/

namespace DocComment

inductive Json where
  | null
  | bool (b : Bool)
  | num (n : Nat)
  | str (t : Text)
  | arr (items : List Json)
  | obj (fields : List (Text × Json))

namespace Json

/-- An object lists its fields in the order of their names. -/
def object (fields : List (Text × Json)) : Json := .obj (Keyed.ofList fields)

def texts (ts : List Text) : Json := .arr (ts.map .str)

def ofOption {α : Type} (f : α → Json) : Option α → Json
  | none => .null
  | some a => f a

/-- Control characters without a short form are written as four hexadecimal digits. -/
def escape (c : Char) : Text :=
  if c = '"' then "\\\""
  else if c = '\\' then "\\\\"
  else if c = '\n' then "\\n"
  else if c = '\r' then "\\r"
  else if c = '\t' then "\\t"
  else if c = '\x08' then "\\b"
  else if c = '\x0c' then "\\f"
  else if c.toNat < 0x10 then "\\u000" ++ Nat.toDigits 16 c.toNat
  else if c.toNat < 0x20 then "\\u00" ++ Nat.toDigits 16 c.toNat
  else [c]

def quote (t : Text) : Text := '"' :: t.flatMap escape ++ ['"']

mutual

def compact : Json → Text
  | .null => "null"
  | .bool b => if b then "true" else "false"
  | .num n => Text.ofNat n
  | .str t => quote t
  | .arr items => '[' :: [','].intercalate (compactItems items) ++ [']']
  | .obj fields => '\x7b' :: [','].intercalate (compactFields fields) ++ ['\x7d']

def compactItems : List Json → List Text
  | [] => []
  | item :: rest => compact item :: compactItems rest

def compactFields : List (Text × Json) → List Text
  | [] => []
  | (name, value) :: rest => (quote name ++ ':' :: compact value) :: compactFields rest

end

def newline (depth : Nat) : Text := '\n' :: List.replicate (2 * depth) ' '

mutual

/-- The form that is spread over lines, followed by a text. A bracket that has nothing to hold
closes at once. -/
def prettyThen (depth : Nat) (after : Text) : Json → Text
  | .null => "null" ++ after
  | .bool b => (if b then "true" else "false") ++ after
  | .num n => Text.ofNat n ++ after
  | .str t => quote t ++ after
  | .arr [] => '[' :: ']' :: after
  | .arr (item :: items) =>
    '[' :: newline (depth + 1) ++ prettyThen (depth + 1)
      (prettyItems (depth + 1) (newline depth ++ ']' :: after) items) item
  | .obj [] => '\x7b' :: '\x7d' :: after
  | .obj ((name, value) :: fields) =>
    '\x7b' :: newline (depth + 1) ++ quote name ++ ": " ++ prettyThen (depth + 1)
      (prettyFields (depth + 1) (newline depth ++ '\x7d' :: after) fields) value

def prettyItems (depth : Nat) (after : Text) : List Json → Text
  | [] => after
  | item :: items =>
    ',' :: newline depth ++ prettyThen depth (prettyItems depth after items) item

/-- The fields after the first, each on a line of its own. -/
def prettyFields (depth : Nat) (after : Text) : List (Text × Json) → Text
  | [] => after
  | (name, value) :: fields =>
    ',' :: newline depth ++ quote name ++ ": " ++
      prettyThen depth (prettyFields depth after fields) value

end

def pretty (v : Json) : Text := prettyThen 0 [] v

end Json

end DocComment
