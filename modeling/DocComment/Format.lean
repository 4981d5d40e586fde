import DocComment.Export
import DocComment.Page

/-!
# Output formats

The documentation is written either as data or as a page.
-/

namespace DocComment

inductive Format where
  | json
  | html
  deriving DecidableEq, Repr

namespace Format

def ofName? (name : Text) : Option Format :=
  if name = ("json" : Text) then some .json
  else if name = ("html" : Text) then some .html
  else none

def unknown (name : Text) : Text :=
  List.flatten ["unknown format: ", name, ". Use json or html"]

/-- The name of the file that the output is written to. -/
def fileName : Format → Text
  | json => "api.json"
  | html => "index.html"

def render (f : Format) (o : Outline) (s : Settings) : Except Problem Text :=
  match f with
  | json => o.exportText
  | html => o.page s

end Format

end DocComment
