import DocComment.Content
import DocComment.Json
import DocComment.Menu

/-!
# The page

A template with five places is filled with the name of the project, the menu, the content and the
search list.  The places are filled one kind after the other, each in the text that the ones before
have left.
-/

namespace DocComment

inductive Slot where
  | name
  | simplifiedName
  | menu
  | content
  | searchList
  deriving DecidableEq, Repr

namespace Slot

/-- The places in the order in which they are filled. -/
def all : List Slot := [name, simplifiedName, menu, content, searchList]

def key : Slot → Text
  | name => "NAME"
  | simplifiedName => "NAME_SIMPLIFIED"
  | menu => "API_MENU"
  | content => "API_CONTENT"
  | searchList => "SEARCH_LIST"

def mark (s : Slot) : Text := List.flatten ["\x7b\x7b", s.key, "\x7d\x7d"]

end Slot

namespace Page

/-- The style rules of the built-in page, each a selector and its declarations. -/
def styles : List (Text × Text) :=
  [("body", "font-family: system-ui, sans-serif; display: flex; margin: 0;"),
    ("nav", "width: 16em; padding: 1em; border-right: 1px solid #ddd;"),
    ("nav input", "display: none;"),
    ("nav label", "display: block; font-weight: bold; cursor: pointer;"),
    ("nav div", "display: none; margin-left: 1em;"),
    ("nav input:checked + label + div", "display: block;"),
    ("nav a", "display: block;"),
    ("main", "flex: 1; max-width: 56em; padding: 1em 2em;"),
    ("code", "background: #f4f4f4; padding: 0.15em 0.3em; border-radius: 3px;"),
    ("pre", "background: #f4f4f4; padding: 1em; border-radius: 5px; overflow-x: auto;"),
    (".card", "border: 1px solid #ddd; border-radius: 5px; padding: 1em;"),
    (".fifth", "width: 20%;")]

def styleSheet : Text :=
  styles.flatMap fun (selector, declarations) =>
    List.flatten [selector, " \x7b ", declarations, " \x7d\n"]

def defaultTemplate : Text :=
  List.flatten [
    "<!DOCTYPE html>\n<html>\n<head>\n<meta charset=\"utf-8\">\n<title>", Slot.name.mark,
    "</title>\n<style>\n", styleSheet, "</style>\n</head>\n<body>\n<nav id=\"",
    Slot.simplifiedName.mark, "-menu\">\n", Slot.menu.mark, "\n</nav>\n<main>\n<h1>",
    Slot.name.mark, "</h1>\n", Slot.content.mark,
    "\n</main>\n<script>const SEARCH_LIST = ", Slot.searchList.mark,
    ";</script>\n</body>\n</html>\n"]

/-- Fills a template, one kind of place after the other. -/
def fill (template : Text) (value : Slot → Text) : Text :=
  Slot.all.foldl (fun page slot => page.replace slot.mark (value slot)) template

end Page

def Outline.searchText (o : Outline) (s : Settings) : Text := (Json.texts (o.searchIndex s)).compact

/-- What the page of an outline writes for each place. -/
def Outline.values (o : Outline) (s : Settings) (sections : List Section) : Slot → Text
  | .name => s.name
  | .simplifiedName => s.name.replaceChar '-' []
  | .menu => MenuItem.markupAll (o.menu s)
  | .content => sections.flatMap Section.markup
  | .searchList => o.searchText s

def Outline.page (o : Outline) (s : Settings) : Except Problem Text := do
  let sections ← o.sections s
  return Page.fill (s.template.getD Page.defaultTemplate) (o.values s sections)

end DocComment
