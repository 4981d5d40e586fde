import DocComment.Text

/-!
# Path names

A path name is text with slashes.  Path names are compared by their components: repeated slashes
and inner dots do not count, and a component is compared as a whole, so that a directory comes
before a file whose name merely begins like its own.
-/

namespace DocComment

inductive Component where
  | root
  | here
  | up
  | name (t : Text)
  deriving DecidableEq, Repr

namespace Component

def rank : Component → Nat
  | root => 0
  | here => 1
  | up => 2
  | name _ => 3

def text : Component → Text
  | root => "/"
  | here => "."
  | up => ".."
  | name t => t

/-- By kind first, and names by their characters. -/
instance : LT Component := ⟨fun a b => a.rank < b.rank ∨ a.rank = b.rank ∧ a.text < b.text⟩

instance : DecidableLT Component := fun a b =>
  inferInstanceAs (Decidable (a.rank < b.rank ∨ a.rank = b.rank ∧ a.text < b.text))

def ofStep (step : Text) : Component :=
  if step = (".." : Text) then .up else .name step

end Component

namespace PathName

def steps (path : Text) : List Text := (path.splitOn '/').filter (!·.isEmpty)

def isAbsolute (path : Text) : Bool := path.head? == some '/'

/-- The components of a path name. A dot is one only at the beginning. -/
def components (path : Text) : List Component :=
  let steps := steps path
  let lead := if isAbsolute path then [.root]
    else if steps.head? = some ['.'] then [.here] else []
  lead ++ (steps.filter (· ≠ ['.'])).map Component.ofStep

def same (a b : Text) : Bool := components a == components b

/-- Whether a path name may stand before another in sorted order. -/
def precedes (a b : Text) : Bool := !(decide (components b < components a))

def join (path step : Text) : Text :=
  if path.isEmpty || path.getLast? = some '/' then path ++ step else path ++ '/' :: step

def ofComponents : List Component → Text
  | [] => []
  | c :: rest => rest.foldl (fun path c => join path c.text) c.text

/-- The text after the last dot of a name, unless nothing else stands before that dot. -/
def extension? (name : Text) : Option Text :=
  let pieces := name.splitOn '.'
  if pieces.length < 2 || pieces.dropLast == [[]] then none else pieces.getLast?

end PathName

end DocComment
