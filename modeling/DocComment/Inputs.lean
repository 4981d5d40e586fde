import DocComment.FileTree
import DocComment.Pattern

/-!
# Input files

An argument names a file, a directory whose sources are meant, or a pattern.  The files that all
arguments stand for are put in the order of their path names, each once.
-/

namespace DocComment

namespace FileTree

/-- The path name of something in a directory. The working directory itself is not written. -/
def enter (path name : Text) : Text :=
  if PathName.same path ['.'] then name else PathName.join path name

/-- Everything below a directory, with its path name, its own name and what it is. -/
def descendants (fs : FileTree) (path : Text) : List (Text × Text × FileItem) :=
  match fs.locate path with
  | .ok place => (fs.below place).map fun (steps, item) =>
    (steps.foldl enter path, steps.getLastD [], item)
  | .error _ => []

/-- What the steps of a pattern lead to from a directory. The names `.` and `..` are led to only by
steps that begin with a dot. -/
def expand (fs : FileTree) : List PatternStep → Text → List Text
  | [], path => [path]
  | .literal name :: rest, path =>
    let found := if name = ['.'] ∨ name = ['.', '.'] then fs.isDirectory path
      else fs.exists? (enter path name)
    if found then expand fs rest (enter path name) else []
  | .wild ws :: rest, path =>
    let dots := if ws.head? = some (.char '.') ∧ fs.isDirectory path
      then [['.', '.'], ['.']].filter (Wildcard.matchName ws) else []
    let named := (fs.names path).filter (Wildcard.matchName ws)
    dots.flatMap (fun name => expand fs rest (PathName.join path name)) ++
      named.flatMap (fun name => expand fs rest (enter path name))
  | .directories :: .directories :: rest, path => expand fs (.directories :: rest) path
  | [.directories], path =>
    (fs.descendants path).filterMap fun (below, _, item) =>
      if item = .directory then some below else none
  | .directories :: step :: rest, path =>
    (fs.descendants path).flatMap fun (below, name, _) =>
      if step.allows name then expand fs rest below else []

def expandPattern (fs : FileTree) (p : Pattern) : List Text :=
  let found := fs.expand p.steps (if p.absolute then ['/'] else ['.'])
  if p.onlyDirectories then found.filter fs.isDirectory else found

def glob (fs : FileTree) (pattern : Text) : Except PatternError (List Text) :=
  (Pattern.parse pattern).map fs.expandPattern

end FileTree

namespace Inputs

def extensions : List Text := ["js", "mjs", "cjs", "jsx", "ts"]

def isSource (name : Text) : Bool := (PathName.extension? name).any extensions.contains

/-- The source files in a directory itself. -/
def scan (fs : FileTree) (path : Text) : List Text :=
  ((fs.names path).filter isSource).map (PathName.join path) |>.filter fs.isFile

abbrev Glob := FileTree → Text → Except PatternError (List Text)

def select (glob : Glob) (fs : FileTree) (arg : Text) : Except PatternError (List Text) :=
  if fs.isFile arg then .ok [arg]
  else if fs.isDirectory arg then .ok (scan fs arg)
  else (glob fs arg).map (·.filter fs.isFile)

/-- The files that some arguments stand for, after the patterns among these that match no file.
The first faulty pattern ends the collection. -/
def collect (glob : Glob) (fs : FileTree) :
    List Text → List Text × Except (Text × PatternError) (List Text)
  | [] => ([], .ok [])
  | arg :: rest =>
    match select glob fs arg with
    | .error e => ([], .error (arg, e))
    | .ok paths =>
      let (unmatched, others) := collect glob fs rest
      (if paths.isEmpty && !fs.isDirectory arg then arg :: unmatched else unmatched,
        others.map (paths ++ ·))

def dropRepeats (kept : Text) : List Text → List Text
  | [] => []
  | path :: rest =>
    if PathName.same kept path then dropRepeats kept rest else path :: dropRepeats path rest

/-- Path names in order, the first spelling of each. -/
def arrange (paths : List Text) : List Text :=
  match paths.mergeSort PathName.precedes with
  | [] => []
  | path :: rest => path :: dropRepeats path rest

def expandBy (glob : Glob) (fs : FileTree) (args : List Text) :
    List Text × Except (Text × PatternError) (List Text) :=
  let (unmatched, paths) := collect glob fs args
  (unmatched, paths.map arrange)

def expand (fs : FileTree) (args : List Text) :
    List Text × Except (Text × PatternError) (List Text) :=
  expandBy FileTree.glob fs args

end Inputs

end DocComment
