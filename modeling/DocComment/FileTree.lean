import DocComment.Problem
import DocComment.Keyed
import DocComment.PathName
import DocComment.Source

/-!
# File trees

The part of a file system that the program sees: files and directories by their places below the
root, and the working directory from which relative path names start.
-/

namespace DocComment

inductive FileItem where
  | file (content : Bytes)
  | directory
  deriving DecidableEq, Repr

structure FileTree where
  items : Keyed (List Text) FileItem := []
  /-- The place of the working directory. -/
  home : List Text := []
  deriving DecidableEq, Repr

namespace FileTree

/-- What is at a place. The root is always a directory. -/
def item? (fs : FileTree) (place : List Text) : Option FileItem :=
  if place = [] then some .directory else Keyed.get? place fs.items

def put (fs : FileTree) (place : List Text) (item : FileItem) : FileTree :=
  { fs with items := Keyed.insert place item fs.items }

/-- The place reached by some steps. Only a directory can be left by a step. -/
def follow (fs : FileTree) : List Text → List Text → Except Fault (List Text)
  | place, [] => .ok place
  | place, step :: rest =>
    match fs.item? place with
    | none => .error .notFound
    | some (.file _) => .error .notDirectory
    | some .directory =>
      if step = ['.'] then follow fs place rest
      else if step = ['.', '.'] then follow fs place.dropLast rest
      else follow fs (place ++ [step]) rest

def origin (fs : FileTree) (path : Text) : List Text :=
  if PathName.isAbsolute path then [] else fs.home

/-- The place that a path name stands for. A slash at the end asks for a directory. -/
def locate (fs : FileTree) (path : Text) : Except Fault (List Text) :=
  if path.isEmpty then .error .notFound
  else fs.follow (fs.origin path)
    (PathName.steps path ++ if path.getLast? = some '/' then [['.']] else [])

def look (fs : FileTree) (path : Text) : Except Fault FileItem := do
  match fs.item? (← fs.locate path) with
  | some item => return item
  | none => .error .notFound

def isFile (fs : FileTree) (path : Text) : Bool :=
  match fs.look path with
  | .ok (.file _) => true
  | _ => false

def isDirectory (fs : FileTree) (path : Text) : Bool :=
  match fs.look path with
  | .ok .directory => true
  | _ => false

def exists? (fs : FileTree) (path : Text) : Bool := (fs.look path).isOk

/-- Everything below a place with its steps from there, in the order of those steps. -/
def below (fs : FileTree) (place : List Text) : List (List Text × FileItem) :=
  fs.items.filterMap fun (other, item) =>
    (place.isPrefixOf? other).bind fun steps => if steps = [] then none else some (steps, item)

def names (fs : FileTree) (path : Text) : List Text :=
  match fs.locate path with
  | .ok place => (fs.below place).filterMap fun (steps, _) =>
    match steps with
    | [name] => some name
    | _ => none
  | .error _ => []

def read (fs : FileTree) (path : Text) : Except Fault Bytes := do
  match ← fs.look path with
  | .file content => return content
  | .directory => .error .isDirectory

def readText (fs : FileTree) (path : Text) : Except Fault Text := do
  match (← fs.read path).decode? with
  | some text => return text
  | none => .error .invalidUtf8

/-- The lines of what can be opened. A directory opens, but its first line cannot be read. -/
def readLines (fs : FileTree) (path : Text) : Except Fault (List SourceLine) := do
  match ← fs.look path with
  | .file content => return SourceLine.ofBytes content
  | .directory => return [.error .isDirectory]

def blocksOfFile (fs : FileTree) (path : Text) : Except Problem (List Block) :=
  match fs.readLines path with
  | .ok lines => Source.blocks path lines
  | .error fault => .error (.unreadable ⟨path, 0⟩ fault)

/-- Makes a directory in one that is there. -/
def makeDirectory (fs : FileTree) (path : Text) : Except Fault FileTree := do
  if path.isEmpty then .error .notFound
  else
    let steps := PathName.steps path
    let parent ← fs.follow (fs.origin path) (steps.dropLast ++ [['.']])
    match steps.getLast? with
    | none => .error .alreadyExists
    | some step =>
      if step = ['.'] ∨ step = ['.', '.'] ∨ (fs.item? (parent ++ [step])).isSome then
        .error .alreadyExists
      else return fs.put (parent ++ [step]) .directory

/-- What an attempt to make a directory comes to: a directory that was there is as good. -/
def settle (fs : FileTree) (path : Text) : Except Fault FileTree → Except Fault FileTree
  | .ok fs => .ok fs
  | .error fault => if fs.isDirectory path then .ok fs else .error fault

/-- Makes a directory and those above it that are missing. The components of the path name are
given from the last to the first. -/
def makeDirectoriesFrom : List Component → FileTree → Text → Except Fault FileTree
  | [], fs, _ => .ok fs
  | _ :: above, fs, path =>
    match fs.makeDirectory path with
    | .error .notFound => do
      let fs ← makeDirectoriesFrom above fs (PathName.ofComponents above.reverse)
      fs.settle path (fs.makeDirectory path)
    | outcome => fs.settle path outcome

def makeDirectories (fs : FileTree) (path : Text) : Except Fault FileTree :=
  makeDirectoriesFrom (PathName.components path).reverse fs path

def write (fs : FileTree) (path : Text) (content : Bytes) : Except Fault FileTree := do
  let place ← fs.locate path
  match fs.item? place with
  | some .directory => .error .isDirectory
  | _ => return fs.put place (.file content)

def changed (before after : FileTree) : List (List Text × Bytes) :=
  after.items.filterMap fun (place, item) =>
    match item with
    | .file content => if before.item? place = some item then none else some (place, content)
    | .directory => none

end FileTree

end DocComment
