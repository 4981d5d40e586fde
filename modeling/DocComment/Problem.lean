import DocComment.Tag

/-!
# Problems

What can go wrong between a source and the outline of its documentation, and the wording of each
problem.
-/

namespace DocComment

structure Location where
  file : Text
  line : Nat
  deriving DecidableEq, Repr

inductive Fault where
  | invalidUtf8
  | notFound
  | alreadyExists
  | notDirectory
  | isDirectory
  deriving DecidableEq, Repr

def Fault.message : Fault → Text
  | invalidUtf8 => "stream did not contain valid UTF-8"
  | notFound => "No such file or directory (os error 2)"
  | alreadyExists => "File exists (os error 17)"
  | notDirectory => "Not a directory (os error 20)"
  | isDirectory => "Is a directory (os error 21)"

inductive Problem where
  /-- A tag has nothing at a position where it needs a word. -/
  | incomplete (tag : Tag) (place : Location)
  /-- No tag of the block names it. -/
  | nameless (block : Location)
  /-- A block other than a module names no parent. -/
  | orphan (block : Location)
  /-- The input ended inside a block. -/
  | unterminated (block : Location)
  /-- A second block for one path, where that is refused. -/
  | taken (path : Text) (block previous : Location)
  /-- A line could not be read. Line 0 stands for the file as a whole. -/
  | unreadable (place : Location) (fault : Fault)
  deriving DecidableEq, Repr

namespace Problem

def message : Problem → Text
  | incomplete tag ⟨file, line⟩ =>
    List.flatten ["missing content for @", tag.name, " at line ", Text.ofNat line,
      " in file '", file, "'"]
  | nameless ⟨file, line⟩ =>
    List.flatten ["missing identifier for block starting at line ", Text.ofNat line,
      " in file '", file, "'"]
  | orphan ⟨file, line⟩ =>
    List.flatten ["missing memberOf for non-module block starting at line ", Text.ofNat line,
      " in file '", file, "'"]
  | unterminated ⟨file, line⟩ =>
    List.flatten ["unterminated block starting at line ", Text.ofNat line,
      " in file '", file, "'"]
  | taken path block previous =>
    List.flatten ["duplicate path '", path, "' for block at line ", Text.ofNat block.line,
      " in file '", block.file, "' (first defined at line ", Text.ofNat previous.line,
      " in file '", previous.file, "')"]
  | unreadable ⟨file, line⟩ _ =>
    List.flatten ["failed to read line ", Text.ofNat line, " of '", file, "'"]

def cause : Problem → Option Fault
  | unreadable _ fault => some fault
  | _ => none

end Problem

end DocComment
