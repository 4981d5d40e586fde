import DocComment.Draft
import DocComment.SourceLines

/-!
# Reading a source

One pass over the lines of a source finds its blocks.  Outside a block only a start delimiter is
looked for, so tags there never fail.  After a failure the search for a start delimiter goes on with
the following line.
-/

namespace DocComment

namespace Source

/-- What the lines from number `n` on give, in order: a block or a problem for each start
delimiter found, and a problem for each unreadable line. The draft is that of the open block. -/
def scan (file : Text) (n : Nat) : Option Draft → List SourceLine → List (Except Problem Block)
  | none, [] => []
  | some draft, [] => [draft.result]
  | _, .error fault :: rest =>
    .error (.unreadable ⟨file, n⟩ fault) :: scan file (n + 1) none rest
  | none, .ok source :: rest =>
    scan file (n + 1) (if Line.opensBlock source then some (.new ⟨file, n⟩) else none) rest
  | some draft, .ok source :: rest =>
    match Line.recognize ⟨file, n⟩ source with
    | .error e => .error e :: scan file (n + 1) none rest
    | .ok none => scan file (n + 1) (some draft) rest
    | .ok (some line) =>
      let draft := draft.take line
      if draft.closed then draft.result :: scan file (n + 1) none rest
      else scan file (n + 1) (some draft) rest

def items (file : Text) (lines : List SourceLine) : List (Except Problem Block) :=
  scan file 1 none lines

/-- The blocks of a source, each of which has to have a path. The first problem counts. -/
def blocks (file : Text) (lines : List SourceLine) : Except Problem (List Block) :=
  (items file lines).mapM fun item => do
    let block ← item
    let _ ← block.path
    return block

def blocksOfText (file text : Text) : Except Problem (List Block) :=
  blocks file (SourceLine.ofText text)

def blocksOfBytes (file : Text) (bytes : Bytes) : Except Problem (List Block) :=
  blocks file (SourceLine.ofBytes bytes)

end Source

end DocComment
