import DocComment.Outline

/-!
# Merging sources

The blocks of several sources are put into one outline, source after source.  A source that cannot
be read or whose blocks are refused either stops the merge or is skipped.
-/

namespace DocComment

structure Merge where
  outline : Outline
  /-- The sources passed over, with the reasons. -/
  skipped : List (Text × Problem) := []
  stopped : Option (Text × Problem) := none

namespace Merge

def add (o : Outline) (blocks : Except Problem (List Block)) : Outline × Except Problem Unit :=
  match blocks with
  | .ok blocks => o.addAll blocks
  | .error e => (o, .error e)

/-- Merges sources into an outline. `read` gives the blocks of a source. -/
def run (read : Text → Except Problem (List Block)) (keepGoing : Bool) (o : Outline) :
    List Text → Merge
  | [] => { outline := o }
  | path :: rest =>
    match add o (read path) with
    | (o, .ok _) => run read keepGoing o rest
    | (o, .error e) =>
      if keepGoing then
        let merge := run read keepGoing o rest
        { merge with skipped := (path, e) :: merge.skipped }
      else { outline := o, stopped := some (path, e) }

end Merge

end DocComment
