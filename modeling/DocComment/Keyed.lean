/-!
# Keyed lists

A finite map written as a list of pairs in increasing order of their keys.  Both operations keep
that order, so two maps with the same bindings built by insertion are the same list.
-/

namespace DocComment

abbrev Keyed (κ ν : Type) := List (κ × ν)

namespace Keyed

variable {κ ν : Type} [DecidableEq κ]

def get? (k : κ) : Keyed κ ν → Option ν
  | [] => none
  | (k', v) :: rest => if k = k' then some v else get? k rest

/-- Binds a key, in place of the binding it may already have. -/
def insert [LT κ] [DecidableLT κ] (k : κ) (v : ν) : Keyed κ ν → Keyed κ ν
  | [] => [(k, v)]
  | (k', v') :: rest =>
    if k = k' then (k, v) :: rest
    else if k < k' then (k, v) :: (k', v') :: rest
    else (k', v') :: insert k v rest

/-- The map with the given bindings; of two with one key the later counts. -/
def ofList [LT κ] [DecidableLT κ] (pairs : List (κ × ν)) : Keyed κ ν :=
  pairs.foldl (fun m p => insert p.1 p.2 m) []

end Keyed

end DocComment
