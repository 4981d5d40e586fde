import DocComment.Proofs.LineEnds
import DocComment.Proofs.SourcePlaces

/-! # Texts one behind the other

Read further down, the same lines give the same blocks and problems with all places that much further
down.  And a text that is read without a problem leaves no block open, so a text behind it is read as if
it stood alone. -/

namespace DocComment

/-- The place `k` lines further down. -/
def Location.shift (k : Nat) (place : Location) : Location := { place with line := place.line + k }

def Block.shift (k : Nat) : Block → Block := Block.relocate (Location.shift k)

/-- The problem with all of its places `k` lines further down. -/
def Problem.shift (k : Nat) : Problem → Problem := Problem.relocate (Location.shift k)

namespace Source

/-- Without an open block, lines further down give their blocks further down, or the same problem. -/
theorem mapM_withPath_scan_shift (k : Nat) (file : Text) (n : Nat) (ls : List SourceLine) :
    (scan file (n + k) none ls).mapM withPath =
      relocateOutcome (Location.shift k) (List.map (Block.shift k))
        ((scan file n none ls).mapM withPath) := by
  have hplace : ∀ m, Location.shift k ⟨file, m⟩ = ⟨file, m + k⟩ := fun _ => rfl
  have hscan := scan_relocate hplace unclosed_none ls (n := n)
  rw [Option.map_none] at hscan
  rw [hscan]
  exact relocateOutcome_mapM withPath_relocate _

/-- A text of ended lines that is read without a problem may be cut off in front: the text behind it is
read as if it stood alone, with its blocks, or its problem, as many lines further down as stand in
front. -/
theorem blocksOfText_append {file a : Text} {blocks : List Block}
    (ha : a = [] ∨ a.getLast? = some '\n') (hblocks : blocksOfText file a = .ok blocks) (b : Text) :
    let k := (SourceLine.textLines a).length
    blocksOfText file (a ++ b) = match blocksOfText file b with
      | .ok later => .ok (blocks ++ later.map (Block.shift k))
      | .error e => .error (e.shift k) := by
  intro k
  have hlines : SourceLine.ofText (a ++ b) = SourceLine.ofText a ++ SourceLine.ofText b := by
    simp only [SourceLine.ofText, SourceLine.textLines_append ha, List.map_append]
  have hk : (SourceLine.ofText a).length = k := List.length_map _
  rw [blocksOfText, blocks_eq] at hblocks
  rw [blocksOfText, hlines, blocks_append, hk]
  cases hbefore : (steps file 1 none (SourceLine.ofText a)).1.mapM withPath with
  | error e =>
    rw [hbefore] at hblocks
    cases hblocks
  | ok before =>
    rw [hbefore] at hblocks
    cases hopen : (steps file 1 none (SourceLine.ofText a)).2 with
    | some draft =>
      rw [hopen] at hblocks
      cases hblocks
    | none =>
      rw [hopen] at hblocks
      cases hblocks
      have hlater : blocksOfText file b =
          (scan file 1 none (SourceLine.ofText b)).mapM withPath := rfl
      rw [mapM_withPath_scan_shift, ← hlater]
      cases blocksOfText file b <;> rfl

/-- Behind three lines with a module, a method and an empty `@param` are found three lines further down
than they are found alone. -/
theorem blocksOfText_behind_module :
    let a : Text := "/**\n * @module m\n */\n"
    let b : Text := "f()\r\n/**\n * @method f\n * @memberOf m\n */"
    let broken : Text := "/**\n * @param\n */"
    let m : Block := ⟨⟨"f.js", 1⟩, [], [(.moduleName, [[.tagged .moduleName (.label "m")]])]⟩
    let f (line : Nat) : Block :=
      ⟨⟨"f.js", line⟩, [], [(.methodName, [[.tagged .methodName (.label "f")]]),
        (.memberOf, [[.tagged .memberOf (.label "m")]])]⟩
    a.getLast? = some '\n' ∧ blocksOfText "f.js" a = .ok [m] ∧ blocksOfText "f.js" b = .ok [f 2] ∧
      blocksOfText "f.js" (a ++ b) = .ok [m, f 5] ∧
      blocksOfText "f.js" (a ++ broken) = .error (.incomplete .param ⟨"f.js", 5⟩) := by
  intro a b broken m f
  have ha : a.getLast? = some '\n' := by decide +kernel
  have hm : blocksOfText "f.js" a = .ok [m] := by decide +kernel
  have hb : blocksOfText "f.js" b = .ok [f 2] := by decide +kernel
  have hbroken : blocksOfText "f.js" broken = .error (.incomplete .param ⟨"f.js", 2⟩) := by
    decide +kernel
  have happend := blocksOfText_append (Or.inr ha) hm
  refine ⟨ha, hm, hb, ?_, ?_⟩
  · rw [happend b, hb]
    rfl
  · rw [happend broken, hbroken]
    rfl

end Source

end DocComment
