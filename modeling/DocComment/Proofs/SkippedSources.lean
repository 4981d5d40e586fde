import DocComment.Command
import DocComment.Proofs.OutlineBatch

/-! # Skipped sources

A source that cannot be read, or whose blocks are refused, leaves the outline exactly as it was, creation
numbers included.  So a merge that passes over such sources gives what it gives for the others alone, and
what is published from it is what they give. -/

namespace DocComment

namespace Merge

/-- A source that fails leaves no trace. -/
theorem add_eq_self {o : Outline} {blocks : Except Problem (List Block)} {e : Problem}
    (h : (add o blocks).2 = .error e) : (add o blocks).1 = o := by
  cases blocks with
  | error e => rfl
  | ok blocks => exact Outline.addAll_eq_self h

/-- The sources in their order, each with what adding it in its turn comes to. -/
def outcomes (read : Text → Except Problem (List Block)) (o : Outline) :
    List Text → List (Text × Except Problem Unit)
  | [] => []
  | path :: rest => (path, (add o (read path)).2) :: outcomes read (add o (read path)).1 rest

def failure? : Text × Except Problem Unit → Option (Text × Problem)
  | (_, .ok _) => none
  | (path, .error e) => some (path, e)

def kept (read : Text → Except Problem (List Block)) (o : Outline) (paths : List Text) : List Text :=
  ((outcomes read o paths).filter fun p => (failure? p).isNone).map Prod.fst

variable {read : Text → Except Problem (List Block)} {o : Outline} {path : Text} {rest : List Text}

theorem run_cons_of_ok (keepGoing : Bool) (h : (add o (read path)).2 = .ok ()) :
    run read keepGoing o (path :: rest) = run read keepGoing (add o (read path)).1 rest := by
  rcases hadd : add o (read path) with ⟨later, outcome⟩
  rw [hadd] at h
  cases h
  rw [run, hadd]

theorem run_cons_of_error {e : Problem} (h : (add o (read path)).2 = .error e) :
    run read true o (path :: rest) =
      { run read true o rest with skipped := (path, e) :: (run read true o rest).skipped } := by
  have hself := add_eq_self h
  rcases hadd : add o (read path) with ⟨later, outcome⟩
  rw [hadd] at h hself
  cases h
  cases hself
  rw [run, hadd]
  rfl

theorem kept_cons_of_ok (h : (add o (read path)).2 = .ok ()) :
    kept read o (path :: rest) = path :: kept read (add o (read path)).1 rest := by
  simp [kept, outcomes, h, failure?]

theorem kept_cons_of_error {e : Problem} (h : (add o (read path)).2 = .error e) :
    kept read o (path :: rest) = kept read o rest := by
  simp [kept, outcomes, h, failure?, add_eq_self h]

theorem map_fst_outcomes (read : Text → Except Problem (List Block)) (o : Outline)
    (paths : List Text) : (outcomes read o paths).map Prod.fst = paths := by
  induction paths generalizing o with
  | nil => rfl
  | cons path rest ih => rw [outcomes, List.map_cons, ih]

/-- A merge that keeps going comes to its end, and skips the sources that fail in their turn. -/
theorem run_keepGoing (read : Text → Except Problem (List Block)) (o : Outline)
    (paths : List Text) :
    (run read true o paths).stopped = none ∧
      (run read true o paths).skipped = (outcomes read o paths).filterMap failure? := by
  induction paths generalizing o with
  | nil => exact ⟨rfl, rfl⟩
  | cons path rest ih =>
    cases h : (add o (read path)).2 with
    | ok _ =>
      rw [run_cons_of_ok true h, outcomes, List.filterMap_cons_none (by rw [h]; rfl)]
      exact ih _
    | error e =>
      obtain ⟨hstopped, hskipped⟩ := ih o
      rw [run_cons_of_error h, outcomes, List.filterMap_cons_some (by rw [h]; rfl), add_eq_self h]
      exact ⟨hstopped, by rw [hskipped]⟩

/-- The sources that are not skipped, merged alone, give the same outline, and none of them fails. -/
theorem run_kept (read : Text → Except Problem (List Block)) (keepGoing : Bool) (o : Outline)
    (paths : List Text) :
    run read keepGoing o (kept read o paths) = { outline := (run read true o paths).outline } := by
  induction paths generalizing o with
  | nil => rfl
  | cons path rest ih =>
    cases h : (add o (read path)).2 with
    | ok _ => rw [kept_cons_of_ok h, run_cons_of_ok keepGoing h, run_cons_of_ok true h, ih]
    | error e => rw [kept_cons_of_error h, run_cons_of_error h, ih]

end Merge

namespace Command

/-- Whatever the files hold, a merge that keeps going skips those that fail in their turn and comes to its
end.  The files that are not skipped, merged alone in their order, give the same outline with nothing
to skip, so what is published with `keepGoing` is what they give. -/
theorem document_without_skipped (o : Options) (fs : FileTree) (directory : Text) (format : Format)
    (settings : Settings) (paths : List Text) :
    let outcomes := Merge.outcomes fs.blocksOfFile (emptyOutline o) paths
    let merge := Merge.run fs.blocksOfFile true (emptyOutline o) paths
    let kept := Merge.kept fs.blocksOfFile (emptyOutline o) paths
    let alone := Merge.run fs.blocksOfFile true (emptyOutline o) kept
    outcomes.map Prod.fst = paths ∧
      merge.skipped = outcomes.filterMap Merge.failure? ∧
      alone.outline = merge.outline ∧ alone.skipped = [] ∧ alone.stopped = none ∧
      (o.keepGoing = true → ∀ unmatched, Inputs.expand fs o.inputs = (unmatched, .ok paths) →
        document o fs directory format settings =
          publish fs (unmatchedWarnings unmatched ++ skippedWarnings merge.skipped) directory format
            settings alone.outline) := by
  intro outcomes merge kept alone
  obtain ⟨hstopped, hskipped⟩ := Merge.run_keepGoing fs.blocksOfFile (emptyOutline o) paths
  have halone : alone = { outline := merge.outline } :=
    Merge.run_kept fs.blocksOfFile true (emptyOutline o) paths
  refine ⟨Merge.map_fst_outcomes .., hskipped, by rw [halone], by rw [halone], by rw [halone], ?_⟩
  intro hkeep unmatched hexpand
  rw [document, hexpand, halone]
  simp only [hkeep, hstopped]
  rfl

/-- Of an unterminated file, a module and a second module of its name, the module alone is published
where a second block for a path is refused. -/
theorem document_of_one_module :
    let content : Text := "/**\n * @module m\n */\n"
    let fs : FileTree := { items := [(["a.js"], .file (Bytes.ofText "/**")),
      (["b.js"], .file (Bytes.ofText content)), (["c.js"], .file (Bytes.ofText content))] }
    let paths : List Text := ["a.js", "b.js", "c.js"]
    let o : Options := { inputs := paths, onDuplicate := some .refuse, keepGoing := true }
    let merge := Merge.run fs.blocksOfFile true (emptyOutline o) paths
    let alone := Merge.run fs.blocksOfFile true (emptyOutline o) ["b.js"]
    o.keepGoing = true ∧ Inputs.expand fs o.inputs = ([], .ok paths) ∧
      merge.skipped.map Prod.fst = ["a.js".toList, "c.js".toList] ∧ (alone.outline.block? "m").isSome = true ∧
      document o fs "out" .json ⟨"API", none, false⟩ =
        publish fs (skippedWarnings merge.skipped) "out" .json ⟨"API", none, false⟩
          alone.outline := by
  intro content fs paths o merge alone
  have hexpand : Inputs.expand fs o.inputs = ([], .ok paths) := by
    have hcollect : Inputs.collect FileTree.glob fs o.inputs = ([], .ok paths) := by decide +kernel
    have hsorted : paths.mergeSort PathName.precedes = paths :=
      List.mergeSort_of_pairwise (by decide +kernel)
    have harrange : Inputs.arrange paths = paths := by
      rw [Inputs.arrange, hsorted]
      decide +kernel
    simp only [Inputs.expand, Inputs.expandBy, hcollect, Except.map, harrange]
  have hkept : Merge.kept fs.blocksOfFile (emptyOutline o) paths = ["b.js".toList] := by
    decide +kernel
  have hdocument := (document_without_skipped o fs "out" .json ⟨"API", none, false⟩ paths).2.2.2.2.2
    rfl [] hexpand
  rw [hkept] at hdocument
  exact ⟨rfl, hexpand, by decide +kernel, by decide +kernel, hdocument⟩

end Command

end DocComment
