import DocComment.Proofs.BatchSplitting
import DocComment.Proofs.ExportMirror
import DocComment.Proofs.ScanSteps

/-!
# After reading has succeeded

The blocks of a source that could be read have paths, and the outline keeps them at these paths.  So
adding them fails only for a path that is taken, under the rule that refuses it, and what comes out of
any additions can be written in both formats.
-/

namespace DocComment

/-- The blocks of a source are among its items and have paths. -/
theorem Source.of_mem_blocks {file : Text} {lines : List SourceLine} {found : List Block}
    (h : blocks file lines = .ok found) {block : Block} (hblock : block ∈ found) :
    .ok block ∈ items file lines ∧ ∃ path, block.path = .ok path := by
  have hmem : Except.ok block ∈ found.map (Except.ok : Block → Except Problem Block) :=
    List.mem_map_of_mem hblock
  rw [← mapM_eq_ok_iff.mp h] at hmem
  obtain ⟨item, hmember, hitem⟩ := List.mem_map.mp hmem
  cases item with
  | error e => cases hitem
  | ok given =>
    have hgiven : given.path.map (fun _ => given) = .ok block :=
      (withPath_ok given).symm.trans hitem
    cases hpath : given.path with
    | error e =>
      rw [hpath] at hgiven
      cases hgiven
    | ok path =>
      rw [hpath] at hgiven
      cases hgiven
      exact ⟨hmember, path, hpath⟩

theorem Source.exists_path_of_mem_blocks {file : Text} {lines : List SourceLine}
    {found : List Block} (h : blocks file lines = .ok found) :
    ∀ block ∈ found, ∃ path, block.path = .ok path :=
  fun _ hblock => (of_mem_blocks h hblock).2

/-- The lines of a source are numbered from 1. -/
theorem Source.one_le_line {file : Text} {lines : List SourceLine} {found : List Block}
    (h : blocks file lines = .ok found) : ∀ block ∈ found, 1 ≤ block.place.line := by
  intro block hblock
  have hnone : StartsFrom 1 none := nofun
  exact hnone.le_of_mem_scan unclosed_none (Nat.le_refl 1) (of_mem_blocks h hblock).1

theorem Request.atOwnPaths_addAll (batches : List (List Block)) :
    ∀ request ∈ batches.map addAll, request.AtOwnPaths := by
  intro request hrequest
  obtain ⟨batch, -, rfl⟩ := List.mem_map.mp hrequest
  trivial

namespace Outline

theorem rule_run (o : Outline) (requests : List Request) : (o.run requests).1.rule = o.rule :=
  run_preserves (P := fun later => later.rule = o.rule) (fun _ _ _ h => h) rfl requests

/-- The only outcome of adding blocks with paths, apart from success, is that the rule refuses one
whose path is taken. -/
def AddOutcome (rule : ClashRule) (outcome : Except Problem Unit) : Prop :=
  outcome = .ok () ∨
    rule = .refuse ∧ ∃ path place previous, outcome = .error (.taken path place previous)

theorem addOutcome_addAll (o : Outline) {blocks : List Block}
    (h : ∀ block ∈ blocks, ∃ path, block.path = .ok path) :
    AddOutcome o.rule (o.addAll blocks).2 := by
  cases houtcome : (o.addAll blocks).2 with
  | ok _ => exact Or.inl rfl
  | error e =>
    obtain ⟨path, place, previous, rfl⟩ := exists_taken_of_addAll h houtcome
    refine Or.inr ⟨?_, path, place, previous, rfl⟩
    by_contra hrule
    obtain ⟨resolved, hres⟩ := exists_resolve h
    simp only [addAll_eq, hres, addTogether_snd] at houtcome
    rw [addEach_outcome_of_ne_refuse o hrule] at houtcome
    cases houtcome

/-- Each of several batches is answered so, whatever became of those before. -/
theorem addOutcome_run (o : Outline) {batches : List (List Block)}
    (h : ∀ batch ∈ batches, ∀ block ∈ batch, ∃ path, block.path = .ok path) :
    ∀ outcome ∈ (o.run (batches.map .addAll)).2, AddOutcome o.rule outcome := by
  induction batches generalizing o with
  | nil => exact fun _ hmem => absurd hmem List.not_mem_nil
  | cons batch batches ih =>
    obtain ⟨hbatch, hbatches⟩ := List.forall_mem_cons.mp h
    have hrule : (o.addAll batch).1.rule = o.rule := o.rule_run [.addAll batch]
    rw [List.map_cons, run_cons, serve]
    refine List.forall_mem_cons.mpr ⟨o.addOutcome_addAll hbatch, ?_⟩
    rw [← hrule]
    exact ih (o.addAll batch).1 hbatches

theorem length_outcomes (o : Outline) (requests : List Request) :
    (o.run requests).2.length = requests.length := by
  induction requests generalizing o with
  | nil => rfl
  | cons request requests ih => rw [run_cons, List.length_cons, List.length_cons, ih]

theorem exists_render (rule : ClashRule) {requests : List Request}
    (h : ∀ request ∈ requests, request.AtOwnPaths) (f : Format) (s : Settings) :
    ∃ output, f.render ((empty rule).run requests).1 s = .ok output := by
  cases f with
  | json =>
    obtain ⟨fields, hfields⟩ := exists_exportChildren rule h
    rw [Format.render, exportText, exportJson, hfields]
    exact ⟨_, rfl⟩
  | html =>
    obtain ⟨sections, hsections⟩ := exists_sections rule h s
    rw [Format.render, page, hsections]
    exact ⟨_, rfl⟩

/-- Once all sources have been read, adding the blocks of each succeeds, unless the rule `refuse` meets
a path that is taken, and what has been added can be written in each format with any settings. -/
theorem parsed_sources_documented (rule : ClashRule) {sources : List (Text × Text)}
    {batches : List (List Block)}
    (h : sources.mapM (fun source => Source.blocksOfText source.1 source.2) = .ok batches) :
    let run := (empty rule).run (batches.map .addAll)
    (rule ≠ .refuse → run.2 = batches.map fun _ => .ok ()) ∧
      (rule = .refuse → run.2.length = batches.length ∧ ∀ outcome ∈ run.2, outcome = .ok () ∨
        ∃ path place previous, outcome = .error (.taken path place previous)) ∧
      ∀ (f : Format) (s : Settings), ∃ output, f.render run.1 s = .ok output := by
  intro run
  have hpaths : ∀ batch ∈ batches, ∀ block ∈ batch, ∃ path, block.path = .ok path := by
    intro batch hbatch
    have hread : .ok batch ∈ sources.map fun source => Source.blocksOfText source.1 source.2 := by
      rw [mapM_eq_ok_iff.mp h]
      exact List.mem_map_of_mem hbatch
    obtain ⟨source, -, hsource⟩ := List.mem_map.mp hread
    exact Source.exists_path_of_mem_blocks hsource
  have houtcomes : ∀ outcome ∈ run.2, AddOutcome rule outcome :=
    (empty rule).addOutcome_run hpaths
  have hlength : run.2.length = batches.length := by
    rw [length_outcomes, List.length_map]
  refine ⟨?_, ?_, exists_render rule (Request.atOwnPaths_addAll batches)⟩
  · intro hrule
    rw [List.map_const', ← hlength, List.eq_replicate_iff]
    refine ⟨rfl, fun outcome houtcome => ?_⟩
    exact (houtcomes outcome houtcome).resolve_right fun hrefused => hrule hrefused.1
  · intro _
    refine ⟨hlength, fun outcome houtcome => ?_⟩
    exact (houtcomes outcome houtcome).imp_right And.right

/-- Where two files hold the module `m`, the second is refused and the first can be written. -/
theorem same_module_documented :
    let text : Text := "/**\n * @module m\n */"
    let block (file : Text) : Block :=
      ⟨⟨file, 1⟩, [], [(.moduleName, [[.tagged .moduleName (.label "m")]])]⟩
    let batches := [[block "a.js"], [block "b.js"]]
    let run := (empty .refuse).run (batches.map .addAll)
    [(("a.js" : Text), text), ("b.js", text)].mapM
        (fun source => Source.blocksOfText source.1 source.2) = .ok batches ∧
      run.2 = [.ok (), .error (.taken "m" ⟨"b.js", 1⟩ ⟨"a.js", 1⟩)] ∧
      ∀ (f : Format) (s : Settings), ∃ output, f.render run.1 s = .ok output := by
  intro text block batches run
  have hread : [(("a.js" : Text), text), ("b.js", text)].mapM
      (fun source => Source.blocksOfText source.1 source.2) = .ok batches := by
    decide +kernel
  exact ⟨hread, by decide +kernel, (parsed_sources_documented .refuse hread).2.2⟩

end Outline

end DocComment
