import DocComment.Proofs.DraftGroups
import DocComment.Proofs.ScanSteps

/-! # The lines of a parsed block

While a draft is open, each documentation line that is read is given to it.  So a block that is read from a
source is closed from the documentation behind the line where it starts; what stands behind its end
delimiter changes it no more. -/

namespace DocComment

theorem Draft.result_eq_ok_iff {d : Draft} {block : Block} :
    d.result = .ok block ↔ d.closed = true ∧ d.filed = block := by
  rw [result]
  cases d.closed <;> simp

namespace Source

/-- The documentation line that a numbered line of a source is recognized as, if any. -/
def documentation? (file : Text) (l : SourceLine × Nat) : Option Line :=
  l.1.toOption.bind fun source => NumberedLine.line? file (source, l.2)

/-- The documentation among the lines behind line `n`. -/
def linesBehind (file : Text) (n : Nat) (lines : List SourceLine) : List Line :=
  ((lines.drop n).zipIdx (n + 1)).filterMap (documentation? file)

variable {file : Text}

theorem exists_recognize_of_mem_linesBehind {n : Nat} {lines : List SourceLine} {line : Line}
    (h : line ∈ linesBehind file n lines) :
    ∃ place source, Line.recognize place source = .ok (some line) := by
  obtain ⟨⟨l, k⟩, -, hline⟩ := List.mem_filterMap.mp h
  obtain ⟨source, -, hsource⟩ := Option.bind_eq_some_iff.mp hline
  refine ⟨⟨file, k⟩, source, ?_⟩
  rw [NumberedLine.line?, NumberedLine.reading] at hsource
  split at hsource
  · rename_i hread
    exact hread.trans (congrArg _ hsource)
  · cases hsource

theorem linesBehind_append {n : Nat} {past : List SourceLine} (h : n ≤ past.length)
    (more : List SourceLine) :
    linesBehind file n (past ++ more) = linesBehind file n past ++
      (more.zipIdx (past.length + 1)).filterMap (documentation? file) := by
  have hnumber : n + 1 + (past.length - n) = past.length + 1 := by omega
  rw [linesBehind, List.drop_append_of_le_length h, List.zipIdx_append, List.filterMap_append,
    List.length_drop, hnumber, linesBehind]

/-- The draft was opened at a line and has taken the documentation behind it. -/
def Gathers (file : Text) (past : List SourceLine) (d : Draft) : Prop :=
  ∃ n ≤ past.length, d = (linesBehind file n past).foldl Draft.take (.new ⟨file, n⟩)

variable {past : List SourceLine} {opened : Option Draft}

theorem Gathers.next {d : Draft} (h : Gathers file past d) {source : Text} {line? : Option Line}
    (hline : Line.recognize ⟨file, past.length + 1⟩ source = .ok line?) :
    Gathers file (past ++ [.ok source]) (line?.toList.foldl Draft.take d) := by
  obtain ⟨n, hn, rfl⟩ := h
  have hlast : documentation? file (.ok source, past.length + 1) = line? := by
    change NumberedLine.line? file (source, past.length + 1) = line?
    rw [NumberedLine.line?, NumberedLine.reading, hline]
  refine ⟨n, hn.trans (by simp), ?_⟩
  rw [linesBehind_append hn, List.foldl_append, List.zipIdx_singleton, List.filterMap_cons, hlast]
  cases line? <;> rfl

theorem Gathers.step (h : ∀ d ∈ opened, Gathers file past d) (l : SourceLine) :
    (∀ block, (step file (past.length + 1) opened l).1 = some (.ok block) →
        ∃ d, Gathers file (past ++ [l]) d ∧ d.result = .ok block) ∧
      ∀ d ∈ (step file (past.length + 1) opened l).2, Gathers file (past ++ [l]) d := by
  have hnone : ∀ d ∈ (none : Option Draft), Gathers file (past ++ [l]) d := by simp
  cases l with
  | error fault =>
    cases opened <;> exact ⟨fun _ hblock => absurd hblock (by simp [Source.step]), hnone⟩
  | ok source =>
    cases opened with
    | none =>
      rw [Source.step]
      refine ⟨fun _ hblock => absurd hblock (by simp), ?_⟩
      split
      · rintro _ ⟨⟩
        exact ⟨past.length + 1, by simp, by simp [linesBehind]⟩
      · exact hnone
    | some draft =>
      have hdraft : Gathers file past draft := h draft rfl
      rw [Source.step]
      split
      · exact ⟨fun _ hblock => absurd hblock (by simp), hnone⟩
      · rename_i hline
        refine ⟨fun _ hblock => absurd hblock (by simp), ?_⟩
        rintro _ ⟨⟩
        exact hdraft.next hline
      · rename_i hline
        exact ⟨fun block hblock => ⟨_, hdraft.next hline, Option.some.inj hblock⟩, hnone⟩
      · rename_i hline
        refine ⟨fun _ hblock => absurd hblock (by simp), ?_⟩
        rintro _ ⟨⟩
        exact hdraft.next hline

theorem exists_gathers_of_mem_scan (h : ∀ d ∈ opened, Gathers file past d)
    (hopened : Unclosed opened) {ls : List SourceLine} {block : Block}
    (hblock : .ok block ∈ scan file (past.length + 1) opened ls) :
    ∃ read rest d, ls = read ++ rest ∧ Gathers file (past ++ read) d ∧ d.result = .ok block := by
  induction ls generalizing past opened with
  | nil =>
    rw [scan_nil, List.mem_map] at hblock
    obtain ⟨draft, hdraft, hresult⟩ := hblock
    rw [Option.mem_toList] at hdraft
    exact ⟨[], [], draft, rfl, by simpa using h draft hdraft, hresult⟩
  | cons l ls ih =>
    obtain ⟨hgiven, hleft⟩ := Gathers.step h l
    rw [scan_cons hopened, List.mem_append, Option.mem_toList] at hblock
    rcases hblock with hblock | hblock
    · obtain ⟨d, hd, hresult⟩ := hgiven block hblock
      exact ⟨[l], ls, d, rfl, hd, hresult⟩
    · have hlength : past.length + 1 + 1 = (past ++ [l]).length + 1 := by simp
      have hunclosed := hopened.step file (past.length + 1) l
      rw [hlength] at hblock
      obtain ⟨read, rest, d, rfl, hd, hresult⟩ := ih hleft hunclosed hblock
      exact ⟨l :: read, rest, d, rfl, by simpa using hd, hresult⟩

/-- A parsed block is closed from the documentation behind the line where it starts. -/
theorem result_linesBehind {lines : List SourceLine} {block : Block}
    (h : .ok block ∈ items file lines) :
    ((linesBehind file block.place.line lines).foldl Draft.take (Draft.new block.place)).result =
      .ok block := by
  have hnone : ∀ d ∈ (none : Option Draft), Gathers file [] d := by simp
  obtain ⟨read, rest, d, rfl, ⟨n, hn, rfl⟩, hresult⟩ :=
    exists_gathers_of_mem_scan hnone unclosed_none h
  rw [List.nil_append] at hn hresult
  obtain ⟨hclosed, hfiled⟩ := Draft.result_eq_ok_iff.mp hresult
  have hplace : block.place = ⟨file, n⟩ := by
    rw [← hfiled, Draft.place_filed, Draft.place_foldl_take]
    rfl
  rw [hplace, linesBehind_append hn, List.foldl_append, Draft.foldl_take_of_closed hclosed, hresult]

end Source

end DocComment
