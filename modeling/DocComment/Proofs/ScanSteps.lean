import DocComment.Proofs.SourceSegments

/-! # Reading line by line

A source is read in one pass, which carries from line to line the number of the line and the draft of
the block that is open, and nothing else.  So what some lines give, and the draft that they leave open,
decide together how whatever stands behind them is read. -/

namespace DocComment.Source

/-- What a line gives, and the draft that is open behind it. -/
def step (file : Text) (n : Nat) :
    Option Draft → SourceLine → Option (Except Problem Block) × Option Draft
  | _, .error fault => (some (.error (.unreadable ⟨file, n⟩ fault)), none)
  | none, .ok source => (none, if Line.opensBlock source then some (.new ⟨file, n⟩) else none)
  | some draft, .ok source =>
    match Line.recognize ⟨file, n⟩ source with
    | .error e => (some (.error e), none)
    | .ok none => (none, some draft)
    | .ok (some .stop) => (some (draft.take .stop).result, none)
    | .ok (some line) => (none, some (draft.take line))

/-- What some lines give while the input goes on, and the draft that is open behind them. -/
def steps (file : Text) : Nat → Option Draft → List SourceLine →
    List (Except Problem Block) × Option Draft
  | _, opened, [] => ([], opened)
  | n, opened, l :: ls =>
    let (item?, left) := step file n opened l
    let (items, last) := steps file (n + 1) left ls
    (item?.toList ++ items, last)

/-- Between two lines no draft is closed. -/
def Unclosed (opened : Option Draft) : Prop := ∀ draft ∈ opened, draft.closed = false

theorem unclosed_none : Unclosed none := nofun

theorem unclosed_some {draft : Draft} (h : draft.closed = false) : Unclosed (some draft) := by
  rintro _ ⟨⟩
  exact h

variable {file : Text} {n : Nat} {opened : Option Draft}

theorem Unclosed.step (h : Unclosed opened) (file : Text) (n : Nat) (l : SourceLine) :
    Unclosed (step file n opened l).2 := by
  cases l with
  | error fault => cases opened <;> exact unclosed_none
  | ok source =>
    cases opened with
    | none =>
      rw [Source.step]
      split
      · exact unclosed_some rfl
      · exact unclosed_none
    | some draft =>
      have hdraft : draft.closed = false := h draft rfl
      rw [Source.step]
      split
      · exact unclosed_none
      · exact h
      · exact unclosed_none
      · rename_i line hline _
        apply unclosed_some
        rw [Draft.closed_take hdraft, decide_eq_false_iff_not]
        exact hline

theorem Unclosed.steps (h : Unclosed opened) (file : Text) (n : Nat) (ls : List SourceLine) :
    Unclosed (steps file n opened ls).2 := by
  induction ls generalizing n opened with
  | nil => exact h
  | cons l ls ih => exact ih (h.step file n l) (n + 1)

theorem scan_nil (file : Text) (n : Nat) (opened : Option Draft) :
    scan file n opened [] = opened.toList.map Draft.result := by
  cases opened <;> rfl

/-- Reading takes one step for each line. -/
theorem scan_cons (h : Unclosed opened) (l : SourceLine) (ls : List SourceLine) :
    scan file n opened (l :: ls) =
      (step file n opened l).1.toList ++ scan file (n + 1) (step file n opened l).2 ls := by
  cases l with
  | error fault => cases opened <;> rfl
  | ok source =>
    cases opened with
    | none => rfl
    | some draft =>
      have hdraft : draft.closed = false := h draft rfl
      rw [scan, step]
      cases Line.recognize ⟨file, n⟩ source with
      | error e => rfl
      | ok line? =>
        cases line? with
        | none => rfl
        | some line =>
          simp only [Draft.closed_take hdraft]
          cases line <;> rfl

/-- What stands behind some lines is read with the draft that they leave open. -/
theorem scan_append (h : Unclosed opened) (ls more : List SourceLine) :
    scan file n opened (ls ++ more) =
      (steps file n opened ls).1 ++ scan file (n + ls.length) (steps file n opened ls).2 more := by
  induction ls generalizing n opened with
  | nil => rfl
  | cons l ls ih =>
    rw [List.cons_append, scan_cons h, ih (h.step file n l), steps, List.length_cons,
      List.append_assoc, Nat.add_right_comm, Nat.add_assoc]

/-- A block starts where its start delimiter was read, so at no line before the first. -/
def StartsFrom (first : Nat) (opened : Option Draft) : Prop :=
  ∀ draft ∈ opened, first ≤ draft.block.place.line

theorem StartsFrom.step {first : Nat} (h : StartsFrom first opened) (hn : first ≤ n)
    (file : Text) (l : SourceLine) :
    (∀ block ∈ (step file n opened l).1.bind Except.toOption, first ≤ block.place.line) ∧
      StartsFrom first (step file n opened l).2 := by
  have hgives : ∀ block ∈ (none : Option Block), first ≤ block.place.line := by simp
  have hnone : StartsFrom first none := by simp [StartsFrom]
  cases l with
  | error fault => cases opened <;> exact ⟨hgives, hnone⟩
  | ok source =>
    cases opened with
    | none =>
      rw [Source.step]
      refine ⟨hgives, ?_⟩
      split
      · rintro _ ⟨⟩
        exact hn
      · exact hnone
    | some draft =>
      have hdraft : first ≤ draft.block.place.line := h draft rfl
      rw [Source.step]
      split
      · exact ⟨hgives, hnone⟩
      · exact ⟨hgives, h⟩
      · refine ⟨?_, hnone⟩
        intro block hblock
        rw [Option.bind_some, Draft.result] at hblock
        split at hblock
        · cases hblock
          rw [Draft.place_filed, Draft.place_take]
          exact hdraft
        · cases hblock
      · refine ⟨hgives, ?_⟩
        rintro _ ⟨⟩
        rw [Draft.place_take]
        exact hdraft

theorem StartsFrom.le_of_mem_scan {first : Nat} (h : StartsFrom first opened)
    (hopened : Unclosed opened) (hn : first ≤ n) {ls : List SourceLine} {block : Block}
    (hblock : .ok block ∈ scan file n opened ls) : first ≤ block.place.line := by
  induction ls generalizing n opened with
  | nil =>
    cases opened with
    | none => cases hblock
    | some draft =>
      have hdraft : draft.closed = false := hopened draft rfl
      simp [scan_nil, Draft.result, hdraft] at hblock
  | cons l ls ih =>
    obtain ⟨hitem, hleft⟩ := h.step hn file l
    rw [scan_cons hopened, List.mem_append] at hblock
    rcases hblock with hblock | hblock
    · apply hitem block
      rw [Option.mem_toList.mp hblock]
      rfl
    · exact ih hleft (hopened.step file n l) (Nat.le_succ_of_le hn) hblock

/-- An item as it counts for the blocks of a source: a block has to have a path. -/
def withPath (item : Except Problem Block) : Except Problem Block := do
  let block ← item
  let _ ← block.path
  return block

theorem withPath_ok (block : Block) : withPath (.ok block) = block.path.map fun _ => block := by
  have hbind : withPath (.ok block) = block.path.bind fun _ => .ok block := rfl
  rw [hbind]
  cases block.path <;> rfl

theorem blocks_append (file : Text) (ls more : List SourceLine) :
    blocks file (ls ++ more) = (do
      let before ← (steps file 1 none ls).1.mapM withPath
      let behind ← (scan file (1 + ls.length) (steps file 1 none ls).2 more).mapM withPath
      return before ++ behind) := by
  have hitems : items file (ls ++ more) =
      (steps file 1 none ls).1 ++ scan file (1 + ls.length) (steps file 1 none ls).2 more :=
    scan_append unclosed_none ls more
  rw [← List.mapM_append, ← hitems]
  rfl

/-- The blocks of a source are those that its lines give, unless the last line leaves one open. -/
theorem blocks_eq (file : Text) (ls : List SourceLine) :
    blocks file ls = (do
      let found ← (steps file 1 none ls).1.mapM withPath
      match (steps file 1 none ls).2 with
      | none => return found
      | some draft => .error (.unterminated draft.block.place)) := by
  have happend := blocks_append file ls []
  rw [List.append_nil, scan_nil] at happend
  rw [happend]
  cases hopen : (steps file 1 none ls).2 with
  | none => simp
  | some draft =>
    have hdraft : draft.closed = false := unclosed_none.steps file 1 ls draft hopen
    have hresult : draft.result = .error (.unterminated draft.block.place) := by
      rw [Draft.result, hdraft]
      rfl
    rw [Option.toList_some, List.map_singleton, hresult]
    rfl

end DocComment.Source
