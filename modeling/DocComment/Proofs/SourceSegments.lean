import DocComment.Source
import DocComment.Proofs.DraftGroups

/-!
# Segments of a source

The numbered lines of a source fall into segments.  A segment goes from the first line that opens a
block to the first line after it that is an end delimiter or cannot be recognized, or to the end of
the input where there is none, and the next one is looked for behind it.  What a source gives is one
item for each segment, so no line counts for two items.
-/

namespace DocComment
open scoped List

theorem Line.recognize_eq_error {place : Location} {source : Text} {e : Problem}
    (h : recognize place source = .error e) : ∃ tag, e = .incomplete tag place := by
  simp only [recognize] at h
  split at h
  · rename_i tag _
    split at h
    · cases h
    · cases h
      exact ⟨tag, rfl⟩
  · split at h <;> cases h

/-- A line with its number. -/
abbrev NumberedLine := Text × Nat

namespace NumberedLine

def opens (l : NumberedLine) : Bool := Line.opensBlock l.1

def reading (file : Text) (l : NumberedLine) : Except Problem (Option Line) :=
  Line.recognize ⟨file, l.2⟩ l.1

/-- Whether the line ends an open block, as an end delimiter or because it is incomplete. -/
def closes (file : Text) (l : NumberedLine) : Bool :=
  match l.reading file with
  | .ok (some .stop) | .error _ => true
  | .ok _ => false

/-- The documentation line that is recognized, if any. -/
def line? (file : Text) (l : NumberedLine) : Option Line :=
  match l.reading file with
  | .ok line => line
  | .error _ => none

theorem stop_notMem_inner (file : Text) (ls : List NumberedLine) :
    Line.stop ∉ (ls.takeWhile (!·.closes file)).filterMap (·.line? file) := by
  intro hmem
  obtain ⟨l, hl, hline⟩ := List.mem_filterMap.mp hmem
  have hcloses := List.mem_takeWhile_imp hl
  cases hread : l.reading file with
  | error e => simp [line?, hread] at hline
  | ok line =>
    rw [line?, hread] at hline
    subst hline
    simp [closes, hread] at hcloses

end NumberedLine

/-- The lines that belong to one block. -/
structure Segment where
  /-- The line that opens the block. -/
  start : NumberedLine
  inner : List NumberedLine
  /-- The line that ends the block, unless the input ended before. -/
  stop : Option NumberedLine

namespace Segment

def lines (s : Segment) : List NumberedLine := s.start :: s.inner ++ s.stop.toList

/-- What the lines of a segment give: where they have an end delimiter, the grouping of the lines in
between that are recognized and are no start delimiter. -/
def item (file : Text) (s : Segment) : Except Problem Block :=
  match s.stop with
  | none => .error (.unterminated ⟨file, s.start.2⟩)
  | some stop =>
    match stop.reading file with
    | .error e => .error e
    | .ok _ => .ok (.grouped ⟨file, s.start.2⟩
        ((s.inner.filterMap (·.line? file)).filter (· != .start)))

/-- The first segment of some lines, and the lines behind it. -/
def first? (file : Text) (ls : List NumberedLine) : Option (Segment × List NumberedLine) :=
  match ls.dropWhile (!·.opens) with
  | [] => none
  | start :: rest =>
    let behind := rest.dropWhile (!·.closes file)
    some (⟨start, rest.takeWhile (!·.closes file), behind.head?⟩, behind.tail)

/-- A segment and the lines behind it are the end of the lines it was looked for in. -/
theorem first?_suffix {file : Text} {ls rest : List NumberedLine} {s : Segment}
    (h : first? file ls = some (s, rest)) : s.lines ++ rest <:+ ls := by
  unfold first? at h
  split at h
  · cases h
  · rename_i start after hdrop
    cases h
    have hbehind : (after.dropWhile (!·.closes file)).head?.toList ++
        (after.dropWhile (!·.closes file)).tail = after.dropWhile (!·.closes file) := by
      cases after.dropWhile (!·.closes file) <;> rfl
    rw [lines, List.append_assoc, hbehind, List.cons_append, List.takeWhile_append_dropWhile,
      ← hdrop]
    exact List.dropWhile_suffix _

theorem length_first? {file : Text} {ls rest : List NumberedLine} {s : Segment}
    (h : first? file ls = some (s, rest)) : rest.length < ls.length := by
  have hle := (first?_suffix h).length_le
  rw [List.length_append, lines, List.cons_append, List.length_cons] at hle
  omega

end Segment

/-- The segments of some lines, one after the other. -/
def segments (file : Text) (ls : List NumberedLine) : List Segment :=
  match _h : Segment.first? file ls with
  | none => []
  | some (s, rest) => s :: segments file rest
termination_by ls.length
decreasing_by exact Segment.length_first? _h

/-! ### Scanning goes from segment to segment -/

namespace Source

/-- The lines carry the numbers from `n` on. -/
def Consecutive (n : Nat) : List NumberedLine → Prop
  | [] => True
  | l :: ls => l.2 = n ∧ Consecutive (n + 1) ls

theorem consecutive_zipIdx (n : Nat) (lines : List Text) : Consecutive n (lines.zipIdx n) := by
  induction lines generalizing n with
  | nil => trivial
  | cons t lines ih => exact ⟨rfl, ih (n + 1)⟩

theorem Consecutive.after {n : Nat} {before : List NumberedLine} {l : NumberedLine}
    {after : List NumberedLine} (h : Consecutive n (before ++ l :: after)) :
    Consecutive (l.2 + 1) after := by
  induction before generalizing n with
  | nil => exact h.1 ▸ h.2
  | cons b before ih => exact ih h.2

/-- Lines that follow the first one not passed over carry the numbers behind its own. -/
theorem Consecutive.after_dropWhile {n : Nat} {ls : List NumberedLine} (h : Consecutive n ls)
    {p : NumberedLine → Bool} {l : NumberedLine} {after : List NumberedLine}
    (hdrop : ls.dropWhile p = l :: after) : Consecutive (l.2 + 1) after := by
  have hsplit := List.takeWhile_append_dropWhile (p := p) (l := ls)
  rw [hdrop] at hsplit
  rw [← hsplit] at h
  exact h.after

def texts (ls : List NumberedLine) : List SourceLine := ls.map fun l => .ok l.1

theorem texts_zipIdx (n : Nat) (lines : List Text) : texts (lines.zipIdx n) = lines.map .ok := by
  induction lines generalizing n with
  | nil => rfl
  | cons t lines ih =>
    rw [List.zipIdx_cons, List.map_cons, ← ih (n + 1)]
    rfl

/-- Outside a block, scanning passes over everything up to the line that opens the next one. -/
theorem scan_outside (file : Text) {n : Nat} {ls : List NumberedLine} (h : Consecutive n ls) :
    scan file n none (texts ls) = match ls.dropWhile (!·.opens) with
      | [] => []
      | start :: rest => scan file (start.2 + 1) (some (.new ⟨file, start.2⟩)) (texts rest) := by
  induction ls generalizing n with
  | nil => rfl
  | cons l ls ih =>
    obtain ⟨rfl, hls⟩ := h
    rw [texts, List.map_cons, scan, ← texts]
    cases hopen : l.opens with
    | true =>
      rw [NumberedLine.opens] at hopen
      simp [NumberedLine.opens, hopen]
    | false =>
      rw [NumberedLine.opens] at hopen
      simp [NumberedLine.opens, hopen, ih hls]

/-- Inside a block, scanning takes the lines up to the one that ends the block. -/
theorem scan_inside (file : Text) {n : Nat} {ls : List NumberedLine} (h : Consecutive n ls)
    {d : Draft} (hd : d.closed = false) :
    scan file n (some d) (texts ls) = match ls.dropWhile (!·.closes file) with
      | [] => [.error (.unterminated d.block.place)]
      | stop :: rest =>
        (match stop.reading file with
          | .error e => .error e
          | .ok _ => .ok (((ls.takeWhile (!·.closes file)).filterMap (·.line? file)).foldl
              Draft.take d).filed) :: scan file (stop.2 + 1) none (texts rest) := by
  induction ls generalizing n d with
  | nil => simp [texts, scan, Draft.result, hd]
  | cons l ls ih =>
    obtain ⟨rfl, hls⟩ := h
    rw [texts, List.map_cons, scan, ← texts, ← NumberedLine.reading]
    cases hread : l.reading file with
    | error e => simp [NumberedLine.closes, hread]
    | ok line =>
      cases line with
      | none => simp [NumberedLine.closes, NumberedLine.line?, hread, ih hls hd]
      | some line =>
        by_cases hstop : line = .stop
        · subst hstop
          simp [NumberedLine.closes, hread, Draft.closed_take hd, Draft.result_take_stop hd]
        · have hopen : (d.take line).closed = false := by simp [Draft.closed_take hd, hstop]
          have hcloses : l.closes file = false := by simp [NumberedLine.closes, hread, hstop]
          have hline : l.line? file = some line := by simp [NumberedLine.line?, hread]
          simp [hopen, hcloses, hline, ih hls hopen, Draft.place_take]

theorem scan_of_first?_eq_none {file : Text} {n : Nat} {ls : List NumberedLine}
    (h : Consecutive n ls) (hfirst : Segment.first? file ls = none) :
    scan file n none (texts ls) = [] := by
  rw [scan_outside file h]
  unfold Segment.first? at hfirst
  cases hdrop : ls.dropWhile (!·.opens) with
  | nil => rfl
  | cons start rest => simp [hdrop] at hfirst

theorem scan_of_first?_eq_some {file : Text} {n : Nat} {ls rest : List NumberedLine} {s : Segment}
    (h : Consecutive n ls) (hfirst : Segment.first? file ls = some (s, rest)) :
    ∃ n', Consecutive n' rest ∧
      scan file n none (texts ls) = s.item file :: scan file n' none (texts rest) := by
  rw [scan_outside file h]
  unfold Segment.first? at hfirst
  cases hdrop : ls.dropWhile (!·.opens) with
  | nil => simp [hdrop] at hfirst
  | cons start after =>
    simp only [hdrop, Option.some.injEq, Prod.mk.injEq] at hfirst
    obtain ⟨rfl, rfl⟩ := hfirst
    have hafter : Consecutive (start.2 + 1) after := h.after_dropWhile hdrop
    have hnew : (Draft.new ⟨file, start.2⟩).closed = false := rfl
    simp only [scan_inside file hafter hnew]
    cases hbehind : after.dropWhile (!·.closes file) with
    | nil => exact ⟨0, trivial, rfl⟩
    | cons stop rest =>
      refine ⟨stop.2 + 1, hafter.after_dropWhile hbehind, ?_⟩
      have hinner := Draft.filed_foldl_of_notMem ⟨file, start.2⟩
        (NumberedLine.stop_notMem_inner file after)
      simp only [Segment.item, List.head?_cons, List.tail_cons, hinner]

/-- Scanning gives one item for each segment. -/
theorem scan_eq_segments (file : Text) {n : Nat} {ls : List NumberedLine} (h : Consecutive n ls) :
    scan file n none (texts ls) = (segments file ls).map (Segment.item file) := by
  fun_induction segments file ls generalizing n with
  | case1 ls hfirst => exact scan_of_first?_eq_none h hfirst
  | case2 ls s rest hfirst ih =>
    obtain ⟨n', hrest, hscan⟩ := scan_of_first?_eq_some h hfirst
    rw [hscan, ih hrest, List.map_cons]

end Source

/-! ### Where segments lie -/

namespace Segment

/-- Each line of a source belongs to at most one segment, and the segments follow their order. -/
theorem flatMap_lines_sublist (file : Text) (ls : List NumberedLine) :
    (segments file ls).flatMap lines <+ ls := by
  fun_induction segments file ls with
  | case1 ls hfirst => exact List.nil_sublist ls
  | case2 ls s rest hfirst ih =>
    rw [List.flatMap_cons]
    exact (ih.append_left s.lines).trans (first?_suffix hfirst).sublist

/-- A segment that is not ended is the last one. -/
theorem eq_nil_of_stop_eq_none {file : Text} {ls : List NumberedLine} {before after : List Segment}
    {s : Segment} (h : segments file ls = before ++ s :: after) (hs : s.stop = none) :
    after = [] := by
  fun_induction segments file ls generalizing before with
  | case1 ls hfirst => simp at h
  | case2 ls s' rest hfirst ih =>
    cases before with
    | cons b before => exact ih (List.cons.inj h).2
    | nil =>
      obtain ⟨rfl, hafter⟩ := List.cons.inj h
      unfold first? at hfirst
      split at hfirst
      · cases hfirst
      · rename_i start behind hdrop
        cases hfirst
        rw [List.head?_eq_none_iff.mp hs] at hafter
        rw [← hafter, segments]
        rfl

/-- A segment gives a block with the place of its first line, an incomplete tag at its last line, or
the place where a block was opened that the input does not end. -/
theorem item_cases (file : Text) (s : Segment) :
    (∃ stop block, s.stop = some stop ∧ s.item file = .ok block ∧
        block.place = ⟨file, s.start.2⟩) ∨
      (∃ stop tag, s.stop = some stop ∧ s.item file = .error (.incomplete tag ⟨file, stop.2⟩)) ∨
      s.stop = none ∧ s.item file = .error (.unterminated ⟨file, s.start.2⟩) := by
  cases hstop : s.stop with
  | none => exact Or.inr (Or.inr ⟨rfl, by simp [item, hstop]⟩)
  | some stop =>
    cases hread : stop.reading file with
    | error e =>
      obtain ⟨tag, rfl⟩ := Line.recognize_eq_error hread
      exact Or.inr (Or.inl ⟨stop, tag, rfl, by simp [item, hstop, hread]⟩)
    | ok line =>
      exact Or.inl ⟨stop, _, rfl, by simp only [item, hstop, hread]; rfl, rfl⟩

end Segment

/-- The line that a problem is about. -/
def Problem.line : Problem → Nat
  | incomplete _ place | unreadable place _ => place.line
  | nameless block | orphan block | unterminated block | taken _ block _ => block.line

/-- The line of an item: where its block begins, or the one that its problem is about. -/
def Source.itemLine : Except Problem Block → Nat
  | .ok block => block.place.line
  | .error e => e.line

theorem Segment.itemLine_mem (file : Text) (s : Segment) :
    Source.itemLine (s.item file) ∈ s.lines.map Prod.snd := by
  rcases s.item_cases file with ⟨stop, block, -, hitem, hplace⟩ | ⟨stop, tag, hstop, hitem⟩ |
    ⟨-, hitem⟩
  · simp [hitem, Source.itemLine, hplace, lines]
  · simp [hitem, Source.itemLine, Problem.line, lines, hstop]
  · simp [hitem, Source.itemLine, Problem.line, lines]

private theorem map_sublist_flatMap {α β : Type} {f : α → β} {g : α → List β} (h : ∀ a, f a ∈ g a)
    (l : List α) : l.map f <+ l.flatMap g := by
  induction l with
  | nil => exact List.Sublist.slnil
  | cons a l ih =>
    rw [List.map_cons, List.flatMap_cons]
    exact (List.singleton_sublist.mpr (h a)).append ih

/-- What a source gives is one item for each of its segments. -/
theorem Source.items_eq_segments (file : Text) (lines : List Text) :
    let segs := segments file (lines.zipIdx 1)
    let found := items file (lines.map .ok)
    found = segs.map (Segment.item file) ∧
      (∀ s ∈ segs,
        (∃ stop block, s.stop = some stop ∧ s.item file = .ok block ∧
            block.place = ⟨file, s.start.2⟩) ∨
          (∃ stop tag, s.stop = some stop ∧
            s.item file = .error (.incomplete tag ⟨file, stop.2⟩)) ∨
          s.stop = none ∧ s.item file = .error (.unterminated ⟨file, s.start.2⟩)) ∧
      (found.map itemLine).Pairwise (· < ·) ∧
      (segs.flatMap Segment.lines <+ lines.zipIdx 1 ∧
        ((segs.flatMap Segment.lines).map Prod.snd).Nodup) ∧
      ∀ before after place, found = before ++ .error (.unterminated place) :: after →
        after = [] := by
  intro segs found
  have hfound : found = segs.map (Segment.item file) := by
    have hscan := scan_eq_segments file (consecutive_zipIdx 1 lines)
    rwa [texts_zipIdx] at hscan
  have hlines : segs.flatMap Segment.lines <+ lines.zipIdx 1 :=
    Segment.flatMap_lines_sublist file (lines.zipIdx 1)
  have hnumbers : ((segs.flatMap Segment.lines).map Prod.snd).Pairwise (· < ·) := by
    have hsub := hlines.map Prod.snd
    rw [List.zipIdx_map_snd] at hsub
    exact List.Pairwise.sublist hsub List.pairwise_lt_range'
  refine ⟨hfound, fun s _ => s.item_cases file, ?_, ⟨hlines, hnumbers.imp Nat.ne_of_lt⟩, ?_⟩
  · rw [hfound, List.map_map]
    rw [List.map_flatMap] at hnumbers
    exact hnumbers.sublist (map_sublist_flatMap (Segment.itemLine_mem file) segs)
  · intro before after place heq
    rw [hfound, List.map_eq_append_iff] at heq
    obtain ⟨segsBefore, segsAfter, hsegs, -, hrest⟩ := heq
    obtain ⟨s, segsRest, rfl, hitem, rfl⟩ := List.map_eq_cons_iff.mp hrest
    have hstop : s.stop = none := by
      rcases s.item_cases file with ⟨_, block, -, hok, -⟩ | ⟨_, tag, -, herr⟩ | ⟨hnone, -⟩
      · rw [hok] at hitem
        cases hitem
      · rw [herr] at hitem
        cases hitem
      · exact hnone
    rw [Segment.eq_nil_of_stop_eq_none hsegs hstop, List.map_nil]

end DocComment
