import DocComment.Text
import Mathlib.Logic.Function.Basic

/-!
# Words of a text

The words of a text are its maximal runs of characters that are not white space.  A collapsed text
is its words with one space between neighbours, so cutting it at spaces gives the words back.
-/

namespace DocComment

variable {α : Type}

theorem split_eq_splitOnP (p : α → Bool) (s : List α) : split p s = s.splitOnP p := by
  induction s with
  | nil => rfl
  | cons a s ih =>
    rw [List.splitOnP_cons_eq_if_modifyHead, ← ih]
    rfl

theorem split_ne_nil (p : α → Bool) (s : List α) : split p s ≠ [] := by
  rw [split_eq_splitOnP]
  exact List.splitOnP_ne_nil p s

theorem split_cons (p : α → Bool) (a : α) (s : List α) :
    split p (a :: s) = if p a then [] :: split p s else (split p s).modifyHead (a :: ·) := rfl

/-- No piece holds a separator. -/
theorem eq_false_of_mem_split (p : α → Bool) (s : List α) :
    ∀ piece ∈ split p s, ∀ a ∈ piece, p a = false := by
  induction s with
  | nil => simp [split]
  | cons b s ih =>
    obtain ⟨first, rest, hs⟩ := List.exists_cons_of_ne_nil (split_ne_nil p s)
    rw [hs, List.forall_mem_cons] at ih
    cases hb : p b with
    | true => simpa [split_cons, hb, hs] using ih
    | false =>
      rw [split_cons, hs, hb, if_neg Bool.false_ne_true, List.modifyHead_cons,
        List.forall_mem_cons, List.forall_mem_cons]
      exact ⟨⟨hb, ih.1⟩, ih.2⟩

/-- What has no separator and stands before a text stands in its first piece. -/
theorem split_append_of_forall {p : α → Bool} {xs : List α} (h : ∀ a ∈ xs, p a = false)
    (s : List α) : split p (xs ++ s) = (split p s).modifyHead (xs ++ ·) := by
  obtain ⟨first, rest, hs⟩ := List.exists_cons_of_ne_nil (split_ne_nil p s)
  induction xs with
  | nil => simp [hs]
  | cons a xs ih =>
    obtain ⟨ha, hxs⟩ := List.forall_mem_cons.mp h
    rw [List.cons_append, split_cons, ha, if_neg Bool.false_ne_true, ih hxs, hs]
    rfl

/-- What is done to each element is done to the separators and to the pieces. -/
theorem flatMap_intercalate {β : Type} (f : α → List β) (sep : List α) (pieces : List (List α)) :
    (sep.intercalate pieces).flatMap f =
      (sep.flatMap f).intercalate (pieces.map (List.flatMap f)) := by
  induction pieces with
  | nil => rfl
  | cons piece pieces ih =>
    cases pieces with
    | nil => simp
    | cons next pieces =>
      rw [List.intercalate_cons_cons, List.flatMap_append, List.flatMap_append, ih]
      simp only [List.map_cons, List.intercalate_cons_cons]

namespace Text

theorem splitOn_eq (sep : Char) (t : Text) : splitOn sep t = List.splitOn sep t :=
  split_eq_splitOnP _ t

theorem splitOn_ne_nil (sep : Char) (t : Text) : splitOn sep t ≠ [] := split_ne_nil _ t

theorem notMem_of_mem_splitOn {sep : Char} {t piece : Text} (h : piece ∈ splitOn sep t) :
    sep ∉ piece := by
  intro hs
  simpa using eq_false_of_mem_split _ t piece h sep hs

theorem intercalate_splitOn (sep : Char) (t : Text) : [sep].intercalate (splitOn sep t) = t := by
  rw [splitOn_eq]
  exact List.intercalate_splitOn sep

theorem splitOn_injective (sep : Char) : Function.Injective (splitOn sep) :=
  Function.LeftInverse.injective (intercalate_splitOn sep)

theorem splitOn_intercalate {sep : Char} {pieces : List Text} (h : ∀ p ∈ pieces, sep ∉ p)
    (hne : pieces ≠ []) : splitOn sep ([sep].intercalate pieces) = pieces := by
  rw [splitOn_eq]
  exact List.splitOn_intercalate sep h hne

theorem splitOn_of_notMem {sep : Char} {t : Text} (h : sep ∉ t) : splitOn sep t = [t] := by
  have hjoin : splitOn sep ([sep].intercalate [t]) = [t] :=
    splitOn_intercalate (by simpa using h) (by simp)
  simpa using hjoin

theorem splitOn_append_cons (sep : Char) (s t : Text) :
    splitOn sep (s ++ sep :: t) = splitOn sep s ++ splitOn sep t := by
  simp only [splitOn, split_eq_splitOnP]
  exact List.splitOnP_append_cons s t (by simp)

@[simp] theorem isBlank_space : isBlank ' ' = true := rfl

/-- The maximal runs of characters that are not white space. -/
def words (t : Text) : List Text := (split isBlank t).filter (!·.isEmpty)

@[simp] theorem words_nil : words [] = [] := rfl

theorem mem_words {t w : Text} (h : w ∈ words t) : w ≠ [] ∧ ∀ c ∈ w, isBlank c = false := by
  obtain ⟨hw, hne⟩ := List.mem_filter.mp h
  exact ⟨by simpa using hne, eq_false_of_mem_split isBlank t w hw⟩

theorem words_append_blank {c : Char} (hc : isBlank c = true) (x y : Text) :
    words (x ++ c :: y) = words x ++ words y := by
  simp only [words, split_eq_splitOnP, List.splitOnP_append_cons x y hc, List.filter_append]

theorem words_cons_blank {c : Char} (hc : isBlank c = true) (t : Text) :
    words (c :: t) = words t := words_append_blank hc [] t

theorem words_eq_singleton {w : Text} (hne : w ≠ []) (h : ∀ c ∈ w, isBlank c = false) :
    words w = [w] := by
  rw [words, split_eq_splitOnP, List.splitOnP_eq_singleton h]
  simp [hne]

theorem words_ne_nil {t : Text} {c : Char} (ht : c ∈ t) (hc : isBlank c = false) :
    words t ≠ [] := by
  induction t with
  | nil => simp at ht
  | cons d t ih =>
    cases hd : isBlank d with
    | true =>
      rw [words_cons_blank hd]
      apply ih
      rcases List.mem_cons.mp ht with rfl | ht
      · rw [hd] at hc
        cases hc
      · exact ht
    | false =>
      obtain ⟨first, rest, hs⟩ := List.exists_cons_of_ne_nil (split_ne_nil isBlank t)
      simp [words, split_cons, hd, hs]

theorem words_dropWhile (t : Text) : words (t.dropWhile isBlank) = words t := by
  induction t with
  | nil => rfl
  | cons c t ih =>
    cases hc : isBlank c with
    | true => rw [List.dropWhile_cons_of_pos hc, ih, words_cons_blank hc]
    | false => rw [List.dropWhile_cons_of_neg (by simp [hc])]

theorem words_dropWhile_reverse (t : Text) :
    words (t.dropWhile isBlank).reverse = words t.reverse := by
  induction t with
  | nil => rfl
  | cons c t ih =>
    cases hc : isBlank c with
    | true =>
      rw [List.dropWhile_cons_of_pos hc, ih, List.reverse_cons, words_append_blank hc, words_nil,
        List.append_nil]
    | false => rw [List.dropWhile_cons_of_neg (by simp [hc])]

@[simp] theorem words_trim (t : Text) : words t.trim = words t := by
  rw [trim, words_dropWhile_reverse, List.reverse_reverse, words_dropWhile]

/-- What is squeezed after a word `w` belongs to that word up to the next white space. -/
private theorem squeeze_spec (t : Text) (ht : ∀ c ∈ t.getLast?, isBlank c = false) :
    squeeze true t = [' '].intercalate (words t) ∧
      ∀ w : Text, w ≠ [] → (∀ c ∈ w, isBlank c = false) →
        w ++ squeeze false t = [' '].intercalate (words (w ++ t)) := by
  induction t with
  | nil =>
    refine ⟨rfl, fun w hne hw => ?_⟩
    simp [squeeze, words_eq_singleton hne hw]
  | cons c t ih =>
    have ht' : ∀ d ∈ t.getLast?, isBlank d = false := by
      intro d hd
      apply ht d
      rw [List.getLast?_cons, Option.mem_def.mp hd]
      rfl
    obtain ⟨hrun, hword⟩ := ih ht'
    cases hc : isBlank c with
    | true =>
      have hne : words t ≠ [] := by
        cases hl : t.getLast? with
        | none =>
          have := ht c (by simp [List.getLast?_cons, hl])
          rw [hc] at this
          cases this
        | some d => exact words_ne_nil (List.mem_of_getLast? hl) (ht' d hl)
      refine ⟨by simp [squeeze, hc, words_cons_blank hc, hrun], fun w hw hwb => ?_⟩
      rw [words_append_blank hc, words_eq_singleton hw hwb, List.singleton_append,
        List.intercalate_cons_of_ne_nil hne, ← hrun]
      simp [squeeze, hc]
    | false =>
      constructor
      · have := hword [c] (by simp) (by simpa using hc)
        simpa [squeeze, hc] using this
      · intro w hw hwb
        have := hword (w ++ [c]) (by simp) (by
          intro d hd
          rcases List.mem_append.mp hd with hd | hd
          · exact hwb d hd
          · rw [List.mem_singleton.mp hd, hc])
        simpa [squeeze, hc] using this

private theorem isBlank_head_dropWhile (t : Text) :
    ∀ c ∈ (t.dropWhile isBlank).head?, isBlank c = false := by
  intro c hc
  have h := List.head?_dropWhile_not isBlank t
  rwa [Option.mem_def.mp hc] at h

private theorem isBlank_getLast_trim (t : Text) : ∀ c ∈ t.trim.getLast?, isBlank c = false := by
  rw [trim, List.getLast?_reverse]
  exact isBlank_head_dropWhile _

private theorem isBlank_head_trim (t : Text) : ∀ c ∈ t.trim.head?, isBlank c = false := by
  intro c hc
  have hpre : t.trim <+: t.dropWhile isBlank := by
    have h := List.reverse_prefix.mpr (List.dropWhile_suffix (l := (t.dropWhile isBlank).reverse)
      isBlank)
    rwa [List.reverse_reverse] at h
  obtain ⟨rest, hrest⟩ := hpre
  apply isBlank_head_dropWhile t c
  rw [← hrest, List.head?_append, Option.mem_def.mp hc]
  rfl

/-- A collapsed text is its words with one space between neighbours. -/
theorem collapse_eq (t : Text) : t.collapse = [' '].intercalate (words t) := by
  rw [collapse, ← words_trim]
  have hlast := isBlank_getLast_trim t
  have hhead := isBlank_head_trim t
  generalize t.trim = s at hlast hhead
  cases s with
  | nil => rfl
  | cons c s =>
    have hc : isBlank c = false := hhead c rfl
    rw [← (squeeze_spec (c :: s) hlast).1]
    simp [squeeze, hc]

end Text

end DocComment
