import DocComment.Text
import Mathlib.Data.List.Infix
import Mathlib.Tactic.Common

/-! # Replacing a mark

A mark that no two copies of which overlap cuts a text into pieces in one way.  Replacing it leaves the
text between two copies to itself, so what it does is told by the number of copies: the text stays as it
is just when there is none, or when the mark is put in place of itself. -/

namespace DocComment.Text

theorem substitute_eq_drop (rule : Text → Option (Text × Nat)) (n : Nat) (t : Text) :
    substitute rule n t = substitute rule 0 (t.drop n) := by
  induction t generalizing n with
  | nil => cases n <;> rfl
  | cons c t ih =>
    cases n with
    | zero => rfl
    | succ n => rw [substitute, ih, List.drop_succ_cons]

variable {mark : Text}

theorem substitute_append {rule : Text → Option (Text × Nat)} {t new : Text} (hm : mark ≠ [])
    (h : rule (mark ++ t) = some (new, mark.length)) :
    substitute rule 0 (mark ++ t) = new ++ substitute rule 0 t := by
  obtain ⟨c, rest, rfl⟩ := List.exists_cons_of_ne_nil hm
  rw [List.cons_append] at h ⊢
  rw [substitute, h]
  simp only [List.length_cons, Nat.add_sub_cancel]
  rw [substitute_eq_drop, List.drop_left]

theorem substitute_cons {rule : Text → Option (Text × Nat)} {c : Char} {t : Text}
    (h : rule (c :: t) = none) : substitute rule 0 (c :: t) = c :: substitute rule 0 t := by
  rw [substitute, h]

@[simp] theorem replace_nil (mark new : Text) : replace [] mark new = [] := rfl

theorem replace_append_self (hm : mark ≠ []) (t new : Text) :
    replace (mark ++ t) mark new = new ++ replace t mark new :=
  substitute_append hm (if_pos (List.isPrefixOf_iff_prefix.mpr (List.prefix_append mark t)))

theorem replace_cons {c : Char} {t : Text} (h : ¬ mark <+: c :: t) (new : Text) :
    replace (c :: t) mark new = c :: replace t mark new :=
  substitute_cons (if_neg (by rwa [List.isPrefixOf_iff_prefix]))

/-- A text is made from its end, of marks and of characters at which no mark begins. -/
theorem marks_induction {marks : List Text} (hm : [] ∉ marks) {P : Text → Prop} (nil : P [])
    (copy : ∀ mark ∈ marks, ∀ t, P t → P (mark ++ t))
    (char : ∀ c t, (∀ mark ∈ marks, ¬ mark <+: c :: t) → P t → P (c :: t)) (t : Text) : P t := by
  induction hlength : t.length using Nat.strong_induction_on generalizing t with
  | _ length ih =>
    cases t with
    | nil => exact nil
    | cons c t =>
      by_cases hbegin : ∃ mark ∈ marks, mark <+: c :: t
      · obtain ⟨mark, hmark, rest, hrest⟩ := hbegin
        have hpos : 0 < mark.length := List.length_pos_iff.mpr fun hnil => hm (hnil ▸ hmark)
        have hsum := congrArg List.length hrest
        rw [List.length_append] at hsum
        rw [← hrest]
        exact copy mark hmark rest (ih rest.length (by omega) rest rfl)
      · have hnone : ∀ mark ∈ marks, ¬ mark <+: c :: t := fun mark hmark hp =>
          hbegin ⟨mark, hmark, hp⟩
        exact char c t hnone (ih t.length (by rw [← hlength]; exact Nat.lt_succ_self _) t rfl)

theorem mark_induction (hm : mark ≠ []) {P : Text → Prop} (nil : P [])
    (copy : ∀ t, P t → P (mark ++ t)) (char : ∀ c t, ¬ mark <+: c :: t → P t → P (c :: t))
    (t : Text) : P t := by
  have hnil : [] ∉ [mark] := by simpa using hm.symm
  refine marks_induction hnil nil ?_ ?_ t
  · intro m hmem
    rw [List.mem_singleton.mp hmem]
    exact copy
  · exact fun c t hnone => char c t (hnone mark (List.mem_singleton_self mark))

/-- The number of places in a text at which a mark begins. -/
def occurrences (mark t : Text) : Nat := t.tails.countP fun rest => mark.isPrefixOf rest

theorem occurrences_nil (hm : mark ≠ []) : occurrences mark [] = 0 := by
  obtain ⟨c, rest, rfl⟩ := List.exists_cons_of_ne_nil hm
  rfl

theorem occurrences_cons_of_begins {c : Char} {t : Text} (h : mark <+: c :: t) :
    occurrences mark (c :: t) = occurrences mark t + 1 := by
  rw [occurrences, List.tails_cons, List.countP_cons_of_pos (List.isPrefixOf_iff_prefix.mpr h)]
  rfl

theorem occurrences_cons {c : Char} {t : Text} (h : ¬ mark <+: c :: t) :
    occurrences mark (c :: t) = occurrences mark t := by
  rw [← List.isPrefixOf_iff_prefix] at h
  rw [occurrences, List.tails_cons, List.countP_cons_of_neg h]
  rfl

theorem occurrences_pos_iff (hm : mark ≠ []) {t : Text} : 0 < occurrences mark t ↔ mark <:+: t := by
  induction t with
  | nil => simp [occurrences_nil hm, hm]
  | cons c t ih =>
    rw [List.infix_cons_iff]
    by_cases hp : mark <+: c :: t
    · simp [occurrences_cons_of_begins hp, hp]
    · simp [occurrences_cons hp, hp, ih]

/-- A mark that holds no character with which the end of a text begins does not reach into it. -/
theorem prefix_of_prefix_append {a b : Text} (h : mark <+: a ++ b)
    (hb : ∀ c ∈ b.head?, c ∉ mark) : mark <+: a := by
  by_cases hlength : mark.length ≤ a.length
  · exact List.prefix_of_prefix_length_le h (List.prefix_append a b) hlength
  · obtain ⟨d, rfl⟩ := List.prefix_of_prefix_length_le (List.prefix_append a b) h (by omega)
    have hd := (List.prefix_append_right_inj a).mp h
    cases d with
    | nil => simp at hlength
    | cons c d =>
      obtain ⟨more, rfl⟩ := hd
      exact absurd (by simp) (hb c rfl)

/-- Copies are counted on either side of a seam that no copy lies across. -/
theorem occurrences_append (hm : mark ≠ []) {y : Text}
    (hseam : ∀ start, start ≠ [] → mark <+: start ++ y → mark <+: start) (x : Text) :
    occurrences mark (x ++ y) = occurrences mark x + occurrences mark y := by
  induction x with
  | nil => rw [occurrences_nil hm, List.nil_append, Nat.zero_add]
  | cons c x ih =>
    by_cases hp : mark <+: c :: x
    · have hp' : mark <+: c :: (x ++ y) := hp.trans (List.prefix_append (c :: x) y)
      rw [List.cons_append, occurrences_cons_of_begins hp, occurrences_cons_of_begins hp', ih]
      omega
    · have hp' : ¬ mark <+: c :: (x ++ y) := fun h => hp (hseam (c :: x) (List.cons_ne_nil c x) h)
      rw [List.cons_append, occurrences_cons hp, occurrences_cons hp', ih]

/-- A copy of `other` that begins in a copy of `mark` begins where that one does. -/
def Apart (mark other : Text) : Prop :=
  ∀ rest after : Text, rest ≠ [] → rest <:+ mark → other <+: rest ++ after → rest = mark

/-- A copy that begins before another one ends before it. -/
theorem Apart.prefix_of_append {other x y : Text} (hapart : Apart mark other) (hx : x ≠ [])
    (h : mark <+: x ++ (other ++ y)) : mark <+: x := by
  rcases List.prefix_or_prefix_of_prefix h (List.prefix_append x _) with hp | ⟨rest, hrest⟩
  · exact hp
  · by_cases hne : rest = []
    · rw [← hrest, hne, List.append_nil]
    · have hbegin : rest <+: other ++ y := by
        rw [← List.prefix_append_right_inj x, hrest]
        exact h
      have hother : ∃ after, other <+: rest ++ after := by
        rcases List.prefix_or_prefix_of_prefix hbegin (List.prefix_append other y) with
          ⟨after, hafter⟩ | hp
        · exact ⟨after, hafter ▸ List.prefix_rfl⟩
        · exact ⟨[], hp.trans (List.prefix_append rest [])⟩
      obtain ⟨after, hafter⟩ := hother
      have hsame := hapart rest after hne ⟨x, hrest⟩ hafter
      rw [hsame] at hrest
      exact absurd (List.append_left_eq_self.mp hrest) hx

/-- No copy of the other mark begins behind the first character of a mark. -/
theorem Apart.occurrences_append {other rest : Text} (hapart : Apart mark other)
    (hsuffix : rest <:+ mark) (hne : rest ≠ mark) (t : Text) :
    occurrences other (rest ++ t) = occurrences other t := by
  induction rest with
  | nil => rfl
  | cons c rest ih =>
    have hnot : ¬ other <+: c :: (rest ++ t) := fun hp =>
      hne (hapart (c :: rest) t (List.cons_ne_nil c rest) hsuffix hp)
    have hne' : rest ≠ mark := by
      rintro rfl
      have hle := hsuffix.length_le
      rw [List.length_cons] at hle
      omega
    rw [List.cons_append, occurrences_cons hnot, ih ((List.suffix_cons c rest).trans hsuffix) hne']

section Apart

variable (hm : mark ≠ []) (hself : Apart mark mark)

include hm hself in
theorem occurrences_append_self (t : Text) :
    occurrences mark (mark ++ t) = occurrences mark t + 1 := by
  obtain ⟨c, rest, rfl⟩ := List.exists_cons_of_ne_nil hm
  have hprefix : c :: rest <+: c :: (rest ++ t) := List.prefix_append (c :: rest) t
  rw [List.cons_append, occurrences_cons_of_begins hprefix,
    hself.occurrences_append (List.suffix_cons c rest) (by simp)]

include hm hself in
theorem occurrences_append_mark (x y : Text) :
    occurrences mark (x ++ (mark ++ y)) = occurrences mark x + occurrences mark y + 1 := by
  rw [occurrences_append hm (fun _ => hself.prefix_of_append), occurrences_append_self hm hself,
    Nat.add_assoc]

/-- A text without a copy, or one with a first copy. -/
theorem exists_first_copy (hm : mark ≠ []) (t : Text) :
    occurrences mark t = 0 ∨ ∃ x y, occurrences mark x = 0 ∧ t = x ++ (mark ++ y) := by
  induction t using mark_induction hm with
  | nil => exact Or.inl (occurrences_nil hm)
  | copy t ih => exact Or.inr ⟨[], t, occurrences_nil hm, rfl⟩
  | char c t hp ih =>
    rcases ih with hnone | ⟨x, y, hnone, rfl⟩
    · exact Or.inl ((occurrences_cons hp).trans hnone)
    · have hp' : ¬ mark <+: c :: x := fun h => hp (h.trans (List.prefix_append (c :: x) _))
      exact Or.inr ⟨c :: x, y, (occurrences_cons hp').trans hnone, rfl⟩

/-- A text is made from its end, of marks that stand behind texts without one. -/
theorem first_copy_induction (hm : mark ≠ []) {P : Text → Prop}
    (bare : ∀ t, occurrences mark t = 0 → P t)
    (copy : ∀ x y, occurrences mark x = 0 → P y → P (x ++ (mark ++ y))) (t : Text) : P t := by
  induction hlength : t.length using Nat.strong_induction_on generalizing t with
  | _ length ih =>
    rcases exists_first_copy hm t with hnone | ⟨x, y, hnone, rfl⟩
    · exact bare t hnone
    · have hpos := List.length_pos_iff.mpr hm
      rw [List.length_append, List.length_append] at hlength
      exact copy x y hnone (ih y.length (by omega) y rfl)

include hm hself in
/-- The text on either side of a copy is replaced in by itself. -/
theorem replace_append_mark (x y new : Text) :
    replace (x ++ (mark ++ y)) mark new = replace x mark new ++ (new ++ replace y mark new) := by
  induction x using mark_induction hm with
  | nil => rw [List.nil_append, replace_append_self hm, replace_nil, List.nil_append]
  | copy x ih =>
    rw [List.append_assoc, replace_append_self hm, ih, replace_append_self hm, List.append_assoc]
  | char c x hp ih =>
    have hp' : ¬ mark <+: c :: (x ++ (mark ++ y)) := fun h =>
      hp (hself.prefix_of_append (List.cons_ne_nil c x) h)
    rw [List.cons_append, replace_cons hp', replace_cons hp, ih, List.cons_append]

include hm hself in
theorem length_replace (t new : Text) :
    (replace t mark new).length + occurrences mark t * mark.length =
      t.length + occurrences mark t * new.length := by
  induction t using mark_induction hm with
  | nil => simp [occurrences_nil hm]
  | copy t ih =>
    simp only [replace_append_self hm, occurrences_append_self hm hself, List.length_append,
      Nat.add_mul, Nat.one_mul]
    omega
  | char c t hp ih =>
    simp only [replace_cons hp, occurrences_cons hp, List.length_cons]
    omega

theorem replace_self (hm : mark ≠ []) (t : Text) : replace t mark mark = t := by
  induction t using mark_induction hm with
  | nil => rfl
  | copy t ih => rw [replace_append_self hm, ih]
  | char c t hp ih => rw [replace_cons hp, ih]

include hm hself in
/-- Replacing changes nothing just when there is no copy, or the mark takes its own place. -/
theorem replace_eq_self_iff (t new : Text) :
    replace t mark new = t ↔ new = mark ∨ occurrences mark t = 0 := by
  constructor
  · intro h
    induction t using mark_induction hm with
    | nil => exact Or.inr (occurrences_nil hm)
    | copy t ih =>
      have hlength := length_replace hm hself (mark ++ t) new
      rw [h, occurrences_append_self hm hself] at hlength
      have hsame : new.length = mark.length :=
        (Nat.eq_of_mul_eq_mul_left (Nat.succ_pos _) (Nat.add_left_cancel hlength)).symm
      rw [replace_append_self hm] at h
      exact Or.inl (List.append_inj_left h hsame)
    | char c t hp ih =>
      rw [replace_cons hp] at h
      rw [occurrences_cons hp]
      exact ih (List.cons.inj h).2
  · rintro (rfl | hnone)
    · exact replace_self hm t
    · induction t using mark_induction hm with
      | nil => rfl
      | copy t ih => rw [occurrences_append_self hm hself] at hnone; cases hnone
      | char c t hp ih =>
        rw [occurrences_cons hp] at hnone
        rw [replace_cons hp, ih hnone]

end Apart

end DocComment.Text
