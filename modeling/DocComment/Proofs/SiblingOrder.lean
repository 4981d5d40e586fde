import DocComment.Outline
import Mathlib.Data.List.Sort

/-! # The order of siblings

Sorting is insertion sort, so the library's laws apply.  Beyond them, leaving elements out before or
after a stable sort comes to the same, provided the comparison is total and transitive, as that of
siblings is. -/

namespace DocComment

section Sorting

variable {α β : Type} {le : α → α → Bool}

theorem sortBy_eq_insertionSort (le : α → α → Bool) (l : List α) :
    sortBy le l = l.insertionSort (fun a b => le a b = true) := by
  have hinsert : ∀ a (l : List α),
      insertBy le a l = l.orderedInsert (fun a b => le a b = true) a := by
    intro a l
    induction l with
    | nil => rfl
    | cons b l ih => simp only [insertBy, List.orderedInsert_cons, ih]
  induction l with
  | nil => rfl
  | cons a l ih =>
    rw [List.insertionSort_cons, ← ih, ← hinsert]
    rfl

theorem map_sortBy_of_mem (le : α → α → Bool) (le' : β → β → Bool) (f : α → β) {l : List α}
    (h : ∀ a ∈ l, ∀ b ∈ l, le' (f a) (f b) = le a b) : (sortBy le l).map f = sortBy le' (l.map f) := by
  rw [sortBy_eq_insertionSort, sortBy_eq_insertionSort]
  apply List.map_insertionSort
  intro a ha b hb
  rw [h a ha b hb]

theorem map_sortBy (le : α → α → Bool) (le' : β → β → Bool) (f : α → β)
    (h : ∀ a b, le' (f a) (f b) = le a b) (l : List α) : (sortBy le l).map f = sortBy le' (l.map f) :=
  map_sortBy_of_mem le le' f fun a _ b _ => h a b

theorem insertBy_of_forall {a : α} {l : List α} (h : ∀ b ∈ l, le a b = true) :
    insertBy le a l = a :: l := by
  cases l with
  | nil => rfl
  | cons b l => rw [insertBy, if_pos (h b List.mem_cons_self)]

theorem filter_insertBy_of_neg {p : α → Bool} {a : α} (ha : p a = false) (l : List α) :
    (insertBy le a l).filter p = l.filter p := by
  induction l with
  | nil => simp [insertBy, ha]
  | cons b l ih =>
    rw [insertBy]
    split
    · simp [ha]
    · simp [List.filter_cons, ih]

variable (le) (htotal : ∀ a b, le a b = true ∨ le b a = true)
  (htrans : ∀ a b c, le a b = true → le b c = true → le a c = true)

include htrans in
theorem filter_insertBy_of_pos {p : α → Bool} {a : α} (ha : p a = true) {l : List α}
    (hl : l.Pairwise fun b c => le b c = true) :
    (insertBy le a l).filter p = insertBy le a (l.filter p) := by
  induction l with
  | nil => simp [insertBy, ha]
  | cons b l ih =>
    obtain ⟨hb, hl⟩ := List.pairwise_cons.mp hl
    rw [insertBy]
    split
    · rename_i hab
      have hall : ∀ c ∈ (b :: l).filter p, le a c = true := by
        intro c hc
        rcases List.mem_cons.mp (List.mem_filter.mp hc).1 with rfl | hc
        · exact hab
        · exact htrans a b c hab (hb c hc)
      rw [insertBy_of_forall hall, List.filter_cons_of_pos ha]
    · rename_i hab
      cases hpb : p b with
      | true => simp [hpb, insertBy, hab, ih hl]
      | false => simp [hpb, ih hl]

include htotal htrans in
theorem pairwise_sortBy (l : List α) : (sortBy le l).Pairwise fun a b => le a b = true := by
  have : Std.Total (fun a b => le a b = true) := ⟨htotal⟩
  have : IsTrans α (fun a b => le a b = true) := ⟨htrans⟩
  rw [sortBy_eq_insertionSort]
  exact List.pairwise_insertionSort _ l

include htotal htrans in
/-- Elements left out do not disturb the order of the others. -/
theorem filter_sortBy (p : α → Bool) (l : List α) :
    (sortBy le l).filter p = sortBy le (l.filter p) := by
  induction l with
  | nil => rfl
  | cons a l ih =>
    have hsorted := pairwise_sortBy le htotal htrans l
    change (insertBy le a (sortBy le l)).filter p = _
    cases ha : p a with
    | true =>
      rw [filter_insertBy_of_pos le htrans ha hsorted, ih, List.filter_cons_of_pos ha]
      rfl
    | false => rw [filter_insertBy_of_neg ha, ih, List.filter_cons_of_neg (by simp [ha])]

end Sorting

namespace Node

theorem precedes_iff (a b : Node) :
    a.precedes b = true ↔ b.line < a.line ∨
      a.line = b.line ∧ (a.block.isSome = b.block.isSome ∧ a.number ≤ b.number ∨
        a.block.isSome = true ∧ b.block.isSome = false) := by
  unfold precedes
  by_cases hline : a.line = b.line
  · cases a.block.isSome <;> cases b.block.isSome <;> simp [hline]
  · simp [hline]

theorem precedes_total (a b : Node) : a.precedes b = true ∨ b.precedes a = true := by
  rw [precedes_iff, precedes_iff]
  rcases Nat.lt_trichotomy a.line b.line with hlt | heq | hlt
  · exact Or.inr (Or.inl hlt)
  · have hnumber := Nat.le_total a.number b.number
    cases ha : a.block.isSome <;> cases hb : b.block.isSome <;> simp [heq, hnumber]
  · exact Or.inl (Or.inl hlt)

theorem precedes_trans (a b c : Node) (hab : a.precedes b = true) (hbc : b.precedes c = true) :
    a.precedes c = true := by
  rw [precedes_iff] at *
  rcases hab with hab | ⟨hab, hab'⟩
  · rcases hbc with hbc | ⟨hbc, -⟩
    · exact Or.inl (Nat.lt_trans hbc hab)
    · exact Or.inl (hbc ▸ hab)
  · rcases hbc with hbc | ⟨hbc, hbc'⟩
    · exact Or.inl (hab ▸ hbc)
    · refine Or.inr ⟨hab.trans hbc, ?_⟩
      rcases hab' with ⟨hsame, hle⟩ | ⟨ha, hb⟩
      · rcases hbc' with ⟨hsame', hle'⟩ | ⟨hb, hc⟩
        · exact Or.inl ⟨hsame.trans hsame', hle.trans hle'⟩
        · exact Or.inr ⟨hsame.trans hb, hc⟩
      · rcases hbc' with ⟨hsame', -⟩ | ⟨hb', -⟩
        · exact Or.inr ⟨ha, hsame'.symm.trans hb⟩
        · rw [hb] at hb'
          cases hb'

theorem ranked_perm (n : Node) : n.ranked.Perm n.children := sortBy_perm _ n.children

theorem pairwise_ranked (n : Node) : n.ranked.Pairwise fun c d => c.2.precedes d.2 = true :=
  pairwise_sortBy _ (fun c d => precedes_total c.2 d.2)
    (fun b c d => precedes_trans b.2 c.2 d.2) n.children

end Node

end DocComment
