import DocComment.Keyed
import Mathlib.Order.Defs.Unbundled

/-!
# Laws of keyed lists

Binding a key changes what that key gives and nothing else.  While the keys increase, each of them
stands once, so membership and access by key say the same.
-/

namespace DocComment.Keyed

variable {κ ν : Type}

/-- The keys increase along the list. -/
def Increasing [LT κ] (m : Keyed κ ν) : Prop := (m.map Prod.fst).Pairwise (· < ·)

@[simp] theorem increasing_nil [LT κ] : Increasing ([] : Keyed κ ν) := List.Pairwise.nil

theorem increasing_cons [LT κ] {k : κ} {v : ν} {m : Keyed κ ν} :
    Increasing ((k, v) :: m) ↔ (∀ p ∈ m, k < p.1) ∧ Increasing m := by
  simp [Increasing]

theorem increasing_map [LT κ] {μ : Type} {f : ν → μ} {m : Keyed κ ν} (h : Increasing m) :
    Increasing (m.map fun p => (p.1, f p.2)) := by
  rw [Increasing, List.map_map]
  exact h

theorem Increasing.nodup [LT κ] [Std.Irrefl (α := κ) (· < ·)] {m : Keyed κ ν} (h : Increasing m) :
    (m.map Prod.fst).Nodup := by
  refine List.Pairwise.imp ?_ h
  rintro k _ hlt rfl
  exact irrefl_of (· < ·) k hlt

variable [DecidableEq κ]

theorem mem_of_get? {k : κ} {v : ν} {m : Keyed κ ν} (h : get? k m = some v) : (k, v) ∈ m := by
  induction m with
  | nil => cases h
  | cons p m ih =>
    obtain ⟨j, w⟩ := p
    by_cases hj : k = j
    · simp only [get?, hj, if_true, Option.some.injEq] at h
      rw [hj, h]
      exact List.mem_cons_self
    · rw [get?, if_neg hj] at h
      exact List.mem_cons_of_mem _ (ih h)

/-- Where no key is bound twice, the bindings are what access by key gives. -/
theorem get?_eq_some_iff {m : Keyed κ ν} (h : (m.map Prod.fst).Nodup) {k : κ} {v : ν} :
    get? k m = some v ↔ (k, v) ∈ m := by
  refine ⟨mem_of_get?, fun hm => ?_⟩
  induction m with
  | nil => cases hm
  | cons p m ih =>
    obtain ⟨j, w⟩ := p
    rw [List.map_cons, List.nodup_cons] at h
    rcases List.mem_cons.mp hm with heq | hrest
    · cases heq
      rw [get?, if_pos rfl]
    · have hkj : k ≠ j := by
        rintro rfl
        exact h.1 (List.mem_map.mpr ⟨_, hrest, rfl⟩)
      rw [get?, if_neg hkj]
      exact ih h.2 hrest

theorem get?_of_perm {m m' : Keyed κ ν} (h : m'.Perm m) (hm : (m.map Prod.fst).Nodup) (k : κ) :
    get? k m' = get? k m := by
  have hm' : (m'.map Prod.fst).Nodup := (h.map Prod.fst).nodup_iff.mpr hm
  ext v
  rw [get?_eq_some_iff hm', get?_eq_some_iff hm, h.mem_iff]

theorem Increasing.get?_of_mem [LT κ] [Std.Irrefl (α := κ) (· < ·)] {m : Keyed κ ν}
    (h : Increasing m) {k : κ} {v : ν} (hm : (k, v) ∈ m) : get? k m = some v :=
  (get?_eq_some_iff h.nodup).mpr hm

/-- Keyed lists in order that answer alike are the same list. -/
theorem Increasing.ext [LT κ] [IsStrictTotalOrder κ (· < ·)] {m m' : Keyed κ ν}
    (h : Increasing m) (h' : Increasing m') (heq : ∀ k, get? k m = get? k m') : m = m' := by
  have hmem : ∀ p : κ × ν, p ∈ m ↔ p ∈ m' := by
    rintro ⟨k, v⟩
    constructor
    · intro hp
      exact mem_of_get? ((heq k).symm.trans (h.get?_of_mem hp))
    · intro hp
      exact mem_of_get? ((heq k).trans (h'.get?_of_mem hp))
  have hlt : m.Pairwise (fun p q => p.1 < q.1) := List.pairwise_map.mp h
  have hlt' : m'.Pairwise (fun p q => p.1 < q.1) := List.pairwise_map.mp h'
  have hne : ∀ {p q : κ × ν}, p.1 < q.1 → p ≠ q := by
    rintro p q hpq rfl
    exact irrefl_of (· < ·) p.1 hpq
  have hperm := (List.perm_ext_iff_of_nodup (hlt.imp hne) (hlt'.imp hne)).mpr hmem
  refine hperm.eq_of_pairwise ?_ hlt hlt'
  intro p q _ _ hpq hqp
  exact absurd (trans_of (· < ·) hpq hqp) (irrefl_of (· < ·) p.1)

theorem get?_map {μ : Type} (f : ν → μ) (k : κ) (m : Keyed κ ν) :
    get? k (m.map fun p => (p.1, f p.2)) = (get? k m).map f := by
  induction m with
  | nil => rfl
  | cons p m ih =>
    obtain ⟨j, w⟩ := p
    by_cases hj : k = j
    · simp [get?, hj]
    · simp [get?, hj, ih]

/-- Keys may be renamed as long as they stay apart. -/
theorem get?_map_key {κ' μ : Type} [DecidableEq κ'] {name : κ → κ'} (h : Function.Injective name)
    (f : ν → μ) (k : κ) (m : Keyed κ ν) :
    get? (name k) (m.map fun p => (name p.1, f p.2)) = (get? k m).map f := by
  induction m with
  | nil => rfl
  | cons p m ih =>
    obtain ⟨j, w⟩ := p
    by_cases hj : k = j
    · simp [get?, hj]
    · simp [get?, h.eq_iff, hj, ih]

variable [LT κ] [DecidableLT κ]

theorem get?_insert (k k' : κ) (v : ν) (m : Keyed κ ν) :
    get? k' (insert k v m) = if k' = k then some v else get? k' m := by
  induction m with
  | nil => rfl
  | cons p m ih =>
    obtain ⟨j, w⟩ := p
    by_cases hj : k = j
    · subst hj
      by_cases hk : k' = k <;> simp [insert, get?, hk]
    · by_cases hlt : k < j
      · simp [insert, get?, hj, hlt]
      · rw [insert, if_neg hj, if_neg hlt, get?, get?, ih]
        by_cases hk : k' = k
        · subst hk
          simp [hj]
        · simp [hk]

theorem insert_insert (k : κ) (v w : ν) (m : Keyed κ ν) :
    insert k w (insert k v m) = insert k w m := by
  induction m with
  | nil => simp [insert]
  | cons p m ih =>
    obtain ⟨j, x⟩ := p
    by_cases hj : k = j
    · simp [insert, hj]
    · by_cases hlt : k < j
      · simp [insert, hj, hlt]
      · simp [insert, hj, hlt, ih]

theorem get?_foldl_insert {pairs : List (κ × ν)} (h : (pairs.map Prod.fst).Nodup) (m : Keyed κ ν)
    (k : κ) :
    get? k (pairs.foldl (fun m p => insert p.1 p.2 m) m) = (get? k pairs).or (get? k m) := by
  induction pairs generalizing m with
  | nil => rfl
  | cons p pairs ih =>
    obtain ⟨j, v⟩ := p
    rw [List.map_cons, List.nodup_cons] at h
    obtain ⟨hnew, hrest⟩ := h
    rw [List.foldl_cons, ih hrest, get?_insert, get?]
    by_cases hk : k = j
    · subst hk
      have hnone : get? k pairs = none := by
        cases hget : get? k pairs with
        | none => rfl
        | some w => exact absurd (List.mem_map_of_mem (f := Prod.fst) (mem_of_get? hget)) hnew
      simp [hnone]
    · simp [hk]

/-- Where no key is bound twice, the order of the bindings does not matter. -/
theorem get?_ofList {pairs : List (κ × ν)} (h : (pairs.map Prod.fst).Nodup) (k : κ) :
    get? k (ofList pairs) = get? k pairs := by
  rw [ofList, get?_foldl_insert h, get?, Option.or_none]

/-- Values may be changed under their keys before or after a binding is made. -/
theorem insert_map {μ : Type} (f : κ → ν → μ) (k : κ) (v : ν) (m : Keyed κ ν) :
    insert k (f k v) (m.map fun p => (p.1, f p.1 p.2)) =
      (insert k v m).map fun p => (p.1, f p.1 p.2) := by
  induction m with
  | nil => rfl
  | cons p m ih =>
    simp only [List.map_cons, insert, ih]
    split
    · rfl
    · split <;> rfl

theorem ofList_map {μ : Type} (f : κ → ν → μ) (pairs : List (κ × ν)) :
    ofList (pairs.map fun p => (p.1, f p.1 p.2)) =
      (ofList pairs).map fun p => (p.1, f p.1 p.2) := by
  have hfold : ∀ m : Keyed κ ν,
      (pairs.map fun p => (p.1, f p.1 p.2)).foldl (fun m p => insert p.1 p.2 m)
          (m.map fun p => (p.1, f p.1 p.2)) =
        (pairs.foldl (fun m p => insert p.1 p.2 m) m).map fun p => (p.1, f p.1 p.2) := by
    induction pairs with
    | nil => exact fun _ => rfl
    | cons p pairs ih =>
      intro m
      rw [List.map_cons, List.foldl_cons, List.foldl_cons, insert_map, ih]
  exact hfold []

theorem insert_ne_nil (k : κ) (v : ν) (m : Keyed κ ν) : insert k v m ≠ [] := by
  cases m with
  | nil => simp [insert]
  | cons p m =>
    rw [insert]
    split
    · simp
    · split <;> simp

private theorem eq_or_mem_of_mem_insert {k : κ} {v : ν} {m : Keyed κ ν} {p : κ × ν}
    (h : p ∈ insert k v m) : p = (k, v) ∨ p ∈ m := by
  induction m with
  | nil => exact Or.inl (List.mem_singleton.mp h)
  | cons q m ih =>
    rw [insert] at h
    split at h
    · rcases List.mem_cons.mp h with h | h
      · exact Or.inl h
      · exact Or.inr (List.mem_cons_of_mem _ h)
    · split at h
      · exact List.mem_cons.mp h
      · rcases List.mem_cons.mp h with rfl | h
        · exact Or.inr List.mem_cons_self
        · exact (ih h).imp_right (List.mem_cons_of_mem _)

theorem Increasing.insert [IsStrictTotalOrder κ (· < ·)] {m : Keyed κ ν} (h : Increasing m)
    (k : κ) (v : ν) : Increasing (Keyed.insert k v m) := by
  induction m with
  | nil => simp [Keyed.insert, Increasing]
  | cons p m ih =>
    obtain ⟨j, w⟩ := p
    obtain ⟨hlt, hinc⟩ := increasing_cons.mp h
    rw [Keyed.insert]
    split
    · rename_i hj
      subst hj
      exact increasing_cons.mpr ⟨hlt, hinc⟩
    · rename_i hj
      split
      · rename_i hkj
        refine increasing_cons.mpr ⟨?_, h⟩
        intro q hq
        rcases List.mem_cons.mp hq with rfl | hq
        · exact hkj
        · exact trans_of (· < ·) hkj (hlt q hq)
      · rename_i hkj
        refine increasing_cons.mpr ⟨?_, ih hinc⟩
        intro q hq
        rcases eq_or_mem_of_mem_insert hq with rfl | hq
        · rcases trichotomous_of (· < ·) j k with hjk | hjk | hjk
          · exact hjk
          · exact absurd hjk.symm hj
          · exact absurd hjk hkj
        · exact hlt q hq

end DocComment.Keyed
