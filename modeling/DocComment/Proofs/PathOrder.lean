import DocComment.Inputs
import Mathlib.Data.Char
import Mathlib.Data.List.Lex
import Mathlib.Data.List.Nodup

/-! # Path names in order

Components are totally ordered, and path names as the lists of their components.  The order does not tell
two spellings of one name apart, and the sort leaves them in the order in which they were collected.  So
dropping each path name that is the same as the one before leaves a strictly increasing list, in which
stands the first spelling of each. -/

namespace DocComment

theorem Component.ext_rank_text {a b : Component} (hrank : a.rank = b.rank) (htext : a.text = b.text) :
    a = b := by
  cases a <;> cases b <;> simp [rank] at hrank <;> first | rfl | exact congrArg name htext

instance : IsStrictTotalOrder Component (· < ·) where
  irrefl a := by
    rintro (h | ⟨-, h⟩)
    · exact Nat.lt_irrefl _ h
    · exact lt_irrefl a.text h
  trans a b c := by
    rintro (hab | ⟨hab, hab'⟩) (hbc | ⟨hbc, hbc'⟩)
    · exact Or.inl (Nat.lt_trans hab hbc)
    · exact Or.inl (hbc ▸ hab)
    · exact Or.inl (hab ▸ hbc)
    · exact Or.inr ⟨hab.trans hbc, lt_trans hab' hbc'⟩
  trichotomous a b hab hba := by
    obtain ⟨hrank, htext⟩ := not_or.mp hab
    obtain ⟨hrank', htext'⟩ := not_or.mp hba
    have hsame : a.rank = b.rank := Nat.le_antisymm (Nat.le_of_not_lt hrank') (Nat.le_of_not_lt hrank)
    apply Component.ext_rank_text hsame
    exact le_antisymm (not_lt.mp fun h => htext' ⟨hsame.symm, h⟩) (not_lt.mp fun h => htext ⟨hsame, h⟩)

instance : IsStrictTotalOrder (List Component) (· < ·) where
  irrefl := List.lt_irrefl
  trans _ _ _ := List.lt_trans
  trichotomous := (inferInstance : Std.Trichotomous (List.Lex (· < ·))).trichotomous

/-! ### Stable sorting -/

/-- Elements that may stand in any order keep theirs. -/
theorem filter_mergeSort {α : Type} {le : α → α → Bool}
    (htrans : ∀ a b c, le a b = true → le b c = true → le a c = true)
    (htotal : ∀ a b, (le a b || le b a) = true) {p : α → Bool}
    (hp : ∀ a b, p a = true → p b = true → le a b = true) (l : List α) :
    (l.mergeSort le).filter p = l.filter p := by
  have hall : (l.filter p).Pairwise fun a b => le a b = true :=
    List.pairwise_of_forall_mem_list fun a ha b hb =>
      hp a b (List.mem_filter.mp ha).2 (List.mem_filter.mp hb).2
  have hsub := (List.sublist_mergeSort htrans htotal hall List.filter_sublist).filter p
  simp only [List.filter_filter, Bool.and_self] at hsub
  exact (hsub.eq_of_length ((List.mergeSort_perm l le).filter p).length_eq.symm).symm

namespace PathName

theorem same_iff {a b : Text} : same a b = true ↔ components a = components b := beq_iff_eq

theorem precedes_iff {a b : Text} : precedes a b = true ↔ ¬ components b < components a := by
  simp [precedes]

theorem precedes_total (a b : Text) : (precedes a b || precedes b a) = true := by
  rw [Bool.or_eq_true, precedes_iff, precedes_iff]
  by_contra h
  obtain ⟨hba, hab⟩ := not_or.mp h
  exact irrefl_of (· < ·) _ (trans_of (· < ·) (not_not.mp hba) (not_not.mp hab))

theorem lt_or_eq_of_precedes {a b : Text} (h : precedes a b = true) :
    components a < components b ∨ components a = components b := by
  rcases trichotomous_of (fun c d : List Component => c < d) (components a) (components b) with
    hlt | heq | hgt
  · exact Or.inl hlt
  · exact Or.inr heq
  · exact absurd hgt (precedes_iff.mp h)

theorem precedes_trans (a b c : Text) (hab : precedes a b = true) (hbc : precedes b c = true) :
    precedes a c = true := by
  rcases lt_or_eq_of_precedes hab with hlt | heq
  · rcases lt_or_eq_of_precedes hbc with hlt' | heq'
    · rw [precedes_iff]
      exact asymm_of (· < ·) (trans_of (· < ·) hlt hlt')
    · rw [precedes_iff, ← heq']
      exact asymm_of (· < ·) hlt
  · rw [precedes_iff, heq]
    exact precedes_iff.mp hbc

end PathName

namespace Inputs
open PathName

/-- The first spelling of a path name is not dropped. -/
theorem find?_dropRepeats (path kept : Text) (rest : List Text) :
    (kept :: dropRepeats kept rest).find? (same path) = (kept :: rest).find? (same path) := by
  induction rest generalizing kept with
  | nil => rfl
  | cons next rest ih =>
    rw [dropRepeats]
    split
    · rename_i hsame
      have heq : same path next = same path kept := by
        rw [same, same, same_iff.mp hsame]
      rw [ih kept]
      cases h : same path kept <;> simp [heq, h]
    · rw [List.find?_cons, ih next, ← List.find?_cons]

theorem pairwise_dropRepeats {kept : Text} {rest : List Text}
    (h : (kept :: rest).Pairwise fun a b => precedes a b = true) :
    (kept :: dropRepeats kept rest).Pairwise fun a b => components a < components b := by
  induction rest generalizing kept with
  | nil => exact List.pairwise_singleton _ _
  | cons next rest ih =>
    obtain ⟨hkept, hrest⟩ := List.pairwise_cons.mp h
    rw [dropRepeats]
    split
    · exact ih (List.pairwise_cons.mpr
        ⟨fun a ha => hkept a (List.mem_cons_of_mem _ ha), hrest.of_cons⟩)
    · rename_i hsame
      have hlt : components kept < components next :=
        (lt_or_eq_of_precedes (hkept next List.mem_cons_self)).resolve_right
          fun heq => hsame (same_iff.mpr heq)
      have hbehind := ih hrest
      refine List.pairwise_cons.mpr ⟨?_, hbehind⟩
      intro a ha
      rcases List.mem_cons.mp ha with rfl | ha
      · exact hlt
      · exact trans_of (· < ·) hlt (List.rel_of_pairwise_cons hbehind ha)

/-! ### Arranged path names -/

theorem pairwise_arrange (paths : List Text) :
    (arrange paths).Pairwise fun a b => components a < components b := by
  have hsorted := List.pairwise_mergeSort precedes_trans precedes_total paths
  rw [arrange]
  split
  · exact List.Pairwise.nil
  · rename_i heq
    exact pairwise_dropRepeats (heq ▸ hsorted)

/-- Of each path name the first spelling is kept. -/
theorem find?_arrange (path : Text) (paths : List Text) :
    (arrange paths).find? (same path) = paths.find? (same path) := by
  have hp : ∀ a b, same path a = true → same path b = true → precedes a b = true := by
    intro a b ha hb
    rw [precedes_iff, ← same_iff.mp ha, ← same_iff.mp hb]
    exact irrefl_of (· < ·) _
  rw [← List.head?_filter (l := paths), ← filter_mergeSort precedes_trans precedes_total hp,
    List.head?_filter, arrange]
  split
  · rename_i heq
    rw [heq]
  · rename_i heq
    rw [heq, find?_dropRepeats]

theorem nodup_arrange (paths : List Text) : ((arrange paths).map components).Nodup := by
  rw [List.Nodup, List.pairwise_map]
  refine (pairwise_arrange paths).imp ?_
  intro a b hlt heq
  exact irrefl_of (· < ·) _ (heq ▸ hlt)

theorem exists_first_spelling {path : Text} {paths : List Text} (h : path ∈ paths) :
    ∃ found, paths.find? (same path) = some found ∧ components found = components path := by
  have hself : same path path = true := same_iff.mpr rfl
  obtain ⟨found, hfound⟩ := Option.isSome_iff_exists.mp (List.find?_isSome.mpr ⟨path, h, hself⟩)
  exact ⟨found, hfound, (same_iff.mp (List.find?_some hfound)).symm⟩

/-- A path name is in the arrangement in its first spelling and in no other. -/
theorem mem_arrange_iff {path : Text} {paths : List Text} :
    path ∈ arrange paths ↔ paths.find? (same path) = some path := by
  rw [← find?_arrange]
  constructor
  · intro hmem
    obtain ⟨found, hfound, heq⟩ := exists_first_spelling hmem
    rw [hfound, List.inj_on_of_nodup_map (nodup_arrange paths) (List.mem_of_find?_eq_some hfound) hmem heq]
  · exact List.mem_of_find?_eq_some

theorem mem_map_components_arrange {cs : List Component} {paths : List Text} :
    cs ∈ (arrange paths).map components ↔ cs ∈ paths.map components := by
  rw [List.mem_map, List.mem_map]
  constructor
  · rintro ⟨path, hpath, rfl⟩
    exact ⟨path, List.mem_of_find?_eq_some (mem_arrange_iff.mp hpath), rfl⟩
  · rintro ⟨path, hpath, rfl⟩
    obtain ⟨found, hfound, heq⟩ := exists_first_spelling hpath
    exact ⟨found, List.mem_of_find?_eq_some ((find?_arrange path paths).trans hfound), heq⟩

theorem exists_same_arrange_iff (path : Text) (paths : List Text) :
    (∃ p ∈ arrange paths, same p path = true) ↔ ∃ p ∈ paths, same p path = true := by
  simp only [same_iff, ← List.mem_map, mem_map_components_arrange]

/-- The arrangement depends on which path names there are, and but for the spelling on nothing else. -/
theorem map_components_arrange {paths paths' : List Text} (h : ∀ path, path ∈ paths ↔ path ∈ paths') :
    (arrange paths).map components = (arrange paths').map components := by
  have hperm : ((arrange paths).map components).Perm ((arrange paths').map components) := by
    rw [List.perm_ext_iff_of_nodup (nodup_arrange paths) (nodup_arrange paths')]
    intro cs
    rw [mem_map_components_arrange, mem_map_components_arrange]
    simp only [List.mem_map, h]
  refine hperm.eq_of_pairwise ?_ (List.pairwise_map.mpr (pairwise_arrange paths))
    (List.pairwise_map.mpr (pairwise_arrange paths'))
  intro a b _ _ hab hba
  exact absurd hba (asymm_of (· < ·) hab)

end Inputs

end DocComment
