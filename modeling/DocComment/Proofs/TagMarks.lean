import DocComment.Tag
import DocComment.Proofs.TextWords
import Mathlib.Data.List.Nodup

/-!
# Marks

The mark of a tag holds no white space, and a mark that is no delimiter introduces a line just when
it is the first word of it.  The marks tell the tags apart, so a line is introduced by one tag at
most and the order in which they are tried does not matter.
-/

namespace DocComment.Tag
open Text

theorem mem_all (tag : Tag) : tag ∈ all := by
  cases tag <;> decide

theorem eq_start_or_stop {tag : Tag} (h : tag.category = .delimiter) : tag = start ∨ tag = stop := by
  cases tag <;> simp [category] at h ⊢

theorem mark_nonblank (tag : Tag) : ∀ c ∈ tag.mark, isBlank c = false := by
  have hall : tag.mark.all (!isBlank ·) = true := by cases tag <;> rfl
  simpa using hall

theorem mark_injective : Function.Injective mark := by
  have hnodup : (all.map mark).Nodup := by decide
  intro a b h
  exact List.inj_on_of_nodup_map hnodup (mem_all a) (mem_all b) h

theorem name_injective : Function.Injective name := by
  have hnodup : (all.map name).Nodup := by decide
  intro a b h
  exact List.inj_on_of_nodup_map hnodup (mem_all a) (mem_all b) h

/-- The first character of the mark. -/
def initial : Tag → Char
  | start => '/'
  | stop => '*'
  | _ => '@'

theorem head?_mark (tag : Tag) : tag.mark.head? = some tag.initial := by
  cases tag <;> rfl

/-- A delimiter is told from every other tag by its first character. -/
theorem eq_of_initial_eq {a b : Tag} (ha : a.category = .delimiter) (h : a.initial = b.initial) :
    a = b := by
  have hall : ∀ a ∈ all, ∀ b ∈ all, a.category = .delimiter → a.initial = b.initial → a = b := by
    decide
  exact hall a (mem_all a) b (mem_all b) ha h

theorem mark_ne_nil (tag : Tag) : tag.mark ≠ [] := by
  intro h
  have hhead := head?_mark tag
  rw [h] at hhead
  cases hhead

theorem takeWhile_mark_append (tag : Tag) (rest : Text) :
    (tag.mark ++ rest).takeWhile (!isBlank ·) = tag.mark ++ rest.takeWhile (!isBlank ·) := by
  apply List.takeWhile_append_of_pos
  intro c hc
  simp [mark_nonblank tag c hc]

/-- A delimiter introduces what it begins, and any other mark what it is the first word of. -/
theorem introduces_iff (line : Text) (tag : Tag) :
    introduces line tag = true ↔
      if tag.category = .delimiter then tag.mark <+: line
      else line.takeWhile (!isBlank ·) = tag.mark := by
  unfold introduces
  cases hrest : tag.mark.isPrefixOf? line with
  | none =>
    have hnot : ¬ tag.mark <+: line := by
      rintro ⟨rest, h⟩
      rw [List.isPrefixOf?_eq_some_iff_append_eq.mpr h] at hrest
      cases hrest
    have hword : line.takeWhile (!isBlank ·) ≠ tag.mark := by
      intro h
      exact hnot (h ▸ List.takeWhile_prefix _)
    simp [hnot, hword]
  | some rest =>
    rw [List.isPrefixOf?_eq_some_iff_append_eq] at hrest
    subst hrest
    rw [takeWhile_mark_append]
    cases rest with
    | nil => simp
    | cons c rest => cases hc : isBlank c <;> simp [hc]

theorem mark_prefix_of_introduces {line : Text} {tag : Tag} (h : introduces line tag = true) :
    tag.mark <+: line := by
  rw [introduces_iff] at h
  split at h
  · exact h
  · exact h ▸ List.takeWhile_prefix _

/-- At most one tag introduces a line. -/
theorem introduces_unique {line : Text} {a b : Tag} (ha : introduces line a = true)
    (hb : introduces line b = true) : a = b := by
  have hinitial : a.initial = b.initial := by
    obtain ⟨rest, hrest⟩ := mark_prefix_of_introduces ha
    obtain ⟨rest', hrest'⟩ := mark_prefix_of_introduces hb
    have hhead := congrArg List.head? (hrest.trans hrest'.symm)
    simpa [List.head?_append, head?_mark] using hhead
  by_cases hda : a.category = .delimiter
  · exact eq_of_initial_eq hda hinitial
  · by_cases hdb : b.category = .delimiter
    · exact (eq_of_initial_eq hdb hinitial.symm).symm
    · rw [introduces_iff, if_neg hda] at ha
      rw [introduces_iff, if_neg hdb] at hb
      exact mark_injective (ha.symm.trans hb)

/-- The first tag that introduces a line is found wherever it stands among all the tags. -/
theorem find?_introduces_eq_some_iff {order : List Tag} (h : ∀ tag, tag ∈ order) {line : Text}
    {tag : Tag} : order.find? (introduces line) = some tag ↔ introduces line tag = true := by
  constructor
  · intro hfind
    exact List.find?_some hfind
  · intro htag
    cases hfind : order.find? (introduces line) with
    | none => exact absurd htag (List.find?_eq_none.mp hfind tag (h tag))
    | some found => rw [introduces_unique (List.find?_some hfind) htag]

theorem introducing?_eq_some_iff {line : Text} {tag : Tag} :
    introducing? line = some tag ↔ introduces line tag = true :=
  find?_introduces_eq_some_iff mem_all

theorem category_eq_delimiter_iff (tag : Tag) :
    tag.category = .delimiter ↔ tag.mark.head? ≠ some '@' := by
  cases tag <;> decide

/-- The tags may be tried in any order: no line is introduced by two of them.  A mark with an at sign is
the whole of the text before the first white space, and a delimiter begins the line. -/
theorem introducing?_in_any_order (line : Text) {order : List Tag} (h : order.Perm all) :
    (∀ a ∈ order, ∀ b ∈ order, introduces line a = true → introduces line b = true → a = b) ∧
      order.find? (introduces line) = introducing? line ∧
      ∀ tag : Tag, order.find? (introduces line) = some tag ↔
        if tag.mark.head? = some '@' then line.takeWhile (!isBlank ·) = tag.mark
        else tag.mark <+: line := by
  have hall : ∀ tag, tag ∈ order := fun tag => h.mem_iff.mpr (mem_all tag)
  refine ⟨fun a _ b _ => introduces_unique, ?_, fun tag => ?_⟩
  · ext tag
    rw [find?_introduces_eq_some_iff hall, introducing?_eq_some_iff]
  · rw [find?_introduces_eq_some_iff hall, introduces_iff]
    by_cases hat : tag.mark.head? = some '@'
    · have hcategory : tag.category ≠ .delimiter := by
        rw [Ne, category_eq_delimiter_iff, not_not]
        exact hat
      rw [if_pos hat, if_neg hcategory]
    · rw [if_neg hat, if_pos ((category_eq_delimiter_iff tag).mpr hat)]

/-- The mark of one tag begins the mark of another, which stands behind it in `all`. -/
theorem introducing?_in_any_order_of_methodOf :
    all.reverse.Perm all ∧
      all.reverse.find? (introduces "@methodOf Dog") = introducing? "@methodOf Dog" ∧
      introducing? "@methodOf Dog" = some .methodOf ∧ ("@method" : Text) <+: "@methodOf Dog" := by
  have horder : all.reverse.Perm all := List.reverse_perm all
  obtain ⟨-, hsame, hfirst⟩ := introducing?_in_any_order "@methodOf Dog" horder
  exact ⟨horder, hsame, hsame ▸ (hfirst .methodOf).mpr (by decide), by decide⟩

end DocComment.Tag
