import DocComment.Proofs.RichText
import DocComment.Proofs.TextReplacement

/-! # Tags of the page's own

Every `<` of a text is to begin a tag of one of the elements that a page is made of.  Texts with this
property may be put together in any way, and they may be cut at every character that stands in no
tag.  An escaped text has no `<` at all, and the notations of a description add tags of the page
only, so a description has the property whatever was written in the source. -/

namespace DocComment

namespace Markup

/-- The elements that a page is made of. -/
def tagNames : List Text :=
  ["h2", "h3", "br", "pre", "div", "table", "thead", "tr", "th", "td", "i", "code", "a", "input",
    "label"]

/-- How tags begin: an opening tag with its name and the character behind it, a closing tag with
all of it. -/
def tagMarks : List Text :=
  tagNames.flatMap fun name => ['<' :: name ++ ['>'], '<' :: name ++ [' '], '<' :: '/' :: name ++ ['>']]

/-- Every `<` of the text begins a tag of the page's own. -/
def OwnTags (t : Text) : Prop :=
  ∀ rest, '<' :: rest <:+ t → ∃ mark ∈ tagMarks, mark <+: '<' :: rest

instance : DecidablePred OwnTags := fun t =>
  decidable_of_iff (∀ u ∈ t.tails, u.head? = some '<' → ∃ mark ∈ tagMarks, mark <+: u) <| by
    constructor
    · intro h rest hrest
      exact h _ ((List.mem_tails _ _).mpr hrest) rfl
    · intro h u hu hhead
      obtain ⟨rest, rfl⟩ := List.head?_eq_some_iff.mp hhead
      exact h rest ((List.mem_tails _ _).mp hu)

/-- Behind the beginning of a tag the character stands in no tag. -/
def Breaking (c : Char) : Prop := ∀ mark ∈ tagMarks, c ∉ mark.tail

instance : DecidablePred Breaking := fun c =>
  inferInstanceAs (Decidable (∀ mark ∈ tagMarks, c ∉ mark.tail))

/-! ### Putting together and cutting -/

theorem ownTags_nil : OwnTags [] := by
  intro rest hrest
  simp at hrest

theorem ownTags_cons {c : Char} {t : Text} :
    OwnTags (c :: t) ↔ (c = '<' → ∃ mark ∈ tagMarks, mark <+: '<' :: t) ∧ OwnTags t := by
  constructor
  · intro h
    refine ⟨?_, fun rest hrest => h rest (hrest.trans (List.suffix_cons c t))⟩
    rintro rfl
    exact h t List.suffix_rfl
  · rintro ⟨hhead, htail⟩ rest hrest
    rcases List.suffix_cons_iff.mp hrest with heq | hrest
    · obtain ⟨rfl, rfl⟩ := List.cons.inj heq
      exact hhead rfl
    · exact htail rest hrest

theorem ownTags_of_notMem {t : Text} (h : '<' ∉ t) : OwnTags t := by
  intro rest hrest
  exact absurd (hrest.subset List.mem_cons_self) h

theorem OwnTags.append {a b : Text} (ha : OwnTags a) (hb : OwnTags b) : OwnTags (a ++ b) := by
  induction a with
  | nil => exact hb
  | cons c a ih =>
    obtain ⟨hhead, htail⟩ := ownTags_cons.mp ha
    refine ownTags_cons.mpr ⟨fun hc => ?_, ih htail⟩
    obtain ⟨mark, hmark, hpre⟩ := hhead hc
    exact ⟨mark, hmark, hpre.trans (List.prefix_append ('<' :: a) b)⟩

theorem OwnTags.of_suffix {t u : Text} (h : OwnTags t) (hu : u <:+ t) : OwnTags u :=
  fun rest hrest => h rest (hrest.trans hu)

/-- Before a breaking character no tag can be left open. -/
theorem OwnTags.of_append {a b : Text} (h : OwnTags (a ++ b)) (hb : ∀ c ∈ b.head?, Breaking c) :
    OwnTags a := by
  induction a with
  | nil => exact ownTags_nil
  | cons c a ih =>
    rw [List.cons_append, ownTags_cons] at h
    obtain ⟨hhead, htail⟩ := h
    refine ownTags_cons.mpr ⟨fun hc => ?_, ih htail⟩
    obtain ⟨mark, hmark, hpre⟩ := hhead hc
    refine ⟨mark, hmark, ?_⟩
    cases mark with
    | nil => exact List.nil_prefix
    | cons first mark =>
      obtain ⟨hfirst, htail⟩ := List.cons_prefix_cons.mp hpre
      have hnot : ∀ d ∈ b.head?, d ∉ mark := fun d hd => hb d hd _ hmark
      exact List.cons_prefix_cons.mpr ⟨hfirst, Text.prefix_of_prefix_append htail hnot⟩

/-- What stands in a text before a breaking character has the property of the text. -/
theorem OwnTags.of_infix {a u : Text} {c : Char} (h : OwnTags u) (hc : Breaking c)
    (ha : a ++ [c] <:+: u) : OwnTags a := by
  obtain ⟨x, y, rfl⟩ := ha
  rw [List.append_assoc, List.append_assoc] at h
  refine (h.of_suffix (List.suffix_append x _)).of_append ?_
  intro d hd
  cases hd
  exact hc

theorem OwnTags.flatten {l : List Text} (h : ∀ t ∈ l, OwnTags t) : OwnTags l.flatten := by
  induction l with
  | nil => exact ownTags_nil
  | cons t l ih =>
    obtain ⟨ht, hl⟩ := List.forall_mem_cons.mp h
    exact ht.append (ih hl)

theorem OwnTags.flatMap {α : Type} {f : α → Text} {l : List α} (h : ∀ a ∈ l, OwnTags (f a)) :
    OwnTags (l.flatMap f) := by
  rw [List.flatMap_def]
  apply OwnTags.flatten
  intro t ht
  obtain ⟨a, ha, rfl⟩ := List.mem_map.mp ht
  exact h a ha

theorem OwnTags.intercalate {sep : Text} (hsep : OwnTags sep) {l : List Text}
    (h : ∀ t ∈ l, OwnTags t) : OwnTags (sep.intercalate l) := by
  induction l with
  | nil => exact ownTags_nil
  | cons t l ih =>
    obtain ⟨ht, hl⟩ := List.forall_mem_cons.mp h
    cases l with
    | nil => simpa using ht
    | cons next rest =>
      rw [List.intercalate_cons_cons]
      exact (ht.append hsep).append (ih hl)

/-! ### Elements -/

theorem element_eq (name : Text) (attributes : List (Text × Text)) (content : Text) :
    element name attributes content = List.flatten [['<'], name,
      attributes.flatMap fun a => List.flatten [[' '], a.1, "='", a.2, "'"],
      ['>'], content, "</", name, ['>']] :=
  rfl

theorem OwnTags.element {name : Text} (hname : name ∈ tagNames) {attributes : List (Text × Text)}
    (hattributes : ∀ a ∈ attributes, OwnTags a.1 ∧ OwnTags a.2) {content : Text}
    (hcontent : OwnTags content) : OwnTags (Markup.element name attributes content) := by
  have hmark : ∀ mark ∈ tagMarks, OwnTags mark := by decide
  have hmarks : ∀ mark ∈ ['<' :: name ++ ['>'], '<' :: name ++ [' '], '<' :: '/' :: name ++ ['>']],
      OwnTags mark := by
    intro mark hm
    exact hmark mark (List.mem_flatMap.mpr ⟨name, hname, hm⟩)
  simp only [List.forall_mem_cons] at hmarks
  obtain ⟨hbare, hspaced, hclosing, -⟩ := hmarks
  have hopening : OwnTags ('<' :: name ++ (attributes.flatMap fun a =>
      List.flatten [[' '], a.1, "='", a.2, "'"]) ++ ['>']) := by
    cases attributes with
    | nil => simpa using hbare
    | cons a attributes =>
      obtain ⟨⟨hkey, hvalue⟩, hrest⟩ := List.forall_mem_cons.mp hattributes
      have hfirst : OwnTags (List.flatten [a.1, "='", a.2, "'"]) := by
        apply OwnTags.flatten
        simp only [List.forall_mem_cons]
        exact ⟨hkey, by decide, hvalue, by decide, by simp⟩
      have hothers : OwnTags (attributes.flatMap fun a =>
          List.flatten [[' '], a.1, "='", a.2, "'"]) := by
        apply OwnTags.flatMap
        intro b hb
        obtain ⟨hkey, hvalue⟩ := hrest b hb
        apply OwnTags.flatten
        simp only [List.forall_mem_cons]
        exact ⟨by decide, hkey, by decide, hvalue, by decide, by simp⟩
      have hall := hspaced.append (hfirst.append (hothers.append (by decide : OwnTags ['>'])))
      simpa using hall
  have hwhole := hopening.append (hcontent.append hclosing)
  simpa [element_eq] using hwhole

theorem OwnTags.element_nil {name : Text} (hname : name ∈ tagNames) {content : Text}
    (hcontent : OwnTags content) : OwnTags (Markup.element name [] content) :=
  OwnTags.element hname (by simp) hcontent

/-! ### Descriptions -/

theorem ownTags_of_plain {t : Text} (h : Plain t) : OwnTags t :=
  ownTags_of_notMem (h '<' (by simp))

theorem ownTags_escape (t : Text) : OwnTags (escape t) := ownTags_of_plain (plain_escape t)

theorem ownTags_link {label address : Text} (hlabel : OwnTags label) (haddress : OwnTags address) :
    OwnTags (link label address) := by
  apply OwnTags.flatten
  simp only [List.forall_mem_cons]
  exact ⟨by decide, haddress, by decide, hlabel, by decide, by simp⟩

/-- A breaking character may give way to a text with the property. -/
theorem OwnTags.replace {x y new : Text} {c : Char} (h : OwnTags (x ++ c :: y)) (hc : Breaking c)
    (hnew : OwnTags new) : OwnTags (x ++ (new ++ y)) := by
  have hx : OwnTags x := h.of_infix hc ⟨[], y, by simp⟩
  have hy : OwnTags y := h.of_suffix ⟨x ++ [c], by simp⟩
  exact hx.append (hnew.append hy)

/-- Whatever a description says, it adds no tag that is not of the page. -/
theorem ownTags_richText (t : Text) : OwnTags (richText t) :=
  richText_induction (fun _ => ownTags_of_plain) OwnTags.append
    (fun _ _ hlabel haddress => ownTags_link (ownTags_of_plain hlabel) (ownTags_of_plain haddress))
    (fun _ _ h => h.replace (by decide) (by decide))
    (fun _ _ h => h.replace (by decide) (by decide)) t

end Markup

end DocComment
