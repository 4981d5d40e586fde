import DocComment.Page
import DocComment.Proofs.PageMarkup
import DocComment.Proofs.TextReplacement

/-! # Filling a template

A template is filled one kind of place after the other, and what has been written for one is read again
for the next.  The measure of this is filling in one pass, which writes a value wherever the template
has a mark and reads no value again.  Stage by stage the two agree just when the text to be filled next
has as many marks as the template: no value has brought one in, alone or with the text beside it. -/

namespace DocComment

open Text (occurrences Apart)

namespace Slot

theorem mark_ne_nil (s : Slot) : s.mark ≠ [] := by cases s <;> decide

theorem mem_all (s : Slot) : s ∈ all := by cases s <;> decide

theorem nodup_all : all.Nodup := by decide

private theorem tails_apart (s k : Slot) : ∀ rest ∈ s.mark.tails, rest ≠ [] →
    k.mark <+: rest ∨ rest <+: k.mark → rest = s.mark ∧ s = k := by
  cases s <;> cases k <;> decide +kernel

/-- A mark that begins in a mark is that mark. -/
theorem eq_of_begins {s k : Slot} {rest after : Text} (hne : rest ≠ []) (hsuffix : rest <:+ s.mark)
    (h : k.mark <+: rest ++ after) : rest = s.mark ∧ s = k :=
  tails_apart s k rest ((List.mem_tails rest s.mark).mpr hsuffix) hne
    (List.prefix_or_prefix_of_prefix h (List.prefix_append rest after))

theorem apart (s k : Slot) : Apart s.mark k.mark :=
  fun _ _ hne hsuffix h => (eq_of_begins hne hsuffix h).1

theorem eq_of_begins_append {s k : Slot} {t : Text} (h : k.mark <+: s.mark ++ t) : s = k :=
  (eq_of_begins s.mark_ne_nil List.suffix_rfl h).2

theorem occurrences_append_self (s : Slot) (t : Text) :
    occurrences s.mark (s.mark ++ t) = occurrences s.mark t + 1 :=
  Text.occurrences_append_self s.mark_ne_nil (apart s s) t

theorem occurrences_append_of_ne {s k : Slot} (h : s ≠ k) (t : Text) :
    occurrences k.mark (s.mark ++ t) = occurrences k.mark t := by
  obtain ⟨c, rest, hmark⟩ := List.exists_cons_of_ne_nil s.mark_ne_nil
  have hnot : ¬ k.mark <+: c :: (rest ++ t) := by
    rw [← List.cons_append, ← hmark]
    exact fun hp => h (eq_of_begins_append hp)
  have hsuffix : rest <:+ s.mark := hmark ▸ List.suffix_cons c rest
  have hne : rest ≠ s.mark := by rw [hmark]; simp
  rw [hmark, List.cons_append, Text.occurrences_cons hnot,
    (apart s k).occurrences_append hsuffix hne]

theorem text_induction {P : Text → Prop} (nil : P [])
    (place : ∀ (s : Slot) t, P t → P (s.mark ++ t))
    (char : ∀ c t, (∀ s : Slot, ¬ s.mark <+: c :: t) → P t → P (c :: t)) (t : Text) : P t := by
  have hnil : [] ∉ all.map mark := by simp [mark_ne_nil]
  refine Text.marks_induction hnil nil ?_ ?_ t
  · intro m hm
    obtain ⟨s, -, rfl⟩ := List.mem_map.mp hm
    exact place s
  · exact fun c t hnone => char c t fun s => hnone s.mark (List.mem_map_of_mem s.mem_all)

end Slot

namespace Page

/-! ### One pass -/

/-- A template with some of its places filled from left to right in one pass. -/
def fillAtOnce (slots : List Slot) (template : Text) (value : Slot → Text) : Text :=
  Text.substitute (fun t => (slots.find? fun s => s.mark.isPrefixOf t).map fun s =>
    (value s, s.mark.length)) 0 template

/-- What is written for a place. -/
def written (slots : List Slot) (value : Slot → Text) (s : Slot) : Text :=
  if s ∈ slots then value s else s.mark

section OnePass

variable {slots : List Slot} (value : Slot → Text)

@[simp] theorem fillAtOnce_nil : fillAtOnce slots [] value = [] := rfl

theorem fillAtOnce_cons {c : Char} {t : Text} (h : ∀ s ∈ slots, ¬ s.mark <+: c :: t) :
    fillAtOnce slots (c :: t) value = c :: fillAtOnce slots t value := by
  have hnone : (slots.find? fun s => s.mark.isPrefixOf (c :: t)) = none :=
    List.find?_eq_none.mpr (by simpa using h)
  exact Text.substitute_cons (by rw [hnone]; rfl)

theorem fillAtOnce_mark_append (s : Slot) (t : Text) :
    fillAtOnce slots (s.mark ++ t) value = written slots value s ++ fillAtOnce slots t value := by
  rw [written]
  split
  · rename_i hs
    have hfind : (slots.find? fun k => k.mark.isPrefixOf (s.mark ++ t)) = some s := by
      have hsome : (slots.find? fun k => k.mark.isPrefixOf (s.mark ++ t)).isSome := by
        rw [List.find?_isSome]
        exact ⟨s, hs, List.isPrefixOf_iff_prefix.mpr (List.prefix_append s.mark t)⟩
      obtain ⟨k, hk⟩ := Option.isSome_iff_exists.mp hsome
      have hfound := List.find?_some hk
      rw [hk, Slot.eq_of_begins_append (List.isPrefixOf_iff_prefix.mp hfound)]
    exact Text.substitute_append s.mark_ne_nil (by rw [hfind]; rfl)
  · rename_i hs
    have hrest : ∀ rest, rest <:+ s.mark →
        fillAtOnce slots (rest ++ t) value = rest ++ fillAtOnce slots t value := by
      intro rest
      induction rest with
      | nil => exact fun _ => rfl
      | cons c rest ih =>
        intro hsuffix
        have hnone : ∀ k ∈ slots, ¬ k.mark <+: c :: (rest ++ t) := by
          intro k hk hp
          obtain ⟨-, rfl⟩ := Slot.eq_of_begins (List.cons_ne_nil c rest) hsuffix hp
          exact hs hk
        rw [List.cons_append, fillAtOnce_cons value hnone,
          ih ((List.suffix_cons c rest).trans hsuffix), List.cons_append]
    exact hrest s.mark List.suffix_rfl

/-- The text on either side of a place is filled by itself. -/
theorem fillAtOnce_append_mark (x : Text) (s : Slot) (y : Text) :
    fillAtOnce slots (x ++ (s.mark ++ y)) value =
      fillAtOnce slots x value ++ (written slots value s ++ fillAtOnce slots y value) := by
  induction x using Slot.text_induction with
  | nil => rw [List.nil_append, fillAtOnce_mark_append, fillAtOnce_nil, List.nil_append]
  | place k x ih =>
    rw [List.append_assoc, fillAtOnce_mark_append, ih, fillAtOnce_mark_append, List.append_assoc]
  | char c x hnone ih =>
    have hnone' : ∀ k ∈ slots, ¬ k.mark <+: c :: (x ++ (s.mark ++ y)) := fun k _ hp =>
      hnone k ((k.apart s).prefix_of_append (List.cons_ne_nil c x) hp)
    rw [List.cons_append, fillAtOnce_cons value hnone', fillAtOnce_cons value fun k _ => hnone k, ih,
      List.cons_append]

theorem fillAtOnce_of_nil (t : Text) : fillAtOnce [] t value = t := by
  induction t with
  | nil => rfl
  | cons c t ih => rw [fillAtOnce_cons value (by simp), ih]

/-- A value stands in the text as it is. -/
theorem value_infix_fillAtOnce {s : Slot} (hs : s ∈ slots) {t : Text} (h : s.mark <:+: t) :
    value s <:+: fillAtOnce slots t value := by
  obtain ⟨x, y, rfl⟩ := h
  rw [List.append_assoc, fillAtOnce_append_mark, written, if_pos hs, ← List.append_assoc]
  exact List.infix_append _ _ _

end OnePass

/-! ### One place more -/

section Stage

variable {slots : List Slot} {slot : Slot} (value : Slot → Text)

theorem fillAtOnce_concat_of_none {t : Text} (h : occurrences slot.mark t = 0) :
    fillAtOnce (slots ++ [slot]) t value = fillAtOnce slots t value := by
  induction t using Slot.text_induction with
  | nil => rfl
  | place s t ih =>
    have hne : s ≠ slot := by
      rintro rfl
      rw [s.occurrences_append_self] at h
      cases h
    rw [Slot.occurrences_append_of_ne hne] at h
    have hwritten : written (slots ++ [slot]) value s = written slots value s := by
      simp [written, hne]
    rw [fillAtOnce_mark_append, fillAtOnce_mark_append, hwritten, ih h]
  | char c t hnone ih =>
    rw [Text.occurrences_cons (hnone slot)] at h
    rw [fillAtOnce_cons value fun s _ => hnone s, fillAtOnce_cons value fun s _ => hnone s, ih h]

variable (hslot : slot ∉ slots)

include hslot in
/-- The marks of a place still to be filled stay. -/
theorem fillAtOnce_append_unfilled (x y : Text) :
    fillAtOnce slots (x ++ (slot.mark ++ y)) value =
      fillAtOnce slots x value ++ (slot.mark ++ fillAtOnce slots y value) := by
  rw [fillAtOnce_append_mark, written, if_neg hslot]

theorem fillAtOnce_append_last {x : Text} (hx : occurrences slot.mark x = 0) (y : Text) :
    fillAtOnce (slots ++ [slot]) (x ++ (slot.mark ++ y)) value =
      fillAtOnce slots x value ++ (value slot ++ fillAtOnce (slots ++ [slot]) y value) := by
  rw [fillAtOnce_append_mark, written, if_pos (by simp), fillAtOnce_concat_of_none value hx]

theorem occurrences_append_mark (x y : Text) :
    occurrences slot.mark (x ++ (slot.mark ++ y)) =
      occurrences slot.mark x + occurrences slot.mark y + 1 :=
  Text.occurrences_append_mark slot.mark_ne_nil (slot.apart slot) x y

include hslot in
theorem occurrences_le_fillAtOnce (t : Text) :
    occurrences slot.mark t ≤ occurrences slot.mark (fillAtOnce slots t value) := by
  induction t using Text.first_copy_induction slot.mark_ne_nil with
  | bare t hnone => exact hnone ▸ Nat.zero_le _
  | copy x y hnone ih =>
    rw [fillAtOnce_append_unfilled value hslot, occurrences_append_mark, occurrences_append_mark]
    omega

include hslot in
theorem length_fillAtOnce_concat (t : Text) :
    (fillAtOnce (slots ++ [slot]) t value).length + occurrences slot.mark t * slot.mark.length =
      (fillAtOnce slots t value).length + occurrences slot.mark t * (value slot).length := by
  induction t using Text.first_copy_induction slot.mark_ne_nil with
  | bare t hnone => rw [fillAtOnce_concat_of_none value hnone, hnone, Nat.zero_mul, Nat.zero_mul]
  | copy x y hnone ih =>
    rw [fillAtOnce_append_unfilled value hslot, fillAtOnce_append_last value hnone,
      occurrences_append_mark, hnone]
    simp only [List.length_append, Nat.zero_add, Nat.add_mul, Nat.one_mul]
    omega

include hslot in
/-- Each mark that comes in adds the same to the length of a text, so that the lengths tell that none
has come in before the first mark of the template, unless marks and values have one length. -/
theorem length_replace_of_eq {x y : Text}
    (h : (fillAtOnce slots x value).replace slot.mark (value slot) ++
        (value slot ++ (fillAtOnce slots y value).replace slot.mark (value slot)) =
      fillAtOnce slots x value ++ (value slot ++ fillAtOnce (slots ++ [slot]) y value)) :
    ((fillAtOnce slots x value).replace slot.mark (value slot)).length =
      (fillAtOnce slots x value).length := by
  have hself := slot.apart slot
  have hx := Text.length_replace slot.mark_ne_nil hself (fillAtOnce slots x value) (value slot)
  have hy := Text.length_replace slot.mark_ne_nil hself (fillAtOnce slots y value) (value slot)
  have hconcat := length_fillAtOnce_concat value hslot y
  obtain ⟨more, hmore⟩ := Nat.exists_eq_add_of_le (occurrences_le_fillAtOnce value hslot y)
  have hsum := congrArg List.length h
  simp only [List.length_append] at hsum
  rw [hmore] at hy
  rcases Nat.le_total slot.mark.length (value slot).length with hle | hle
  all_goals
    obtain ⟨gap, hgap⟩ := Nat.exists_eq_add_of_le hle
    rw [hgap] at hx hy hconcat
    simp only [Nat.mul_add, Nat.add_mul] at hx hy hconcat
    omega

include hslot in
/-- Filling one place more by itself is filling it in the pass just when the text has no more marks of
it than the template, or the mark takes its own place. -/
theorem replace_fillAtOnce_iff (t : Text) :
    (fillAtOnce slots t value).replace slot.mark (value slot) = fillAtOnce (slots ++ [slot]) t value ↔
      value slot = slot.mark ∨
        occurrences slot.mark (fillAtOnce slots t value) = occurrences slot.mark t := by
  have hne := slot.mark_ne_nil
  have hself := slot.apart slot
  induction t using Text.first_copy_induction hne with
  | bare t hnone =>
    rw [fillAtOnce_concat_of_none value hnone, hnone]
    exact Text.replace_eq_self_iff hne hself _ _
  | copy x y hnone ih =>
    -- Copies can have come in before the first mark of the template and behind it.
    have hx := Text.replace_eq_self_iff hne hself (fillAtOnce slots x value) (value slot)
    have hle := occurrences_le_fillAtOnce value hslot y
    rw [fillAtOnce_append_unfilled value hslot, fillAtOnce_append_last value hnone,
      Text.replace_append_mark hne hself, occurrences_append_mark, occurrences_append_mark, hnone]
    constructor
    · intro h
      obtain ⟨hleft, hright⟩ := List.append_inj h (length_replace_of_eq value hslot h)
      rcases hx.mp hleft with hsame | hfirst
      · exact Or.inl hsame
      · refine (ih.mp (List.append_cancel_left hright)).imp_right fun hrest => ?_
        omega
    · intro h
      have hleft := hx.mpr (h.imp_right fun hsum => by omega)
      have hright := ih.mpr (h.imp_right fun hsum => by omega)
      rw [hleft, hright]

end Stage

/-! ### One place after the other -/

/-- A template with some of its places filled, one kind after the other. -/
def fillInTurn (slots : List Slot) (template : Text) (value : Slot → Text) : Text :=
  slots.foldl (fun page slot => page.replace slot.mark (value slot)) template

theorem fillInTurn_concat (slots : List Slot) (slot : Slot) (t : Text) (value : Slot → Text) :
    fillInTurn (slots ++ [slot]) t value =
      (fillInTurn slots t value).replace slot.mark (value slot) := by
  rw [fillInTurn, List.foldl_concat]
  rfl

/-- No mark of a place has come in when its turn has come, or its value is the mark. -/
def Undisturbed (template : Text) (value : Slot → Text) : Prop :=
  ∀ earlier slot, earlier ++ [slot] <+: Slot.all → value slot = slot.mark ∨
    occurrences slot.mark (fillAtOnce earlier template value) = occurrences slot.mark template

theorem notMem_earlier {earlier : List Slot} {slot : Slot} (h : earlier ++ [slot] <+: Slot.all) :
    slot ∉ earlier := by
  have hnodup := Slot.nodup_all.sublist h.sublist
  rw [List.nodup_append] at hnodup
  exact fun hmem => hnodup.2.2 slot hmem slot (List.mem_singleton_self slot) rfl

/-- At every stage the places have been filled as in one pass just when nothing has come in. -/
theorem fillInTurn_eq_fillAtOnce_iff (template : Text) (value : Slot → Text) :
    (∀ slots, slots <+: Slot.all → fillInTurn slots template value = fillAtOnce slots template value) ↔
      Undisturbed template value := by
  constructor
  · intro h earlier slot hstage
    have hbefore := h earlier ((List.prefix_append earlier [slot]).trans hstage)
    have hafter := h (earlier ++ [slot]) hstage
    rw [fillInTurn_concat, hbefore] at hafter
    exact (replace_fillAtOnce_iff value (notMem_earlier hstage) template).mp hafter
  · intro h slots
    induction slots using List.reverseRecOn with
    | nil => exact fun _ => (fillAtOnce_of_nil value template).symm
    | append_singleton earlier slot ih =>
      intro hstage
      rw [fillInTurn_concat, ih ((List.prefix_append earlier [slot]).trans hstage)]
      exact (replace_fillAtOnce_iff value (notMem_earlier hstage) template).mpr
        (h earlier slot hstage)

/-! ### Marks that stand apart -/

/-- The characters of which marks are made. -/
def markChars : Text := (Slot.all.flatMap Slot.mark).dedup

theorem mem_markChars {c : Char} {s : Slot} (h : c ∈ s.mark) : c ∈ markChars :=
  List.mem_dedup.mpr (List.mem_flatMap.mpr ⟨s, s.mem_all, h⟩)

/-- Beside a mark with which a text begins, at once or behind its first character, there is no
character of which marks are made. -/
def SetOffAt (s : Slot) (rest : Text) : Prop :=
  (s.mark <+: rest.tail → ¬ rest.head?.any markChars.contains) ∧
    (s.mark <+: rest → ¬ (rest.drop s.mark.length).head?.any markChars.contains)

instance (s : Slot) (rest : Text) : Decidable (SetOffAt s rest) := inferInstanceAs (Decidable (_ ∧ _))

/-- Before a mark and behind it there is no character of which marks are made. -/
def SetOff (template : Text) : Prop := ∀ rest ∈ template.tails, ∀ s ∈ Slot.all, SetOffAt s rest

-- Tail by tail from the left: the instance for a bounded quantifier recurs as deep as the text is long.
instance : DecidablePred SetOff := fun template =>
  decidable_of_iff (template.tails.all fun rest => decide (∀ s ∈ Slot.all, SetOffAt s rest))
    (by simp [SetOff])

theorem setOff_defaultTemplate : SetOff defaultTemplate := by decide +kernel

section SetOff

variable {t : Text}

theorem SetOff.of_suffix {u : Text} (h : SetOff t) (hu : u <:+ t) : SetOff u := by
  intro rest hrest
  rw [List.mem_tails] at hrest
  exact h rest ((List.mem_tails rest t).mpr (hrest.trans hu))

theorem SetOff.before {c : Char} {s : Slot} (h : SetOff (c :: t)) (hs : s.mark <+: t) :
    c ∉ markChars := by
  have hbefore := (h (c :: t) ((List.mem_tails _ _).mpr List.suffix_rfl) s s.mem_all).1 hs
  simpa using hbefore

theorem SetOff.behind {c : Char} {s : Slot} (h : SetOff (s.mark ++ c :: t)) : c ∉ markChars := by
  have hbehind := (h (s.mark ++ c :: t) ((List.mem_tails _ _).mpr List.suffix_rfl) s s.mem_all).2
    (List.prefix_append s.mark (c :: t))
  rw [List.drop_left] at hbehind
  simpa using hbehind

variable {slots : List Slot} (value : Slot → Text)

/-- What is written behind a character of a mark begins a mark only with characters of the template. -/
theorem SetOff.prefix_of_fillAtOnce {c : Char} {p : Text} (h : SetOff (c :: t)) (hc : c ∈ markChars)
    (hp : ∀ d ∈ p, d ∈ markChars) (hfilled : p <+: fillAtOnce slots t value) : p <+: t := by
  induction p generalizing c t with
  | nil => exact List.nil_prefix
  | cons d p ih =>
    cases t with
    | nil => cases List.prefix_nil.mp hfilled
    | cons e t =>
      have hnone : ∀ s ∈ slots, ¬ s.mark <+: e :: t := fun s _ hs => h.before hs hc
      rw [fillAtOnce_cons value hnone] at hfilled
      obtain ⟨rfl, hrest⟩ := List.cons_prefix_cons.mp hfilled
      rw [List.forall_mem_cons] at hp
      have htail := ih (h.of_suffix (List.suffix_cons c _)) hp.1 hp.2 hrest
      exact List.cons_prefix_cons.mpr ⟨rfl, htail⟩

/-- What is written behind a place does not begin with a character of a mark. -/
theorem SetOff.head_fillAtOnce {s : Slot} (h : SetOff (s.mark ++ t)) :
    ∀ c ∈ (fillAtOnce slots t value).head?, c ∉ markChars := by
  cases t with
  | nil => simp
  | cons c t =>
    have hc := h.behind
    have hnone : ∀ k ∈ slots, ¬ k.mark <+: c :: t := by
      intro k _ hk
      obtain ⟨d, rest, hmark⟩ := List.exists_cons_of_ne_nil k.mark_ne_nil
      rw [hmark, List.cons_prefix_cons] at hk
      exact hc (mem_markChars (s := k) (by rw [hmark, hk.1]; exact List.mem_cons_self))
    rw [fillAtOnce_cons value hnone]
    rintro d hd
    cases hd
    exact hc

theorem mark_infix_mark_append {s k : Slot} : k.mark <:+: s.mark ++ t ↔ s = k ∨ k.mark <:+: t := by
  rw [← Text.occurrences_pos_iff k.mark_ne_nil, ← Text.occurrences_pos_iff k.mark_ne_nil]
  by_cases hne : s = k
  · subst hne
    simp [s.occurrences_append_self]
  · simp [Slot.occurrences_append_of_ne hne, hne]

/-- No mark begins with a character of the template and goes on in what is written behind it. -/
theorem SetOff.not_prefix_cons {c : Char} (h : SetOff (c :: t)) {slot : Slot}
    (hnone : ¬ slot.mark <+: c :: t) : ¬ slot.mark <+: c :: fillAtOnce slots t value := by
  intro hp
  obtain ⟨d, rest, hmark⟩ := List.exists_cons_of_ne_nil slot.mark_ne_nil
  have hchars : ∀ e ∈ d :: rest, e ∈ markChars := fun e he => mem_markChars (hmark ▸ he)
  rw [hmark] at hp hnone
  obtain ⟨rfl, hrest⟩ := List.cons_prefix_cons.mp hp
  rw [List.forall_mem_cons] at hchars
  have htail := h.prefix_of_fillAtOnce value hchars.1 hchars.2 hrest
  exact hnone (List.cons_prefix_cons.mpr ⟨rfl, htail⟩)

/-- With marks that are set off, a mark comes in only as a part of one value. -/
theorem SetOff.occurrences_eq_iff (h : SetOff t) {slot : Slot} (hslot : slot ∉ slots) :
    occurrences slot.mark (fillAtOnce slots t value) = occurrences slot.mark t ↔
      ∀ s ∈ slots, s.mark <:+: t → ¬ slot.mark <:+: value s := by
  induction t using Slot.text_induction with
  | nil => simp [Slot.mark_ne_nil]
  | place s t ih =>
    have ih := ih (h.of_suffix (List.suffix_append s.mark t))
    have hall : (∀ k ∈ slots, k.mark <:+: s.mark ++ t → ¬ slot.mark <:+: value k) ↔
        (s ∈ slots → ¬ slot.mark <:+: value s) ∧
          ∀ k ∈ slots, k.mark <:+: t → ¬ slot.mark <:+: value k := by
      simp only [mark_infix_mark_append]
      grind
    rw [hall, ← ih, fillAtOnce_mark_append, written]
    by_cases hs : s ∈ slots
    · -- The seam behind the value is closed, so the copies in it are counted by themselves.
      have hne : s ≠ slot := fun heq => hslot (heq ▸ hs)
      have hseam : ∀ c ∈ (fillAtOnce slots t value).head?, c ∉ slot.mark := fun c hc hmem =>
        h.head_fillAtOnce value c hc (mem_markChars hmem)
      have hle := occurrences_le_fillAtOnce value hslot t
      rw [if_pos hs, Slot.occurrences_append_of_ne hne, ← Text.occurrences_pos_iff slot.mark_ne_nil,
        Text.occurrences_append slot.mark_ne_nil fun _ _ hp => Text.prefix_of_prefix_append hp hseam]
      simp only [hs, forall_const]
      omega
    · rw [if_neg hs]
      by_cases hsame : s = slot
      · subst hsame
        simp [s.occurrences_append_self, hs]
      · simp [Slot.occurrences_append_of_ne hsame, hs]
  | char c t hnone ih =>
    rw [fillAtOnce_cons value fun s _ => hnone s,
      Text.occurrences_cons (h.not_prefix_cons value (hnone slot)),
      Text.occurrences_cons (hnone slot), ih (h.of_suffix (List.suffix_cons c t))]
    simp [List.infix_cons_iff, hnone]

theorem SetOff.undisturbed_iff (h : SetOff t) :
    Undisturbed t value ↔ ∀ earlier slot, earlier ++ [slot] <+: Slot.all → value slot = slot.mark ∨
      ∀ s ∈ earlier, s.mark <:+: t → ¬ slot.mark <:+: value s := by
  refine forall_congr' fun earlier => forall_congr' fun slot => forall_congr' fun hstage => ?_
  rw [h.occurrences_eq_iff value (notMem_earlier hstage)]

end SetOff

end Page

/-! ### The page -/

namespace Outline

theorem page_eq_fillInTurn {o : Outline} {s : Settings} {sections : List Section}
    (h : o.sections s = .ok sections) :
    o.page s = .ok (Page.fillInTurn Slot.all (s.template.getD Page.defaultTemplate)
      (o.values s sections)) := by
  rw [page, h]
  rfl

/-- The page of a tree that blocks have been filed in at their own paths can be written, with any
settings.  Wherever a page can be written, its places are filled one kind after the other, and this is
at every stage the same as filling them in one pass just when no mark of a place still to be filled has
come in.  One pass keeps every value as it is.  In the built-in page, and in all others with marks that
are set off, marks come in just when a value holds the mark of a place that is filled later. -/
theorem page_filled_at_once_iff (rule : ClashRule) (requests : List Request) (s : Settings) :
    let o := ((empty rule).run requests).1
    let template := s.template.getD Page.defaultTemplate
    ((∀ request ∈ requests, request.AtOwnPaths) → ∃ sections, o.sections s = .ok sections) ∧
      ∀ sections, o.sections s = .ok sections →
        let value := o.values s sections
        o.page s = .ok (Page.fillInTurn Slot.all template value) ∧
        ((∀ slots, slots <+: Slot.all →
            Page.fillInTurn slots template value = Page.fillAtOnce slots template value) ↔
          Page.Undisturbed template value) ∧
        (∀ slot : Slot, slot.mark <:+: template →
          value slot <:+: Page.fillAtOnce Slot.all template value) ∧
        (s.template = none ∨ Page.SetOff template →
          (Page.Undisturbed template value ↔
            ∀ earlier slot, earlier ++ [slot] <+: Slot.all → value slot = slot.mark ∨
              ∀ k ∈ earlier, k.mark <:+: template → ¬ slot.mark <:+: value k)) := by
  intro o template
  refine ⟨fun h => exists_sections rule h s, fun sections hsections => ?_⟩
  intro value
  refine ⟨page_eq_fillInTurn hsections, Page.fillInTurn_eq_fillAtOnce_iff template value,
    fun slot => Page.value_infix_fillAtOnce value slot.mem_all, ?_⟩
  intro h
  have hsetOff : Page.SetOff template := by
    rcases h with hnone | hsetOff
    · have hdefault : template = Page.defaultTemplate := by simp [template, hnone]
      exact hdefault ▸ Page.setOff_defaultTemplate
    · exact hsetOff
  exact hsetOff.undisturbed_iff value

/-- The text of an example is taken for the place of the search list. -/
theorem page_fills_example_text :
    let block : Block := ⟨⟨"f.js", 1⟩, [],
      [(.methodName, [[.tagged .methodName (.label "f")]]),
        (.memberOf, [[.tagged .memberOf (.label "m")]]),
        (.exampleText, [[.tagged .exampleText (.text (some Slot.searchList.mark))]])]⟩
    let o := ((empty .replace).run [.addAll [block]]).1
    let s : Settings := ⟨"API", some Slot.content.mark, false⟩
    Source.blocksOfText "f.js"
        "/**\n * @method f\n * @memberOf m\n * @example \x7b\x7bSEARCH_LIST\x7d\x7d\n */" =
      .ok [block] ∧
    ∃ sections page, o.sections s = .ok sections ∧ o.page s = .ok page ∧
      page ≠ Page.fillAtOnce Slot.all Slot.content.mark (o.values s sections) ∧
      ¬ o.values s sections .content <:+: page := by
  intro block o s
  let leaf : Node := ⟨some block, 1, []⟩
  let branch : Node := ⟨none, 0, [("f".toList, leaf)]⟩
  have hroot : Walk.below [] o.root = [("m".toList, branch)] := rfl
  have hbranch : Walk.below "m" branch = [("m.f".toList, leaf)] := rfl
  have hleaf : Walk.below "m.f" leaf = [] := rfl
  have hshown : s.conceals branch = false ∧ s.conceals leaf = false := by decide +kernel
  have hvisible : o.visible s = [("m.f".toList, leaf)] := by
    rw [visible_eq, hroot, List.flatMap_singleton, shown_of_not_conceals hshown.1, hbranch,
      List.flatMap_singleton, shown_of_not_conceals hshown.2, hleaf]
    rfl
  let part : Section := ⟨3, "m.f", "f", List.flatten ["\n<div class='card'><pre>m.f()</pre>\n<br>\n",
    "<pre><code>", Slot.searchList.mark, "</code></pre></div>"]⟩
  have hsections : o.sections s = .ok [part] := by
    rw [sections, hvisible]
    decide +kernel
  let value : Slot → Text := fun slot => (List.lookup slot [(.name, ("API" : Text)),
    (.simplifiedName, "API"), (.content, part.markup), (.searchList, "[\"m.f\"]")]).getD []
  have hvalues : o.values s [part] = value := by
    funext slot
    cases slot
    case name => rfl
    case simplifiedName => decide +kernel
    case menu =>
      rw [values, menu, hvisible]
      decide +kernel
    case content => exact List.append_nil _
    case searchList =>
      rw [values, searchText, searchIndex, hvisible]
      decide +kernel
  refine ⟨by decide +kernel, [part], Page.fillInTurn Slot.all Slot.content.mark value, hsections, ?_⟩
  rw [page_eq_fillInTurn hsections, hvalues]
  exact ⟨rfl, by decide +kernel, by decide +kernel⟩

end Outline

end DocComment
