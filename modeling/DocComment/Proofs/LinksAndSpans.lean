import DocComment.Proofs.EscapedText

/-! # Links and code spans found in a line

The first link of a line is told by the first opening bracket and the first marks behind it.  Escaping a
line keeps its links and escapes what they are made of.  Code spans are found from left to right: a brace
opens one when a closing brace is still to come, and the next closing brace ends it. -/

namespace DocComment.Markup
open Text

/-! ### The first occurrence of a mark -/

section UpTo
variable {m : Char} {ms x : Text}

theorem upTo?_append (h : m ∉ x) (t : Text) :
    upTo? (m :: ms) (x ++ t) = (upTo? (m :: ms) t).map (Prod.map (x ++ ·) id) := by
  induction x with
  | nil =>
    rw [List.nil_append]
    cases upTo? (m :: ms) t <;> rfl
  | cons c x ih =>
    rw [List.mem_cons, not_or] at h
    have hnot : ¬ (m :: ms).isPrefixOf (c :: (x ++ t)) = true := by
      rw [List.isPrefixOf_iff_prefix, List.cons_prefix_cons]
      exact fun hp => h.1 hp.1
    rw [List.cons_append, upTo?, if_neg hnot, ih h.2, Option.map_map]
    rfl

theorem upTo?_mark_append (t : Text) : upTo? (m :: ms) (m :: ms ++ t) = some ([], t) := by
  have hbegin : (m :: ms).isPrefixOf (m :: (ms ++ t)) = true :=
    List.isPrefixOf_iff_prefix.mpr (List.prefix_append (m :: ms) t)
  rw [List.cons_append, upTo?, if_pos hbegin, ← List.cons_append, List.drop_left]

theorem upTo?_append_mark (h : m ∉ x) (t : Text) :
    upTo? (m :: ms) (x ++ (m :: ms ++ t)) = some (x, t) := by
  rw [upTo?_append h, upTo?_mark_append]
  simp

/-- A mark begins nowhere in a text without its second character. -/
theorem upTo?_append_mark_of_second {n : Char} (hne : m ≠ n) (h : n ∉ x) (t : Text) :
    upTo? (m :: n :: ms) (x ++ (m :: n :: ms ++ t)) = some (x, t) := by
  induction x with
  | nil => exact upTo?_mark_append t
  | cons c x ih =>
    rw [List.mem_cons, not_or] at h
    have hnot : ¬ (m :: n :: ms).isPrefixOf (c :: (x ++ (m :: n :: ms ++ t))) = true := by
      intro hp
      rw [List.isPrefixOf_iff_prefix, List.cons_prefix_cons] at hp
      cases x with
      | nil => exact hne (List.cons_prefix_cons.mp hp.2).1.symm
      | cons d x => exact h.2 ((List.cons_prefix_cons.mp hp.2).1 ▸ List.mem_cons_self)
    rw [List.cons_append, upTo?, if_neg hnot, ih h.2]
    rfl

/-- A text without a character, or one with a first occurrence of it. -/
theorem upTo?_char_cases (c : Char) (t : Text) :
    c ∉ t ∧ upTo? [c] t = none ∨
      ∃ before rest, c ∉ before ∧ t = before ++ c :: rest ∧ upTo? [c] t = some (before, rest) := by
  by_cases h : c ∈ t
  · obtain ⟨before, rest, rfl, hbefore⟩ := List.eq_append_cons_of_mem h
    exact Or.inr ⟨before, rest, hbefore, rfl, upTo?_append_mark hbefore rest⟩
  · have hnone : upTo? [c] (t ++ []) = none := upTo?_append h []
    rw [List.append_nil] at hnone
    exact Or.inl ⟨h, hnone⟩

theorem notMem_of_upTo? {c : Char} {t before rest : Text} (h : upTo? [c] t = some (before, rest)) :
    c ∉ before := by
  rcases upTo?_char_cases c t with ⟨-, hnone⟩ | ⟨before', rest', hbefore, -, hsome⟩
  · rw [hnone] at h
    cases h
  · cases hsome.symm.trans h
    exact hbefore

/-- The mark has no character that is escaped, and its first one is part of no entity. -/
structure Unescaped (m : Char) (ms : Text) : Prop where
  chars : Avoids (m :: ms) escapedChars
  first : m ∉ entityChars

theorem escape_eq_self {t : Text} (h : Avoids t escapedChars) : escape t = t := by
  induction t with
  | nil => rfl
  | cons c t ih =>
    obtain ⟨hc, ht⟩ := List.forall_mem_cons.mp h
    rw [escape_cons, escapeChar_of_notMem hc, ih ht, List.singleton_append]

theorem prefix_escape_iff {mark : Text} (h : Avoids mark escapedChars) {t : Text} :
    mark <+: escape t ↔ mark <+: t := by
  induction mark generalizing t with
  | nil => simp
  | cons m mark ih =>
    obtain ⟨hm, hmark⟩ := List.forall_mem_cons.mp h
    cases t with
    | nil => rfl
    | cons c t =>
      rw [escape_cons, List.cons_prefix_cons]
      by_cases hc : c ∈ escapedChars
      · have hhead : (escapeChar c).head? = some '&' :=
          forall_escapedChars (P := fun c => (escapeChar c).head? = some '&') ⟨rfl, rfl, rfl, rfl⟩ c hc
        obtain ⟨entity, hentity⟩ := List.head?_eq_some_iff.mp hhead
        rw [hentity, List.cons_append, List.cons_prefix_cons]
        have hand : m ≠ '&' := fun heq => hm (by simp [heq, escapedChars])
        have hne : m ≠ c := fun heq => hm (heq ▸ hc)
        simp [hand, hne]
      · rw [escapeChar_of_notMem hc, List.singleton_append, List.cons_prefix_cons, ih hmark]

/-- A mark is found in an escaped text where it is found in the text. -/
theorem upTo?_escape (h : Unescaped m ms) (t : Text) :
    upTo? (m :: ms) (escape t) = (upTo? (m :: ms) t).map (Prod.map escape escape) := by
  induction t with
  | nil => rfl
  | cons c t ih =>
    by_cases hp : m :: ms <+: c :: t
    · obtain ⟨rest, hrest⟩ := hp
      rw [← hrest, escape_append, escape_eq_self h.chars, upTo?_mark_append, upTo?_mark_append]
      rfl
    · have hone : upTo? (m :: ms) (c :: t) = (upTo? (m :: ms) t).map (Prod.map (c :: ·) id) := by
        rw [upTo?, if_neg (by rwa [List.isPrefixOf_iff_prefix])]
        rfl
      have hescaped : upTo? (m :: ms) (escape (c :: t)) =
          (upTo? (m :: ms) (escape t)).map (Prod.map (escapeChar c ++ ·) id) := by
        by_cases hc : c ∈ escapedChars
        · rw [escape_cons]
          exact upTo?_append (fun hm => h.first (escapeChar_subset_of_mem hc hm)) (escape t)
        · rw [← prefix_escape_iff h.chars, escape_cons, escapeChar_of_notMem hc] at hp
          rw [escape_cons, escapeChar_of_notMem hc, List.singleton_append, upTo?,
            if_neg (by rwa [List.isPrefixOf_iff_prefix])]
          rfl
      rw [hone, hescaped, ih, Option.map_map, Option.map_map]
      congr 1
      funext found
      simp [Prod.map, escape_cons]

end UpTo

/-! ### The first link of a line -/

/-- What stands between the label and the address of a link. -/
def linkMark : Text := "]\x7b@link "

/-- A link with the text on either side of it. -/
structure FoundLink where
  before : Text
  label : Text
  address : Text
  rest : Text

namespace FoundLink

/-- The line in which the link is found. -/
def line (l : FoundLink) : Text :=
  l.before ++ '[' :: (l.label ++ (linkMark ++ (l.address ++ '\x7d' :: l.rest)))

def escaped (l : FoundLink) : FoundLink :=
  ⟨escape l.before, escape l.label, escape l.address, escape l.rest⟩

end FoundLink

def firstLink? (line : Text) : Option FoundLink :=
  (upTo? ['['] line).bind fun (before, t) =>
    (upTo? linkMark t).bind fun (label, t) =>
      (upTo? ['\x7d'] t).map fun (address, rest) => ⟨before, label, address, rest⟩

theorem links_eq (line : Text) :
    links line = match firstLink? line with
      | none => line
      | some l => l.before ++ link l.label l.address ++ links l.rest := by
  fun_cases links line with
  | case1 hopen => simp only [firstLink?, hopen, Option.bind_none]
  | case2 before t hopen hlabel =>
    have hmark : upTo? linkMark t = none := hlabel
    simp only [firstLink?, hopen, hmark, Option.bind_some, Option.bind_none]
  | case3 before t hopen label t' hlabel haddress =>
    have hmark : upTo? linkMark t = some (label, t') := hlabel
    simp only [firstLink?, hopen, hmark, haddress, Option.bind_some, Option.map_none]
  | case4 before t hopen label t' hlabel address rest haddress =>
    have hmark : upTo? linkMark t = some (label, t') := hlabel
    simp only [firstLink?, hopen, hmark, haddress, Option.bind_some, Option.map_some]

theorem firstLink?_eq_some {line : Text} {l : FoundLink} (h : firstLink? line = some l) :
    line = l.line ∧ '\x7d' ∉ l.address := by
  obtain ⟨⟨before, t⟩, hopen, h⟩ := Option.bind_eq_some_iff.mp h
  obtain ⟨⟨label, t'⟩, hlabel, h⟩ := Option.bind_eq_some_iff.mp h
  obtain ⟨⟨address, rest⟩, haddress, rfl⟩ := Option.map_eq_some_iff.mp h
  refine ⟨?_, notMem_of_upTo? haddress⟩
  rw [upTo?_eq_append hopen, upTo?_eq_append hlabel, upTo?_eq_append haddress]
  rfl

theorem length_rest_lt {line : Text} {l : FoundLink} (h : firstLink? line = some l) :
    l.rest.length < line.length := by
  rw [(firstLink?_eq_some h).1, FoundLink.line]
  simp only [List.length_append, List.length_cons]
  omega

/-- A link is the first of its line if no bracket opens before it, its label has no opening brace and
its address no closing one. -/
theorem firstLink?_line {l : FoundLink} (hbefore : '[' ∉ l.before) (hlabel : '\x7b' ∉ l.label)
    (haddress : '\x7d' ∉ l.address) : firstLink? l.line = some l := by
  have hopen : upTo? ['['] l.line =
      some (l.before, l.label ++ (linkMark ++ (l.address ++ '\x7d' :: l.rest))) :=
    upTo?_append_mark hbefore _
  have hmark : upTo? linkMark (l.label ++ (linkMark ++ (l.address ++ '\x7d' :: l.rest))) = _ :=
    upTo?_append_mark_of_second (by decide) hlabel _
  have hclose : upTo? ['\x7d'] (l.address ++ '\x7d' :: l.rest) = _ :=
    upTo?_append_mark haddress l.rest
  simp only [firstLink?, hopen, hmark, hclose, Option.bind_some, Option.map_some]

theorem firstLink?_escape (line : Text) :
    firstLink? (escape line) = (firstLink? line).map FoundLink.escaped := by
  have hopening : Unescaped '[' [] := ⟨by decide, by decide⟩
  have hmark : ∀ t, upTo? linkMark (escape t) = (upTo? linkMark t).map (Prod.map escape escape) :=
    upTo?_escape ⟨by decide, by decide⟩
  have hclosing : Unescaped '\x7d' [] := ⟨by decide, by decide⟩
  rw [firstLink?, firstLink?, upTo?_escape hopening]
  cases upTo? ['['] line with
  | none => rfl
  | some found =>
    obtain ⟨before, t⟩ := found
    simp only [Option.map_some, Prod.map_apply, Option.bind_some, hmark]
    cases upTo? linkMark t with
    | none => rfl
    | some found =>
      obtain ⟨label, t⟩ := found
      simp only [Option.map_some, Prod.map_apply, Option.bind_some, upTo?_escape hclosing]
      cases upTo? ['\x7d'] t <;> rfl

/-! ### Code spans -/

/-- The code spans of a line, made in one pass from left to right. The first argument tells whether the
text begins inside a span. A brace opens one only if it is closed later. -/
def spansFrom : Bool → Text → Text
  | _, [] => []
  | false, c :: t =>
    if c = '\x7b' ∧ '\x7d' ∈ t then "<code>" ++ spansFrom true t else c :: spansFrom false t
  | true, c :: t =>
    if c = '\x7d' then "</code>" ++ spansFrom false t else c :: spansFrom true t

/-- The brace that ends what the text is in. -/
def awaited (inside : Bool) : Char := if inside then '\x7d' else '\x7b'

theorem spansFrom_append {inside : Bool} {x : Text} (h : awaited inside ∉ x) (t : Text) :
    spansFrom inside (x ++ t) = x ++ spansFrom inside t := by
  induction x with
  | nil => rfl
  | cons c x ih =>
    rw [List.mem_cons, not_or] at h
    rw [List.cons_append, List.cons_append, ← ih h.2]
    cases inside with
    | false => exact if_neg fun hopen => h.1 hopen.1.symm
    | true => exact if_neg fun hclose => h.1 hclose.symm

theorem spansFrom_of_unopened {t : Text} (h : '\x7b' ∉ t) : spansFrom false t = t := by
  have hall : spansFrom false (t ++ []) = t ++ [] := spansFrom_append h []
  rwa [List.append_nil] at hall

theorem spansFrom_of_unclosed {t : Text} (h : '\x7d' ∉ t) : spansFrom false t = t := by
  induction t with
  | nil => rfl
  | cons c t ih =>
    rw [List.mem_cons, not_or] at h
    rw [spansFrom, if_neg (fun hopen => h.2 hopen.2), ih h.2]

theorem spansFrom_opening {before t : Text} (hopen : '\x7b' ∉ before) (hclosed : '\x7d' ∈ t) :
    spansFrom false (before ++ '\x7b' :: t) = before ++ ("<code>" ++ spansFrom true t) := by
  rw [spansFrom_append hopen, spansFrom, if_pos ⟨rfl, hclosed⟩]

theorem spansFrom_closing {code : Text} (hclose : '\x7d' ∉ code) (t : Text) :
    spansFrom true (code ++ '\x7d' :: t) = code ++ ("</code>" ++ spansFrom false t) := by
  have hcode : spansFrom true (code ++ '\x7d' :: t) = _ := spansFrom_append hclose _
  rw [hcode, spansFrom, if_pos rfl]

theorem codeSpans_eq (t : Text) : codeSpans t = spansFrom false t := by
  fun_induction codeSpans t with
  | case1 line hopen =>
    rcases upTo?_char_cases '\x7b' line with ⟨hnone, -⟩ | ⟨before, rest, -, -, hsome⟩
    · exact (spansFrom_of_unopened hnone).symm
    · rw [hopen] at hsome
      cases hsome
  | case2 line before t hopen hclose =>
    rcases upTo?_char_cases '\x7d' t with ⟨hnone, -⟩ | ⟨code, rest, -, -, hsome⟩
    · have hbefore : awaited false ∉ before := notMem_of_upTo? hopen
      have hbrace : '\x7d' ∉ ['\x7b'] ++ t := by simpa using hnone
      rw [upTo?_eq_append hopen, spansFrom_append hbefore, spansFrom_of_unclosed hbrace]
    · rw [hclose] at hsome
      cases hsome
  | case3 line before t hopen code rest hclose ih =>
    have hspan : spansFrom false (before ++ '\x7b' :: (code ++ '\x7d' :: rest)) =
        before ++ ("<code>" ++ (code ++ ("</code>" ++ spansFrom false rest))) := by
      rw [spansFrom_opening (notMem_of_upTo? hopen) (by simp), spansFrom_closing (notMem_of_upTo? hclose)]
    rw [upTo?_eq_append hopen, upTo?_eq_append hclose, ih]
    refine Eq.trans ?_ hspan.symm
    simp [element]

end DocComment.Markup
