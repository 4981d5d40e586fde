import DocComment.Proofs.RichText

/-! # Escaped text, character by character and line by line

Each character is escaped by itself.  The characters that the notations of a description are made of
stay as they are and occur in no entity, so a mark is found in an escaped text where it is found in the
text itself.  A rich text is put together from the lines of the description, each made by itself. -/

namespace DocComment

namespace Text

/-- None of the characters stands in the text. -/
def Avoids (chars t : Text) : Prop := ∀ c ∈ chars, c ∉ t

instance : DecidableRel Avoids := fun _ _ => List.decidableBAll _ _

/-- A text without a separator stays with the first piece of what is behind it. -/
theorem splitOn_append_of_notMem {sep : Char} {p : Text} (hp : sep ∉ p) (t : Text) :
    (p ++ t).splitOn sep = (t.splitOn sep).modifyHead (p ++ ·) := by
  refine split_append_of_forall (fun c hc => ?_) t
  rw [beq_eq_false_iff_ne]
  exact fun heq => hp (heq ▸ hc)

/-- What does not change when it stands before a line does not change before the first of many. -/
theorem mapLines_append {f : Text → Text} {p q : Text} (hp : '\n' ∉ p)
    (hf : ∀ line, f (p ++ line) = q ++ f line) (t : Text) :
    (p ++ t).mapLines f = q ++ t.mapLines f := by
  obtain ⟨first, rest, hlines⟩ := List.exists_cons_of_ne_nil (splitOn_ne_nil '\n' t)
  rw [mapLines, mapLines, splitOn_append_of_notMem hp, hlines, List.modifyHead_cons, List.map_cons,
    List.map_cons, hf]
  cases rest with
  | nil => simp
  | cons next rest => simp [List.intercalate_cons_cons]

theorem splitOn_mapLines {f : Text → Text} (hf : ∀ line, '\n' ∉ line → '\n' ∉ f line) (t : Text) :
    (t.mapLines f).splitOn '\n' = (t.splitOn '\n').map f := by
  apply splitOn_intercalate
  · intro line hline
    obtain ⟨old, hold, rfl⟩ := List.mem_map.mp hline
    exact hf old (notMem_of_mem_splitOn hold)
  · simpa using splitOn_ne_nil '\n' t

end Text

namespace Markup
open Text

/-! ### Characters -/

/-- What one character is escaped to. -/
def escapeChar (c : Char) : Text :=
  if c = '&' then "&amp;" else if c = '<' then "&lt;" else if c = '>' then "&gt;"
  else if c = '"' then "&quot;" else [c]

/-- The characters that are escaped. -/
def escapedChars : Text := ['&', '<', '>', '"']

/-- The characters of which entities are made. -/
def entityChars : Text := "&amp;&lt;&gt;&quot;"

theorem escapeChar_of_notMem {c : Char} (h : c ∉ escapedChars) : escapeChar c = [c] := by
  simp only [escapedChars, List.mem_cons, List.not_mem_nil, or_false, not_or] at h
  simp [escapeChar, h]

theorem forall_escapedChars {P : Char → Prop} (h : P '&' ∧ P '<' ∧ P '>' ∧ P '"') :
    ∀ c ∈ escapedChars, P c := by
  simpa [escapedChars] using h

theorem escapeChar_subset_of_mem {c : Char} (h : c ∈ escapedChars) : escapeChar c ⊆ entityChars :=
  forall_escapedChars (P := fun c => escapeChar c ⊆ entityChars) (by decide) c h

theorem escape_append (s t : Text) : escape (s ++ t) = escape s ++ escape t := by
  unfold escape replaceChar
  rw [List.flatMap_append, List.flatMap_append, List.flatMap_append, List.flatMap_append]

theorem escape_singleton (c : Char) : escape [c] = escapeChar c := by
  by_cases hc : c ∈ escapedChars
  · exact forall_escapedChars (P := fun c => escape [c] = escapeChar c) (by decide) c hc
  · rw [escapeChar_of_notMem hc]
    simp only [escapedChars, List.mem_cons, List.not_mem_nil, or_false, not_or] at hc
    simp only [escape, replaceChar, List.flatMap_singleton, if_neg hc.1, if_neg hc.2.1,
      if_neg hc.2.2.1, if_neg hc.2.2.2]

theorem escape_cons (c : Char) (t : Text) : escape (c :: t) = escapeChar c ++ escape t := by
  rw [← escape_singleton, ← escape_append, List.singleton_append]

/-- The four replacements come to one, which escapes each character by itself. -/
theorem escape_eq_flatMap (t : Text) : escape t = t.flatMap escapeChar := by
  induction t with
  | nil => rfl
  | cons c t ih => rw [escape_cons, ih, List.flatMap_cons]

/-- A character that is neither escaped nor part of an entity stands where it stood. -/
theorem mem_escapeChar_iff {c d : Char} (h : c ∉ escapedChars ∧ c ∉ entityChars) :
    c ∈ escapeChar d ↔ c = d := by
  by_cases hd : d ∈ escapedChars
  · have hne : c ≠ d := fun heq => h.1 (heq ▸ hd)
    simp only [hne, iff_false]
    exact fun hmem => h.2 (escapeChar_subset_of_mem hd hmem)
  · rw [escapeChar_of_notMem hd, List.mem_singleton]

theorem mem_escape_iff {c : Char} (h : c ∉ escapedChars ∧ c ∉ entityChars) {t : Text} :
    c ∈ escape t ↔ c ∈ t := by
  rw [escape_eq_flatMap, List.mem_flatMap]
  simp only [mem_escapeChar_iff h]
  simp

/-! ### Lines -/

theorem escape_eq_mapLines (t : Text) : escape t = t.mapLines escape := by
  have hescape : escape = List.flatMap escapeChar := funext escape_eq_flatMap
  have hnewline : ['\n'].flatMap escapeChar = ['\n'] := by decide
  have hlines := flatMap_intercalate escapeChar ['\n'] (t.splitOn '\n')
  rw [intercalate_splitOn, hnewline] at hlines
  rw [mapLines, hescape, hlines]

/-- What a link is made of besides its label and its address stands in the empty link. -/
theorem notMem_link {c : Char} {label address : Text} (htags : c ∉ link [] []) (hlabel : c ∉ label)
    (haddress : c ∉ address) : c ∉ link label address := by
  unfold link at htags ⊢
  simp only [List.flatten_cons, List.mem_append, not_or] at htags ⊢
  obtain ⟨hopen, -, hend, -, hclose, hnil⟩ := htags
  exact ⟨hopen, haddress, hend, hlabel, hclose, hnil⟩

theorem notMem_links {line : Text} (h : '\n' ∉ line) : '\n' ∉ links line := by
  fun_induction links line with
  | case1 line hopen => exact h
  | case2 line before t hopen hlabel => exact h
  | case3 line before t hopen label t' hlabel haddress => exact h
  | case4 line before t hopen label t' hlabel address rest haddress ih =>
    rw [upTo?_eq_append hopen, upTo?_eq_append hlabel, upTo?_eq_append haddress] at h
    simp only [List.mem_append, not_or] at h
    obtain ⟨hbefore, -, hlab, -, hadd, -, hrest⟩ := h
    rw [List.mem_append, List.mem_append, not_or, not_or]
    exact ⟨⟨hbefore, notMem_link (by decide) hlab hadd⟩, ih hrest⟩

/-- A line of a description as it stands on a page. -/
def richLine (line : Text) : Text := codeSpans (links (escape line))

/-- A rich text is made line by line. -/
theorem richText_eq_mapLines (t : Text) : richText t = t.mapLines richLine := by
  have hnewline : '\n' ∉ escapedChars ∧ '\n' ∉ entityChars := by decide
  have hescape : ∀ line, '\n' ∉ line → '\n' ∉ escape line := fun line =>
    mt (mem_escape_iff hnewline).mp
  rw [richText, escape_eq_mapLines, mapLines, splitOn_mapLines (fun _ => notMem_links),
    splitOn_mapLines hescape, List.map_map, List.map_map]
  rfl

end Markup

end DocComment
