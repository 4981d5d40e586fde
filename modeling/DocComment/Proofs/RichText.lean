import DocComment.Markup
import DocComment.Proofs.TextWords

/-! # How a description becomes rich text

The escaped text has none of the characters of which tags are made.  Links are put together from pieces
of it, and then braces give way to the tags of code spans, wherever they stand.  So a property holds of
every rich text that holds of plain texts and of links, of texts put together, and of a text in which a
tag of a code span has taken the place of a brace. -/

namespace DocComment

namespace Text

theorem mem_of_mem_splitOn {sep c : Char} {t piece : Text} (hp : piece ∈ splitOn sep t)
    (hc : c ∈ piece) : c ∈ t := by
  rw [← intercalate_splitOn sep t]
  generalize splitOn sep t = pieces at hp
  induction pieces with
  | nil => cases hp
  | cons first pieces ih =>
    cases pieces with
    | nil =>
      rw [List.mem_singleton.mp hp] at hc
      simpa using hc
    | cons next rest =>
      rw [List.intercalate_cons_cons]
      rcases List.mem_cons.mp hp with rfl | hp
      · exact List.mem_append_left _ (List.mem_append_left _ hc)
      · exact List.mem_append_right _ (ih hp)

theorem notMem_replaceChar {t new : Text} {c : Char} (ht : c ∉ t) (hnew : c ∉ new) (old : Char) :
    c ∉ t.replaceChar old new := by
  intro hc
  obtain ⟨d, hd, hc⟩ := List.mem_flatMap.mp hc
  split at hc
  · exact hnew hc
  · rw [List.mem_singleton] at hc
    exact ht (hc ▸ hd)

theorem notMem_replaceChar_self {new : Text} {old : Char} (hnew : old ∉ new) (t : Text) :
    old ∉ t.replaceChar old new := by
  intro hc
  obtain ⟨d, hd, hc⟩ := List.mem_flatMap.mp hc
  split at hc
  · exact hnew hc
  · rename_i hne
    rw [List.mem_singleton] at hc
    exact hne hc.symm

variable {P : Text → Prop} {f : Text → Text}

theorem mapLines_of_append (append : ∀ {x y}, P x → P y → P (x ++ y)) (newline : P ['\n'])
    {t : Text} (h : ∀ line ∈ t.splitOn '\n', P (f line)) : P (t.mapLines f) := by
  rw [mapLines]
  have hne := splitOn_ne_nil '\n' t
  generalize t.splitOn '\n' = lines at h hne
  induction lines with
  | nil => exact absurd rfl hne
  | cons line lines ih =>
    obtain ⟨hline, hlines⟩ := List.forall_mem_cons.mp h
    cases lines with
    | nil => simpa using hline
    | cons next lines =>
      rw [List.map_cons, List.map_cons, List.intercalate_cons_cons]
      exact append (append hline newline) (ih hlines (List.cons_ne_nil _ _))

/-- What changing a line keeps in any surroundings, changing all lines keeps. -/
theorem mapLines_of_surrounded (hf : ∀ x line y, P (x ++ (line ++ y)) → P (x ++ (f line ++ y)))
    {t : Text} (h : P t) : P (t.mapLines f) := by
  have hlines : ∀ lines x, P (x ++ ['\n'].intercalate lines) →
      P (x ++ ['\n'].intercalate (lines.map f)) := by
    intro lines
    induction lines with
    | nil => exact fun x hx => hx
    | cons line lines ih =>
      intro x hx
      cases lines with
      | nil => simpa using hf x line [] (by simpa using hx)
      | cons next lines =>
        rw [List.intercalate_cons_cons, List.append_assoc] at hx
        have hline := hf x line _ hx
        have hrest := ih (x ++ f line ++ ['\n']) (by simpa using hline)
        simpa using hrest
  rw [← intercalate_splitOn '\n' t] at h
  exact hlines _ [] h

end Text

namespace Markup

/-- A text of which no tag and no attribute value can be made. -/
def Plain (t : Text) : Prop := ∀ c ∈ ['<', '>', '"'], c ∉ t

-- The characters are those of the list: the instance for a finite type would try every character.
instance : DecidablePred Plain := fun _ => List.decidableBAll _ _

theorem plain_append_iff {a b : Text} : Plain (a ++ b) ↔ Plain a ∧ Plain b := by
  simp only [Plain, List.mem_append, not_or]
  exact forall₂_and

theorem plain_escape (t : Text) : Plain (escape t) := by
  simp only [Plain, List.forall_mem_cons]
  refine ⟨?_, ?_, Text.notMem_replaceChar_self (by decide) _, by simp⟩
  · apply Text.notMem_replaceChar _ (by decide)
    apply Text.notMem_replaceChar _ (by decide)
    exact Text.notMem_replaceChar_self (by decide) _
  · apply Text.notMem_replaceChar _ (by decide)
    exact Text.notMem_replaceChar_self (by decide) _

theorem upTo?_eq_append {mark t before rest : Text} (h : upTo? mark t = some (before, rest)) :
    t = before ++ (mark ++ rest) := by
  induction t generalizing before with
  | nil => simp [upTo?] at h
  | cons c t ih =>
    rw [upTo?] at h
    split at h
    · rename_i hmark
      obtain ⟨tail, htail⟩ := List.isPrefixOf_iff_prefix.mp hmark
      simp only [Option.some.injEq, Prod.mk.injEq] at h
      obtain ⟨rfl, rfl⟩ := h
      rw [← htail, List.drop_left, List.nil_append]
    · obtain ⟨⟨before', rest'⟩, ht, heq⟩ := Option.map_eq_some_iff.mp h
      simp only [Prod.mk.injEq] at heq
      obtain ⟨rfl, rfl⟩ := heq
      rw [ih ht, List.cons_append]

variable {P : Text → Prop}

theorem links_of_plain (plain : ∀ t, Plain t → P t) (append : ∀ {x y}, P x → P y → P (x ++ y))
    (link : ∀ label address, Plain label → Plain address → P (link label address))
    {line : Text} (h : Plain line) : P (links line) := by
  fun_induction links line with
  | case1 line hopen => exact plain line h
  | case2 line before t hopen hlabel => exact plain line h
  | case3 line before t hopen label t' hlabel haddress => exact plain line h
  | case4 line before t hopen label t' hlabel address rest haddress ih =>
    rw [upTo?_eq_append hopen, upTo?_eq_append hlabel, upTo?_eq_append haddress] at h
    simp only [plain_append_iff] at h
    obtain ⟨hbefore, -, hlab, -, hadd, -, hrest⟩ := h
    exact append (append (plain before hbefore) (link label address hlab hadd)) (ih hrest)

theorem codeSpans_of_surrounded (opening : ∀ x y, P (x ++ '\x7b' :: y) → P (x ++ ("<code>" ++ y)))
    (closing : ∀ x y, P (x ++ '\x7d' :: y) → P (x ++ ("</code>" ++ y)))
    {x line y : Text} (h : P (x ++ (line ++ y))) : P (x ++ (codeSpans line ++ y)) := by
  fun_induction codeSpans line generalizing x with
  | case1 line hopen => exact h
  | case2 line before t hopen hclose => exact h
  | case3 line before t hopen code rest hclose ih =>
    rw [upTo?_eq_append hopen, upTo?_eq_append hclose] at h
    have hopened := opening (x ++ before) (code ++ '\x7d' :: (rest ++ y)) (by simpa using h)
    have hclosed := closing (x ++ before ++ "<code>" ++ code) (rest ++ y) (by simpa using hopened)
    have hrest := ih (x := x ++ before ++ "<code>" ++ code ++ "</code>") (by simpa using hclosed)
    simpa [element] using hrest

/-- What holds of plain texts and of links, and of any such texts put together, holds of a rich text if
tags of code spans may take the place of braces. -/
theorem richText_induction (plain : ∀ t, Plain t → P t)
    (append : ∀ {x y}, P x → P y → P (x ++ y))
    (link : ∀ label address, Plain label → Plain address → P (link label address))
    (opening : ∀ x y, P (x ++ '\x7b' :: y) → P (x ++ ("<code>" ++ y)))
    (closing : ∀ x y, P (x ++ '\x7d' :: y) → P (x ++ ("</code>" ++ y))) (t : Text) :
    P (richText t) := by
  have hlinks : P ((escape t).mapLines links) := by
    apply Text.mapLines_of_append append (plain _ (by decide))
    intro line hline
    apply links_of_plain plain append link
    intro c hc hmem
    exact plain_escape t c hc (Text.mem_of_mem_splitOn hline hmem)
  exact Text.mapLines_of_surrounded (fun x line y => codeSpans_of_surrounded opening closing) hlinks

end Markup

end DocComment
