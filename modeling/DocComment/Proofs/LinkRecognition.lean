import DocComment.Proofs.LinksAndSpans

/-! # Where a written link begins on the page

The label of a link begins at the first opening bracket of its line that no earlier link has taken.  So a
link is recognised as it was written exactly if no bracket opens before it.  An interval or a note in
brackets on the same line draws what stands between it and the link into the label. -/

namespace DocComment.Markup
open Text

/-- A link as it is written in a description. -/
def writtenLink (label address : Text) : Text :=
  '[' :: (label ++ (linkMark ++ (address ++ ['\x7d'])))

theorem FoundLink.line_eq (l : FoundLink) :
    l.line = l.before ++ (writtenLink l.label l.address ++ l.rest) := by
  simp [FoundLink.line, writtenLink]

theorem notMem_writtenLink {label address : Text} (hlabel : '\n' ∉ label) (haddress : '\n' ∉ address) :
    '\n' ∉ writtenLink label address := by
  have hmark : '\n' ∉ linkMark := by decide
  simp [writtenLink, hlabel, haddress, hmark]

theorem head?_link (label address : Text) : (link label address).head? = some '<' := rfl

theorem richLine_link {before label address : Text} (hbefore : '[' ∉ before ∧ '\x7b' ∉ before)
    (hlabel : '\x7b' ∉ label) (haddress : '\x7b' ∉ address ∧ '\x7d' ∉ address) (rest : Text) :
    richLine (before ++ (writtenLink label address ++ rest)) =
      escape before ++ (link (escape label) (escape address) ++ richLine rest) := by
  have hfirst : firstLink? (before ++ (writtenLink label address ++ rest)) =
      some ⟨before, label, address, rest⟩ := by
    rw [← FoundLink.line_eq ⟨before, label, address, rest⟩]
    exact firstLink?_line hbefore.1 hlabel haddress.2
  have hlinks : links (escape (before ++ (writtenLink label address ++ rest))) =
      escape before ++ link (escape label) (escape address) ++ links (escape rest) := by
    rw [links_eq, firstLink?_escape, hfirst]
    rfl
  have hescape : ∀ {t : Text}, '\x7b' ∉ t → '\x7b' ∉ escape t := mt (mem_escape_iff (by decide)).mp
  have hmarkup : awaited false ∉ escape before ++ link (escape label) (escape address) := by
    rw [List.mem_append, not_or]
    exact ⟨hescape hbefore.2, notMem_link (by decide) (hescape hlabel) (hescape haddress.1)⟩
  rw [richLine, hlinks, codeSpans_eq, spansFrom_append hmarkup, List.append_assoc, richLine,
    codeSpans_eq]

/-- The first link of a description, on its first line, whatever follows it there and on other lines. -/
theorem richText_link {before label address : Text}
    (hbefore : '\n' ∉ before ∧ '[' ∉ before ∧ '\x7b' ∉ before) (hlabel : '\n' ∉ label ∧ '\x7b' ∉ label)
    (haddress : '\n' ∉ address ∧ '\x7b' ∉ address ∧ '\x7d' ∉ address) (rest : Text) :
    richText (before ++ (writtenLink label address ++ rest)) =
      escape before ++ (link (escape label) (escape address) ++ richText rest) := by
  have hline : '\n' ∉ before ++ writtenLink label address := by
    rw [List.mem_append, not_or]
    exact ⟨hbefore.1, notMem_writtenLink hlabel.1 haddress.1⟩
  rw [richText_eq_mapLines, richText_eq_mapLines, ← List.append_assoc, ← List.append_assoc]
  refine mapLines_append hline (fun line => ?_) rest
  rw [List.append_assoc, List.append_assoc]
  exact richLine_link hbefore.2 hlabel.2 haddress.2 line

/-- Behind an open bracket, the label begins at the bracket. -/
theorem richText_link_behind_bracket {x y label address : Text} (hx : '\n' ∉ x ∧ '[' ∉ x ∧ '\x7b' ∉ x)
    (hy : '\n' ∉ y ∧ '\x7b' ∉ y) (hlabel : '\n' ∉ label ∧ '\x7b' ∉ label)
    (haddress : '\n' ∉ address ∧ '\x7b' ∉ address ∧ '\x7d' ∉ address) (rest : Text) :
    richText (x ++ '[' :: y ++ (writtenLink label address ++ rest)) =
      escape x ++ (link (escape (y ++ '[' :: label)) (escape address) ++ richText rest) := by
  have hwritten : x ++ '[' :: y ++ (writtenLink label address ++ rest) =
      x ++ (writtenLink (y ++ '[' :: label) address ++ rest) := by
    simp [writtenLink]
  have hdrawn : '\n' ∉ y ++ '[' :: label ∧ '\x7b' ∉ y ++ '[' :: label := by
    simp [hy, hlabel]
  rw [hwritten]
  exact richText_link hx hdrawn haddress rest

/-- The page has a tag where the description has the bracket. -/
theorem richText_link_ne_of_bracket {x y label address : Text}
    (hx : '\n' ∉ x ∧ '[' ∉ x ∧ '\x7b' ∉ x) (hy : '\n' ∉ y ∧ '\x7b' ∉ y)
    (hlabel : '\n' ∉ label ∧ '\x7b' ∉ label)
    (haddress : '\n' ∉ address ∧ '\x7b' ∉ address ∧ '\x7d' ∉ address) (rest markup : Text) :
    richText (x ++ '[' :: y ++ (writtenLink label address ++ rest)) ≠
      escape (x ++ '[' :: y) ++ markup := by
  intro heq
  obtain ⟨t, ht⟩ := List.head?_eq_some_iff.mp
    (head?_link (escape (y ++ '[' :: label)) (escape address))
  rw [richText_link_behind_bracket hx hy hlabel haddress, escape_append x, List.append_assoc,
    List.append_cancel_left_eq, escape_cons, escapeChar_of_notMem (by decide), ht] at heq
  exact absurd (List.cons.inj heq).1 (by decide)

/-- A link behind a text is recognised as it is written if and only if the text opens no bracket. Behind
an open bracket, the label begins at the first one. -/
theorem link_recognized_iff {before label address : Text}
    (hbefore : Avoids ['\n', '\x7b', '\x7d'] before)
    (hlabel : Avoids ['\n', '[', ']', '\x7b', '\x7d'] label)
    (haddress : Avoids ['\n', '\x7b', '\x7d'] address) (rest : Text) :
    (richText (before ++ (writtenLink label address ++ rest)) =
        escape before ++ (link (escape label) (escape address) ++ richText rest) ↔ '[' ∉ before) ∧
      ∀ x y, before = x ++ '[' :: y → '[' ∉ x →
        richText (before ++ (writtenLink label address ++ rest)) =
          escape x ++ (link (escape (y ++ '[' :: label)) (escape address) ++ richText rest) := by
  have hlabel' : '\n' ∉ label ∧ '\x7b' ∉ label := ⟨hlabel _ (by simp), hlabel _ (by simp)⟩
  have haddress' : '\n' ∉ address ∧ '\x7b' ∉ address ∧ '\x7d' ∉ address :=
    ⟨haddress _ (by simp), haddress _ (by simp), haddress _ (by simp)⟩
  have hsides : ∀ x y, before = x ++ '[' :: y →
      ('\n' ∉ x ∧ '\x7b' ∉ x) ∧ '\n' ∉ y ∧ '\x7b' ∉ y := by
    rintro x y rfl
    have hnewline := hbefore '\n' (by simp)
    have hbrace := hbefore '\x7b' (by simp)
    simp only [List.mem_append, List.mem_cons, not_or] at hnewline hbrace
    exact ⟨⟨hnewline.1, hbrace.1⟩, hnewline.2.2, hbrace.2.2⟩
  refine ⟨⟨fun heq hmem => ?_, fun hnone => ?_⟩, fun x y hxy hx => ?_⟩
  · obtain ⟨x, y, hxy, hx⟩ := List.eq_append_cons_of_mem hmem
    obtain ⟨⟨hnewline, hbrace⟩, hy⟩ := hsides x y hxy
    rw [hxy] at heq
    exact richText_link_ne_of_bracket ⟨hnewline, hx, hbrace⟩ hy hlabel' haddress' rest _ heq
  · exact richText_link ⟨hbefore _ (by simp), hnone, hbefore _ (by simp)⟩ hlabel' haddress' rest
  · obtain ⟨⟨hnewline, hbrace⟩, hy⟩ := hsides x y hxy
    rw [hxy]
    exact richText_link_behind_bracket ⟨hnewline, hx, hbrace⟩ hy hlabel' haddress' rest

/-- The text before the link has an interval. -/
theorem link_recognized_iff_of_interval :
    richText ("in [0, 1], see ".toList ++ (writtenLink "docs" "u" ++ ".".toList)) =
      escape "in " ++ (link (escape ("0, 1], see ".toList ++ '[' :: "docs".toList)) (escape "u") ++
        richText ".") :=
  (link_recognized_iff (by decide) (by decide) (by decide) ".").2 "in " "0, 1], see " (by decide)
    (by decide)

/-- A link behind an interval is not recognised as it is written. -/
theorem link_behind_interval_not_recognized :
    ¬ ∀ before label address rest : Text, Avoids ['\n', '\x7b', '\x7d'] before →
      Avoids ['\n', '[', ']', '\x7b', '\x7d'] label → Avoids ['\n', '\x7b', '\x7d'] address →
      richText (before ++ (writtenLink label address ++ rest)) =
        escape before ++ (link (escape label) (escape address) ++ richText rest) := by
  intro h
  have heq := h ("in ".toList ++ '[' :: "0, 1], see ".toList) "docs" "u" [] (by decide) (by decide)
    (by decide)
  exact richText_link_ne_of_bracket (by decide) (by decide) (by decide) (by decide) [] _ heq

end DocComment.Markup
