import DocComment.Proofs.CommentLines
import DocComment.Proofs.FieldOccurrences
import Mathlib.Data.List.DropRight

/-! # The lines of an example

The texts of an entry are cut down to the range from the first to the last that is not empty.  The two ends
of the range are looked for one by one and never cross.  No text of a recognized line holds a line feed, so
the lines of an example are just the texts in the range, the empty ones inside it with them. -/

namespace DocComment

/-- The fragments from the first to the last that is not empty. -/
def Text.filled (fragments : List Text) : List Text :=
  (fragments.rdropWhile List.isEmpty).dropWhile List.isEmpty

/-- The lines of the text are the fragments from the first to the last that is not empty. Without such a
fragment the text is empty. -/
def Text.Displays (t : Text) (fragments : List Text) : Prop :=
  ((∃ f ∈ fragments, f ≠ []) → t.splitOn '\n' = filled fragments) ∧
    ((∀ f ∈ fragments, f = []) → t = [])

/-! ### The range -/

namespace Entry
variable {lines : List Text}

theorem firstFilled_lt_length (h : ∃ t ∈ lines, t ≠ []) : firstFilled lines < lines.length := by
  rw [firstFilled, List.findIdx_lt_length]
  simpa using h

theorem afterFilled_eq_length (h : ∃ t ∈ lines, t ≠ []) :
    afterFilled lines = (lines.rdropWhile List.isEmpty).length := by
  have hlt : lines.reverse.findIdx (!·.isEmpty) < lines.reverse.length := by
    rw [List.findIdx_lt_length]
    simpa using h
  have hsome : lines.reverse.findIdx? (!·.isEmpty) = some (lines.reverse.findIdx (!·.isEmpty)) := by
    rw [List.findIdx?_eq_guard_findIdx_lt, Option.guard_eq_some_iff]
    exact ⟨rfl, decide_eq_true hlt⟩
  rw [afterFilled, hsome, List.rdropWhile, List.length_reverse, List.dropWhile_eq_drop_findIdx_not,
    List.length_drop, List.length_reverse]

theorem afterFilled_of_blank (h : ∀ t ∈ lines, t = []) : afterFilled lines = firstFilled lines := by
  have hnone : lines.reverse.findIdx? (!·.isEmpty) = none := by
    simpa [List.findIdx?_eq_none_iff] using h
  rw [afterFilled, hnone]

/-- What stands behind the last filled line does not matter to the first. -/
theorem firstFilled_rdropWhile (h : ∃ t ∈ lines, t ≠ []) :
    firstFilled (lines.rdropWhile List.isEmpty) = firstFilled lines ∧
      ∃ t ∈ lines.rdropWhile List.isEmpty, t ≠ [] := by
  have hfilled : ∃ t ∈ lines.rdropWhile List.isEmpty, t ≠ [] := by
    obtain ⟨t, ht, hne⟩ := h
    have hnil : lines.rdropWhile List.isEmpty ≠ [] := by
      rw [Ne, List.rdropWhile_eq_nil_iff]
      intro hall
      exact hne (by simpa using hall t ht)
    exact ⟨_, List.getLast_mem hnil, by simpa using List.rdropWhile_last_not List.isEmpty lines hnil⟩
  refine ⟨?_, hfilled⟩
  have happend := List.rdropWhile_append_rtakeWhile (p := List.isEmpty) (l := lines)
  have hlt := firstFilled_lt_length hfilled
  conv_rhs => rw [← happend, firstFilled, List.findIdx_append]
  exact (if_pos hlt).symm

theorem firstFilled_le_afterFilled (lines : List Text) :
    firstFilled lines ≤ afterFilled lines ∧ afterFilled lines ≤ lines.length := by
  by_cases h : ∃ t ∈ lines, t ≠ []
  · obtain ⟨hfirst, hfilled⟩ := firstFilled_rdropWhile h
    rw [afterFilled_eq_length h, ← hfirst]
    exact ⟨(firstFilled_lt_length hfilled).le, (List.rdropWhile_prefix _ _).length_le⟩
  · have hblank : ∀ t ∈ lines, t = [] := by simpa using h
    rw [afterFilled_of_blank hblank]
    exact ⟨le_rfl, List.findIdx_le_length⟩

theorem extract_filled (h : ∃ t ∈ lines, t ≠ []) :
    lines.extract (firstFilled lines) (afterFilled lines) = Text.filled lines := by
  have htake : lines.take (afterFilled lines) = lines.rdropWhile List.isEmpty := by
    rw [afterFilled_eq_length h]
    exact (List.prefix_iff_eq_take.mp (List.rdropWhile_prefix _ _)).symm
  rw [List.extract_eq_drop_take', htake, Text.filled, List.dropWhile_eq_drop_findIdx_not,
    ← (firstFilled_rdropWhile h).1]
  rfl

theorem filled_ne_nil (h : ∃ t ∈ lines, t ≠ []) : Text.filled lines ≠ [] := by
  obtain ⟨t, ht, hne⟩ := (firstFilled_rdropWhile h).2
  rw [Text.filled, Ne, List.dropWhile_eq_nil_iff]
  intro hall
  exact hne (by simpa using hall t ht)

theorem filled_subset (lines : List Text) : Text.filled lines ⊆ lines :=
  fun _ ht => (List.rdropWhile_prefix _ _).subset ((List.dropWhile_sublist _).subset ht)

theorem verbatim_displays {e : Entry} (h : ∀ t ∈ e.texts, '\n' ∉ t) :
    e.verbatim.Displays e.texts := by
  constructor
  · intro hfilled
    rw [verbatim, extract_filled hfilled]
    exact Text.splitOn_intercalate (fun t ht => h t (filled_subset _ ht)) (filled_ne_nil hfilled)
  · intro hblank
    rw [verbatim, afterFilled_of_blank hblank]
    simp [List.extract_eq_take_drop]

end Entry

/-! ### The texts of recognized lines -/

theorem Payload.exists_desc?_eq_intercalate {category : Category} {rest : List Text}
    {payload : Payload} (h : ofWords? category rest = some payload) {d : Text}
    (hd : payload.desc? = some d) : ∃ ws, ws ⊆ rest ∧ d = [' '].intercalate ws := by
  unfold ofWords? at h
  split at h <;> cases h <;> cases hd
  · exact ⟨_, List.Subset.refl _, rfl⟩
  · exact ⟨_, List.subset_cons_self _ _, rfl⟩
  · exact ⟨_, fun _ hw => List.mem_cons_of_mem _ (List.mem_cons_of_mem _ hw), rfl⟩
  · exact ⟨_, List.Subset.refl _, rfl⟩

namespace Line

theorem newline_notMem_intercalate {ws : List Text}
    (h : ∀ w ∈ ws, ∀ c ∈ w, Text.isBlank c = false) : '\n' ∉ [' '].intercalate ws := by
  intro hmem
  induction ws with
  | nil => cases hmem
  | cons w ws ih =>
    obtain ⟨hw, hws⟩ := List.forall_mem_cons.mp h
    have hnot : '\n' ∉ w := fun hc => absurd (hw _ hc) (by decide)
    cases ws with
    | nil => exact hnot (by simpa using hmem)
    | cons next ws =>
      rw [List.intercalate_cons_cons, List.mem_append, List.mem_append] at hmem
      rcases hmem with (hc | hc) | hc
      · exact hnot hc
      · exact absurd hc (by decide)
      · exact ih hws hc

/-- White space in a source line is white space between words, so none is left in a text but spaces. -/
theorem newline_notMem_of_recognize {place : Location} {source : Text} {line : Line}
    (h : recognize place source = .ok (some line)) {d : Text} (hd : line.desc? = some d) :
    '\n' ∉ d := by
  obtain ⟨result, hreads⟩ := exists_reads place source
  rw [hreads.recognize_eq] at h
  subst h
  cases hreads with
  | start | stop => cases hd
  | tagged hcontent _ _ hpayload =>
    obtain ⟨ws, hws, rfl⟩ := Payload.exists_desc?_eq_intercalate hpayload hd
    apply newline_notMem_intercalate
    intro w hw
    exact (mem_content (hcontent ▸ List.mem_cons_of_mem _ (hws hw))).2
  | raw =>
    cases hd
    intro hmem
    have hwords : ∀ w ∈ source.words, ∀ c ∈ w, Text.isBlank c = false :=
      fun w hw => (Text.mem_words hw).2
    exact newline_notMem_intercalate hwords ((List.dropWhile_sublist _).subset hmem)

/-- The line of an occurrence stands in front of those behind it. -/
theorem suffix_of_mem_occurrences {tag : Tag} {lines : List Line} {o : Occurrence}
    (h : o ∈ occurrences tag lines) : o.line :: o.behind <:+ lines := by
  induction lines with
  | nil => cases h
  | cons line lines ih =>
    rw [occurrences] at h
    split at h
    · rcases List.mem_cons.mp h with rfl | h
      · exact List.suffix_rfl
      · exact (ih h).trans (List.suffix_cons _ _)
    · exact (ih h).trans (List.suffix_cons _ _)

end Line

theorem Occurrence.entry_subset (o : Occurrence) : o.entry ⊆ o.line :: o.behind := by
  intro line hline
  rcases List.mem_cons.mp hline with rfl | hline
  · exact List.mem_cons_self
  · exact List.mem_cons_of_mem _ ((List.takeWhile_sublist _).subset (List.mem_filter.mp hline).1)

theorem Occurrence.texts_entry {o : Occurrence} {tag : Tag} {own : Option Text}
    (h : o.line = .tagged tag (.text own)) :
    o.entry.texts = own.toList ++ Line.continuation o.behind := by
  have hline : o.line.desc? = own := by
    rw [h]
    rfl
  rw [Entry.texts, entry, List.filterMap_cons, hline, filterMap_desc?_filter_isRaw]
  cases own <;> rfl

namespace Block

/-- Each line with the tag stands for one text, whose lines are its own and those of its continuation. -/
theorem forall₂_verbatim {place : Location} {lines : List Line} {b : Block}
    (hlines : ∀ line ∈ lines, ∃ place source, Line.recognize place source = .ok (some line))
    (hclosed : (lines.foldl Draft.take (Draft.new place)).result = .ok b) {tag : Tag}
    (htag : tag.category = .text) :
    List.Forall₂ (fun shown o => ∃ own, o.line = .tagged tag (.text own) ∧
        shown.Displays (own.toList ++ Line.continuation o.behind))
      (b.verbatim tag) (Line.occurrences tag (lines.takeWhile (· != .stop))) := by
  have hne : tag.category ≠ .delimiter := by simp [htag]
  rw [verbatim, Draft.entries_eq_occurrences hclosed hne, List.map_map, List.forall₂_map_left_iff,
    List.forall₂_same]
  intro o ho
  have hmem : ∀ line ∈ o.line :: o.behind, line ∈ lines := fun line hline =>
    (List.takeWhile_sublist _).subset ((Line.suffix_of_mem_occurrences ho).subset hline)
  obtain ⟨own, hown⟩ : ∃ own, o.line = .tagged tag (.text own) := by
    have hline := List.mem_map_of_mem (f := Occurrence.line) ho
    rw [Line.map_line_occurrences] at hline
    obtain ⟨p, source, hrecognize⟩ := hlines o.line (hmem _ List.mem_cons_self)
    obtain ⟨payload, hpayload, hcategory⟩ := Line.exists_payload_of_recognize hrecognize
      (by simpa using (List.mem_filter.mp hline).2) hne
    rw [htag] at hcategory
    match payload, hcategory with
    | .text own, _ => exact ⟨own, hpayload⟩
  refine ⟨own, hown, ?_⟩
  rw [← Occurrence.texts_entry hown]
  apply Entry.verbatim_displays
  intro t ht
  obtain ⟨line, hline, hdesc⟩ := List.mem_filterMap.mp ht
  obtain ⟨p, source, hrecognize⟩ := hlines line (hmem line (o.entry_subset hline))
  exact Line.newline_notMem_of_recognize hrecognize hdesc

/-- The range that is cut out of an entry is one of its texts, and shows them line by line if they hold no
line feed.  In a parsed block none does, and each line with `@example` up to the end delimiter stands for
one example. -/
theorem examples_display_lines :
    (∀ e : Entry, Entry.firstFilled e.texts ≤ Entry.afterFilled e.texts ∧
        Entry.afterFilled e.texts ≤ e.texts.length ∧
        ((∀ t ∈ e.texts, '\n' ∉ t) → e.verbatim.Displays e.texts)) ∧
      ∀ (file : Text) (lines : List SourceLine) (b : Block), .ok b ∈ Source.items file lines →
        List.Forall₂ (fun shown o => ∃ own, o.line = .tagged .exampleText (.text own) ∧
            shown.Displays (own.toList ++ Line.continuation o.behind))
          b.examples (Line.occurrences .exampleText
            ((Source.linesBehind file b.place.line lines).takeWhile (· != .stop))) := by
  constructor
  · intro e
    obtain ⟨hfirst, hafter⟩ := Entry.firstFilled_le_afterFilled e.texts
    exact ⟨hfirst, hafter, Entry.verbatim_displays⟩
  · intro file lines b hb
    have hlines : ∀ line ∈ Source.linesBehind file b.place.line lines,
        ∃ place source, Line.recognize place source = .ok (some line) :=
      fun _ => Source.exists_recognize_of_mem_linesBehind
    exact forall₂_verbatim hlines (Source.result_linesBehind hb) rfl

/-- Empty lines stay inside an example and fall away at its ends. -/
theorem examples_display_lines_of_calls :
    let source : List SourceLine :=
      [.ok "/**", .ok " * @method f", .ok " * @memberOf m", .ok " * @example", .ok " *",
        .ok " * const x = f(1)", .ok " *", .ok " * console.log(x)", .ok " *", .ok " * @example f(2)",
        .ok " */"]
    ∃ b, .ok b ∈ Source.items "f.js" source ∧
      b.examples = ["const x = f(1)\n\nconsole.log(x)".toList, "f(2)".toList] := by
  intro source
  obtain ⟨b, hb, hoccurrences⟩ : ∃ b, Source.items "f.js" source = [.ok b] ∧
      (Line.occurrences .exampleText
        ((Source.linesBehind "f.js" b.place.line source).takeWhile (· != .stop))).map
          (fun o => (o.line, Line.continuation o.behind)) =
        [(.tagged .exampleText (.text none),
            ["".toList, "const x = f(1)", "", "console.log(x)", ""]),
          (.tagged .exampleText (.text (some "f(2)")), [])] := ⟨_, rfl, by decide +kernel⟩
  have hmem : .ok b ∈ Source.items "f.js" source := hb ▸ List.mem_singleton_self _
  have hexamples := examples_display_lines.2 "f.js" source b hmem
  obtain ⟨first, _, heq, hfirst, hrest⟩ := List.map_eq_cons_iff.mp hoccurrences
  obtain ⟨second, _, rfl, hsecond, hnil⟩ := List.map_eq_cons_iff.mp hrest
  obtain rfl := List.map_eq_nil_iff.mp hnil
  rw [heq] at hexamples
  obtain ⟨shown, _, ⟨own, hown, hshown, -⟩, hothers, hb₁⟩ := List.forall₂_cons_right_iff.mp hexamples
  obtain ⟨shown', _, ⟨own', hown', hshown', -⟩, hnone, hb₂⟩ := List.forall₂_cons_right_iff.mp hothers
  obtain ⟨hline, hbehind⟩ := Prod.mk.inj hfirst
  obtain ⟨hline', hbehind'⟩ := Prod.mk.inj hsecond
  obtain rfl := Payload.text.inj (Line.tagged.inj (hline.symm.trans hown)).2
  obtain rfl := Payload.text.inj (Line.tagged.inj (hline'.symm.trans hown')).2
  rw [hbehind] at hshown
  rw [hbehind'] at hshown'
  cases hnone
  have hcalls : shown = "const x = f(1)\n\nconsole.log(x)" :=
    Text.splitOn_injective '\n' ((hshown (by decide)).trans (by decide +kernel))
  have hcall : shown' = "f(2)" :=
    Text.splitOn_injective '\n' ((hshown' (by decide)).trans (by decide +kernel))
  exact ⟨b, hmem, by rw [hb₁, hb₂, hcalls, hcall]⟩

end Block

end DocComment
