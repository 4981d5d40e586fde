import DocComment.BlockFields
import DocComment.Proofs.BlockIdentity
import Mathlib.Data.List.Forall2

/-! # The fields of a block

Each line with a tag stands for one field: the line gives its name and its type, and its text goes on with
the free text up to the next tagged line.  A recognized line carries what the category of its tag asks
for, so no entry is passed over when the fields are read. -/

namespace DocComment

/-- Running text from fragments: the empty ones dropped, the others joined by spaces. -/
def Text.running (fragments : List Text) : Text := [' '].intercalate (fragments.filter (!·.isEmpty))

/-- A line among others, and the lines behind it. -/
structure Occurrence where
  line : Line
  behind : List Line

namespace Line

def isTagged : Line → Bool
  | tagged _ _ => true
  | _ => false

def freeText? : Line → Option Text
  | raw desc => some desc
  | _ => none

/-- The free text that comes before the next tagged line. -/
def continuation (lines : List Line) : List Text :=
  (lines.takeWhile (!·.isTagged)).filterMap freeText?

/-- The lines with a tag, in their order. -/
def occurrences (tag : Tag) : List Line → List Occurrence
  | [] => []
  | line :: behind =>
    if line.tag? = some tag then ⟨line, behind⟩ :: occurrences tag behind else occurrences tag behind

theorem map_line_occurrences (tag : Tag) (lines : List Line) :
    (occurrences tag lines).map Occurrence.line = lines.filter (·.tag? = some tag) := by
  induction lines with
  | nil => rfl
  | cons line lines ih => by_cases h : line.tag? = some tag <;> simp [occurrences, h, ih]

end Line

/-- The line carries a payload with a text of its own, and `desc` is this text and its continuation. -/
def Occurrence.Tells (o : Occurrence) (tag : Tag) (payload : Text → Payload) (desc : Text) : Prop :=
  ∃ own, o.line = .tagged tag (payload own) ∧ desc = Text.running (own :: Line.continuation o.behind)

/-! ### Payloads of recognized lines -/

namespace Payload

/-- The category of tags that ask for a payload. -/
def category : Payload → Category
  | flag => .flag
  | label _ => .label
  | description _ => .description
  | value _ _ => .value
  | typed _ _ => .typed
  | named _ _ _ => .named
  | text _ => .text

theorem category_of_ofWords? {category : Category} {rest : List Text} {payload : Payload}
    (h : ofWords? category rest = some payload) : payload.category = category := by
  unfold ofWords? at h
  split at h <;> cases h <;> rfl

end Payload

theorem Line.exists_payload_of_recognize {place : Location} {source : Text} {line : Line}
    (h : recognize place source = .ok (some line)) {tag : Tag} (htag : line.tag? = some tag)
    (hcategory : tag.category ≠ .delimiter) :
    ∃ payload, line = .tagged tag payload ∧ payload.category = tag.category := by
  obtain ⟨result, hreads⟩ := exists_reads place source
  rw [hreads.recognize_eq] at h
  subst h
  cases hreads with
  | start | stop =>
    cases htag
    exact absurd rfl hcategory
  | raw => cases htag
  | tagged _ _ _ hpayload =>
    cases htag
    exact ⟨_, rfl, Payload.category_of_ofWords? hpayload⟩

/-! ### Entries as occurrences -/

namespace Occurrence

/-- The entry that the line opens. -/
def entry (o : Occurrence) : Entry :=
  o.line :: (o.behind.takeWhile (!·.isTagged)).filter Line.isRaw

end Occurrence

theorem filterMap_desc?_filter_isRaw (lines : List Line) :
    (lines.filter Line.isRaw).filterMap Line.desc? = lines.filterMap Line.freeText? := by
  rw [List.filterMap_filter]
  apply List.filterMap_congr
  intro line _
  cases line <;> rfl

/-- What is left of lines without their start delimiters when free text is taken from their front. -/
theorem takeWhile_isRaw_filter {lines : List Line} (h : ∀ line ∈ lines, line ≠ .stop) :
    (lines.filter (· != .start)).takeWhile Line.isRaw =
      (lines.takeWhile (!·.isTagged)).filter Line.isRaw := by
  induction lines with
  | nil => rfl
  | cons line lines ih =>
    obtain ⟨hline, hlines⟩ := List.forall_mem_cons.mp h
    cases line with
    | start =>
      rw [List.takeWhile_cons_of_pos rfl, List.filter_cons_of_neg Bool.false_ne_true]
      exact ih hlines
    | stop => exact absurd rfl hline
    | tagged tag payload => rfl
    | raw desc =>
      rw [List.takeWhile_cons_of_pos rfl, List.filter_cons_of_pos rfl, List.filter_cons_of_pos rfl,
        Line.takeWhile_isRaw_raw, ih hlines]

theorem headed_groups_filter {tag : Tag} (htag : tag.category ≠ .delimiter) {lines : List Line}
    (h : ∀ line ∈ lines, line ≠ .stop) :
    headed tag (groups (lines.filter (· != .start))) =
      (Line.occurrences tag lines).map Occurrence.entry := by
  induction lines with
  | nil => rfl
  | cons line lines ih =>
    obtain ⟨hline, hlines⟩ := List.forall_mem_cons.mp h
    have hrest := ih hlines
    cases line with
    | start =>
      have hother : Line.tag? .start ≠ some tag := by
        rintro heq
        cases heq
        exact htag rfl
      simpa [Line.occurrences, hother] using hrest
    | stop => exact absurd rfl hline
    | raw desc => simpa [Line.occurrences, groups, Line.tag?] using hrest
    | tagged other payload =>
      have htexts := takeWhile_isRaw_filter hlines
      by_cases hsame : other = tag
      · simp [Line.occurrences, groups, headed_cons, Line.tag?, Occurrence.entry, hsame, hrest, htexts]
      · simp [Line.occurrences, groups, headed_cons, Line.tag?, hsame, hrest]

namespace Draft
variable {place : Location} {lines : List Line} {b : Block}

theorem ne_stop_of_mem_takeWhile : ∀ line ∈ lines.takeWhile (· != .stop), line ≠ .stop := by
  intro line hline
  simpa using List.mem_takeWhile_imp hline

theorem entries_eq_occurrences (h : (lines.foldl take (new place)).result = .ok b) {tag : Tag}
    (htag : tag.category ≠ .delimiter) :
    b.entries tag = (Line.occurrences tag (lines.takeWhile (· != .stop))).map Occurrence.entry := by
  rw [eq_grouped_of_result h, entries_grouped, counted,
    headed_groups_filter htag ne_stop_of_mem_takeWhile]

theorem description_eq (h : (lines.foldl take (new place)).result = .ok b) :
    b.description = Text.running (Line.continuation (lines.takeWhile (· != .stop))) := by
  have hdesc : b.desc =
      ((lines.takeWhile (· != .stop)).takeWhile (!·.isTagged)).filter Line.isRaw := by
    rw [eq_grouped_of_result h, ← takeWhile_isRaw_filter ne_stop_of_mem_takeWhile]
    rfl
  rw [Block.description, Entry.running, Entry.texts, hdesc, filterMap_desc?_filter_isRaw]
  rfl

end Draft

/-! ### Fields as occurrences -/

namespace Occurrence

theorem tells_running {o : Occurrence} {tag : Tag} {payload : Text → Payload} {own : Text}
    (h : o.line = .tagged tag (payload own)) (hdesc : (payload own).desc? = some own) :
    o.Tells tag payload o.entry.running := by
  have htexts : o.entry.texts = own :: Line.continuation o.behind := by
    have hline : o.line.desc? = some own := by
      rw [h]
      exact hdesc
    rw [Entry.texts, entry, List.filterMap_cons_some hline, filterMap_desc?_filter_isRaw]
    rfl
  exact ⟨own, h, by rw [Entry.running, htexts]; rfl⟩

end Occurrence

private theorem forall₂_filterMap {α β : Type} {f : α → Option β} {R : β → α → Prop} {l : List α}
    (h : ∀ a ∈ l, ∃ b, f a = some b ∧ R b a) : List.Forall₂ R (l.filterMap f) l := by
  induction l with
  | nil => exact .nil
  | cons a l ih =>
    obtain ⟨⟨b, hb, hab⟩, hl⟩ := List.forall_mem_cons.mp h
    rw [List.filterMap_cons_some hb]
    exact .cons hab (ih hl)

namespace Block
variable {b : Block} {tag : Tag} {os : List Occurrence}

theorem forall₂_namedFields (hentries : b.entries tag = os.map Occurrence.entry)
    (hlines : ∀ o ∈ os, ∃ payload, o.line = .tagged tag payload ∧ payload.category = .named) :
    List.Forall₂ (fun field o => o.Tells tag (.named field.type field.name) field.desc)
      (b.namedFields tag) os := by
  rw [namedFields, hentries, List.filterMap_map]
  apply forall₂_filterMap
  intro o ho
  obtain ⟨payload, hline, hcategory⟩ := hlines o ho
  match payload, hcategory with
  | .named type name own, _ =>
    refine ⟨⟨name, type, o.entry.running⟩, ?_, o.tells_running hline rfl⟩
    simp [Occurrence.entry, hline, Line.name?, Line.type?, Payload.name?, Payload.type?]

theorem forall₂_typedFields (hentries : b.entries tag = os.map Occurrence.entry)
    (hlines : ∀ o ∈ os, ∃ payload, o.line = .tagged tag payload ∧ payload.category = .typed) :
    List.Forall₂ (fun field o => o.Tells tag (.typed field.type) field.desc)
      (b.typedFields tag) os := by
  rw [typedFields, hentries, List.filterMap_map]
  apply forall₂_filterMap
  intro o ho
  obtain ⟨payload, hline, hcategory⟩ := hlines o ho
  match payload, hcategory with
  | .typed type own, _ =>
    refine ⟨⟨type, o.entry.running⟩, ?_, o.tells_running hline rfl⟩
    simp [Occurrence.entry, hline, Line.type?, Payload.type?]

theorem forall₂_notes (hentries : b.entries tag = os.map Occurrence.entry)
    (hlines : ∀ o ∈ os, ∃ payload, o.line = .tagged tag payload ∧ payload.category = .description) :
    List.Forall₂ (fun note o => o.Tells tag .description note) (b.notes tag) os := by
  rw [notes, hentries, List.map_map, List.forall₂_map_left_iff, List.forall₂_same]
  intro o ho
  obtain ⟨payload, hline, hcategory⟩ := hlines o ho
  match payload, hcategory with
  | .description own, _ => exact o.tells_running hline rfl

/-- What the lines of a comment say with `@param`, `@property`, `@returns` and `@todo`, each of them once
and in their order, and what stands before all tagged lines. -/
theorem fields_of_lines {place : Location} {sources : List (Location × Text)}
    {recognized : List (Option Line)}
    (hlines : sources.mapM (fun s => Line.recognize s.1 s.2) = .ok recognized)
    (hclosed : (recognized.reduceOption.foldl Draft.take (Draft.new place)).result = .ok b) :
    let lines := recognized.reduceOption.takeWhile (· != .stop)
    List.Forall₂ (fun field o => o.Tells .param (.named field.type field.name) field.desc)
        b.params (Line.occurrences .param lines) ∧
      List.Forall₂ (fun field o => o.Tells .property (.named field.type field.name) field.desc)
        b.properties (Line.occurrences .property lines) ∧
      List.Forall₂ (fun field o => o.Tells .returns (.typed field.type) field.desc)
        b.returns (Line.occurrences .returns lines) ∧
      List.Forall₂ (fun note o => o.Tells .todo .description note)
        b.todos (Line.occurrences .todo lines) ∧
      b.description = Text.running (Line.continuation lines) := by
  intro lines
  have hpayload : ∀ tag : Tag, tag.category ≠ .delimiter → ∀ o ∈ Line.occurrences tag lines,
      ∃ payload, o.line = .tagged tag payload ∧ payload.category = tag.category := by
    intro tag htag o ho
    have hmem : o.line ∈ lines.filter (·.tag? = some tag) := by
      rw [← Line.map_line_occurrences]
      exact List.mem_map_of_mem ho
    obtain ⟨hline, hlineTag⟩ := List.mem_filter.mp hmem
    obtain ⟨p, source, hrecognize⟩ := Line.exists_recognize_of_mapM hlines o.line
      ((List.takeWhile_sublist _).subset hline)
    exact Line.exists_payload_of_recognize hrecognize (by simpa using hlineTag) htag
  have hentries : ∀ tag : Tag, tag.category ≠ .delimiter →
      b.entries tag = (Line.occurrences tag lines).map Occurrence.entry :=
    fun tag htag => Draft.entries_eq_occurrences hclosed htag
  have hparam : Tag.category .param ≠ .delimiter := by decide
  have hproperty : Tag.category .property ≠ .delimiter := by decide
  have hreturns : Tag.category .returns ≠ .delimiter := by decide
  have htodo : Tag.category .todo ≠ .delimiter := by decide
  refine ⟨forall₂_namedFields (hentries .param hparam) (hpayload .param hparam),
    forall₂_namedFields (hentries .property hproperty) (hpayload .property hproperty),
    forall₂_typedFields (hentries .returns hreturns) (hpayload .returns hreturns),
    forall₂_notes (hentries .todo htodo) (hpayload .todo htodo), Draft.description_eq hclosed⟩

/-- A start delimiter inside a comment, a bare star and a line of code neither end a text nor add to it,
and what follows the end delimiter does not count. -/
theorem fields_of_lines_of_sample :
    let sources : List (Location × Text) :=
      [(⟨"ran.js", 2⟩, " * Samples values."), (⟨"ran.js", 3⟩, " * @param {number} n Number of"),
        (⟨"ran.js", 4⟩, " /** inside"), (⟨"ran.js", 5⟩, " *"), (⟨"ran.js", 6⟩, "let n;"),
        (⟨"ran.js", 7⟩, " *   values to draw."), (⟨"ran.js", 8⟩, " * @todo"),
        (⟨"ran.js", 9⟩, " * speed up"), (⟨"ran.js", 10⟩, " * @param {Function=} rng"),
        (⟨"ran.js", 11⟩, " */"), (⟨"ran.js", 12⟩, " * @param {late} x")]
    let recognized : List (Option Line) :=
      [some (.raw "Samples values."),
        some (.tagged .param (.named ⟨["number"], none⟩ "n" "Number of")), some .start,
        some (.raw ""), none, some (.raw "values to draw."), some (.tagged .todo (.description "")),
        some (.raw "speed up"),
        some (.tagged .param (.named ⟨["Function"], some .optional⟩ "rng" "")), some .stop,
        some (.tagged .param (.named ⟨["late"], none⟩ "x" ""))]
    sources.mapM (fun s => Line.recognize s.1 s.2) = .ok recognized ∧
      ∃ b, (recognized.reduceOption.foldl Draft.take (Draft.new ⟨"ran.js", 1⟩)).result = .ok b ∧
        (∃ n rng, b.params = [n, rng] ∧ n.name = "n" ∧ n.desc = "Number of values to draw." ∧
          rng.name = "rng" ∧ rng.desc = "") ∧
        b.todos = ["speed up".toList] ∧ b.description = "Samples values." := by
  intro sources recognized
  have hlines : sources.mapM (fun s => Line.recognize s.1 s.2) = .ok recognized := by
    decide +kernel
  have hclosed : (recognized.reduceOption.foldl Draft.take (Draft.new ⟨"ran.js", 1⟩)).result =
      .ok _ := rfl
  refine ⟨hlines, _, hclosed, ?_⟩
  obtain ⟨hparams, -, -, htodos, hdescription⟩ := fields_of_lines hlines hclosed
  obtain ⟨n, _, ⟨_, hn, hnDesc⟩, hparams, hfirst⟩ := List.forall₂_cons_right_iff.mp hparams
  obtain ⟨rng, _, ⟨_, hrng, hrngDesc⟩, hparams, hsecond⟩ := List.forall₂_cons_right_iff.mp hparams
  obtain ⟨_, _, ⟨_, htodo, hnote⟩, htodos, hthird⟩ := List.forall₂_cons_right_iff.mp htodos
  obtain ⟨-, hnName, rfl⟩ := Payload.named.inj (Line.tagged.inj hn).2
  obtain ⟨-, hrngName, rfl⟩ := Payload.named.inj (Line.tagged.inj hrng).2
  obtain rfl := Payload.description.inj (Line.tagged.inj htodo).2
  cases hparams
  cases htodos
  refine ⟨⟨n, rng, by rw [hfirst, hsecond], hnName.symm, hnDesc, hrngName.symm, hrngDesc⟩, ?_,
    hdescription⟩
  rw [hthird, hnote]
  rfl

end Block

end DocComment
