import DocComment.Proofs.DraftGroups
import DocComment.Proofs.LineGrammar
import DocComment.Proofs.OutlineBatch
import Mathlib.Data.List.DropRight
import Mathlib.Data.List.ReduceOption

/-! # The identity of a block

Kind, name and place of a block are read off the first lines with certain tags.  The entries under a
tag are headed by the lines with that tag, in their order, and a recognized line with a tag whose
fields include a name does have one.  So the first line with a tag always decides, and the block has
no identity just when no line names it. -/

namespace DocComment

theorem Text.getLastD_splitOn (sep : Char) (t : Text) :
    (t.splitOn sep).getLastD t = t.rtakeWhile (· != sep) := by
  have hpiece : sep ∉ t.rtakeWhile (· != sep) := by
    intro h
    simpa using List.mem_rtakeWhile_imp h
  have hparts : t.rdropWhile (· != sep) ++ t.rtakeWhile (· != sep) = t :=
    List.rdropWhile_append_rtakeWhile ..
  rcases List.eq_nil_or_concat (t.rdropWhile (· != sep)) with hnil | ⟨front, c, hfront⟩
  · rw [hnil, List.nil_append] at hparts
    rw [hparts] at hpiece ⊢
    rw [splitOn_of_notMem hpiece]
    rfl
  · have hc : c = sep := by
      have hlast := List.rdropWhile_last_not (· != sep) t (by simp [hfront])
      simpa [hfront] using hlast
    have ht : t = front ++ sep :: t.rtakeWhile (· != sep) := by
      rw [← List.concat_append, ← hc, ← hfront, hc, hparts]
    have hsplit : splitOn sep t = splitOn sep front ++ [t.rtakeWhile (· != sep)] := by
      rw [← splitOn_of_notMem hpiece, ← splitOn_append_cons, ← ht]
    simp [hsplit]

/-! ### Names on lines -/

/-- Whether what follows the mark includes a name. -/
def Category.hasName : Category → Bool
  | label | value | named => true
  | _ => false

theorem Payload.exists_name?_of_ofWords? {category : Category} (hcategory : category.hasName = true)
    {rest : List Text} {payload : Payload} (h : ofWords? category rest = some payload) :
    ∃ name ∈ rest, payload.name? = some name := by
  cases category with
  | delimiter | flag | description | typed | text => cases hcategory
  | label =>
    match rest with
    | [] => cases h
    | name :: _ =>
      cases h
      exact ⟨name, by simp, rfl⟩
  | value | named =>
    match rest with
    | [] | [_] => cases h
    | _ :: name :: _ =>
      cases h
      exact ⟨name, by simp, rfl⟩

namespace Line

theorem exists_name?_of_recognize {place : Location} {source : Text} {line : Line}
    (h : recognize place source = .ok (some line)) {tag : Tag} (htag : line.tag? = some tag)
    (hname : tag.category.hasName = true) :
    ∃ name, line.name? = some name ∧ name ≠ [] ∧ ∀ c ∈ name, Text.isBlank c = false := by
  obtain ⟨result, hreads⟩ := exists_reads place source
  rw [hreads.recognize_eq] at h
  subst h
  cases hreads with
  | start | stop =>
    cases htag
    cases hname
  | raw => cases htag
  | tagged hcontent _ _ hpayload =>
    cases htag
    obtain ⟨name, hrest, hpayloadName⟩ := Payload.exists_name?_of_ofWords? hname hpayload
    exact ⟨name, hpayloadName, mem_content (hcontent ▸ List.mem_cons_of_mem _ hrest)⟩

/-- The tags of some lines, in their order. -/
def tags (lines : List Line) : List Tag := lines.filterMap tag?

/-- The name on the first line with a tag. -/
def firstName? (tag : Tag) (lines : List Line) : Option Text :=
  (lines.find? (·.tag? == some tag)).bind name?

theorem exists_firstName? {lines : List Line}
    (hlines : ∀ line ∈ lines, ∃ place source, recognize place source = .ok (some line)) {tag : Tag}
    (htag : tag ∈ tags lines) (hname : tag.category.hasName = true) :
    ∃ name, firstName? tag lines = some name ∧ name ≠ [] ∧ ∀ c ∈ name, Text.isBlank c = false := by
  obtain ⟨line, hline, hlineTag⟩ := List.mem_filterMap.mp htag
  have hsome : (lines.find? (·.tag? == some tag)).isSome = true :=
    List.find?_isSome.mpr ⟨line, hline, by simpa using hlineTag⟩
  obtain ⟨first, hfirst⟩ := Option.isSome_iff_exists.mp hsome
  have hfirstTag : first.tag? = some tag := by simpa using List.find?_some hfirst
  obtain ⟨place, source, hrecognize⟩ := hlines first (List.mem_of_find?_eq_some hfirst)
  obtain ⟨name, hfirstName, hword⟩ := exists_name?_of_recognize hrecognize hfirstTag hname
  exact ⟨name, by rw [firstName?, hfirst, Option.bind_some, hfirstName], hword⟩

theorem exists_recognize_of_mapM {sources : List (Location × Text)}
    {recognized : List (Option Line)}
    (h : sources.mapM (fun s => recognize s.1 s.2) = .ok recognized) :
    ∀ line ∈ recognized.reduceOption, ∃ place source, recognize place source = .ok (some line) := by
  intro line hline
  have hmem : Except.ok (some line) ∈ recognized.map (Except.ok (ε := Problem)) :=
    List.mem_map_of_mem (List.reduceOption_mem_iff.mp hline)
  rw [← mapM_eq_ok_iff.mp h] at hmem
  obtain ⟨s, -, hs⟩ := List.mem_map.mp hmem
  exact ⟨s.1, s.2, hs⟩

end Line

/-! ### Entries and their first lines -/

/-- The entries under a tag are headed by the lines with the tag, in their order. -/
theorem map_head?_headed {tag : Tag} (htag : tag.category ≠ .delimiter) (lines : List Line) :
    (headed tag (groups lines)).map List.head? =
      (lines.filter (·.tag? == some tag)).map some := by
  fun_induction groups lines with
  | case1 => rfl
  | case2 other payload rest ih =>
    rw [headed_cons]
    by_cases h : other = tag <;> simp [Line.tag?, h, ih]
  | case3 line rest hline ih =>
    have hskip : (line.tag? == some tag) = false := by
      cases line with
      -- A delimiter opens no entry, so its tag is not one that is asked for.
      | start | stop => cases tag <;> first | rfl | exact absurd rfl htag
      | raw desc => rfl
      | tagged other payload => exact absurd rfl (hline other payload)
    simp [hskip, ih]

namespace Draft

theorem filter_tag?_counted {tag : Tag} (htag : tag.category ≠ .delimiter) (lines : List Line) :
    (counted lines).filter (·.tag? == some tag) =
      (lines.takeWhile (· != .stop)).filter (·.tag? == some tag) := by
  rw [counted, List.filter_filter]
  apply List.filter_congr
  intro line _
  cases line with
  | start => cases tag <;> first | rfl | exact absurd rfl htag
  | stop | tagged | raw => simp

variable {place : Location} {lines : List Line} {b : Block}

theorem eq_grouped_of_result (h : (lines.foldl take (new place)).result = .ok b) :
    b = Block.grouped place (counted lines) := by
  rw [result, filed_foldl_counted rfl, filed_counted] at h
  split at h
  · exact (Except.ok.inj h).symm
  · cases h

theorem map_head?_entries (h : (lines.foldl take (new place)).result = .ok b) {tag : Tag}
    (htag : tag.category ≠ .delimiter) :
    (b.entries tag).map List.head? =
      ((lines.takeWhile (· != .stop)).filter (·.tag? == some tag)).map some := by
  rw [eq_grouped_of_result h, entries_grouped, map_head?_headed htag, filter_tag?_counted htag]

theorem has_iff_mem (h : (lines.foldl take (new place)).result = .ok b) {tag : Tag}
    (htag : tag.category ≠ .delimiter) :
    b.has tag = true ↔ tag ∈ Line.tags (lines.takeWhile (· != .stop)) := by
  have hhas : b.has tag = true ↔ b.entries tag ≠ [] := by
    rw [eq_grouped_of_result h, Block.has, Block.entries, get?_grouped]
    by_cases hnil : headed tag (groups (counted lines)) = [] <;> simp [hnil]
  have hnil : b.entries tag = [] ↔
      (lines.takeWhile (· != .stop)).filter (·.tag? == some tag) = [] := by
    rw [← List.map_eq_nil_iff (f := List.head?), map_head?_entries h htag, List.map_eq_nil_iff]
  rw [hhas, Ne, hnil, List.filter_eq_nil_iff, Line.tags, List.mem_filterMap]
  simp

theorem firstName?_eq (h : (lines.foldl take (new place)).result = .ok b) {tag : Tag}
    (htag : tag.category ≠ .delimiter) :
    b.firstName? tag = Line.firstName? tag (lines.takeWhile (· != .stop)) := by
  have hname : b.firstName? tag =
      ((b.entries tag).map List.head?).head?.bind (·.bind Line.name?) := by
    rw [List.head?_map, Option.bind_map]
    rfl
  rw [hname, map_head?_entries h htag, List.head?_map, Option.bind_map, List.head?_filter]
  rfl

end Draft

/-! ### Resolution -/

namespace Block

/-- The tags that name a block, the one that decides its kind before all others first. -/
def namingTags : List Tag := [.moduleName, .namespaceName, .className, .methodName, .varName]

/-- The name and the place that lines give to a block of a kind. -/
structure Identified (b : Block) (lines : List Line) (kind : Kind) (id : Text) : Prop where
  decides : namingTags.find? (· ∈ Line.tags lines) = some kind.tag
  named : Line.firstName? kind.tag lines = some id
  ne_nil : id ≠ []
  nonblank : ∀ c ∈ id, Text.isBlank c = false
  id_eq : b.id = .ok id
  rooted : kind = .moduleBlock → b.path = .ok id ∧ b.parent = .ok none
  orphaned : kind ≠ .moduleBlock → (∀ tag ∈ [.memberOf, .methodOf], tag ∉ Line.tags lines) →
    b.path = .error (.orphan b.place) ∧ b.parent = .error (.orphan b.place)
  below : kind ≠ .moduleBlock →
    ∀ tag, [.memberOf, .methodOf].find? (· ∈ Line.tags lines) = some tag →
      ∃ p, Line.firstName? tag lines = some p ∧ b.path = .ok (p ++ '.' :: id) ∧
        b.parent = .ok (some (p.rtakeWhile (· != '.')))

variable {b : Block} {kind : Kind} {id : Text}

theorem kind_eq_ok_iff : b.kind = .ok kind ↔ namingTags.find? (b.has ·) = some kind.tag := by
  have hinj : Function.Injective Kind.tag := by
    intro k k' h
    cases k <;> cases k' <;> first | rfl | cases h
  have hfind : namingTags.find? (b.has ·) = (Kind.all.find? (b.has ·.tag)).map Kind.tag :=
    List.find?_map (p := b.has) (f := Kind.tag) (l := Kind.all)
  rw [hfind, Block.kind]
  cases Kind.all.find? (b.has ·.tag) with
  | none => simp
  | some found => simp [hinj.eq_iff]

theorem kind_eq_nameless (h : ∀ tag ∈ namingTags, b.has tag = false) :
    b.kind = .error (.nameless b.place) := by
  have hnone : Kind.all.find? (b.has ·.tag) = none := by
    rw [List.find?_eq_none]
    intro k hk
    simpa using h k.tag (List.mem_map_of_mem hk)
  rw [Block.kind, hnone]

/-- Without a kind there is neither a name nor a place. -/
theorem unidentified {e : Problem} (h : b.kind = .error e) :
    b.id = .error e ∧ b.path = .error e ∧ b.parent = .error e := by
  have hid : b.id = .error e := by
    rw [Block.id, h]
    rfl
  refine ⟨hid, ?_, ?_⟩
  · rw [path, hid]
    rfl
  · rw [parent, parentPath, h]
    rfl

theorem id_eq_ok (hkind : b.kind = .ok kind) (hname : b.firstName? kind.tag = some id) :
    b.id = .ok id := by
  rw [Block.id, hkind]
  exact congrArg Except.ok (by rw [hname, Option.getD_some])

theorem rooted (hkind : b.kind = .ok .moduleBlock) (hid : b.id = .ok id) :
    b.path = .ok id ∧ b.parent = .ok none := by
  have hparent : b.parentPath = .ok none := by
    rw [parentPath, hkind]
    rfl
  rw [path, parent, hid, hparent]
  exact ⟨rfl, rfl⟩

theorem parentPath_eq (hkind : b.kind = .ok kind) (hne : kind ≠ .moduleBlock) :
    b.parentPath = match parentTags.findSome? b.firstName? with
      | some parent => .ok (some parent)
      | none => .error (.orphan b.place) := by
  rw [parentPath, hkind]
  exact if_neg hne

theorem orphaned (hkind : b.kind = .ok kind) (hne : kind ≠ .moduleBlock) (hid : b.id = .ok id)
    (h : parentTags.findSome? b.firstName? = none) :
    b.path = .error (.orphan b.place) ∧ b.parent = .error (.orphan b.place) := by
  have hparent : b.parentPath = .error (.orphan b.place) := by rw [parentPath_eq hkind hne, h]
  rw [path, parent, hid, hparent]
  exact ⟨rfl, rfl⟩

theorem below (hkind : b.kind = .ok kind) (hne : kind ≠ .moduleBlock) (hid : b.id = .ok id)
    {p : Text} (h : parentTags.findSome? b.firstName? = some p) :
    b.path = .ok (p ++ '.' :: id) ∧ b.parent = .ok (some (p.rtakeWhile (· != '.'))) := by
  have hparent : b.parentPath = .ok (some p) := by rw [parentPath_eq hkind hne, h]
  rw [path, parent, hid, hparent, ← Text.getLastD_splitOn]
  exact ⟨rfl, rfl⟩

theorem firstName?_of_not_has {tag : Tag} (h : ¬ b.has tag = true) : b.firstName? tag = none := by
  have hentries : b.entries tag = [] := by
    rw [has, Option.not_isSome_iff_eq_none] at h
    rw [entries, h]
    rfl
  rw [firstName?, hentries]
  rfl

/-- The block has those tags that some lines have, and under each tag with a name the name on the
first of these lines. -/
structure Mirrors (b : Block) (lines : List Line) : Prop where
  has_iff : ∀ tag, tag.category.hasName = true →
    (b.has tag = true ↔ tag ∈ Line.tags lines)
  firstName : ∀ tag, tag.category.hasName = true → tag ∈ Line.tags lines →
    ∃ name, b.firstName? tag = some name ∧ Line.firstName? tag lines = some name ∧ name ≠ [] ∧
      ∀ c ∈ name, Text.isBlank c = false

theorem hasName_of_mem_namingTags : ∀ tag ∈ namingTags, tag.category.hasName = true := by decide

theorem hasName_of_mem_parentTags : ∀ tag ∈ parentTags, tag.category.hasName = true := by decide

namespace Mirrors
variable {lines : List Line} (h : b.Mirrors lines) {candidates : List Tag}
include h

theorem find?_has (hnames : ∀ tag ∈ candidates, tag.category.hasName = true) :
    candidates.find? (b.has ·) = candidates.find? (· ∈ Line.tags lines) := by
  rw [← List.head?_filter, ← List.head?_filter]
  congr 1
  apply List.filter_congr
  intro tag htag
  rw [Bool.eq_iff_iff, h.has_iff tag (hnames tag htag), decide_eq_true_iff]

theorem findSome?_firstName? (hnames : ∀ tag ∈ candidates, tag.category.hasName = true) :
    candidates.findSome? b.firstName? =
      (candidates.find? (· ∈ Line.tags lines)).bind b.firstName? := by
  induction candidates with
  | nil => rfl
  | cons tag candidates ih =>
    obtain ⟨htag, hrest⟩ := List.forall_mem_cons.mp hnames
    -- The next tag is asked only where no line has this one: a line with it has a name.
    by_cases hmem : tag ∈ Line.tags lines
    · obtain ⟨name, hname, -⟩ := h.firstName tag htag hmem
      simp [hname, hmem]
    · have hnone : b.firstName? tag = none :=
        firstName?_of_not_has (mt (h.has_iff tag htag).mp hmem)
      simp [hnone, hmem, ih hrest]

theorem kind_eq_ok_iff :
    b.kind = .ok kind ↔ namingTags.find? (· ∈ Line.tags lines) = some kind.tag := by
  rw [Block.kind_eq_ok_iff, h.find?_has hasName_of_mem_namingTags]

theorem exists_kind_iff :
    (∃ kind, b.kind = .ok kind) ↔ ∃ tag ∈ namingTags, tag ∈ Line.tags lines := by
  constructor
  · rintro ⟨kind, hkind⟩
    have hfind := h.kind_eq_ok_iff.mp hkind
    exact ⟨kind.tag, List.mem_of_find?_eq_some hfind, by simpa using List.find?_some hfind⟩
  · rintro ⟨tag, htag, hmem⟩
    have hsome : (namingTags.find? (· ∈ Line.tags lines)).isSome = true :=
      List.find?_isSome.mpr ⟨tag, htag, by simpa using hmem⟩
    obtain ⟨found, hfind⟩ := Option.isSome_iff_exists.mp hsome
    have hfound : found ∈ Kind.all.map Kind.tag := List.mem_of_find?_eq_some hfind
    obtain ⟨kind, -, rfl⟩ := List.mem_map.mp hfound
    exact ⟨kind, h.kind_eq_ok_iff.mpr hfind⟩

theorem identified (hkind : b.kind = .ok kind) : ∃ id, b.Identified lines kind id := by
  have hfind := h.kind_eq_ok_iff.mp hkind
  have hmem : kind.tag ∈ Line.tags lines := by simpa using List.find?_some hfind
  have hname := hasName_of_mem_namingTags _ (List.mem_of_find?_eq_some hfind)
  obtain ⟨id, hfirst, hnamed, hne, hnonblank⟩ := h.firstName kind.tag hname hmem
  have hid := id_eq_ok hkind hfirst
  have hparents := h.findSome?_firstName? hasName_of_mem_parentTags
  refine ⟨id, hfind, hnamed, hne, hnonblank, hid, ?_, fun hkind' hnone => ?_,
    fun hkind' tag htag => ?_⟩
  · rintro rfl
    exact rooted hkind hid
  · have hnone' : parentTags.find? (· ∈ Line.tags lines) = none := by
      simpa [parentTags] using hnone
    rw [hnone', Option.bind_none] at hparents
    exact orphaned hkind hkind' hid hparents
  · have htag' : parentTags.find? (· ∈ Line.tags lines) = some tag := htag
    have htagMem : tag ∈ Line.tags lines := by simpa using List.find?_some htag
    have htagName := hasName_of_mem_parentTags tag (List.mem_of_find?_eq_some htag')
    obtain ⟨p, hp, hpnamed, -⟩ := h.firstName tag htagName htagMem
    rw [htag', Option.bind_some, hp] at hparents
    exact ⟨p, hpnamed, below hkind hkind' hid hparents⟩

end Mirrors

theorem mirrors_of_result {place : Location} {lines : List Line}
    (hlines : ∀ line ∈ lines, ∃ place source, Line.recognize place source = .ok (some line))
    (hclosed : (lines.foldl Draft.take (Draft.new place)).result = .ok b) :
    b.Mirrors (lines.takeWhile (· != .stop)) := by
  have hcategory : ∀ {tag : Tag}, tag.category.hasName = true → tag.category ≠ .delimiter := by
    intro tag hname heq
    rw [heq] at hname
    cases hname
  refine ⟨fun tag hname => Draft.has_iff_mem hclosed (hcategory hname), fun tag hname hmem => ?_⟩
  have htaken : ∀ line ∈ lines.takeWhile (· != .stop),
      ∃ place source, Line.recognize place source = .ok (some line) :=
    fun line hline => hlines line (List.takeWhile_sublist _ |>.subset hline)
  obtain ⟨name, hfirst, hword⟩ := Line.exists_firstName? htaken hmem hname
  exact ⟨name, by rw [Draft.firstName?_eq hclosed (hcategory hname), hfirst], hfirst, hword⟩

/-- What the tagged lines of a comment say about its block, the first line with a tag speaking for
all lines with it. -/
theorem identity_of_lines {place : Location} {sources : List (Location × Text)}
    {recognized : List (Option Line)}
    (hlines : sources.mapM (fun s => Line.recognize s.1 s.2) = .ok recognized)
    (hclosed : (recognized.reduceOption.foldl Draft.take (Draft.new place)).result = .ok b) :
    let lines := recognized.reduceOption.takeWhile (· != .stop)
    b.place = place ∧
      ((∃ kind, b.kind = .ok kind) ↔ ∃ tag ∈ namingTags, tag ∈ Line.tags lines) ∧
      ((∀ tag ∈ namingTags, tag ∉ Line.tags lines) →
        b.kind = .error (.nameless place) ∧ b.id = .error (.nameless place) ∧
          b.path = .error (.nameless place) ∧ b.parent = .error (.nameless place)) ∧
      ∀ kind, b.kind = .ok kind → ∃ id, b.Identified lines kind id := by
  intro lines
  have hplace : b.place = place := by
    rw [Draft.eq_grouped_of_result hclosed]
    rfl
  have hmirrors : b.Mirrors lines :=
    mirrors_of_result (Line.exists_recognize_of_mapM hlines) hclosed
  refine ⟨hplace, hmirrors.exists_kind_iff, fun hnone => ?_, fun kind => hmirrors.identified⟩
  have hkind : b.kind = .error (.nameless place) := by
    rw [← hplace]
    apply kind_eq_nameless
    intro tag htag
    have hname := hasName_of_mem_namingTags tag htag
    exact Bool.eq_false_iff.mpr (mt (hmirrors.has_iff tag hname).mp (hnone tag htag))
  exact ⟨hkind, unidentified hkind⟩

/-- The first of two names counts, `@memberOf` goes before `@methodOf`, and what follows the end
delimiter has no say. -/
theorem identity_of_lines_of_bark :
    let sources : List (Location × Text) :=
      [(⟨"dog.js", 4⟩, " * @methodOf pets.Cat"), (⟨"dog.js", 5⟩, " * @method bark loudly"),
        (⟨"dog.js", 6⟩, "   @memberOf zoo.Dog"), (⟨"dog.js", 7⟩, " * @method growl"),
        (⟨"dog.js", 8⟩, "more text"), (⟨"dog.js", 9⟩, " */"), (⟨"dog.js", 10⟩, " * @module late")]
    let recognized : List (Option Line) :=
      [some (.tagged .methodOf (.label "pets.Cat")), some (.tagged .methodName (.label "bark")),
        some (.tagged .memberOf (.label "zoo.Dog")), some (.tagged .methodName (.label "growl")),
        none, some .stop, some (.tagged .moduleName (.label "late"))]
    sources.mapM (fun s => Line.recognize s.1 s.2) = .ok recognized ∧
      ∃ b, (recognized.reduceOption.foldl Draft.take (Draft.new ⟨"dog.js", 3⟩)).result = .ok b ∧
        b.kind = .ok .methodBlock ∧ b.id = .ok "bark" ∧ b.path = .ok "zoo.Dog.bark" ∧
        b.parent = .ok (some "Dog") := by
  intro sources recognized
  have hlines : sources.mapM (fun s => Line.recognize s.1 s.2) = .ok recognized := by
    decide +kernel
  have hclosed : (recognized.reduceOption.foldl Draft.take (Draft.new ⟨"dog.js", 3⟩)).result =
      .ok _ := rfl
  refine ⟨hlines, _, hclosed, ?_⟩
  obtain ⟨-, -, -, hidentified⟩ := identity_of_lines hlines hclosed
  obtain ⟨id, hid⟩ := hidentified .methodBlock rfl
  obtain rfl : "bark".toList = id := Option.some.inj hid.named
  obtain ⟨p, hp, hpath, hparent⟩ := hid.below (by decide) .memberOf rfl
  obtain rfl : "zoo.Dog".toList = p := Option.some.inj hp
  exact ⟨rfl, hid.id_eq, hpath, hparent⟩

end Block

end DocComment
