import DocComment.Format
import DocComment.Proofs.DraftGroups
import DocComment.Proofs.PageMarkup

/-!
# The exported data as a mirror of the outline

Following segments in the exported data, with the name `children` between them, leads to an object
just where following them in the outline leads to a node, and the object tells of the node's block
what the block itself tells.
-/

namespace DocComment

namespace Json

/-- The field of an object with a name. -/
def field? (name : Text) : Json → Option Json
  | .obj fields => Keyed.get? name fields
  | _ => none

/-- The value reached along some names of fields. -/
def descend? : List Text → Json → Option Json
  | [], v => some v
  | name :: rest, v => (v.field? name).bind (descend? rest)

theorem descend?_append (names more : List Text) (v : Json) :
    v.descend? (names ++ more) = (v.descend? names).bind (descend? more) := by
  induction names generalizing v with
  | nil => rfl
  | cons name names ih =>
    rw [List.cons_append, descend?, descend?, Option.bind_assoc]
    exact congrArg _ (funext ih)

theorem field?_object {fields : List (Text × Json)} (h : (fields.map Prod.fst).Nodup)
    (name : Text) : (object fields).field? name = Keyed.get? name fields :=
  Keyed.get?_ofList h name

end Json

/-! ### The exported parts of a block

Each object is listed with its fields in the order of their names. -/

def TypeUnion.exported (e : TypeUnion) : Json :=
  .obj [
    ("options", .arr (match e.modifier with
      | none => []
      | some .optional => [.str "optional"]
      | some .nullable => [.str "nullable"]
      | some .nonNullable => [.str "non-nullable"])),
    ("types", .arr (e.members.map .str))]

/-- A line of an entry shows the name of its tag and the fields that the tag carries. -/
def Line.exported : Line → Json
  | .start | .stop => .null
  | .raw desc => .obj [("desc", .str desc)]
  | .tagged tag payload => match payload with
    | .flag | .text none => .obj [("tag", .str tag.name)]
    | .label name => .obj [("name", .str name), ("tag", .str tag.name)]
    | .description desc | .text (some desc) => .obj [("desc", .str desc), ("tag", .str tag.name)]
    | .value type name =>
      .obj [("name", .str name), ("tag", .str tag.name), ("type", type.exported)]
    | .typed type desc =>
      .obj [("desc", .str desc), ("tag", .str tag.name), ("type", type.exported)]
    | .named type name desc =>
      .obj [("desc", .str desc), ("name", .str name), ("tag", .str tag.name),
        ("type", type.exported)]

def Kind.exported : Kind → Text
  | moduleBlock => "module"
  | namespaceBlock => "namespace"
  | classBlock => "class"
  | methodBlock => "method"
  | varBlock => "var"

theorem TypeUnion.toJson_eq (e : TypeUnion) : e.toJson = e.exported := by
  obtain ⟨members, modifier⟩ := e
  cases modifier with
  | none => rfl
  | some modifier => cases modifier <;> rfl

theorem TypedField.toJson_eq (f : TypedField) :
    f.toJson = .obj [("desc", .str f.desc), ("type", f.type.exported)] := by
  rw [toJson, TypeUnion.toJson_eq]
  rfl

theorem NamedField.toJson_eq (f : NamedField) :
    f.toJson = .obj [("desc", .str f.desc), ("name", .str f.name), ("type", f.type.exported)] := by
  rw [toJson, TypeUnion.toJson_eq]
  rfl

theorem Line.toJson_eq (line : Line) : line.toJson = line.exported := by
  cases line with
  | start | stop | raw => rfl
  | tagged tag payload =>
    rw [toJson]
    cases payload with
    | flag | label | description => rfl
    | value type name =>
      rw [Payload.fields, TypeUnion.toJson_eq]
      rfl
    | typed type desc =>
      rw [Payload.fields, TypeUnion.toJson_eq]
      rfl
    | named type name desc =>
      rw [Payload.fields, TypeUnion.toJson_eq]
      rfl
    | text desc => cases desc <;> rfl

theorem Kind.name_eq (kind : Kind) : kind.name = kind.exported := by
  cases kind <;> rfl

namespace Block

/-- The fields have all lines of all entries of each tag of the block under the name of the tag, and nothing
under any other name. -/
structure TagsExportedAs (b : Block) (fields : List (Text × Json)) : Prop where
  named : ∀ tag, Keyed.get? tag.name fields = (Keyed.get? tag b.tags).map fun entries =>
    .arr (entries.map fun e => .arr (e.map Line.exported))
  only : ∀ name, (Keyed.get? name fields).isSome → ∃ tag, b.has tag = true ∧ tag.name = name

/-- What an exported entry tells of a block that is filed at a path. -/
structure ExportedAs (b : Block) (path : Text) (entry : Json) : Prop where
  path : entry.field? "path" = some (.str path)
  file : entry.field? "file" = some (.str b.place.file)
  line : entry.field? "line" = some (.num b.place.line)
  kind : ∃ kind, b.kind = .ok kind ∧ entry.field? "type" = some (.str kind.exported)
  id : ∃ id, b.id = .ok id ∧ entry.field? "id" = some (.str id)
  parent : ∃ parent, b.parent = .ok parent ∧
    entry.field? "parent" = some (parent.elim .null .str)
  desc : entry.field? "desc" = some (.str b.description)
  params : entry.field? "params" = some (.arr (b.params.map fun p =>
    .obj [("desc", .str p.desc), ("name", .str p.name), ("type", p.type.exported)]))
  returns : entry.field? "returns" = some (.arr (b.returns.map fun r =>
    .obj [("desc", .str r.desc), ("type", r.type.exported)]))
  examples : entry.field? "examples" = some (.arr (b.examples.map .str))
  tags : ∃ fields, entry.field? "tags" = some (.obj fields) ∧
    (Keyed.Increasing b.tags → b.TagsExportedAs fields)

theorem exists_tagsJson (b : Block) : ∃ fields, b.tagsJson = .obj fields ∧
    (Keyed.Increasing b.tags → b.TagsExportedAs fields) := by
  have hline : Line.toJson = Line.exported := funext Line.toJson_eq
  refine ⟨_, rfl, fun h => ?_⟩
  have hkeys : ((b.tags.map fun p => (p.1.name, Json.arr (p.2.map Entry.toJson))).map
      Prod.fst).Nodup := by
    have hnames := h.nodup.map Tag.name_injective
    rw [List.map_map] at hnames ⊢
    exact hnames
  constructor
  case named =>
    intro tag
    rw [Keyed.get?_ofList hkeys, Keyed.get?_map_key Tag.name_injective
      (fun entries => Json.arr (entries.map Entry.toJson)) tag b.tags, ← hline]
    rfl
  case only =>
    intro name hname
    obtain ⟨v, hv⟩ := Option.isSome_iff_exists.mp hname
    rw [Keyed.get?_ofList hkeys] at hv
    obtain ⟨⟨tag, entries⟩, hmem, heq⟩ := List.mem_map.mp (Keyed.mem_of_get? hv)
    cases heq
    refine ⟨tag, ?_, rfl⟩
    rw [has, h.get?_of_mem hmem]
    rfl

theorem exists_parent {b : Block} {path : Text} (h : b.path = .ok path) :
    ∃ parent, b.parent = .ok parent := by
  obtain ⟨kind, id, -, hid, -⟩ := b.of_path_eq_ok h
  rw [Block.path, hid] at h
  rw [Block.parent]
  cases hparent : b.parentPath with
  | error e =>
    rw [hparent] at h
    cases h
  | ok parent => exact ⟨_, rfl⟩

/-- The fields of the exported block, once its identity is known. -/
def exportFields (b : Block) (kind : Kind) (id path : Text) (parent : Option Text) :
    List (Text × Json) :=
  [("file", .str b.place.file), ("line", .num b.place.line), ("type", .str kind.name),
    ("id", .str id), ("path", .str path), ("parent", .ofOption .str parent),
    ("desc", .str b.description), ("params", .arr (b.params.map NamedField.toJson)),
    ("returns", .arr (b.returns.map TypedField.toJson)), ("examples", .texts b.examples),
    ("tags", b.tagsJson)]

theorem field?_exportFields (b : Block) (kind : Kind) (id path : Text) (parent : Option Text)
    (name : Text) :
    (Json.object (b.exportFields kind id path parent)).field? name =
      Keyed.get? name (b.exportFields kind id path parent) := by
  have hnames : (["file", "line", "type", "id", "path", "parent", "desc", "params", "returns",
      "examples", "tags"] : List Text).Nodup := by decide
  refine Json.field?_object ?_ name
  exact hnames

theorem exists_exportedAs {b : Block} {path : Text} (h : b.path = .ok path) :
    ∃ entry, b.exportJson = .ok entry ∧ b.ExportedAs path entry := by
  obtain ⟨kind, id, hkind, hid, -⟩ := b.of_path_eq_ok h
  obtain ⟨parent, hparent⟩ := b.exists_parent h
  have hexport : b.exportJson = .ok (.object (b.exportFields kind id path parent)) := by
    rw [exportJson, hkind, hid, h, hparent]
    rfl
  have hfield := b.field?_exportFields kind id path parent
  have hnamed : NamedField.toJson = fun p => .obj [("desc", .str p.desc), ("name", .str p.name),
      ("type", p.type.exported)] := funext NamedField.toJson_eq
  have htyped : TypedField.toJson = fun r => .obj [("desc", .str r.desc),
      ("type", r.type.exported)] := funext TypedField.toJson_eq
  refine ⟨_, hexport, ?_⟩
  constructor
  case kind => exact ⟨kind, hkind, kind.name_eq ▸ hfield "type"⟩
  case id => exact ⟨id, hid, hfield "id"⟩
  case parent =>
    refine ⟨parent, hparent, (hfield "parent").trans ?_⟩
    cases parent <;> rfl
  case params => exact hnamed ▸ hfield "params"
  case returns => exact htyped ▸ hfield "returns"
  case tags =>
    obtain ⟨fields, hfields, htags⟩ := b.exists_tagsJson
    exact ⟨fields, hfields ▸ hfield "tags", htags⟩
  -- the other fields depend on nothing that may fail
  all_goals exact hfield _

end Block

namespace Node

/-- The entry of a node is its block, or null. -/
def exportEntry (n : Node) : Except Problem Json :=
  match n.block with
  | some block => block.exportJson
  | none => .ok .null

theorem exportJson_eq (n : Node) :
    n.exportJson = do
      let entry ← n.exportEntry
      let children ← exportChildren n.children
      return .object [("entry", entry), ("children", .obj children)] := by
  obtain ⟨block, number, children⟩ := n
  cases block <;> rw [exportJson] <;> rfl

theorem exportJson_eq_ok_iff {n : Node} {v : Json} :
    n.exportJson = .ok v ↔ ∃ entry children, n.exportEntry = .ok entry ∧
      exportChildren n.children = .ok children ∧
      v = .object [("entry", entry), ("children", .obj children)] := by
  rw [exportJson_eq]
  cases n.exportEntry with
  | error e => simp [bind, Except.bind]
  | ok entry =>
    cases exportChildren n.children with
    | error e => simp [bind, Except.bind]
    | ok children => simp [bind, Except.bind, pure, Except.pure, eq_comm]

private theorem field?_exported (entry : Json) (children : List (Text × Json)) (name : Text) :
    (Json.object [("entry", entry), ("children", .obj children)]).field? name =
      Keyed.get? name [("entry", entry), ("children", .obj children)] := by
  apply Json.field?_object
  show (["entry", "children"] : List Text).Nodup
  decide

theorem field?_entry (entry : Json) (children : List (Text × Json)) :
    (Json.object [("entry", entry), ("children", .obj children)]).field? "entry" = some entry :=
  field?_exported entry children "entry"

theorem field?_children (entry : Json) (children : List (Text × Json)) :
    (Json.object [("entry", entry), ("children", .obj children)]).field? "children" =
      some (.obj children) :=
  field?_exported entry children "children"

theorem exportChildren_eq (l : List (Text × Node)) :
    exportChildren l = l.mapM fun c => c.2.exportJson.map (c.1, ·) := by
  induction l with
  | nil =>
    rw [exportChildren]
    rfl
  | cons c l ih =>
    obtain ⟨segment, n⟩ := c
    rw [exportChildren, List.mapM_cons, ih]
    cases n.exportJson <;> rfl

/-- The exported children are the children, exported. -/
theorem get?_exportChildren {l : List (Text × Node)} {fields : List (Text × Json)}
    (h : exportChildren l = .ok fields) (segment : Text) :
    (Keyed.get? segment fields).map .ok = (Keyed.get? segment l).map exportJson := by
  rw [exportChildren_eq, mapM_eq_ok_iff] at h
  induction l generalizing fields with
  | nil =>
    rw [List.map_nil, eq_comm, List.map_eq_nil_iff] at h
    rw [h]
    rfl
  | cons c l ih =>
    obtain ⟨key, n⟩ := c
    cases fields with
    | nil => cases h
    | cons field fields =>
      obtain ⟨name, v⟩ := field
      rw [List.map_cons, List.map_cons, List.cons.injEq] at h
      obtain ⟨hhead, htail⟩ := h
      cases hn : n.exportJson with
      | error e => simp [hn, Except.map] at hhead
      | ok w =>
        simp only [hn, Except.map, Except.ok.injEq, Prod.mk.injEq] at hhead
        obtain ⟨rfl, rfl⟩ := hhead
        rw [Keyed.get?, Keyed.get?]
        split
        · rw [Option.map_some, Option.map_some, hn]
        · exact ih htail

/-- Segments with `children` between them lead to the exported form of the node they lead to. -/
theorem descend?_exportChildren {n : Node} {fields : List (Text × Json)}
    (h : exportChildren n.children = .ok fields) {segments : List Text} (hne : segments ≠ []) :
    ((Json.obj fields).descend? (segments.intersperse ("children" : Text))).map .ok =
      (n.descend? segments).map exportJson := by
  induction segments generalizing n fields with
  | nil => exact absurd rfl hne
  | cons segment segments ih =>
    have hget := get?_exportChildren h segment
    rw [descend?_cons, child?]
    cases segments with
    | nil =>
      have hvalue : Json.descend? [] = some := rfl
      have hnode : Node.descend? [] = some := rfl
      rw [List.intersperse_singleton, Json.descend?, Json.field?, hvalue, hnode,
        Option.bind_fun_some, Option.bind_fun_some]
      exact hget
    | cons next rest =>
      rw [List.intersperse_cons_cons, Json.descend?, Json.field?]
      cases hc : Keyed.get? segment n.children with
      | none =>
        rw [hc, Option.map_none, Option.map_eq_none_iff] at hget
        rw [hget]
        rfl
      | some c =>
        rw [hc, Option.map_some, Option.map_eq_some_iff] at hget
        obtain ⟨v, hv, hexport⟩ := hget
        obtain ⟨entry, children, -, hchildren, rfl⟩ := exportJson_eq_ok_iff.mp hexport.symm
        rw [hv, Option.bind_some, Json.descend?, field?_children, Option.bind_some, Option.bind_some]
        exact ih hchildren (by simp)

/-- Where a node is, the segments lead to an object with its entry. -/
theorem exists_descend?_object {n m : Node} {fields : List (Text × Json)}
    (h : exportChildren n.children = .ok fields) {segments : List Text} (hne : segments ≠ [])
    (hm : n.descend? segments = some m) :
    ∃ entry children, m.exportEntry = .ok entry ∧
      (Json.obj fields).descend? (segments.intersperse ("children" : Text)) =
        some (.object [("entry", entry), ("children", .obj children)]) := by
  have hdescend := descend?_exportChildren h hne
  rw [hm, Option.map_some, Option.map_eq_some_iff] at hdescend
  obtain ⟨v, hv, hexport⟩ := hdescend
  obtain ⟨entry, children, hentry, -, rfl⟩ := exportJson_eq_ok_iff.mp hexport.symm
  exact ⟨entry, children, hentry, hv⟩

theorem descend?_object_iff {n : Node} {fields : List (Text × Json)}
    (h : exportChildren n.children = .ok fields) {segments : List Text} (hne : segments ≠ []) :
    (∃ found, (Json.obj fields).descend? (segments.intersperse ("children" : Text)) =
      some (.obj found)) ↔ (n.descend? segments).isSome := by
  constructor
  · rintro ⟨found, hfound⟩
    have hdescend := descend?_exportChildren h hne
    rw [hfound, Option.map_some, eq_comm, Option.map_eq_some_iff] at hdescend
    obtain ⟨m, hm, -⟩ := hdescend
    exact Option.isSome_of_mem hm
  · intro hnode
    obtain ⟨m, hm⟩ := Option.isSome_iff_exists.mp hnode
    obtain ⟨entry, children, -, hvalue⟩ := exists_descend?_object h hne hm
    exact ⟨_, hvalue⟩

/-- The entry of a node whose block has the given path. -/
theorem exportEntry_spec {n : Node} {path : Text} {entry : Json}
    (hpath : ∀ block, n.block = some block → block.path = .ok path)
    (hentry : n.exportEntry = .ok entry) :
    (entry = .null ↔ n.block = none) ∧
      ∀ block, n.block = some block → block.ExportedAs path entry := by
  rw [exportEntry] at hentry
  cases hblock : n.block with
  | none =>
    rw [hblock] at hentry
    cases hentry
    simp
  | some block =>
    rw [hblock] at hentry
    obtain ⟨entry', hentry', hexported⟩ := Block.exists_exportedAs (hpath block hblock)
    obtain rfl : entry' = entry := Except.ok.inj (hentry'.symm.trans hentry)
    have hne : entry' ≠ .null := by
      rintro rfl
      cases hexported.path
    refine ⟨by simp [hne], ?_⟩
    rintro _ ⟨⟩
    exact hexported

/-- A node can be exported where every block below it and in it has a path. -/
theorem exists_exportJson {n : Node} (hn : n.Ordered)
    (hblock : ∀ segments m block, n.descend? segments = some m → m.block = some block →
      ∃ path, block.path = .ok path) : ∃ v, n.exportJson = .ok v := by
  induction hsize : n.size using Nat.strong_induction_on generalizing n with
  | _ size ih =>
    have hentry : ∃ entry, n.exportEntry = .ok entry := by
      rw [exportEntry]
      cases hb : n.block with
      | none => exact ⟨.null, rfl⟩
      | some block =>
        obtain ⟨path, hpath⟩ := hblock [] n block rfl hb
        obtain ⟨entry, hentry, -⟩ := Block.exists_exportedAs hpath
        exact ⟨entry, hentry⟩
    have hchildren : ∃ fields, exportChildren n.children = .ok fields := by
      rw [exportChildren_eq]
      apply exists_mapM_eq_ok
      rintro ⟨segment, c⟩ hc
      have hchild := hn.mem_children_iff.mp hc
      obtain ⟨v, hv⟩ := ih c.size (hsize ▸ size_lt_of_mem_children hc) (hn.child hchild)
        (fun segments m block hm => hblock (segment :: segments) m block
          (by rw [descend?_cons, hchild]; exact hm)) rfl
      exact ⟨(segment, v), by rw [hv]; rfl⟩
    obtain ⟨entry, hentry⟩ := hentry
    obtain ⟨fields, hfields⟩ := hchildren
    exact ⟨_, exportJson_eq_ok_iff.mpr ⟨entry, fields, hentry, hfields, rfl⟩⟩

end Node

namespace Outline

/-- Where all blocks are filed at their own paths, a block's path is written in the segments that
lead to it. -/
theorem IsTrieOf.path_of_descend? {rule : ClashRule} {o : Outline} {r : Register}
    (h : o.IsTrieOf rule r) (hown : ∀ b ∈ r, b.2.path = .ok b.1) {segments : List Text} {n : Node}
    (hn : o.root.descend? segments = some n) {block : Block} (hblock : n.block = some block) :
    block.path = .ok (['.'].intercalate segments) := by
  obtain ⟨path, rfl, hpath, -⟩ := h.exists_path_of_descend? hown hn hblock
  rw [Text.intercalate_splitOn, hpath]

theorem exists_exportChildren (rule : ClashRule) {requests : List Request}
    (h : ∀ request ∈ requests, request.AtOwnPaths) :
    ∃ fields, Node.exportChildren ((empty rule).run requests).1.root.children = .ok fields := by
  have htrie := ((isTrieOf_empty rule).run requests).2
  have hown := Register.path_of_mem_run rule h
  obtain ⟨v, hv⟩ := Node.exists_exportJson htrie.ordered fun segments m block hm hblock =>
    ⟨_, htrie.path_of_descend? hown hm hblock⟩
  obtain ⟨-, fields, -, hfields, -⟩ := Node.exportJson_eq_ok_iff.mp hv
  exact ⟨fields, hfields⟩

/-- After any requests that file blocks at their own paths, the outline can be exported, and what is
written is the same for all settings.  Following segments in the exported value leads to an object
just where the outline has a node.  Its entry is null just when the node has no block, and otherwise
tells of the block, hidden or not, with the segments as its path. -/
theorem exportJson_mirrors_nodes (rule : ClashRule) {requests : List Request}
    (h : ∀ request ∈ requests, request.AtOwnPaths) :
    let o := ((empty rule).run requests).1
    ∃ value, o.exportJson = .ok value ∧
      (∀ s, Format.json.render o s = .ok (value.pretty ++ ['\n'])) ∧
      ∀ segments : List Text, segments ≠ [] →
        let place := segments.intersperse ("children" : Text)
        ((∃ fields, value.descend? place = some (.obj fields)) ↔
          (o.root.descend? segments).isSome) ∧
        ∀ n, o.root.descend? segments = some n →
          ∃ entry, value.descend? (place ++ [("entry" : Text)]) = some entry ∧
            (entry = .null ↔ n.block = none) ∧
            ∀ block, n.block = some block →
              block.ExportedAs (['.'].intercalate segments) entry := by
  intro o
  have htrie : o.IsTrieOf rule (Register.run rule [] requests).1 :=
    ((isTrieOf_empty rule).run requests).2
  have hown := Register.path_of_mem_run rule h
  obtain ⟨fields, hfields⟩ := exists_exportChildren rule h
  have hexport : o.exportJson = .ok (.obj fields) := by
    rw [exportJson, hfields]
    rfl
  refine ⟨.obj fields, hexport, ?_, ?_⟩
  · intro s
    rw [Format.render, exportText, hexport]
    rfl
  intro segments hne place
  refine ⟨Node.descend?_object_iff hfields hne, ?_⟩
  intro n hn
  obtain ⟨entry, children, hentry, hvalue⟩ := Node.exists_descend?_object hfields hne hn
  refine ⟨entry, ?_, Node.exportEntry_spec ?_ hentry⟩
  · rw [Json.descend?_append, hvalue, Option.bind_some, Json.descend?, Node.field?_entry]
    rfl
  · intro block hblock
    exact htrie.path_of_descend? hown hn hblock

/-- Where a private method with the name `a.b` is added to the module `m`, it is exported at the
segments `m`, `a`, `b`, with its parameter, and with null as the entry in between. -/
theorem exportJson_of_private_method :
    let tagged (tag : Tag) (payload : Payload) : Tag × List Entry := (tag, [[.tagged tag payload]])
    let m : Block := ⟨⟨"f.js", 1⟩, [], [tagged .moduleName (.label "m")]⟩
    let f : Block := ⟨⟨"f.js", 5⟩, [], [tagged .privateFlag .flag,
      tagged .methodName (.label "a.b"), tagged .memberOf (.label "m"),
      tagged .param (.named ⟨["number"], some .optional⟩ "n" "the size")]⟩
    let requests : List Request := [.add m, .addAll [f]]
    (∀ request ∈ requests, request.AtOwnPaths) ∧
      f.isHidden = true ∧
      ∃ value, ((empty .keep).run requests).1.exportJson = .ok value ∧
        value.descend? ["m", "children", "a", "entry"] = some .null ∧
        ∃ entry, value.descend? ["m", "children", "a", "children", "b", "entry"] = some entry ∧
          f.ExportedAs "m.a.b" entry ∧
          entry.field? "params" = some (.arr [.obj [("desc", .str "the size"), ("name", .str "n"),
            ("type", .obj [("options", .arr [.str "optional"]), ("types", .arr [.str "number"])])]]) := by
  intro tagged m f requests
  have hown : ∀ request ∈ requests, request.AtOwnPaths := by
    simp [requests, Request.AtOwnPaths]
  obtain ⟨value, hvalue, -, hmirror⟩ := exportJson_mirrors_nodes .keep hown
  refine ⟨hown, by decide +kernel, value, hvalue, ?_, ?_⟩
  · obtain ⟨entry, hentry, hnull, -⟩ := (hmirror ["m", "a"] (by simp)).2 _ rfl
    rw [← hnull.mpr rfl]
    exact hentry
  · obtain ⟨entry, hentry, -, hexported⟩ := (hmirror ["m", "a", "b"] (by simp)).2 _ rfl
    exact ⟨entry, hentry, hexported f rfl, (hexported f rfl).params⟩

end Outline

end DocComment
