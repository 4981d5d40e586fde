import DocComment.Page
import DocComment.Proofs.OwnTags
import DocComment.Proofs.WalkPaths

/-! # The markup of a page

Descriptions, types, labels and examples are escaped before they are written, so they bring no tag into
a page.  Paths, names of blocks and names of parameters are written as they are.  So the menu and the
content have no tag beside the page's own just when the paths of the visible blocks and the names in
their calls bring in none. -/

namespace DocComment
open Markup

/-! ### Where a text stands in an element -/

namespace Markup

theorem infix_element (name : Text) (attributes : List (Text × Text)) (content : Text) :
    content <:+: element name attributes content := by
  apply List.infix_of_mem_flatten
  simp

theorem attribute_infix_element {name content : Text} {attributes : List (Text × Text)}
    {key value : Text} (h : (key, value) ∈ attributes) :
    value ++ ['\''] <:+: element name attributes content := by
  let written (a : Text × Text) : Text := List.flatten [[' '], a.1, "='", a.2, "'"]
  have hone : value ++ ['\''] <:+: written (key, value) :=
    ⟨[' '] ++ key ++ "='".toList, [], by simp [written]⟩
  have hall : written (key, value) <:+: attributes.flatMap written := by
    rw [List.flatMap_def]
    exact List.infix_of_mem_flatten (List.mem_map_of_mem h)
  apply (hone.trans hall).trans
  rw [element_eq]
  apply List.infix_of_mem_flatten
  simp [written]

end Markup

/-! ### Cards and sections -/

namespace Content

private theorem ownTags_elim {α : Type} {f : α → Text} (h : ∀ a, OwnTags (f a)) (o : Option α) :
    OwnTags (o.elim [] f) := by
  cases o with
  | none => exact ownTags_nil
  | some a => exact h a

theorem ownTags_parameterList {params : List NamedField} (h : ∀ p ∈ params, OwnTags p.name) :
    OwnTags (parameterList params) := by
  apply OwnTags.append
  · apply OwnTags.flatMap
    rintro ⟨param, i⟩ hp
    have hname := h param (List.fst_mem_of_mem_zipIdx hp)
    apply OwnTags.flatten
    simp only [List.forall_mem_cons]
    refine ⟨?_, ?_, hname, by simp⟩
    · split <;> decide
    · split <;> decide
  · apply ownTags_of_notMem
    simp

theorem ownTags_memberCodes (type : TypeUnion) : OwnTags (memberCodes type) := by
  apply OwnTags.intercalate
  · decide
  · intro code hcode
    obtain ⟨member, -, rfl⟩ := List.mem_map.mp hcode
    exact OwnTags.element_nil (by decide) (ownTags_escape member)

theorem ownTags_modifierCodes (type : TypeUnion) : OwnTags (modifierCodes type) := by
  have hlabel : ∀ m : Modifier, OwnTags (' ' :: element "code" [] m.label) := by
    intro m
    cases m <;> decide
  apply OwnTags.flatMap
  intro m _
  split
  · exact hlabel m
  · exact ownTags_nil

theorem ownTags_paramRow {param : NamedField} (h : OwnTags param.name) :
    OwnTags (paramRow param) := by
  apply OwnTags.element_nil (by decide)
  apply OwnTags.flatten
  simp only [List.forall_mem_cons]
  refine ⟨by decide, h, by decide, ownTags_memberCodes param.type, by decide, ?_, by simp⟩
  apply OwnTags.element_nil (by decide)
  exact (ownTags_richText param.desc).append (ownTags_modifierCodes param.type)

theorem ownTags_paramTable {params : List NamedField} (h : ∀ p ∈ params, OwnTags p.name) :
    OwnTags (paramTable params) := by
  apply OwnTags.element_nil (by decide)
  apply OwnTags.append
  · decide +kernel
  · apply OwnTags.flatMap
    intro param hp
    exact ownTags_paramRow (h param hp)

theorem ownTags_returnTable (field : TypedField) : OwnTags (returnTable field) := by
  apply OwnTags.element_nil (by decide)
  apply OwnTags.append
  · decide +kernel
  · apply OwnTags.element_nil (by decide)
    apply OwnTags.flatten
    simp only [List.forall_mem_cons]
    exact ⟨by decide, ownTags_memberCodes field.type, by decide, ownTags_richText field.desc,
      by decide, by simp⟩

theorem ownTags_callCard {path : Text} {b : Block} (hpath : OwnTags path)
    (hparams : ∀ p ∈ b.params, OwnTags p.name) : OwnTags (callCard path b) := by
  have hcall : OwnTags (List.flatten [path, ['('], parameterList b.params, [')']]) := by
    apply OwnTags.flatten
    simp only [List.forall_mem_cons]
    exact ⟨hpath, by decide, ownTags_parameterList hparams, by decide, by simp⟩
  apply OwnTags.flatten
  simp only [List.forall_mem_cons]
  refine ⟨OwnTags.element_nil (by decide) hcall, by decide, by decide,
    ownTags_richText b.description, by decide, ?_, ownTags_elim ownTags_returnTable _,
    ownTags_elim (fun name => OwnTags.append (by decide) (ownTags_richText name)) _, ?_, by simp⟩
  · split
    · decide
    · apply OwnTags.flatten
      simp only [List.forall_mem_cons]
      exact ⟨by decide, ownTags_paramTable hparams, by decide, by simp⟩
  · apply OwnTags.flatMap
    intro code _
    exact OwnTags.element_nil (by decide)
      (OwnTags.element_nil (by decide) (ownTags_escape code))

theorem ownTags_varCard {path : Text} (hpath : OwnTags path) (b : Block) :
    OwnTags (varCard path b) := by
  apply OwnTags.flatten
  simp only [List.forall_mem_cons]
  exact ⟨OwnTags.element_nil (by decide) hpath, by decide, ownTags_richText b.description,
    by decide, ownTags_elim ownTags_memberCodes _, by simp⟩

/-- The row of a parameter has its name in front of a tag. -/
theorem name_infix_callCard (path : Text) {b : Block} {param : NamedField} (h : param ∈ b.params) :
    param.name ++ ['<'] <:+: callCard path b := by
  have hrow : param.name ++ ['<'] <:+: paramRow param := by
    refine List.IsInfix.trans ?_ (infix_element _ _ _)
    exact ⟨"<td><i>", _, by simp [List.append_assoc]; rfl⟩
  have htable : paramRow param <:+: paramTable b.params := by
    refine List.IsInfix.trans ?_ (infix_element _ _ _)
    refine List.IsInfix.trans ?_ (List.suffix_append _ _).isInfix
    rw [List.flatMap_def]
    exact List.infix_of_mem_flatten (List.mem_map_of_mem h)
  have hne : b.params.isEmpty = false := by
    cases hparams : b.params with
    | nil => simp [hparams] at h
    | cons _ _ => rfl
  have hpart : paramTable b.params <:+: List.flatten ["<br>", paramTable b.params, ['\n']] :=
    List.infix_of_mem_flatten (by simp)
  refine ((hrow.trans htable).trans hpart).trans ?_
  apply List.infix_of_mem_flatten
  simp [hne]

end Content

namespace Block

theorem of_path_eq_ok {b : Block} {path : Text} (h : b.path = .ok path) :
    ∃ kind id, b.kind = .ok kind ∧ b.id = .ok id ∧ id <:+ path := by
  cases hk : b.kind with
  | error e => simp [Block.path, Block.id, hk, bind, Except.bind] at h
  | ok kind =>
    have hid : b.id = .ok ((b.firstName? kind.tag).getD []) := by
      rw [Block.id, hk]
      rfl
    refine ⟨kind, _, rfl, hid, ?_⟩
    rw [Block.path, hid] at h
    cases hparent : b.parentPath with
    | error e =>
      rw [hparent] at h
      cases h
    | ok parent =>
      rw [hparent] at h
      cases parent with
      | none =>
        cases h
        exact List.suffix_rfl
      | some parent =>
        cases h
        exact ⟨parent ++ ['.'], by simp⟩

/-- What is made of the kind, the path and the name of a block needs all three. -/
theorem of_bind_eq_ok {b : Block} {α : Type} (f : Kind → Text → Text → α) {a : α}
    (h : (do return f (← b.kind) (← b.path) (← b.id)) = Except.ok a) :
    ∃ kind path id, b.kind = .ok kind ∧ b.path = .ok path ∧ b.id = .ok id ∧ id <:+ path ∧
      a = f kind path id := by
  cases hpath : b.path with
  | error e => cases hk : b.kind <;> rw [hk, hpath] at h <;> cases h
  | ok path =>
    obtain ⟨kind, id, hk, hid, hsuffix⟩ := b.of_path_eq_ok hpath
    rw [hk, hpath, hid] at h
    cases h
    exact ⟨kind, path, id, hk, rfl, hid, hsuffix, rfl⟩

/-- The texts of a block that a page writes as they are bring in no tag that is not of the page. -/
structure OwnNames (b : Block) : Prop where
  path : ∀ path, b.path = .ok path → OwnTags path
  params : b.kind = .ok .classBlock ∨ b.kind = .ok .methodBlock →
    ∀ param ∈ b.params, OwnTags param.name

end Block

namespace Section

/-- A section has the path of its block, and the name or the path of it as its title. -/
theorem ofBlock_cases {b : Block} {s : Section} (h : ofBlock b = .ok s) :
    ∃ kind, b.kind = .ok kind ∧ b.path = .ok s.path ∧ s.rank ∈ [2, 3] ∧ s.title <:+ s.path ∧
      s.body = match kind with
        | .moduleBlock | .namespaceBlock => richText b.description ++ ['\n']
        | .classBlock | .methodBlock =>
          '\n' :: element "div" [("class", "card")] (Content.callCard s.path b)
        | .varBlock => '\n' :: element "div" [("class", "card")] (Content.varCard s.path b) := by
  obtain ⟨kind, path, id, hk, hpath, -, hsuffix, rfl⟩ := b.of_bind_eq_ok _ h
  refine ⟨kind, hk, ?_⟩
  cases kind <;> simp [hpath, hsuffix]

theorem exists_ofBlock {b : Block} {path : Text} (h : b.path = .ok path) :
    ∃ s, ofBlock b = .ok s := by
  obtain ⟨kind, id, hk, hid, -⟩ := b.of_path_eq_ok h
  rw [ofBlock, hk, h, hid]
  exact ⟨_, rfl⟩

theorem ownTags_markup {b : Block} {s : Section} (h : ofBlock b = .ok s) (hb : b.OwnNames) :
    OwnTags s.markup := by
  obtain ⟨kind, hk, hpath, hrank, hsuffix, hbody⟩ := ofBlock_cases h
  have hown := hb.path s.path hpath
  have hheading := hown.of_suffix hsuffix
  have hname : 'h' :: Text.ofNat s.rank ∈ tagNames := by
    have hall : ∀ rank ∈ [2, 3], 'h' :: Text.ofNat rank ∈ tagNames := by decide
    exact hall s.rank hrank
  have hcard : ∀ content, OwnTags content →
      OwnTags ('\n' :: element "div" [("class", "card")] content) := by
    intro content hcontent
    exact OwnTags.append (by decide : OwnTags ['\n'])
      (OwnTags.element (by decide) (by decide) hcontent)
  have hrest : OwnTags s.body := by
    rw [hbody]
    cases kind with
    | moduleBlock => exact (ownTags_richText b.description).append (by decide)
    | namespaceBlock => exact (ownTags_richText b.description).append (by decide)
    | classBlock => exact hcard _ (Content.ownTags_callCard hown (hb.params (Or.inl hk)))
    | methodBlock => exact hcard _ (Content.ownTags_callCard hown (hb.params (Or.inr hk)))
    | varBlock => exact hcard _ (Content.ownTags_varCard hown b)
  have hid : OwnTags ("api-" ++ s.path) := OwnTags.append (by decide) hown
  apply OwnTags.flatten
  simp only [List.forall_mem_cons]
  refine ⟨OwnTags.element hname ?_ hheading, hrest, by decide, by simp⟩
  simpa using ⟨by decide, hid⟩

/-- The heading shows the path of a block, and the card of a call the names of its parameters. -/
theorem ownNames_of_infix {b : Block} {s : Section} (h : ofBlock b = .ok s) {t : Text}
    (hs : s.markup <:+: t) (ht : OwnTags t) : b.OwnNames := by
  obtain ⟨kind, hk, hpath, -, -, hbody⟩ := ofBlock_cases h
  have hheading : element ('h' :: Text.ofNat s.rank) [("id", "api-" ++ s.path)] s.title <:+:
      s.markup := List.infix_of_mem_flatten (by simp)
  have hinside : s.body <:+: s.markup := List.infix_of_mem_flatten (by simp)
  constructor
  · intro path hsame
    cases hpath.symm.trans hsame
    let target : Text := "api-" ++ s.path
    have hvalue : s.path ++ ['\''] <:+: target ++ ['\''] := ⟨"api-", [], by simp [target]⟩
    have hattribute : target ++ ['\''] <:+:
        element ('h' :: Text.ofNat s.rank) [("id", target)] s.title :=
      attribute_infix_element (List.mem_singleton_self _)
    exact ht.of_infix (by decide : Breaking '\'')
      (((hvalue.trans hattribute).trans hheading).trans hs)
  · intro hkind param hparam
    have hname := Content.name_infix_callCard s.path hparam
    have hcard : Content.callCard s.path b <:+: s.body := by
      rw [hbody]
      rcases hkind with hkind | hkind <;> cases hk.symm.trans hkind <;>
        exact List.infix_cons (infix_element _ _ _)
    exact ht.of_infix (by decide : Breaking '<') (((hname.trans hcard).trans hinside).trans hs)

end Section

/-! ### The menu -/

namespace MenuItem

theorem markupAll_eq (items : List MenuItem) : markupAll items = items.flatMap markup := by
  induction items with
  | nil => rfl
  | cons item items ih => rw [markupAll, ih, List.flatMap_cons]

theorem ownTags_ofBlock {b : Block} {items : List MenuItem} {item : MenuItem}
    (h : ofBlock b items = .ok item) (hb : b.OwnNames) (hitems : ∀ i ∈ items, OwnTags i.markup) :
    OwnTags item.markup := by
  obtain ⟨kind, path, id, -, hpath, -, hsuffix, rfl⟩ := b.of_bind_eq_ok _ h
  have hown := hb.path path hpath
  have hname := hown.of_suffix hsuffix
  have hlevel : ∀ level ∈ kind.level?, OwnTags level := by
    cases kind <;> decide
  cases hl : kind.level? with
  | none =>
    have haddress : OwnTags ("#api-" ++ path) := OwnTags.append (by decide) hown
    exact OwnTags.element (by decide) (by simpa using ⟨by decide, haddress⟩) hname
  | some level =>
    have hinput : OwnTags (level ++ '-' :: path) :=
      (hlevel level hl).append ((by decide : OwnTags ['-']).append hown)
    dsimp only
    rw [markup, markupAll_eq]
    apply OwnTags.flatten
    simp only [List.forall_mem_cons]
    refine ⟨OwnTags.element (by decide) ?_ ownTags_nil, OwnTags.element (by decide) ?_ hname,
      OwnTags.element (by decide) ?_ (OwnTags.flatMap hitems), by simp⟩
    · simpa using ⟨⟨by decide, hinput⟩, by decide, by decide⟩
    · simpa using ⟨by decide, hinput⟩
    · simpa using ⟨by decide, hlevel level hl⟩

/-- The items of a node write the names of what is visible from it down. -/
theorem ownTags_of_mem_ofNode (s : Settings) (path : Text) {n : Node}
    (h : ∀ p ∈ shown s path n, ∀ block, p.2.block = some block → block.OwnNames) :
    ∀ item ∈ ofNode s n, OwnTags item.markup := by
  induction hsize : n.size using Nat.strong_induction_on generalizing n path with
  | _ size ih =>
    cases hc : s.conceals n with
    | true =>
      rw [ofNode_of_conceals hc]
      simp
    | false =>
      rw [shown_of_not_conceals hc] at h
      have hbelow : ∀ item ∈ (Walk.below path n).flatMap fun c => ofNode s c.2,
          OwnTags item.markup := by
        intro item hitem
        obtain ⟨c, hmem, hitem⟩ := List.mem_flatMap.mp hitem
        have hlt := Walk.size_lt_of_mem_below hmem
        refine ih c.2.size (hsize ▸ hlt) c.1 (fun p hp => ?_) rfl item hitem
        exact h p (List.mem_append_right _ (List.mem_flatMap.mpr ⟨c, hmem, hp⟩))
      rw [ofNode_of_not_conceals hc path]
      cases hblock : n.block with
      | none => exact hbelow
      | some block =>
        intro item hitem
        have hown : block.OwnNames := h (path, n) (by simp [hblock]) block hblock
        cases hof : ofBlock block ((Walk.below path n).flatMap fun c => ofNode s c.2) with
        | error e => simp [hof, Except.toOption] at hitem
        | ok result =>
          have heq : item = result := by simpa [hof, Except.toOption] using hitem
          exact heq ▸ ownTags_ofBlock hof hown hbelow

end MenuItem

/-! ### The page -/

namespace Outline

/-- The blocks that a page shows. -/
def visibleBlocks (o : Outline) (s : Settings) : List Block :=
  (o.visible s).filterMap fun p => p.2.block

theorem mem_visibleBlocks {o : Outline} {s : Settings} {block : Block} :
    block ∈ o.visibleBlocks s ↔ ∃ p ∈ o.visible s, p.2.block = some block :=
  List.mem_filterMap

theorem ownTags_menu {o : Outline} {s : Settings} (h : ∀ block ∈ o.visibleBlocks s, block.OwnNames) :
    OwnTags (MenuItem.markupAll (o.menu s)) := by
  rw [MenuItem.markupAll_eq]
  apply OwnTags.flatMap
  intro item hitem
  obtain ⟨⟨path, n⟩, hp, hitem⟩ := List.mem_flatMap.mp hitem
  dsimp only at hitem
  split at hitem
  · refine MenuItem.ownTags_of_mem_ofNode s path (fun q hq block hblock => ?_) item hitem
    exact h block (mem_visibleBlocks.mpr ⟨q, (shown_sublist_visible hp).subset hq, hblock⟩)
  · cases hitem

/-- Every visible block has a section in the content. -/
theorem ownTags_content_iff {o : Outline} {s : Settings} {sections : List Section}
    (h : o.sections s = .ok sections) :
    OwnTags (sections.flatMap Section.markup) ↔ ∀ block ∈ o.visibleBlocks s, block.OwnNames := by
  have hmap : (o.visibleBlocks s).map Section.ofBlock = sections.map .ok := mapM_eq_ok_iff.mp h
  constructor
  · intro hown block hblock
    have hof : Section.ofBlock block ∈ sections.map .ok := hmap ▸ List.mem_map_of_mem hblock
    obtain ⟨part, hpart, hof⟩ := List.mem_map.mp hof
    refine Section.ownNames_of_infix hof.symm ?_ hown
    rw [List.flatMap_def]
    exact List.infix_of_mem_flatten (List.mem_map_of_mem hpart)
  · intro hown
    apply OwnTags.flatMap
    intro part hpart
    have hof : .ok part ∈ (o.visibleBlocks s).map Section.ofBlock :=
      hmap ▸ List.mem_map_of_mem hpart
    obtain ⟨block, hblock, hof⟩ := List.mem_map.mp hof
    exact Section.ownTags_markup hof (hown block hblock)

/-- Blocks filed at their own paths have sections, all of them. -/
theorem exists_sections (rule : ClashRule) {requests : List Request}
    (h : ∀ request ∈ requests, request.AtOwnPaths) (s : Settings) :
    ∃ sections, ((empty rule).run requests).1.sections s = .ok sections := by
  have htrie := ((isTrieOf_empty rule).run requests).2
  have hown := Register.path_of_mem_run rule h
  apply exists_mapM_eq_ok
  intro block hblock
  obtain ⟨p, hp, hheld⟩ := mem_visibleBlocks.mp hblock
  obtain ⟨hitem, -, -⟩ := mem_visible hp
  obtain ⟨full, hpath, -, -⟩ := htrie.path_of_mem_items hown hitem hheld
  exact Section.exists_ofBlock hpath

/-- The page of any batches of blocks can be written, with any settings.  Every `<` of its menu and of
its content begins a tag of its own just when none in the paths of the visible blocks and in the names
of the parameters in their calls begins another: no other text of a block can bring one in. -/
theorem ownTags_page_iff (rule : ClashRule) (batches : List (List Block)) (s : Settings) :
    let o := ((empty rule).run (batches.map .addAll)).1
    ∃ sections, o.sections s = .ok sections ∧
      (OwnTags (MenuItem.markupAll (o.menu s)) ∧ OwnTags (sections.flatMap Section.markup) ↔
        ∀ block ∈ o.visibleBlocks s, block.OwnNames) := by
  intro o
  have hrequests : ∀ request ∈ batches.map Request.addAll, request.AtOwnPaths := by
    intro request hrequest
    obtain ⟨batch, -, rfl⟩ := List.mem_map.mp hrequest
    trivial
  obtain ⟨sections, hsections⟩ := exists_sections rule hrequests s
  refine ⟨sections, hsections, ?_, ?_⟩
  · rintro ⟨-, hcontent⟩
    exact (ownTags_content_iff hsections).mp hcontent
  · intro hown
    exact ⟨ownTags_menu hown, (ownTags_content_iff hsections).mpr hown⟩

/-- The name of the module `<script>` comes into the menu and into the content as it is. -/
theorem page_writes_script_tag :
    let block : Block :=
      ⟨⟨"f.js", 1⟩, [], [(.moduleName, [[.tagged .moduleName (.label "<script>")]])]⟩
    let o := ((empty .replace).run [.addAll [block]]).1
    let s : Settings := ⟨"API", none, false⟩
    Source.blocksOfText "f.js" "/**\n * @module <script>\n */" = .ok [block] ∧
      ¬ OwnTags (MenuItem.markupAll (o.menu s)) ∧
      ∃ sections, o.sections s = .ok sections ∧ ¬ OwnTags (sections.flatMap Section.markup) := by
  intro block o s
  let n : Node := ⟨some block, 0, []⟩
  have hroot : Walk.below [] o.root = [("<script>".toList, n)] := rfl
  have hleaf : Walk.below "<script>" n = [] := rfl
  have hshown : s.conceals n = false := by decide +kernel
  have hvisible : o.visible s = [("<script>".toList, n)] := by
    rw [visible_eq, hroot, List.flatMap_singleton, shown_of_not_conceals hshown, hleaf]
    rfl
  refine ⟨by decide +kernel, ?_, [⟨2, "<script>", "<script>", "\n"⟩], ?_, by decide +kernel⟩
  · rw [menu, hvisible]
    decide +kernel
  · rw [sections, hvisible]
    decide +kernel

end Outline

end DocComment
