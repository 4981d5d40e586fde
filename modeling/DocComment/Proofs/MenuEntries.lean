import DocComment.Proofs.PageMarkup

/-! # The entries of a menu

The menu goes down from a module and stops at methods and variables, of which it lists nothing below.
So it picks its entries from a visit that goes on only at nodes without a block and at the heads of
groups, and they come in the order of the visible blocks.  Said by paths: from a visible block down it
lists the visible blocks that no method and no variable stands above on the way. -/

namespace DocComment
open scoped List

/-- What a menu says of one block: its folding level, where it has one, its path and its name. -/
structure MenuEntry where
  level? : Option Text
  path : Text
  id : Text
  deriving DecidableEq, Repr

namespace Block

def menuEntry (b : Block) : Except Problem MenuEntry := do
  return ⟨(← b.kind).level?, ← b.path, ← b.id⟩

def isGroup (b : Block) : Bool := b.menuEntry.toOption.any (·.level?.isSome)

theorem menuEntry_eq_ok {b : Block} {path : Text} (h : b.path = .ok path) :
    ∃ kind id, b.kind = .ok kind ∧ b.id = .ok id ∧ b.menuEntry = .ok ⟨kind.level?, path, id⟩ := by
  obtain ⟨kind, id, hkind, hid, -⟩ := b.of_path_eq_ok h
  refine ⟨kind, id, hkind, hid, ?_⟩
  rw [menuEntry, hkind, h, hid]
  rfl

theorem path_of_menuEntry {b : Block} {e : MenuEntry} (h : b.menuEntry = .ok e) :
    b.path = .ok e.path := by
  obtain ⟨kind, path, id, -, hpath, -, -, rfl⟩ := b.of_bind_eq_ok _ h
  exact hpath

/-- A block that has a path heads a group just when it is no method and no variable. -/
theorem isGroup_iff {b : Block} {path : Text} (h : b.path = .ok path) :
    b.isGroup = true ↔ ¬ (b.kind = .ok .methodBlock ∨ b.kind = .ok .varBlock) := by
  obtain ⟨kind, id, hkind, -, hentry⟩ := b.menuEntry_eq_ok h
  rw [isGroup, hentry, hkind]
  cases kind <;> simp [Except.toOption, Kind.level?]

end Block

namespace MenuItem

mutual

/-- The entries that an item stands for, each before those below it. -/
def entries : MenuItem → List MenuEntry
  | .link path id => [⟨none, path, id⟩]
  | .group level path id items => ⟨some level, path, id⟩ :: entriesAll items

def entriesAll : List MenuItem → List MenuEntry
  | [] => []
  | item :: rest => item.entries ++ entriesAll rest

end

theorem entriesAll_eq (items : List MenuItem) : entriesAll items = items.flatMap entries := by
  induction items with
  | nil => rfl
  | cons item items ih => rw [entriesAll, ih, List.flatMap_cons]

/-- The item of a block stands for the block's entry and, where that heads a group, for the entries
of what is below. -/
theorem entriesAll_ofBlock (b : Block) (items : List MenuItem) :
    entriesAll (ofBlock b items).toOption.toList =
      b.menuEntry.toOption.toList ++ if b.isGroup then entriesAll items else [] := by
  rw [Block.isGroup]
  cases hpath : b.path with
  | error e =>
    have hnone : ∀ {α : Type} (f : Kind → Text → Text → α),
        (do return f (← b.kind) (← b.path) (← b.id) : Except Problem α).toOption = none := by
      intro α f
      rw [hpath]
      cases b.kind <;> rfl
    have hitem : (ofBlock b items).toOption = none := hnone _
    have hentry : b.menuEntry.toOption = none := hnone _
    rw [hitem, hentry]
    rfl
  | ok path =>
    obtain ⟨kind, id, hkind, hid, hentry⟩ := b.menuEntry_eq_ok hpath
    rw [ofBlock, hentry, hkind, hpath, hid]
    cases hlevel : kind.level? with
    | none => simp [bind, Except.bind, pure, Except.pure, Except.toOption, hlevel, entriesAll, entries]
    | some level =>
      simp [bind, Except.bind, pure, Except.pure, Except.toOption, hlevel, entriesAll, entries]

end MenuItem

namespace Settings

/-- The entry of a node that holds a block and is not concealed. -/
def listed? (s : Settings) (n : Node) : Option MenuEntry :=
  if s.conceals n then none else n.block.bind fun b => b.menuEntry.toOption

theorem listed?_eq_some_iff {s : Settings} {n : Node} {e : MenuEntry} :
    s.listed? n = some e ↔
      s.conceals n = false ∧ ∃ b, n.block = some b ∧ b.menuEntry = .ok e := by
  have hok : ∀ b : Block, b.menuEntry.toOption = some e ↔ b.menuEntry = .ok e := by
    intro b
    cases b.menuEntry <;> simp [Except.toOption]
  rw [listed?]
  cases s.conceals n <;> simp [Option.bind_eq_some_iff, hok]

def unfolds (s : Settings) (n : Node) : Bool := !s.conceals n && n.block.all Block.isGroup

theorem unfolds_iff {s : Settings} {n : Node} :
    s.unfolds n = true ↔ s.conceals n = false ∧ ∀ b, n.block = some b → b.isGroup = true := by
  simp [unfolds, Option.all_eq_true]

end Settings

/-- The items of a node stand for the entries that a visit meets which goes on where the menu does. -/
theorem MenuItem.entriesAll_ofNode (s : Settings) (path : Text) (n : Node) :
    entriesAll (ofNode s n) = (Walk.visitWhere s.unfolds path n).filterMap fun p => s.listed? p.2 := by
  induction hsize : n.size using Nat.strong_induction_on generalizing n path with
  | _ size ih =>
    have hfirst : ∀ rest : List (Text × Node), ((path, n) :: rest).filterMap (fun p => s.listed? p.2) =
        (s.listed? n).toList ++ rest.filterMap fun p => s.listed? p.2 := by
      intro rest
      cases h : s.listed? n <;> simp [h]
    rw [Walk.visitWhere_eq, hfirst, Settings.unfolds, Settings.listed?]
    cases hc : s.conceals n with
    | true => simp [ofNode_of_conceals hc, entriesAll]
    | false =>
      have hbelow : entriesAll ((Walk.below path n).flatMap fun c => ofNode s c.2) =
          ((Walk.below path n).flatMap fun c => Walk.visitWhere s.unfolds c.1 c.2).filterMap
            fun p => s.listed? p.2 := by
        rw [entriesAll_eq, List.flatMap_assoc, List.filterMap_flatMap]
        apply List.flatMap_congr
        intro c hmem
        rw [← entriesAll_eq]
        exact ih c.2.size (hsize ▸ Walk.size_lt_of_mem_below hmem) c.1 c.2 rfl
      rw [ofNode_of_not_conceals hc path]
      cases n.block with
      | none => simpa using hbelow
      | some block =>
        have hblock := entriesAll_ofBlock block ((Walk.below path n).flatMap fun c => ofNode s c.2)
        rw [hbelow] at hblock
        cases hgroup : block.isGroup <;> simpa [hgroup] using hblock

namespace Outline

/-! ### The order of the entries -/

/-- The entries of a visible node are among those of the visible blocks, in their order. -/
theorem entriesAll_sublist {o : Outline} {s : Settings} {entries : List MenuEntry}
    (h : (o.visibleBlocks s).mapM Block.menuEntry = .ok entries) {p : Text × Node}
    (hp : p ∈ o.visible s) : MenuItem.entriesAll (MenuItem.ofNode s p.2) <+ entries := by
  have hentries : entries = (o.visible s).filterMap fun q => s.listed? q.2 := by
    have hmap := congrArg (List.filterMap Except.toOption) (mapM_eq_ok_iff.mp h)
    simp only [List.filterMap_map, visibleBlocks, List.filterMap_filterMap] at hmap
    have hid : entries.filterMap
        (Except.toOption ∘ (Except.ok : MenuEntry → Except Problem MenuEntry)) = entries :=
      List.filterMap_some
    rw [hid] at hmap
    rw [← hmap]
    apply List.filterMap_congr
    intro q hq
    rw [Settings.listed?, (mem_visible hq).2.2]
    rfl
  have hshown : (Walk.visitWhere (!s.conceals ·) p.1 p.2).filterMap (fun q => s.listed? q.2) =
      (shown s p.1 p.2).filterMap fun q => s.listed? q.2 := by
    rw [shown_eq, List.filterMap_filter]
    apply List.filterMap_congr
    intro q _
    rw [Settings.listed?]
    cases s.conceals q.2 <;> cases q.2.block <;> rfl
  have hless : ∀ n, s.unfolds n = true → (!s.conceals n) = true := by
    intro n hn
    simp [(Settings.unfolds_iff.mp hn).1]
  rw [MenuItem.entriesAll_ofNode s p.1, hentries]
  calc (Walk.visitWhere s.unfolds p.1 p.2).filterMap (fun q => s.listed? q.2)
    _ <+ (Walk.visitWhere (!s.conceals ·) p.1 p.2).filterMap fun q => s.listed? q.2 :=
      (Walk.visitWhere_sublist hless p.1 p.2).filterMap _
    _ = (shown s p.1 p.2).filterMap fun q => s.listed? q.2 := hshown
    _ <+ (o.visible s).filterMap fun q => s.listed? q.2 := (shown_sublist_visible hp).filterMap _

/-! ### The entries by their paths -/

end Outline

/-- Nothing is concealed along some segments, up to where they lead. -/
def Settings.Reveals (s : Settings) (n : Node) (segments : List Text) : Prop :=
  ∀ before m, before <+: segments → n.descend? before = some m → s.conceals m = false

theorem Settings.reveals_iff {s : Settings} {n m : Node} {segments : List Text}
    (hm : n.descend? segments = some m) :
    s.Reveals n segments ↔ n.Passes (s.conceals · = false) segments ∧ s.conceals m = false := by
  constructor
  · intro h
    exact ⟨fun before k hpre _ hk => h before k hpre hk, h segments m List.prefix_rfl hm⟩
  · rintro ⟨hpasses, hlast⟩ before k hpre hk
    by_cases heq : before = segments
    · subst heq
      cases hm.symm.trans hk
      exact hlast
    · exact hpasses before k hpre heq hk

theorem Settings.Reveals.of_prefix {s : Settings} {n : Node} {before segments : List Text}
    (h : s.Reveals n segments) (hpre : before <+: segments) : s.Reveals n before :=
  fun first k hfirst hk => h first k (hfirst.trans hpre) hk

theorem Settings.reveals_append {s : Settings} {n m : Node} {segments more : List Text}
    (hm : n.descend? segments = some m) :
    s.Reveals n (segments ++ more) ↔ s.Reveals n segments ∧ s.Reveals m more := by
  have hdown : ∀ after, n.descend? (segments ++ after) = m.descend? after := by
    intro after
    rw [Node.descend?_append, hm]
    rfl
  constructor
  · intro h
    refine ⟨h.of_prefix (List.prefix_append segments more), fun after k hpre hk => ?_⟩
    exact h _ k ((List.prefix_append_right_inj segments).mpr hpre) ((hdown after).trans hk)
  · rintro ⟨h, hmore⟩ before k hpre hk
    rcases List.prefix_or_prefix_of_prefix hpre (List.prefix_append segments more) with hle | hle
    · exact h before k hle hk
    · obtain ⟨after, rfl⟩ := hle
      exact hmore after k ((List.prefix_append_right_inj segments).mp hpre)
        ((hdown after).symm.trans hk)

/-- Segments lead to a block, with nothing concealed along them. -/
def Settings.Finds (s : Settings) (n : Node) (segments : List Text) (b : Block) : Prop :=
  s.Reveals n segments ∧ ∃ m, n.descend? segments = some m ∧ m.block = some b

theorem Settings.finds_append {s : Settings} {n m : Node} {segments more : List Text} {b : Block}
    (hm : n.descend? segments = some m) (h : s.Reveals n segments) :
    s.Finds n (segments ++ more) b ↔ s.Finds m more b := by
  rw [Finds, Finds, reveals_append hm, Node.descend?_append, hm]
  exact and_congr_left fun _ => and_iff_right h

/-- Whether the path of a block is the path of another or leads on to it. -/
def Block.Covers (outer inner : Block) : Prop :=
  ∃ p q, outer.path = .ok p ∧ inner.path = .ok q ∧ p.splitOn '.' <+: q.splitOn '.'

theorem Block.covers_iff {outer inner : Block} {p q : Text} (hp : outer.path = .ok p)
    (hq : inner.path = .ok q) : outer.Covers inner ↔ p.splitOn '.' <+: q.splitOn '.' := by
  constructor
  · rintro ⟨p', q', hp', hq', hpre⟩
    cases hp.symm.trans hp'
    cases hq.symm.trans hq'
    exact hpre
  · intro hpre
    exact ⟨p, q, hp, hq, hpre⟩

theorem Block.Covers.trans {a b c : Block} (hab : a.Covers b) (hbc : b.Covers c) : a.Covers c := by
  obtain ⟨p, q, hp, hq, hpq⟩ := hab
  obtain ⟨q', r, hq', hr, hqr⟩ := hbc
  cases hq.symm.trans hq'
  exact ⟨p, r, hp, hr, hpq.trans hqr⟩

/-- Of two blocks that cover a third one covers the other. -/
theorem Block.Covers.total {a b c : Block} (hac : a.Covers c) (hbc : b.Covers c) :
    a.Covers b ∨ b.Covers a := by
  obtain ⟨p, r, hp, hr, hpr⟩ := hac
  obtain ⟨q, r', hq, hr', hqr⟩ := hbc
  cases hr.symm.trans hr'
  rcases List.prefix_or_prefix_of_prefix hpr hqr with h | h
  · exact Or.inl ⟨p, q, hp, hq, h⟩
  · exact Or.inr ⟨q, p, hq, hp, h⟩

namespace Outline

variable {rule : ClashRule} {o : Outline} {r : Register} {s : Settings}

/-- What is visible in an outline is what is visible from its root down. -/
theorem IsTrieOf.visible_eq_shown (h : o.IsTrieOf rule r) (s : Settings) :
    o.visible s = shown s [] o.root := by
  have hroot : s.conceals o.root = false := by simp [Settings.conceals, h.root_block]
  rw [visible_eq, shown_of_not_conceals hroot, h.root_block]
  rfl

/-- The visible nodes are those that hold a block and to which segments lead past nothing concealed. -/
theorem IsTrieOf.mem_visible_iff (h : o.IsTrieOf rule r) {written : Text} {n : Node} :
    (written, n) ∈ o.visible s ↔ ∃ segments, o.root.descend? segments = some n ∧
      written = segments.foldl Walk.childPath [] ∧ n.block.isSome = true ∧
        s.Reveals o.root segments := by
  rw [h.visible_eq_shown, shown_eq, List.mem_filter, Walk.mem_visitWhere h.ordered]
  simp only [Bool.and_eq_true, Bool.not_eq_true']
  constructor
  · rintro ⟨⟨segments, hn, hwritten, hpasses⟩, hblock, hc⟩
    exact ⟨segments, hn, hwritten, hblock, (Settings.reveals_iff hn).mpr ⟨hpasses, hc⟩⟩
  · rintro ⟨segments, hn, hwritten, hblock, hreveals⟩
    obtain ⟨hpasses, hc⟩ := (Settings.reveals_iff hn).mp hreveals
    exact ⟨⟨segments, hn, hwritten, hpasses⟩, hblock, hc⟩

/-- Whether the menu lists a visible block below an outer one: every other visible block on the way, the
outer one included, heads a group. -/
def Lists (o : Outline) (s : Settings) (outer b : Block) : Prop :=
  outer.Covers b ∧
    ∀ c ∈ o.visibleBlocks s, outer.Covers c → c.Covers b → c ≠ b → c.isGroup = true

section OwnPaths

variable (h : o.IsTrieOf rule r) (hown : ∀ b ∈ r, b.2.path = .ok b.1)

include h hown

/-- A visible node is reached along the path of its block, with nothing concealed on the way. -/
theorem IsTrieOf.exists_of_mem_visible {p : Text × Node} (hp : p ∈ o.visible s) {block : Block}
    (hblock : p.2.block = some block) :
    ∃ path, block.path = .ok path ∧ o.node? path = some p.2 ∧
      s.Reveals o.root (path.splitOn '.') := by
  obtain ⟨segments, hn, -, -, hreveals⟩ := h.mem_visible_iff.mp hp
  obtain ⟨path, rfl, hpath, -⟩ := h.exists_path_of_descend? hown hn hblock
  exact ⟨path, hpath, hn, hreveals⟩

/-- A visible block is one that is filed at its path, with nothing concealed along that path. -/
theorem IsTrieOf.mem_visibleBlocks_iff {b : Block} :
    b ∈ o.visibleBlocks s ↔ ∃ path, b.path = .ok path ∧ s.Finds o.root (path.splitOn '.') b := by
  rw [mem_visibleBlocks]
  constructor
  · rintro ⟨p, hp, hblock⟩
    obtain ⟨path, hpath, hn, hreveals⟩ := h.exists_of_mem_visible hown hp hblock
    exact ⟨path, hpath, hreveals, p.2, hn, hblock⟩
  · rintro ⟨path, hpath, hreveals, n, hn, hblock⟩
    exact ⟨(_, n), h.mem_visible_iff.mpr ⟨_, hn, rfl, by simp [hblock], hreveals⟩, hblock⟩

theorem IsTrieOf.exists_path {b : Block} (hb : b ∈ o.visibleBlocks s) :
    ∃ path, b.path = .ok path := by
  obtain ⟨path, hpath, -⟩ := (h.mem_visibleBlocks_iff hown).mp hb
  exact ⟨path, hpath⟩

/-- No two visible blocks have the same path. -/
theorem IsTrieOf.nodup_visibleBlocks : ((o.visibleBlocks s).map Block.path).Nodup := by
  let Apart (p q : Text × Node) : Prop :=
    ∀ b, p.2.block = some b → ∀ c, q.2.block = some c → b.path ≠ c.path
  have hdescendants : (o.root.descendants.map
      fun d => (d.1.foldl Walk.childPath [], d.2)).Pairwise Apart := by
    have hnodup := List.pairwise_map.mp h.ordered.nodup_descendants
    rw [List.pairwise_map]
    refine hnodup.imp_of_mem ?_
    rintro ⟨before, m⟩ ⟨after, m'⟩ hm hm' hne b hb c hc heq
    obtain ⟨-, hm⟩ := h.ordered.mem_descendants_iff.mp hm
    obtain ⟨-, hm'⟩ := h.ordered.mem_descendants_iff.mp hm'
    obtain ⟨p, rfl, hp, -⟩ := h.exists_path_of_descend? hown hm hb
    obtain ⟨q, rfl, hq, -⟩ := h.exists_path_of_descend? hown hm' hc
    rw [hp, hq] at heq
    cases heq
    exact hne rfl
  have hitems : o.walk.items.Pairwise Apart := by
    refine (o.items_perm.pairwise_iff ?_).mpr hdescendants
    intro p q hpq b hb c hc heq
    exact hpq c hc b hb heq.symm
  rw [List.Nodup, List.pairwise_map, visibleBlocks, List.pairwise_filterMap]
  exact hitems.sublist (o.visible_sublist_items s)

section Below

variable {p : Text × Node} (hp : p ∈ o.visible s) {outer : Block} (houter : p.2.block = some outer)

include hp houter

/-- The path of a block that segments find from a visible node on has these segments last. -/
theorem IsTrieOf.path_of_finds {path : Text} (hpath : outer.path = .ok path) {segments : List Text}
    {b : Block} (hb : s.Finds p.2 segments b) :
    ∃ inner, b.path = .ok inner ∧ inner.splitOn '.' = path.splitOn '.' ++ segments ∧
      s.Finds o.root (inner.splitOn '.') b := by
  obtain ⟨path', hpath', hn, hreveals⟩ := h.exists_of_mem_visible hown hp houter
  cases hpath.symm.trans hpath'
  have hfinds := (Settings.finds_append hn hreveals).mpr hb
  obtain ⟨m, hm, hblock⟩ := hfinds.2
  obtain ⟨inner, hinner, hbpath, -⟩ := h.exists_path_of_descend? hown hm hblock
  exact ⟨inner, hbpath, hinner.symm, hinner ▸ hfinds⟩

/-- The visible blocks that a visible block covers are those that segments find from its node on. -/
theorem IsTrieOf.exists_finds_iff {b : Block} :
    (∃ segments, s.Finds p.2 segments b) ↔ b ∈ o.visibleBlocks s ∧ outer.Covers b := by
  obtain ⟨path, hpath, hn, hreveals⟩ := h.exists_of_mem_visible hown hp houter
  constructor
  · rintro ⟨segments, hb⟩
    obtain ⟨inner, hbpath, hinner, hfinds⟩ := h.path_of_finds hown hp houter hpath hb
    refine ⟨(h.mem_visibleBlocks_iff hown).mpr ⟨inner, hbpath, hfinds⟩, ?_⟩
    exact (Block.covers_iff hpath hbpath).mpr (hinner ▸ List.prefix_append _ _)
  · rintro ⟨hb, hcovers⟩
    obtain ⟨inner, hbpath, hfinds⟩ := (h.mem_visibleBlocks_iff hown).mp hb
    obtain ⟨segments, hsegments⟩ := (Block.covers_iff hpath hbpath).mp hcovers
    rw [← hsegments] at hfinds
    exact ⟨segments, (Settings.finds_append hn hreveals).mp hfinds⟩

/-- One covers the other just when its segments come first. -/
theorem IsTrieOf.covers_iff_of_finds {before segments : List Text} {b c : Block}
    (hc : s.Finds p.2 before c) (hb : s.Finds p.2 segments b) :
    c.Covers b ↔ before <+: segments := by
  obtain ⟨path, hpath, -⟩ := h.exists_of_mem_visible hown hp houter
  obtain ⟨between, hcpath, hbetween, -⟩ := h.path_of_finds hown hp houter hpath hc
  obtain ⟨inner, hbpath, hinner, -⟩ := h.path_of_finds hown hp houter hpath hb
  rw [Block.covers_iff hcpath hbpath, hbetween, hinner, List.prefix_append_right_inj]

/-- From a visible block down a menu lists the visible blocks that no method and no variable stands
above on the way. -/
theorem IsTrieOf.mem_entriesAll_iff {e : MenuEntry} :
    e ∈ MenuItem.entriesAll (MenuItem.ofNode s p.2) ↔
      ∃ b ∈ o.visibleBlocks s, b.menuEntry = .ok e ∧ o.Lists s outer b := by
  obtain ⟨path, -, hn, -⟩ := h.exists_of_mem_visible hown hp houter
  have hordered : p.2.Ordered := Node.Ordered.descend? h.ordered hn
  rw [MenuItem.entriesAll_ofNode s p.1, List.mem_filterMap]
  simp only [Settings.listed?_eq_some_iff]
  constructor
  · rintro ⟨⟨written, m⟩, hm, hshown, b, hb, he⟩
    obtain ⟨segments, hm, -, hpasses⟩ := (Walk.mem_visitWhere hordered).mp hm
    have hreveals : s.Reveals p.2 segments :=
      (Settings.reveals_iff hm).mpr
        ⟨fun before k hpre hne hk => (Settings.unfolds_iff.mp (hpasses before k hpre hne hk)).1, hshown⟩
    have hfinds : s.Finds p.2 segments b := ⟨hreveals, m, hm, hb⟩
    obtain ⟨hbv, hob⟩ := (h.exists_finds_iff hown hp houter).mp ⟨segments, hfinds⟩
    refine ⟨b, hbv, he, hob, fun c hcv hoc hcb hne => ?_⟩
    obtain ⟨before, hbefore⟩ := (h.exists_finds_iff hown hp houter).mpr ⟨hcv, hoc⟩
    have hpre := (h.covers_iff_of_finds hown hp houter hbefore hfinds).mp hcb
    obtain ⟨-, k, hk, hkc⟩ := hbefore
    refine (Settings.unfolds_iff.mp (hpasses before k hpre ?_ hk)).2 c hkc
    rintro rfl
    cases hk.symm.trans hm
    exact hne (Option.some.inj (hkc.symm.trans hb))
  · rintro ⟨b, hbv, he, hob, hgroups⟩
    obtain ⟨segments, hfinds⟩ := (h.exists_finds_iff hown hp houter).mpr ⟨hbv, hob⟩
    have hreveals := hfinds.1
    obtain ⟨m, hm, hb⟩ := hfinds.2
    refine ⟨(_, m), (Walk.mem_visitWhere hordered).mpr ⟨segments, hm, rfl, ?_⟩,
      hreveals segments m List.prefix_rfl hm, b, hb, he⟩
    intro before k hpre hne hk
    refine Settings.unfolds_iff.mpr ⟨hreveals before k hpre hk, fun c hkc => ?_⟩
    have hbefore : s.Finds p.2 before c := ⟨hreveals.of_prefix hpre, k, hk, hkc⟩
    obtain ⟨hcv, hoc⟩ := (h.exists_finds_iff hown hp houter).mp ⟨before, hbefore⟩
    refine hgroups c hcv hoc ((h.covers_iff_of_finds hown hp houter hbefore hfinds).mpr hpre) ?_
    rintro rfl
    -- A block has one path, so it is not found a second time further down.
    have hself := (h.covers_iff_of_finds hown hp houter hfinds hfinds).mpr List.prefix_rfl
    have hback := (h.covers_iff_of_finds hown hp houter hfinds hbefore).mp hself
    exact hne (hpre.eq_of_length_le hback.length_le)

end Below

end OwnPaths

end Outline

end DocComment
