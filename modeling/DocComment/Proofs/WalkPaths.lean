import DocComment.Source
import DocComment.Proofs.OutlineNumbers
import DocComment.Proofs.VisibleNodes

/-! # The paths that a walk writes

A walk puts no dot below the empty path, which may be its origin or a node of that path.  So it
writes the path of a node without the dots in front.  Where no accepted path begins with a dot, looking
up what is written leads back to the node; where one does, it does not. -/

namespace DocComment

theorem Text.splitOn_cons_self (sep : Char) (t : Text) :
    Text.splitOn sep (sep :: t) = [] :: Text.splitOn sep t := by
  simp [Text.splitOn, split_cons]

namespace Walk

theorem foldl_childPath_of_ne_nil {path : Text} (h : path ≠ []) (segments : List Text) :
    segments.foldl childPath path = ['.'].intercalate (path :: segments) := by
  induction segments generalizing path with
  | nil => simp
  | cons segment segments ih =>
    have hchild : childPath path segment = path ++ '.' :: segment := by simp [childPath, h]
    have hne : path ++ '.' :: segment ≠ [] := by simp
    rw [List.foldl_cons, hchild, ih hne]
    cases segments <;> simp [List.intercalate_cons_cons]

/-- The written path lacks the dots in front, each of which stands behind an empty segment. -/
theorem foldl_childPath_nil {segments : List Text} (h : ∀ segment ∈ segments, '.' ∉ segment) :
    segments.foldl childPath [] = (['.'].intercalate segments).dropWhile (· == '.') := by
  induction segments with
  | nil => rfl
  | cons segment segments ih =>
    obtain ⟨hsegment, hsegments⟩ := List.forall_mem_cons.mp h
    have hchild : childPath [] segment = segment := rfl
    rw [List.foldl_cons, hchild]
    cases segment with
    | nil =>
      rw [ih hsegments]
      cases segments with
      | nil => rfl
      | cons next rest => simp [List.intercalate_cons_cons]
    | cons c segment =>
      have hc : c ≠ '.' := fun heq => hsegment (heq ▸ List.mem_cons_self)
      rw [foldl_childPath_of_ne_nil (by simp)]
      cases segments <;> simp [List.intercalate_cons_cons, hc]

theorem foldl_childPath_splitOn (path : Text) :
    (path.splitOn '.').foldl childPath [] = path.dropWhile (· == '.') := by
  have hpieces : ∀ segment ∈ path.splitOn '.', '.' ∉ segment :=
    fun segment hs => Text.notMem_of_mem_splitOn hs
  rw [foldl_childPath_nil hpieces, Text.intercalate_splitOn]

end Walk

/-- Whether the blocks of a request are filed at their own paths. -/
def Request.AtOwnPaths : Request → Prop
  | add _ | addAll _ => True
  | addAt _ _ => False

theorem Request.path_of_mem_bindings {request : Request} (h : request.AtOwnPaths)
    {bindings : List (Text × Block)} (hb : request.bindings = .ok bindings) :
    ∀ b ∈ bindings, b.2.path = .ok b.1 := by
  cases request with
  | add block => exact (Outline.resolve_eq_ok hb).2
  | addAt path block => cases h
  | addAll blocks => exact (Outline.resolve_eq_ok hb).2

theorem Register.path_of_mem_run (rule : ClashRule) {requests : List Request}
    (h : ∀ request ∈ requests, request.AtOwnPaths) :
    ∀ b ∈ (Register.run rule [] requests).1, b.2.path = .ok b.1 := by
  apply Register.run_forall
  · intro request hrequest bindings hb
    exact Request.path_of_mem_bindings (h request hrequest) hb
  · simp

namespace Outline

variable {rule : ClashRule} {o : Outline} {r : Register}

theorem IsTrieOf.mem_descendants_iff (h : o.IsTrieOf rule r) {segments : List Text} {n : Node} :
    (segments, n) ∈ o.root.descendants ↔
      ∃ path : Text, path.splitOn '.' = segments ∧ o.node? path = some n := by
  rw [h.ordered.mem_descendants_iff]
  constructor
  · rintro ⟨hne, hn⟩
    have hnode : (o.root.descend? segments).isSome := by simp [hn]
    obtain ⟨b, -, hpre⟩ := (h.node_iff segments hne).mp hnode
    obtain ⟨path, rfl⟩ := exists_splitOn_eq hne hpre
    exact ⟨path, rfl, hn⟩
  · rintro ⟨path, rfl, hn⟩
    exact ⟨Text.splitOn_ne_nil '.' path, hn⟩

/-- A walk meets every node that has a path, and writes the path without the dots in front. -/
theorem IsTrieOf.mem_items_iff (h : o.IsTrieOf rule r) {path : Text} {n : Node} :
    (path, n) ∈ o.walk.items ↔
      ∃ full, o.node? full = some n ∧ path = full.dropWhile (· == '.') := by
  rw [o.items_perm.mem_iff, List.mem_map]
  constructor
  · rintro ⟨⟨segments, m⟩, hd, heq⟩
    obtain ⟨full, rfl, hfull⟩ := h.mem_descendants_iff.mp hd
    cases heq
    exact ⟨full, hfull, Walk.foldl_childPath_splitOn full⟩
  · rintro ⟨full, hfull, rfl⟩
    refine ⟨(full.splitOn '.', n), h.mem_descendants_iff.mpr ⟨full, rfl, hfull⟩, ?_⟩
    rw [Walk.foldl_childPath_splitOn]

/-- Where no accepted path begins with a dot, no node has a path that does. -/
theorem IsTrieOf.dropWhile_eq (h : o.IsTrieOf rule r) (hdot : ∀ b ∈ r, b.1.head? ≠ some '.')
    {full : Text} {n : Node} (hn : o.node? full = some n) : full.dropWhile (· == '.') = full := by
  have hnode : (o.root.descend? (full.splitOn '.')).isSome := Option.isSome_of_mem hn
  obtain ⟨b, hb, hpre⟩ := (h.node_iff _ (Text.splitOn_ne_nil '.' full)).mp hnode
  cases full with
  | nil => rfl
  | cons c full =>
    apply List.dropWhile_cons_of_neg
    simp only [beq_iff_eq]
    rintro rfl
    apply hdot b hb
    obtain ⟨segment, rest, hsplit⟩ := List.exists_cons_of_ne_nil (Text.splitOn_ne_nil '.' full)
    rw [Text.splitOn_cons_self, hsplit] at hpre
    obtain ⟨more, hmore⟩ := hpre
    have hjoin := Text.intercalate_splitOn '.' b.1
    rw [← hmore] at hjoin
    rw [← hjoin, List.cons_append, List.cons_append, List.intercalate_cons_cons]
    rfl

theorem IsTrieOf.node?_of_mem_items (h : o.IsTrieOf rule r)
    (hdot : ∀ b ∈ r, b.1.head? ≠ some '.') {item : Text × Node} (hitem : item ∈ o.walk.items) :
    o.node? item.1 = some item.2 := by
  obtain ⟨full, hfull, hpath⟩ := h.mem_items_iff.mp hitem
  rw [hpath, h.dropWhile_eq hdot hfull, hfull]

/-- A path that begins with a dot leads to a node which looking up the written path misses. -/
theorem IsTrieOf.exists_of_dot (h : o.IsTrieOf rule r) {next : Nat} (hnum : o.root.Numbered next)
    {b : Text × Block} (hb : b ∈ r) (hdot : b.1.head? = some '.') :
    ∃ item ∈ o.walk.items, o.node? item.1 ≠ some item.2 := by
  obtain ⟨rest, hrest⟩ := List.head?_eq_some_iff.mp hdot
  obtain ⟨segment, more, hsplit⟩ := List.exists_cons_of_ne_nil (Text.splitOn_ne_nil '.' rest)
  have hsegment : '.' ∉ segment := by
    apply Text.notMem_of_mem_splitOn (t := rest)
    rw [hsplit]
    exact List.mem_cons_self
  have hpre : [[], segment] <+: b.1.splitOn '.' := by
    rw [hrest, Text.splitOn_cons_self, hsplit]
    exact ⟨more, rfl⟩
  obtain ⟨n, hn⟩ := Option.isSome_iff_exists.mp ((h.node_iff _ (by simp)).mpr ⟨b, hb, hpre⟩)
  have hfull : o.node? ('.' :: segment) = some n := by
    rw [node?, Text.splitOn_cons_self, Text.splitOn_of_notMem hsegment, hn]
  have hwritten : ('.' :: segment).dropWhile (· == '.') = segment := by
    rw [List.dropWhile_cons_of_pos (by simp)]
    cases segment with
    | nil => rfl
    | cons c segment =>
      have hc : c ≠ '.' := fun heq => hsegment (heq ▸ List.mem_cons_self)
      exact List.dropWhile_cons_of_neg (by simpa using hc)
  refine ⟨(segment, n), h.mem_items_iff.mpr ⟨_, hfull, hwritten.symm⟩, ?_⟩
  intro hlook
  rw [node?, Text.splitOn_of_notMem hsegment] at hlook
  -- One node would be reached in two ways, but its number stands for one of them.
  have hsame := hnum.unique [segment] [[], segment] n n (by simp) (by simp) hlook hn rfl
  simp at hsame

theorem IsTrieOf.nodup_items (h : o.IsTrieOf rule r) {next : Nat} (hnum : o.root.Numbered next)
    (hdot : ∀ b ∈ r, b.1.head? ≠ some '.') : (o.walk.items.map Prod.fst).Nodup := by
  have hnodup := h.ordered.nodup_descendants.of_map
  rw [(o.items_perm.map Prod.fst).nodup_iff, List.map_map]
  apply hnodup.map_on
  rintro ⟨a, m⟩ ha ⟨b, m'⟩ hb heq
  have hitems : ∀ segments n, (segments, n) ∈ o.root.descendants →
      o.node? (segments.foldl Walk.childPath []) = some n := by
    intro segments n hd
    have hitem : (segments.foldl Walk.childPath [], n) ∈ o.walk.items := by
      rw [o.items_perm.mem_iff]
      exact List.mem_map_of_mem (f := fun d => (d.1.foldl Walk.childPath [], d.2)) hd
    exact h.node?_of_mem_items hdot hitem
  have hm := hitems a m ha
  have hm' := hitems b m' hb
  have hpath : a.foldl Walk.childPath [] = b.foldl Walk.childPath [] := heq
  rw [hpath] at hm
  cases hm.symm.trans hm'
  obtain ⟨hane, ha⟩ := h.ordered.mem_descendants_iff.mp ha
  obtain ⟨hbne, hb⟩ := h.ordered.mem_descendants_iff.mp hb
  rw [hnum.unique a b m m hane hbne ha hb rfl]

theorem IsTrieOf.path_of_block? (h : o.IsTrieOf rule r) (hown : ∀ b ∈ r, b.2.path = .ok b.1)
    {path : Text} {block : Block} (hblock : o.block? path = some block) : block.path = .ok path :=
  hown _ (Register.mem_of_block? ((h.block_eq path).symm.trans hblock))

/-- Where all blocks are filed at their own paths, the segments that lead to a block are those of its
path. -/
theorem IsTrieOf.exists_path_of_descend? (h : o.IsTrieOf rule r)
    (hown : ∀ b ∈ r, b.2.path = .ok b.1) {segments : List Text} {n : Node}
    (hn : o.root.descend? segments = some n) {block : Block} (hblock : n.block = some block) :
    ∃ path, segments = path.splitOn '.' ∧ block.path = .ok path ∧ o.node? path = some n := by
  have hne : segments ≠ [] := by
    rintro rfl
    cases hn
    rw [h.root_block] at hblock
    cases hblock
  obtain ⟨b, -, hpre⟩ := (h.node_iff segments hne).mp (by rw [hn]; rfl)
  obtain ⟨path, rfl⟩ := exists_splitOn_eq hne hpre
  have hheld : o.block? path = some block := by
    rw [block?, node?, hn]
    exact hblock
  exact ⟨path, rfl, h.path_of_block? hown hheld, hn⟩

/-- A block filed at its own path is met under that path, without the dots in front. -/
theorem IsTrieOf.path_of_mem_items (h : o.IsTrieOf rule r) (hown : ∀ b ∈ r, b.2.path = .ok b.1)
    {item : Text × Node} (hitem : item ∈ o.walk.items) {block : Block}
    (hblock : item.2.block = some block) :
    ∃ full, block.path = .ok full ∧ o.node? full = some item.2 ∧
      item.1 = full.dropWhile (· == '.') := by
  obtain ⟨full, hnode, hpath⟩ := h.mem_items_iff.mp hitem
  have hheld : o.block? full = some block := by
    rw [block?, hnode, Option.bind_some, hblock]
  exact ⟨full, h.path_of_block? hown hheld, hnode, hpath⟩

/-- After any run of requests a walk writes the path of every node without the dots in front.  Just
when no accepted path begins with a dot, looking up each written path gives the node it was written
for, no path is written twice and, for blocks filed at their own paths, the search index gives each
visible block its path. -/
theorem walk_paths_iff (rule : ClashRule) (requests : List Request) :
    let o := ((empty rule).run requests).1
    let r := (Register.run rule [] requests).1
    (∀ path n, (path, n) ∈ o.walk.items ↔
      ∃ full, o.node? full = some n ∧ path = full.dropWhile (· == '.')) ∧
    ((∀ item ∈ o.walk.items, o.node? item.1 = some item.2) ∧
        (o.walk.items.map Prod.fst).Nodup ∧
        ((∀ request ∈ requests, request.AtOwnPaths) → ∀ s, ∀ p ∈ o.visible s,
          ∃ block, p.2.block = some block ∧ block.path = .ok p.1) ↔
      ∀ b ∈ r, b.1.head? ≠ some '.') := by
  intro o r
  have htrie : o.IsTrieOf rule r := ((isTrieOf_empty rule).run requests).2
  have hnum := numbered_run rule requests
  refine ⟨fun path n => htrie.mem_items_iff, ?_, ?_⟩
  · rintro ⟨hlook, -, -⟩ b hb hdot
    obtain ⟨item, hitem, hne⟩ := htrie.exists_of_dot hnum hb hdot
    exact hne (hlook item hitem)
  · intro hdot
    refine ⟨fun item hitem => htrie.node?_of_mem_items hdot hitem, htrie.nodup_items hnum hdot, ?_⟩
    intro hrequests s p hp
    have hown := Register.path_of_mem_run rule hrequests
    obtain ⟨hitem, hsome, -⟩ := mem_visible hp
    obtain ⟨block, hblock⟩ := Option.isSome_iff_exists.mp hsome
    obtain ⟨full, hpath, hnode, hwritten⟩ := htrie.path_of_mem_items hown hitem hblock
    rw [htrie.dropWhile_eq hdot hnode] at hwritten
    exact ⟨block, hblock, hwritten ▸ hpath⟩

/-- The module `.a` is met under the path `a`, where there is nothing, and the search index has it
so. -/
theorem walk_drops_leading_dot :
    let block : Block := ⟨⟨"f.js", 1⟩, [], [(.moduleName, [[.tagged .moduleName (.label ".a")]])]⟩
    let o := ((empty .replace).run [.addAll [block]]).1
    Source.blocksOfText "f.js" "/**\n * @module .a\n */" = .ok [block] ∧
      block.path = .ok ".a" ∧ o.walk.items.map Prod.fst = [[], "a"] ∧
      (o.node? "a").isNone = true ∧ o.searchIndex ⟨"API", none, false⟩ = ["a"] := by
  intro block o
  let leaf : Node := ⟨some block, 1, []⟩
  let inner : Node := ⟨none, 0, [("a", leaf)]⟩
  have hroot : Walk.below [] o.root = [([], inner)] := rfl
  have hinner : Walk.below [] inner = [("a".toList, leaf)] := rfl
  have hleaf : Walk.below "a" leaf = [] := rfl
  have hitems : o.walk.items = [([], inner), ("a".toList, leaf)] := by
    rw [Walk.items_eq, walk, Walk.start, hroot, List.flatMap_singleton, Walk.visit_eq, hinner,
      List.flatMap_singleton, Walk.visit_eq, hleaf]
    rfl
  have hvisible : o.visible ⟨"API", none, false⟩ = [("a".toList, leaf)] := by
    have hshown : ∀ n ∈ [inner, leaf], Settings.conceals ⟨"API", none, false⟩ n = false := by
      decide +kernel
    rw [visible_eq, hroot, List.flatMap_singleton, shown_of_not_conceals (hshown inner (by simp)),
      hinner, List.flatMap_singleton, shown_of_not_conceals (hshown leaf (by simp)), hleaf]
    rfl
  refine ⟨by decide +kernel, by decide +kernel, ?_, by decide +kernel, ?_⟩
  · rw [hitems]
    rfl
  · rw [searchIndex, hvisible]
    rfl

end Outline

end DocComment
