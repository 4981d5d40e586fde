import DocComment.Page
import DocComment.Proofs.BatchSplitting
import DocComment.Proofs.HiddenPruning
import DocComment.Proofs.OutlineShape

/-! # The order of insertion

Blocks with distinct paths may be added in any order: the shape of the outline is the same.  The order
of insertion shows in the creation numbers alone, and these decide only between siblings on the same
line of which both hold a block or neither does.  Where there are no such siblings, walk, search index
and page come from the shape. -/

namespace DocComment
open scoped List

namespace Node

/-- What ranks a node among its siblings, apart from the order of creation. -/
def rank (n : Node) : Nat × Bool := (n.line, n.block.isSome)

end Node

mutual

/-- No two siblings from the node down have the same rank. -/
def Node.untied : Node → Bool
  | ⟨_, _, children⟩ => decide (children.map fun c => c.2.rank).Nodup && Node.untiedAll children

def Node.untiedAll : List (Text × Node) → Bool
  | [] => true
  | (_, n) :: rest => n.untied && Node.untiedAll rest

end

namespace Node

theorem untied_iff (n : Node) :
    n.untied = true ↔
      (n.children.map fun c => c.2.rank).Nodup ∧ ∀ c ∈ n.children, c.2.untied = true := by
  have hall : ∀ l : List (Text × Node), untiedAll l = true ↔ ∀ c ∈ l, c.2.untied = true := by
    intro l
    induction l with
    | nil => simp [untiedAll]
    | cons c l ih => rw [untiedAll, Bool.and_eq_true, ih, List.forall_mem_cons]
  obtain ⟨block, number, children⟩ := n
  rw [untied, Bool.and_eq_true, decide_eq_true_eq, hall]

@[simp] theorem rank_unnumbered (n : Node) : n.unnumbered.rank = n.rank := by
  rw [rank, rank, line_unnumbered, block_unnumbered]

theorem untied_unnumbered (n : Node) : n.unnumbered.untied = n.untied := by
  induction hsize : n.size using Nat.strong_induction_on generalizing n with
  | _ size ih =>
    rw [Bool.eq_iff_iff, untied_iff, untied_iff, children_unnumbered, List.map_map]
    simp only [Function.comp_def, rank_unnumbered, List.forall_mem_map]
    refine and_congr_right fun _ => forall₂_congr fun c hc => ?_
    rw [ih c.2.size (hsize ▸ size_lt_of_mem_children hc) c.2 rfl]

theorem precedes_self (n : Node) : n.precedes n = true := by simp [precedes]

/-- Creation numbers do not decide between nodes of different rank. -/
theorem precedes_unnumbered {a b : Node} (h : a.rank ≠ b.rank) :
    a.unnumbered.precedes b.unnumbered = a.precedes b := by
  simp only [precedes, line_unnumbered, block_unnumbered]
  by_cases hline : a.line = b.line
  · have hblock : a.block.isSome ≠ b.block.isSome := by
      intro hblock
      exact h (Prod.ext hline hblock)
    rw [if_neg hblock, if_neg hblock]
  · rw [if_neg hline, if_neg hline]

theorem ranked_unnumbered {n : Node} (h : n.untied = true) :
    n.unnumbered.ranked = n.ranked.map fun c => (c.1, c.2.unnumbered) := by
  have hnodup := ((untied_iff n).mp h).1
  rw [ranked, ranked, children_unnumbered]
  symm
  apply map_sortBy_of_mem
  intro a ha b hb
  by_cases hrank : a.2.rank = b.2.rank
  · have hsame := List.inj_on_of_nodup_map hnodup ha hb hrank
    rw [hsame, precedes_self, precedes_self]
  · exact precedes_unnumbered hrank

end Node

namespace Walk

theorem below_unnumbered {n : Node} (h : n.untied = true) (path : Text) :
    below path n.unnumbered = (below path n).map fun c => (c.1, c.2.unnumbered) := by
  rw [below, below, Node.ranked_unnumbered h, List.map_map, List.map_reverse, List.map_map]
  rfl

theorem unnoticed_unnumbered : Unnoticed Node.unnumbered (·.untied = true) where
  below_eq := below_unnumbered
  down := by
    intro n h path c hc
    obtain ⟨d, hd, rfl⟩ := List.mem_map.mp ((below_perm path n).mem_iff.mp hc)
    exact ((Node.untied_iff n).mp h).2 d hd

end Walk

theorem Settings.conceals_unnumbered (s : Settings) (n : Node) :
    s.conceals n.unnumbered = s.conceals n := by
  rw [conceals, conceals, Node.block_unnumbered]

namespace Outline

theorem walked_unnumbered {o : Outline} (h : o.root.untied = true) : o.unnumbered.walked = o.walked := by
  rw [walked, walked, Walk.unnoticed_unnumbered.items_eq rfl h, List.map_map]
  simp only [Function.comp_def, Node.block_unnumbered]

theorem visible_unnumbered {o : Outline} (h : o.root.untied = true) (s : Settings) :
    o.unnumbered.visible s = (o.visible s).map fun p => (p.1, p.2.unnumbered) := by
  apply Walk.unnoticed_unnumbered.visible_eq s.conceals_unnumbered _ rfl h
  intro n
  rw [Node.block_unnumbered]

theorem searchIndex_unnumbered {o : Outline} (h : o.root.untied = true) (s : Settings) :
    o.unnumbered.searchIndex s = o.searchIndex s :=
  searchIndex_of_visible (visible_unnumbered h s)

theorem page_unnumbered {o : Outline} (h : o.root.untied = true) (s : Settings) :
    o.unnumbered.page s = o.page s := by
  have hvisible := visible_unnumbered h s
  have hmenu : o.unnumbered.menu s = o.menu s := by
    apply menu_of_visible hvisible Node.block_unnumbered
    intro p hp
    have huntied := Walk.unnoticed_unnumbered.of_mem_items h (mem_visible hp).1
    apply Walk.unnoticed_unnumbered.ofNode_eq s.conceals_unnumbered _ huntied
    intro n items
    rw [Node.block_unnumbered]
  have hsections : o.unnumbered.sections s = o.sections s :=
    sections_of_visible hvisible Node.block_unnumbered
  simp only [page, hsections, values_of_visible hvisible rfl hmenu]

end Outline

namespace Register

theorem block?_eq_some_iff {r : Register} (h : (r.map Prod.fst).Nodup) (rule : ClashRule)
    (path : Text) (block : Block) : block? rule r path = some block ↔ (path, block) ∈ r := by
  refine ⟨mem_of_block?, fun hmem => ?_⟩
  have hsome := (isSome_block? rule r path).mpr (List.mem_map_of_mem hmem)
  obtain ⟨other, hother⟩ := Option.isSome_iff_exists.mp hsome
  have heq := List.inj_on_of_nodup_map h hmem (mem_of_block? hother) rfl
  rw [hother, (Prod.mk.inj heq).2]

/-- Bindings of distinct paths are accepted under every rule. -/
theorem foldlM_accept_of_nodup (rule : ClashRule) {r bindings : Register}
    (h : ((r ++ bindings).map Prod.fst).Nodup) :
    bindings.foldlM (accept rule) r = .ok (r ++ bindings) := by
  induction bindings generalizing r with
  | nil => rw [List.append_nil]; rfl
  | cons binding bindings ih =>
    rw [List.append_cons] at h
    have hfree : binding.1 ∉ r.map Prod.fst := by
      rw [List.map_append, List.map_append, List.append_assoc] at h
      exact fun hmem => (List.nodup_append.mp h).2.2 _ hmem _ (by simp) rfl
    have hnone : block? rule r binding.1 = none := by
      rw [← Option.not_isSome_iff_eq_none, isSome_block?]
      exact hfree
    have haccept : accept rule r binding = .ok (r ++ [binding]) := by
      simp only [accept, hnone]
    rw [List.foldlM_cons, haccept, List.append_cons r binding bindings]
    exact ih h

end Register

namespace Outline

/-- Blocks with distinct paths are all accepted into an empty outline. -/
theorem addAll_empty (rule : ClashRule) {blocks : List Block} {resolved : List (Text × Block)}
    (hres : resolve blocks = .ok resolved) (h : (resolved.map Prod.fst).Nodup) :
    ((empty rule).addAll blocks).2 = .ok () ∧
      ((empty rule).addAll blocks).1.IsTrieOf rule resolved :=
  addAll_empty_of_accepted rule hres (Register.foldlM_accept_of_nodup rule (r := []) h)

theorem resolve_perm {blocks blocks' : List Block} {resolved resolved' : List (Text × Block)}
    (hperm : blocks ~ blocks') (hres : resolve blocks = .ok resolved)
    (hres' : resolve blocks' = .ok resolved') : resolved ~ resolved' := by
  have hmap := hperm.map fun block => block.path.map (·, block)
  rw [mapM_eq_ok_iff.mp hres, mapM_eq_ok_iff.mp hres'] at hmap
  exact (List.map_perm_map_iff fun a b hab => Except.ok.inj hab).mp hmap

theorem nodup_of_resolve {blocks : List Block} {resolved : List (Text × Block)}
    (hres : resolve blocks = .ok resolved) (h : (blocks.map Block.path).Nodup) :
    (resolved.map Prod.fst).Nodup := by
  obtain ⟨rfl, hpaths⟩ := resolve_eq_ok hres
  have hmap : (resolved.map Prod.snd).map Block.path = (resolved.map Prod.fst).map .ok := by
    rw [List.map_map, List.map_map]
    exact List.map_congr_left hpaths
  rw [hmap] at h
  exact h.of_map

/-- Blocks with distinct paths give outlines of one shape, in whatever order they are added. -/
theorem addAll_unnumbered_eq (rule : ClashRule) {blocks blocks' : List Block}
    {resolved resolved' : List (Text × Block)} (hperm : blocks ~ blocks')
    (hres : resolve blocks = .ok resolved) (hres' : resolve blocks' = .ok resolved')
    (h : (resolved.map Prod.fst).Nodup) (h' : (resolved'.map Prod.fst).Nodup) :
    ((empty rule).addAll blocks).1.unnumbered = ((empty rule).addAll blocks').1.unnumbered := by
  apply (addAll_empty rule hres h).2.unnumbered_eq (addAll_empty rule hres' h').2
  intro path
  ext block
  rw [Register.block?_eq_some_iff h, Register.block?_eq_some_iff h',
    (resolve_perm hperm hres hres').mem_iff]

/-- Blocks with distinct paths may be added to an empty outline in any order, together or one at a
time, and under any rule.  All are accepted, and the outlines have the same nodes and blocks, the same
export, and the same walk up to its order.  Where no two siblings have the same rank, the walk, the
search index and the page are the same too. -/
theorem addAll_perm (rule : ClashRule) {blocks blocks' : List Block} (hperm : blocks ~ blocks')
    (hpaths : ∀ block ∈ blocks, ∃ path, block.path = .ok path)
    (hdistinct : (blocks.map Block.path).Nodup) :
    let o := ((empty rule).addAll blocks).1
    let o' := ((empty rule).addAll blocks').1
    (((empty rule).addAll blocks).2 = .ok () ∧
        (empty rule).run (blocks.map .add) = (o, blocks.map fun _ => .ok ())) ∧
      (((empty rule).addAll blocks').2 = .ok () ∧
        (empty rule).run (blocks'.map .add) = (o', blocks'.map fun _ => .ok ())) ∧
      (∀ path, (o.node? path).isSome = (o'.node? path).isSome ∧ o.block? path = o'.block? path) ∧
      o.exportText = o'.exportText ∧ o.walked ~ o'.walked ∧
      (o.root.untied = true →
        o.walked = o'.walked ∧ ∀ s, o.searchIndex s = o'.searchIndex s ∧ o.page s = o'.page s) := by
  intro o o'
  have hpaths' : ∀ block ∈ blocks', ∃ path, block.path = .ok path := fun block hblock =>
    hpaths block (hperm.mem_iff.mpr hblock)
  obtain ⟨resolved, hres⟩ := exists_resolve hpaths
  obtain ⟨resolved', hres'⟩ := exists_resolve hpaths'
  have hnodup := nodup_of_resolve hres hdistinct
  have hnodup' := nodup_of_resolve hres' ((hperm.map Block.path).nodup_iff.mp hdistinct)
  have hok := (addAll_empty rule hres hnodup).1
  have hok' := (addAll_empty rule hres' hnodup').1
  have hshape : o.unnumbered = o'.unnumbered :=
    addAll_unnumbered_eq rule hperm hres hres' hnodup hnodup'
  refine ⟨⟨hok, ((empty rule).addAll_singly hpaths).1 hok⟩,
    ⟨hok', ((empty rule).addAll_singly hpaths').1 hok'⟩, ?_, ?_, ?_, ?_⟩
  · intro path
    constructor
    · rw [← Option.isSome_map (f := Node.unnumbered), ← node?_unnumbered, hshape,
        node?_unnumbered, Option.isSome_map]
    · rw [← block?_unnumbered, hshape, block?_unnumbered]
  · rw [← exportText_unnumbered, hshape, exportText_unnumbered]
  · exact (walked_unnumbered_perm o).symm.trans (hshape ▸ walked_unnumbered_perm o')
  · intro huntied
    have huntied' : o'.root.untied = true := by
      have hroot : o.root.unnumbered = o'.root.unnumbered := congrArg Outline.root hshape
      rw [← Node.untied_unnumbered, ← hroot, Node.untied_unnumbered]
      exact huntied
    refine ⟨?_, fun s => ⟨?_, ?_⟩⟩
    · rw [← walked_unnumbered huntied, hshape, walked_unnumbered huntied']
    · rw [← searchIndex_unnumbered huntied, hshape, searchIndex_unnumbered huntied']
    · rw [← page_unnumbered huntied, hshape, page_unnumbered huntied']

/-- Two modules and a method, added from the last to the first, are numbered otherwise and give the same
walk and the same page. -/
theorem addAll_perm_of_modules :
    let named (line : Nat) (name : Text) : Block :=
      ⟨⟨"f.js", line⟩, [], [(.moduleName, [[.tagged .moduleName (.label name)]])]⟩
    let method : Block := ⟨⟨"f.js", 9⟩, [], [(.methodName, [[.tagged .methodName (.label "f")]]),
      (.memberOf, [[.tagged .memberOf (.label "b")]])]⟩
    let blocks := [named 1 "a", named 5 "b", method]
    let blocks' := [method, named 5 "b", named 1 "a"]
    let o := ((empty .refuse).addAll blocks).1
    let o' := ((empty .refuse).addAll blocks').1
    blocks ~ blocks' ∧ (∀ block ∈ blocks, ∃ path, block.path = .ok path) ∧
      (blocks.map Block.path).Nodup ∧ o.root.untied = true ∧
      (o.node? "a").map Node.number ≠ (o'.node? "a").map Node.number ∧
      o.walked = o'.walked ∧ o.page ⟨"API", none, false⟩ = o'.page ⟨"API", none, false⟩ := by
  intro named method blocks blocks' o o'
  have hperm : blocks ~ blocks' := (List.reverse_perm blocks).symm
  have hpaths : ∀ block ∈ blocks, ∃ path, block.path = .ok path := by
    have hname : ∀ line name, (named line name).path = .ok name := fun _ _ => rfl
    have hmethod : method.path = .ok "b.f" := by decide +kernel
    simp [blocks, hname, hmethod]
  have hdistinct : (blocks.map Block.path).Nodup := by decide +kernel
  have huntied : o.root.untied = true := by decide +kernel
  obtain ⟨hwalked, hsettings⟩ := (addAll_perm .refuse hperm hpaths hdistinct).2.2.2.2.2 huntied
  exact ⟨hperm, hpaths, hdistinct, huntied, by decide +kernel, hwalked, (hsettings _).2⟩

end Outline

end DocComment
