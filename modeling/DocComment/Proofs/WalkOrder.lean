import DocComment.Proofs.OutlineRegister
import DocComment.Proofs.PartialVisits
import DocComment.Proofs.SiblingOrder

/-! # The order of a walk

The nodes below a node have a recursive order: the children stand in the reverse of their rank, and
each of them is followed by all that is below it.  A walk keeps nothing but its pending nodes, and yet
it visits the nodes in this order.  Nodes are told apart by the segments that lead to them, since
different nodes may be equal and may be written with one path. -/

namespace DocComment
open scoped List

/-- Of two elements of a list, the one that must not stand behind the other stands before it. -/
theorem exists_split_of_pairwise {α : Type} {R : α → α → Prop} {l : List α} (h : l.Pairwise R)
    {a b : α} (ha : a ∈ l) (hb : b ∈ l) (hne : a ≠ b) (hba : ¬ R b a) :
    ∃ before between after, l = before ++ a :: between ++ b :: after := by
  obtain ⟨before, rest, rfl⟩ := List.append_of_mem ha
  have hbefore : b ∉ before := fun hmem =>
    hba ((List.pairwise_append.mp h).2.2 b hmem a List.mem_cons_self)
  have hrest : b ∈ rest := by
    rcases List.mem_append.mp hb with hmem | hmem
    · exact absurd hmem hbefore
    · exact (List.mem_cons.mp hmem).resolve_left hne.symm
  obtain ⟨between, after, rfl⟩ := List.append_of_mem hrest
  exact ⟨before, between, after, by simp⟩

namespace Node

/-- A node below another one, seen from where some segments lead to that one. -/
def under (segments : List Text) (d : List Text × Node) : List Text × Node := (segments ++ d.1, d.2)

theorem under_nil : under [] = id := rfl

theorem under_under (a b : List Text) (d : List Text × Node) :
    under a (under b d) = under (a ++ b) d := by
  simp [under]

theorem size_lt_of_mem_ranked {c : Text × Node} {n : Node} (h : c ∈ n.ranked) :
    c.2.size < n.size := size_lt_of_mem_children (n.ranked_perm.mem_iff.mp h)

/-- The nodes strictly below a node with the segments that lead to them: its children in the reverse
of their rank, each followed by what is below it. -/
def preorder (n : Node) : List (List Text × Node) :=
  n.ranked.reverse.attach.flatMap fun c => ([c.1.1], c.1.2) :: (preorder c.1.2).map (under [c.1.1])
termination_by n.size
decreasing_by exact size_lt_of_mem_ranked (List.mem_reverse.mp c.2)

/-- A node to which some segments lead, followed by what is below it. -/
def subtree (segments : List Text) (n : Node) : List (List Text × Node) :=
  (segments, n) :: n.preorder.map (under segments)

theorem preorder_eq (n : Node) :
    n.preorder = n.ranked.reverse.flatMap fun c => subtree [c.1] c.2 := by
  rw [preorder, List.flatMap_subtype (g := fun c => subtree [c.1] c.2) (fun _ _ => rfl),
    List.unattach_attach]

theorem map_under_subtree (a b : List Text) (n : Node) :
    (subtree b n).map (under a) = subtree (a ++ b) n := by
  rw [subtree, List.map_cons, List.map_map, subtree]
  congr 1
  exact List.map_congr_left fun d _ => under_under a b d

theorem subtree_eq_map_under (segments : List Text) (n : Node) :
    subtree segments n = (subtree [] n).map (under segments) := by
  rw [map_under_subtree, List.append_nil]

theorem map_under_preorder (segments : List Text) (n : Node) :
    n.preorder.map (under segments) =
      n.ranked.reverse.flatMap fun c => subtree (segments ++ [c.1]) c.2 := by
  rw [preorder_eq, List.map_flatMap]
  exact List.flatMap_congr fun c _ => map_under_subtree segments [c.1] c.2

/-! ### Every node once -/

theorem preorder_perm_descendants (n : Node) : n.preorder ~ n.descendants := by
  induction hsize : n.size using Nat.strong_induction_on generalizing n with
  | _ size ih =>
    rw [preorder_eq, descendants_eq]
    calc n.ranked.reverse.flatMap (fun c => subtree [c.1] c.2)
      _ ~ n.ranked.reverse.flatMap branch := by
        refine List.Perm.flatMap_left _ fun c hc => ?_
        have hlt := size_lt_of_mem_ranked (List.mem_reverse.mp hc)
        exact ((ih c.2.size (hsize ▸ hlt) c.2 rfl).map _).cons _
      _ ~ n.children.flatMap branch :=
        ((List.reverse_perm _).trans n.ranked_perm).flatMap_right _

theorem Ordered.mem_preorder_iff {n : Node} (h : n.Ordered) {segments : List Text} {m : Node} :
    (segments, m) ∈ n.preorder ↔ segments ≠ [] ∧ n.descend? segments = some m := by
  rw [n.preorder_perm_descendants.mem_iff, h.mem_descendants_iff]

theorem Ordered.nodup_preorder {n : Node} (h : n.Ordered) : (n.preorder.map Prod.fst).Nodup :=
  (n.preorder_perm_descendants.map Prod.fst).nodup_iff.mpr h.nodup_descendants

/-- The nodes from a node down are those to which its segments lead on. -/
theorem Ordered.mem_subtree_iff {m : Node} (h : m.Ordered) {segments : List Text}
    {d : List Text × Node} :
    d ∈ subtree segments m ↔ ∃ rest, d.1 = segments ++ rest ∧ m.descend? rest = some d.2 := by
  rw [subtree, List.mem_cons, List.mem_map]
  constructor
  · rintro (rfl | ⟨⟨rest, k⟩, hk, rfl⟩)
    · exact ⟨[], by simp, rfl⟩
    · exact ⟨rest, rfl, (h.mem_preorder_iff.mp hk).2⟩
  · rintro ⟨rest, hd, hk⟩
    by_cases hrest : rest = []
    · subst hrest
      cases hk
      exact Or.inl (Prod.ext (by simpa using hd) rfl)
    · exact Or.inr ⟨(rest, d.2), h.mem_preorder_iff.mpr ⟨hrest, hk⟩, Prod.ext hd.symm rfl⟩

/-! ### Subtrees in one piece -/

theorem subtree_infix_of_child {n c : Node} {segment : Text} (h : n.child? segment = some c) :
    subtree [segment] c <:+: n.preorder := by
  have hmem : (segment, c) ∈ n.ranked.reverse :=
    List.mem_reverse.mpr (n.ranked_perm.mem_iff.mpr (Keyed.mem_of_get? h))
  rw [preorder_eq]
  exact List.infix_of_mem_flatten (List.mem_map_of_mem (f := fun c => subtree [c.1] c.2) hmem)

theorem subtree_infix_preorder {n m : Node} {segments : List Text} (hne : segments ≠ [])
    (h : n.descend? segments = some m) : subtree segments m <:+: n.preorder := by
  induction segments generalizing n with
  | nil => exact absurd rfl hne
  | cons segment rest ih =>
    rw [descend?_cons, Option.bind_eq_some_iff] at h
    obtain ⟨c, hc, hm⟩ := h
    have hchild := subtree_infix_of_child hc
    cases rest with
    | nil =>
      cases hm
      exact hchild
    | cons next rest =>
      have hdown := (ih (by simp) hm).map (under [segment])
      rw [map_under_subtree] at hdown
      exact hdown.trans ((List.suffix_cons _ _).isInfix.trans hchild)

theorem below_infix_preorder {n m : Node} {segments : List Text} (h : n.descend? segments = some m) :
    m.preorder.map (under segments) <:+: n.preorder := by
  by_cases hne : segments = []
  · subst hne
    cases h
    rw [under_nil, List.map_id]
  · exact (List.suffix_cons _ _).isInfix.trans (subtree_infix_preorder hne h)

/-- Beside the nodes from a node down no other stands below it. -/
theorem Ordered.not_prefix_of_mem {n m : Node} (h : n.Ordered) {segments : List Text}
    (hm : n.descend? segments = some m) {others : List (List Text × Node)}
    (hsub : subtree segments m ++ others <+~ n.preorder) : ∀ d ∈ others, ¬ segments <+: d.1 := by
  rintro ⟨found, k⟩ hd ⟨rest, rfl⟩
  have hmem : (segments ++ rest, k) ∈ n.preorder := hsub.subset (List.mem_append_right _ hd)
  have hk : m.descend? rest = some k := by
    have hdescend := (h.mem_preorder_iff.mp hmem).2
    rwa [descend?_append, hm] at hdescend
  have hbelow : (segments ++ rest, k) ∈ subtree segments m :=
    (h.descend? hm).mem_subtree_iff.mpr ⟨rest, rfl, hk⟩
  obtain ⟨l, hperm, hl⟩ := hsub
  have hnodup := h.nodup_preorder.sublist (hl.map Prod.fst)
  rw [(hperm.map Prod.fst).nodup_iff, List.map_append, List.nodup_append] at hnodup
  exact hnodup.2.2 _ (List.mem_map_of_mem hbelow) _ (List.mem_map_of_mem hd) rfl

/-- What is from a node down stands in one piece, and nothing of it stands elsewhere. -/
theorem Ordered.preorder_around {n m : Node} (h : n.Ordered) {segments : List Text}
    (hne : segments ≠ []) (hm : n.descend? segments = some m) :
    ∃ before after, n.preorder = before ++ subtree segments m ++ after ∧
      ∀ d ∈ before ++ after, ¬ segments <+: d.1 := by
  obtain ⟨before, after, heq⟩ := subtree_infix_preorder hne hm
  refine ⟨before, after, heq.symm, h.not_prefix_of_mem hm ?_⟩
  rw [← heq, List.append_assoc before]
  exact (List.perm_append_comm_assoc _ _ _).subperm

/-- Of two children the one with the smaller line comes first, with all that is below it. -/
theorem preorder_siblings {n c d : Node} {first second : Text} (hc : n.child? first = some c)
    (hd : n.child? second = some d) (h : c.line < d.line) (segments : List Text) :
    ∃ before between after, n.preorder.map (under segments) =
      before ++ subtree (segments ++ [first]) c ++ between ++ subtree (segments ++ [second]) d ++
        after := by
  have hmem : ∀ {segment m}, n.child? segment = some m → (segment, m) ∈ n.ranked.reverse :=
    fun hm => List.mem_reverse.mpr (n.ranked_perm.mem_iff.mpr (Keyed.mem_of_get? hm))
  have hnot : ¬ c.precedes d = true := by
    rw [precedes_iff]
    omega
  have hne : (first, c) ≠ (second, d) := by
    rintro ⟨⟩
    exact Nat.lt_irrefl _ h
  obtain ⟨before, between, after, hsplit⟩ := exists_split_of_pairwise
    (List.pairwise_reverse.mpr n.pairwise_ranked) (hmem hc) (hmem hd) hne hnot
  let pieces (l : List (Text × Node)) := l.flatMap fun c => subtree (segments ++ [c.1]) c.2
  refine ⟨pieces before, pieces between, pieces after, ?_⟩
  rw [map_under_preorder, hsplit]
  simp [pieces]

end Node

/-! ### What a walk visits -/

namespace Walk

/-- A node below the origin of a walk, as the walk gives it. -/
def written (path : Text) (d : List Text × Node) : Text × Node := (d.1.foldl childPath path, d.2)

theorem written_under (path : Text) (segments : List Text) (d : List Text × Node) :
    written path (Node.under segments d) = written (segments.foldl childPath path) d := by
  simp [written, Node.under]

theorem map_written_subtree (path : Text) (segments : List Text) (n : Node) :
    (Node.subtree segments n).map (written path) =
      (Node.subtree [] n).map (written (segments.foldl childPath path)) := by
  rw [Node.subtree_eq_map_under, List.map_map]
  exact List.map_congr_left fun d _ => written_under path segments d

theorem visit_eq_map_subtree (path : Text) (n : Node) :
    visit path n = (Node.subtree [] n).map (written path) := by
  induction hsize : n.size using Nat.strong_induction_on generalizing n path with
  | _ size ih =>
    rw [visit_eq, Node.subtree, Node.map_under_preorder, List.map_cons, List.map_flatMap, below,
      ← List.map_reverse, List.flatMap_map]
    congr 1
    refine List.flatMap_congr fun c hc => ?_
    have hlt := Node.size_lt_of_mem_ranked (List.mem_reverse.mp hc)
    rw [ih c.2.size (hsize ▸ hlt) _ c.2 rfl]
    exact (map_written_subtree path [c.1] c.2).symm

/-- A walk visits what is below its origin in the recursive order. -/
theorem items_start (n : Node) (path : Text) :
    (start n path).items = n.preorder.map (written path) := by
  have hvisit := visit_eq_map_subtree path n
  rw [visit_eq, Node.subtree, Node.under_nil, List.map_id, List.map_cons] at hvisit
  rw [items_eq]
  exact (List.cons.inj hvisit).2

end Walk

namespace Outline

/-- The walk from any node of an outline, under any path, visits what is below the node in the
recursive order.  That has every node strictly below once, each subtree in one piece behind its top, and
of two siblings with blocks on different lines the one with the smaller line first, with its whole
subtree. -/
theorem walk_visits_preorder (rule : ClashRule) (requests : List Request) {origin : List Text}
    {n : Node} (hn : ((empty rule).run requests).1.root.descend? origin = some n) (path : Text) :
    (Walk.start n path).items = n.preorder.map (Walk.written path) ∧
      n.preorder = n.ranked.reverse.flatMap (fun c => Node.subtree [c.1] c.2) ∧
      (n.preorder.map Prod.fst).Nodup ∧
      (∀ segments m, (segments, m) ∈ n.preorder ↔ segments ≠ [] ∧ n.descend? segments = some m) ∧
      (∀ segments m, segments ≠ [] → n.descend? segments = some m →
        ∃ before after, n.preorder = before ++ Node.subtree segments m ++ after ∧
          ∀ d ∈ before ++ after, ¬ segments <+: d.1) ∧
      ∀ segments m first second c d b b', n.descend? segments = some m →
        m.child? first = some c → m.child? second = some d →
        c.block = some b → d.block = some b' → b.place.line < b'.place.line →
        ∃ before between after, n.preorder = before ++ Node.subtree (segments ++ [first]) c ++
          between ++ Node.subtree (segments ++ [second]) d ++ after := by
  have hordered : n.Ordered := ((isTrieOf_empty rule).run requests).2.ordered.descend? hn
  refine ⟨Walk.items_start n path, n.preorder_eq, hordered.nodup_preorder,
    fun segments m => hordered.mem_preorder_iff,
    fun segments m hne hm => hordered.preorder_around hne hm, ?_⟩
  intro segments m first second c d b b' hm hc hd hb hb' hlt
  have hline : c.line < d.line := by
    rw [Node.line, hb, Node.line, hb']
    exact hlt
  obtain ⟨before, between, after, hsplit⟩ := Node.preorder_siblings hc hd hline segments
  obtain ⟨outer, rest, hinfix⟩ := Node.below_infix_preorder hm
  refine ⟨outer ++ before, between, after ++ rest, ?_⟩
  rw [← hinfix, hsplit]
  simp only [List.append_assoc]

/-- A node made for the sake of `m.b` holds two blocks.  The walk from it meets the block on line 4
with the one below it, though that stands on a later line than the sibling on line 5. -/
theorem walk_visits_preorder_below_m :
    let block (line : Nat) : Block := ⟨⟨"f.js", line⟩, [], []⟩
    let inner : Node := ⟨some (block 9), 3, []⟩
    let first : Node := ⟨some (block 4), 2, [("x", inner)]⟩
    let second : Node := ⟨some (block 5), 1, []⟩
    let n : Node := ⟨none, 0, [("a", first), ("b", second)]⟩
    let o := ((empty .replace).run
      [.addAt "m.b" (block 5), .addAt "m.a.x" (block 9), .addAt "m.a" (block 4)]).1
    o.root.descend? ["m"] = some n ∧
      (Walk.start n "m").items =
        [("m.a".toList, first), ("m.a.x".toList, inner), ("m.b".toList, second)] := by
  intro block inner first second n o
  have hn : o.root.descend? ["m"] = some n := rfl
  have hinner : inner.preorder = [] := Node.preorder_eq inner
  have hsecond : second.preorder = [] := Node.preorder_eq second
  have hfirst : first.preorder = [(["x".toList], inner)] := by
    have hranked : first.ranked.reverse = [("x".toList, inner)] := rfl
    rw [Node.preorder_eq, hranked, List.flatMap_singleton, Node.subtree, hinner]
    rfl
  obtain ⟨hitems, hpreorder, -⟩ := walk_visits_preorder .replace _ hn "m"
  have hranked : n.ranked.reverse = [("a".toList, first), ("b".toList, second)] := rfl
  refine ⟨hn, ?_⟩
  rw [hitems, hpreorder, hranked]
  simp only [List.flatMap_cons, List.flatMap_nil, Node.subtree, hfirst, hsecond]
  rfl

end Outline

end DocComment
