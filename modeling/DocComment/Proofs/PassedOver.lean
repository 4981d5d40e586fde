import DocComment.Proofs.MenuEntries
import DocComment.Proofs.WalkOrder

/-! # What is passed over

Passing over drops as many pending nodes as the visited node has children, whatever these pending
nodes are.  That they are the children, and that no other node below is pending, rests on what holds
of a walk after any visits, each with or without passing over: the pending nodes, each followed by
what is below it, are a part of the recursive order.  The visible nodes are what is left when that is
done at every concealed node. -/

namespace DocComment
open scoped List

namespace Node

/-- The children of a node to which some segments lead, in the order in which they are visited. -/
def successors (segments : List Text) (n : Node) : List (List Text × Node) :=
  n.ranked.reverse.map fun c => (segments ++ [c.1], c.2)

/-- Each of some nodes, followed by what is below it. -/
def subtrees (l : List (List Text × Node)) : List (List Text × Node) :=
  l.flatMap fun d => subtree d.1 d.2

theorem subtrees_successors (segments : List Text) (n : Node) :
    subtrees (successors segments n) = n.preorder.map (under segments) := by
  rw [map_under_preorder, subtrees, successors, List.flatMap_map]

theorem subtrees_successors_append (segments : List Text) (n : Node)
    (l : List (List Text × Node)) :
    subtrees (successors segments n ++ l) = n.preorder.map (under segments) ++ subtrees l := by
  rw [← subtrees_successors, subtrees, List.flatMap_append]
  rfl

theorem subtrees_cons (d : List Text × Node) (l : List (List Text × Node)) :
    subtrees (d :: l) = d :: subtrees (successors d.1 d.2 ++ l) := by
  rw [subtrees_successors_append]
  rfl

end Node

namespace Walk

theorem map_written_successors (path : Text) (segments : List Text) (n : Node) :
    (Node.successors segments n).map (written path) =
      below (segments.foldl childPath path) n := by
  rw [Node.successors, below, List.map_map, ← List.map_reverse]
  exact List.map_congr_left fun c _ => by simp [written]

/-- The states of a walk.  From each of them the next node may be visited and, directly after that,
what is below it may be passed over. -/
inductive Reaches (w : Walk) : Walk → Prop where
  | refl : Reaches w w
  | visited {v later : Walk} {item : Text × Node} :
      Reaches w v → v.next? = some (item, later) → Reaches w later
  | passed {v later : Walk} {item : Text × Node} :
      Reaches w v → v.next? = some (item, later) → Reaches w (later.passOver item.2)

/-- The pending nodes of a walk are the given nodes below its origin, which make up a part of the
recursive order together with what is below them. -/
structure StandsAt (top : Node) (path : Text) (w : Walk) (pending : List (List Text × Node)) :
    Prop where
  pending_eq : w.pending = pending.map (written path)
  sublist : Node.subtrees pending <+ top.preorder

variable {top : Node} {path : Text} {w later : Walk} {item : Text × Node}

theorem standsAt_start (top : Node) (path : Text) :
    (start top path).StandsAt top path (Node.successors [] top) where
  pending_eq := (map_written_successors path [] top).symm
  sublist := by
    rw [Node.subtrees_successors, Node.under_nil, List.map_id]

theorem StandsAt.items_eq {pending : List (List Text × Node)} (h : w.StandsAt top path pending) :
    w.items = (Node.subtrees pending).map (written path) := by
  rw [Walk.items_eq, h.pending_eq, Node.subtrees, List.flatMap_map, List.map_flatMap]
  refine List.flatMap_congr fun d _ => ?_
  exact (visit_eq_map_subtree _ d.2).trans (map_written_subtree path d.1 d.2).symm

theorem items_start_successors (path : Text) (segments : List Text) (n : Node) :
    (start n (segments.foldl childPath path)).items =
      (n.preorder.map (Node.under segments)).map (written path) := by
  rw [items_start, List.map_map]
  exact List.map_congr_left fun d _ => (written_under path segments d).symm

/-- A visit puts the children of the first pending node in its place, and passing over them leaves the
other pending nodes. -/
theorem StandsAt.next {pending : List (List Text × Node)} (h : w.StandsAt top path pending)
    (hnext : w.next? = some (item, later)) :
    ∃ d rest, pending = d :: rest ∧ item = written path d ∧
      later.StandsAt top path (Node.successors d.1 d.2 ++ rest) ∧
        (later.passOver item.2).StandsAt top path rest := by
  obtain ⟨nodes⟩ := w
  obtain ⟨heq, hsub⟩ := h
  cases pending with
  | nil =>
    cases heq
    cases hnext
  | cons d rest =>
    cases heq
    cases hnext
    rw [Node.subtrees_cons] at hsub
    have hlater := (List.sublist_cons_self d _).trans hsub
    refine ⟨d, rest, rfl, rfl, ⟨?_, hlater⟩, ?_, ?_⟩
    · rw [List.map_append, map_written_successors]
    · exact congrArg Walk.pending (passOver_below _ d.2 (rest.map (written path)))
    · rw [Node.subtrees_successors_append] at hlater
      exact (List.sublist_append_right _ _).trans hlater

/-- Any visits, with or without passing over, leave the pending nodes a part of the recursive order. -/
theorem Reaches.exists_standsAt (h : (start top path).Reaches w) :
    ∃ pending, w.StandsAt top path pending := by
  induction h with
  | refl => exact ⟨_, standsAt_start top path⟩
  | visited _ hnext ih =>
    obtain ⟨pending, hstands⟩ := ih
    obtain ⟨d, rest, -, -, hlater, -⟩ := hstands.next hnext
    exact ⟨_, hlater⟩
  | passed _ hnext ih =>
    obtain ⟨pending, hstands⟩ := ih
    obtain ⟨d, rest, -, -, -, hpassed⟩ := hstands.next hnext
    exact ⟨_, hpassed⟩

end Walk

/-- Beside what is below a node, the nodes that stand below it are none. -/
theorem Node.Ordered.filter_below {top n : Node} (h : top.Ordered) {segments : List Text}
    {others : List (List Text × Node)} (hsub : subtree segments n ++ others <+ top.preorder) :
    (n.preorder.map (under segments) ++ others).filter (fun d => ¬ segments <+: d.1) = others := by
  have hn : top.descend? segments = some n :=
    (h.mem_preorder_iff.mp (hsub.subset (List.mem_append_left _ List.mem_cons_self))).2
  have hothers := h.not_prefix_of_mem hn hsub.subperm
  have hbelow : (n.preorder.map (under segments)).filter (fun d => ¬ segments <+: d.1) = [] := by
    rw [List.filter_eq_nil_iff]
    intro d hd
    obtain ⟨d, -, rfl⟩ := List.mem_map.mp hd
    simp [under]
  rw [List.filter_append, hbelow, List.nil_append, List.filter_eq_self]
  intro d hd
  simpa using hothers d hd

/-! ### The visible nodes in the recursive order -/

namespace Settings

instance (s : Settings) (n : Node) (segments : List Text) : Decidable (s.Reveals n segments) :=
  decidable_of_iff (∀ before ∈ segments.inits, ∀ m ∈ n.descend? before, s.conceals m = false) <| by
    simp only [Reveals, List.mem_inits, Option.mem_def]
    exact forall_congr' fun before => forall_comm

theorem reveals_cons {s : Settings} {n c : Node} {segment : Text} {rest : List Text}
    (hc : n.child? segment = some c) :
    s.Reveals n (segment :: rest) ↔ s.conceals n = false ∧ s.Reveals c rest := by
  have hdown : ∀ before, n.descend? (segment :: before) = c.descend? before := by
    intro before
    rw [Node.descend?_cons, hc, Option.bind_some]
  constructor
  · intro h
    refine ⟨h [] n List.nil_prefix rfl, fun before k hpre hk => ?_⟩
    exact h (segment :: before) k (List.cons_prefix_cons.mpr ⟨rfl, hpre⟩) ((hdown before).trans hk)
  · rintro ⟨hn, hrest⟩ before k hpre hk
    cases before with
    | nil =>
      cases hk
      exact hn
    | cons first before =>
      obtain ⟨rfl, hbefore⟩ := List.cons_prefix_cons.mp hpre
      exact hrest before k hbefore ((hdown before).symm.trans hk)

theorem reveals_nil {s : Settings} {n : Node} : s.Reveals n [] ↔ s.conceals n = false := by
  constructor
  · exact fun h => h [] n List.prefix_rfl rfl
  · rintro hn before k hpre hk
    cases List.prefix_nil.mp hpre
    cases hk
    exact hn

end Settings

/-- Whether a node below another one is visible from there. -/
def Settings.shows (s : Settings) (n : Node) (d : List Text × Node) : Bool :=
  d.2.block.isSome ∧ s.Reveals n d.1

/-- What is visible from a node down, picked from the recursive order. -/
theorem Node.Ordered.shown_eq_filter {n : Node} (h : n.Ordered) (s : Settings) (path : Text) :
    shown s path n = ((subtree [] n).filter (s.shows n)).map (Walk.written path) := by
  induction hsize : n.size using Nat.strong_induction_on generalizing n path with
  | _ size ih =>
    cases hc : s.conceals n with
    | true =>
      have hnone : (subtree [] n).filter (s.shows n) = [] := by
        rw [List.filter_eq_nil_iff]
        intro d _ hd
        have hreveals := (of_decide_eq_true hd).2
        rw [hreveals [] n List.nil_prefix rfl] at hc
        cases hc
      rw [shown_of_conceals hc, hnone, List.map_nil]
    | false =>
      have hhead : ([([], n)].filter (s.shows n)).map (Walk.written path) =
          if n.block.isSome then [(path, n)] else [] := by
        cases hblock : n.block <;> simp [Settings.shows, Settings.reveals_nil, hblock, hc, Walk.written]
      have hsplit : subtree [] n = [([], n)] ++ n.ranked.reverse.flatMap fun c => subtree [c.1] c.2 := by
        rw [subtree, map_under_preorder]
        rfl
      rw [shown_of_not_conceals hc, hsplit, List.filter_append, List.map_append, hhead,
        List.filter_flatMap, List.map_flatMap, Walk.below, ← List.map_reverse, List.flatMap_map]
      congr 1
      refine List.flatMap_congr fun c hmem => ?_
      have hchild : n.child? c.1 = some c.2 :=
        h.mem_children_iff.mp (n.ranked_perm.mem_iff.mp (List.mem_reverse.mp hmem))
      have hlt := size_lt_of_mem_ranked (List.mem_reverse.mp hmem)
      have hshows : ∀ d, s.shows n (under [c.1] d) = s.shows c.2 d := by
        intro d
        simp [Settings.shows, under, Settings.reveals_cons hchild, hc]
      rw [ih c.2.size (hsize ▸ hlt) (h.child hchild) _ rfl, subtree_eq_map_under [c.1],
        List.filter_map, List.map_map]
      simp only [Function.comp_def, hshows, Walk.written_under]
      rfl

namespace Outline

/-- Passing over what is below the node just visited leaves of the remaining nodes those that do not
stand below it, whatever was visited or passed over before, in the walk from any node of an outline.
The visible nodes are those of the whole walk that hold a block and along whose segments nothing is
concealed, themselves included. -/
theorem passOver_prunes (rule : ClashRule) (requests : List Request) :
    let o := ((empty rule).run requests).1
    (∀ origin top, o.root.descend? origin = some top →
      ∀ path w, (Walk.start top path).Reaches w →
      ∀ item later, w.next? = some (item, later) →
        ∃ segments rest, (segments, item.2) :: rest <+ top.preorder ∧
          item = Walk.written path (segments, item.2) ∧
          later.items = rest.map (Walk.written path) ∧
          (later.passOver item.2).items =
            (rest.filter fun d => ¬ segments <+: d.1).map (Walk.written path) ∧
          later.items = (Walk.start item.2 item.1).items ++ (later.passOver item.2).items) ∧
      o.walk.items = o.root.preorder.map (Walk.written []) ∧
      ∀ s, o.visible s =
        (o.root.preorder.filter fun d => d.2.block.isSome ∧ s.Reveals o.root d.1).map
          (Walk.written []) := by
  intro o
  have htrie : o.IsTrieOf rule (Register.run rule [] requests).1 :=
    ((isTrieOf_empty rule).run requests).2
  refine ⟨?_, Walk.items_start o.root [], fun s => ?_⟩
  · intro origin top htop path w hw item later hnext
    have hordered : top.Ordered := htrie.ordered.descend? htop
    obtain ⟨pending, hstands⟩ := hw.exists_standsAt
    obtain ⟨⟨segments, n⟩, others, rfl, rfl, hlater, hpassed⟩ := hstands.next hnext
    have hsub := hstands.sublist
    rw [Node.subtrees_cons] at hsub
    refine ⟨segments, _, hsub, rfl, hlater.items_eq, ?_, ?_⟩
    · rw [Node.subtrees_successors_append] at hsub ⊢
      rw [hordered.filter_below hsub]
      exact hpassed.items_eq
    · rw [hlater.items_eq, Node.subtrees_successors_append, List.map_append,
        ← Walk.items_start_successors]
      exact congrArg _ hpassed.items_eq.symm
  · have hroot : s.shows o.root ([], o.root) = false := by
      simp [Settings.shows, htrie.root_block]
    rw [htrie.visible_eq_shown, htrie.ordered.shown_eq_filter, Node.subtree, Node.under_nil,
      List.map_id, List.filter_cons_of_neg (by simp [hroot])]
    rfl

/-- In the walk that has come to `m.a`, passing over leaves out what is below `m.a` and nothing else. -/
theorem passOver_prunes_below_a :
    let block (line : Nat) : Block := ⟨⟨"f.js", line⟩, [], []⟩
    let inner : Node := ⟨some (block 9), 3, []⟩
    let first : Node := ⟨some (block 4), 2, [("x", inner)]⟩
    let second : Node := ⟨some (block 5), 1, []⟩
    let o := ((empty .replace).run
      [.addAt "m.b" (block 5), .addAt "m.a.x" (block 9), .addAt "m.a" (block 4)]).1
    let before : Walk := ⟨[("m.a", first), ("m.b", second)]⟩
    let later : Walk := ⟨[("m.a.x", inner), ("m.b", second)]⟩
    (Walk.start o.root []).Reaches before ∧ before.next? = some (("m.a".toList, first), later) ∧
      later.items = (Walk.start first "m.a").items ++ (later.passOver first).items ∧
      (later.passOver first).pending = [("m.b".toList, second)] := by
  intro block inner first second o before later
  have hreaches : (Walk.start o.root []).Reaches before := .visited .refl rfl
  obtain ⟨hprunes, -⟩ := passOver_prunes .replace
    [.addAt "m.b" (block 5), .addAt "m.a.x" (block 9), .addAt "m.a" (block 4)]
  obtain ⟨_, _, -, -, -, -, hitems⟩ := hprunes [] o.root rfl [] before hreaches _ later rfl
  exact ⟨hreaches, rfl, hitems, rfl⟩

end Outline

end DocComment
