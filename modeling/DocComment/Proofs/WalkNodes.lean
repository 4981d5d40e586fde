import DocComment.Walk
import DocComment.Proofs.OutlineFiling
import Mathlib.Data.List.Nodup
import Mathlib.Data.List.Perm.Basic

/-!
# The nodes that a walk visits

A walk is the recursive visit of its pending nodes one after the other.  As far as the nodes go, and
not their order, it meets every node strictly below its origin once for each list of segments that
leads there.
-/

namespace DocComment
open scoped List

theorem Node.size_le_sizeAll {c : Text × Node} {l : List (Text × Node)} (h : c ∈ l) :
    c.2.size ≤ Node.sizeAll l := by
  induction l with
  | nil => cases h
  | cons d l ih =>
    rw [Node.sizeAll]
    rcases List.mem_cons.mp h with rfl | h
    · exact Nat.le_add_right ..
    · exact Nat.le_add_left_of_le (ih h)

theorem Node.size_lt_of_mem_children {c : Text × Node} {n : Node} (h : c ∈ n.children) :
    c.2.size < n.size := by
  obtain ⟨block, number, children⟩ := n
  have hle : c.2.size ≤ Node.sizeAll children := Node.size_le_sizeAll h
  rw [Node.size]
  omega

namespace Walk

theorem below_perm (path : Text) (n : Node) :
    (below path n).Perm (n.children.map fun c => (childPath path c.1, c.2)) :=
  (List.reverse_perm _).trans ((sortBy_perm _ n.children).map _)

theorem size_lt_of_mem_below {path : Text} {n : Node} {c : Text × Node} (h : c ∈ below path n) :
    c.2.size < n.size := by
  obtain ⟨d, hd, rfl⟩ := List.mem_map.mp ((below_perm path n).mem_iff.mp h)
  have hlt : d.2.size < n.size := Node.size_lt_of_mem_children hd
  exact hlt

/-- A node and everything below it, each node before those below it. -/
def visit (path : Text) (n : Node) : List (Text × Node) :=
  (path, n) :: (below path n).attach.flatMap fun c => visit c.1.1 c.1.2
termination_by n.size
decreasing_by exact size_lt_of_mem_below c.2

theorem visit_eq (path : Text) (n : Node) :
    visit path n = (path, n) :: (below path n).flatMap fun c => visit c.1 c.2 := by
  rw [visit, List.flatMap_subtype (g := fun c => visit c.1 c.2) (fun _ _ => rfl),
    List.unattach_attach]

theorem items_nil : (⟨[]⟩ : Walk).items = [] := by
  rw [items]
  rfl

theorem items_cons (path : Text) (n : Node) (rest : List (Text × Node)) :
    (⟨(path, n) :: rest⟩ : Walk).items = (path, n) :: (⟨below path n ++ rest⟩ : Walk).items := by
  rw [items]
  rfl

/-- A walk visits its pending nodes in turn, each with everything below it. -/
theorem items_eq (w : Walk) : w.items = w.pending.flatMap fun p => visit p.1 p.2 := by
  induction hsize : w.size using Nat.strong_induction_on generalizing w with
  | _ size ih =>
    obtain ⟨pending⟩ := w
    cases pending with
    | nil => exact items_nil
    | cons p rest =>
      obtain ⟨path, n⟩ := p
      have hnext : next? ⟨(path, n) :: rest⟩ = some ((path, n), ⟨below path n ++ rest⟩) := rfl
      have hlt := hsize ▸ size_next? hnext
      rw [items_cons, ih _ hlt _ rfl, List.flatMap_append, List.flatMap_cons, visit_eq]
      rfl

end Walk

mutual

/-- The nodes strictly below a node, each with the segments that lead to it. -/
def Node.descendants : Node → List (List Text × Node)
  | ⟨_, _, children⟩ => Node.descendantsAll children

def Node.descendantsAll : List (Text × Node) → List (List Text × Node)
  | [] => []
  | (segment, n) :: rest =>
    ([segment], n) :: n.descendants.map (fun p => (segment :: p.1, p.2)) ++
      Node.descendantsAll rest

end

namespace Node

/-- A child and everything below it, seen from its parent. -/
def branch (c : Text × Node) : List (List Text × Node) :=
  ([c.1], c.2) :: c.2.descendants.map fun p => (c.1 :: p.1, p.2)

theorem descendants_eq (n : Node) : n.descendants = n.children.flatMap branch := by
  obtain ⟨block, number, children⟩ := n
  rw [descendants]
  induction children with
  | nil => rfl
  | cons c children ih =>
    obtain ⟨segment, child⟩ := c
    rw [descendantsAll, ih, List.flatMap_cons, branch]

theorem mem_branch {c : Text × Node} {segments : List Text} {m : Node} :
    (segments, m) ∈ branch c ↔
      ∃ rest, segments = c.1 :: rest ∧ (rest = [] ∧ m = c.2 ∨ (rest, m) ∈ c.2.descendants) := by
  simp only [branch, List.mem_cons, Prod.mk.injEq, List.mem_map, Prod.exists]
  constructor
  · rintro (⟨rfl, rfl⟩ | ⟨rest, m', hmem, rfl, rfl⟩)
    · exact ⟨[], rfl, Or.inl ⟨rfl, rfl⟩⟩
    · exact ⟨rest, rfl, Or.inr hmem⟩
  · rintro ⟨rest, rfl, ⟨rfl, rfl⟩ | hmem⟩
    · exact Or.inl ⟨rfl, rfl⟩
    · exact Or.inr ⟨rest, m, hmem, rfl, rfl⟩

theorem mem_descendants {n : Node} {segments : List Text} {m : Node} :
    (segments, m) ∈ n.descendants ↔
      ∃ c ∈ n.children, ∃ rest, segments = c.1 :: rest ∧
        (rest = [] ∧ m = c.2 ∨ (rest, m) ∈ c.2.descendants) := by
  rw [descendants_eq, List.mem_flatMap]
  simp only [mem_branch]

theorem Ordered.child {n c : Node} {segment : Text} (h : n.Ordered)
    (hc : n.child? segment = some c) : c.Ordered := by
  intro segments m hm
  exact h (segment :: segments) m (by rw [descend?_cons, hc]; exact hm)

theorem Ordered.mem_children_iff {n : Node} (h : n.Ordered) {segment : Text} {c : Node} :
    (segment, c) ∈ n.children ↔ n.child? segment = some c :=
  ⟨(h [] n rfl).get?_of_mem, Keyed.mem_of_get?⟩

/-- The listed nodes are those that some segments lead to. -/
theorem Ordered.mem_descendants_iff {n : Node} (h : n.Ordered) {segments : List Text} {m : Node} :
    (segments, m) ∈ n.descendants ↔ segments ≠ [] ∧ n.descend? segments = some m := by
  induction segments generalizing n with
  | nil =>
    rw [mem_descendants]
    simp
  | cons segment segments ih =>
    rw [mem_descendants]
    constructor
    · rintro ⟨⟨key, c⟩, hc, rest, heq, hm⟩
      cases heq
      have hchild := h.mem_children_iff.mp hc
      refine ⟨by simp, ?_⟩
      rw [descend?_cons, hchild, Option.bind_some]
      rcases hm with ⟨rfl, rfl⟩ | hm
      · rfl
      · exact ((ih (h.child hchild)).mp hm).2
    · rintro ⟨-, hm⟩
      rw [descend?_cons, Option.bind_eq_some_iff] at hm
      obtain ⟨c, hchild, hm⟩ := hm
      refine ⟨(segment, c), h.mem_children_iff.mpr hchild, segments, rfl, ?_⟩
      cases segments with
      | nil =>
        cases hm
        exact Or.inl ⟨rfl, rfl⟩
      | cons next rest => exact Or.inr ((ih (h.child hchild)).mpr ⟨by simp, hm⟩)

theorem map_fst_branch (c : Text × Node) :
    (branch c).map Prod.fst = [c.1] :: (c.2.descendants.map Prod.fst).map (c.1 :: ·) := by
  simp [branch]

/-- No segments are listed twice. -/
theorem Ordered.nodup_descendants {n : Node} (h : n.Ordered) :
    (n.descendants.map Prod.fst).Nodup := by
  induction hsize : n.size using Nat.strong_induction_on generalizing n with
  | _ size ih =>
    rw [descendants_eq, List.map_flatMap, List.nodup_flatMap]
    constructor
    · rintro ⟨segment, c⟩ hc
      have hord : c.Ordered := h.child (h.mem_children_iff.mp hc)
      have hnodup := ih c.size (hsize ▸ size_lt_of_mem_children hc) hord rfl
      rw [map_fst_branch, List.nodup_cons]
      refine ⟨?_, hnodup.map fun a b hab => (List.cons.inj hab).2⟩
      intro hmem
      obtain ⟨rest, hrest, heq⟩ := List.mem_map.mp hmem
      obtain ⟨⟨rest', m⟩, hm, rfl⟩ := List.mem_map.mp hrest
      exact (hord.mem_descendants_iff.mp hm).1 (List.cons.inj heq).2
    · have hinc := h [] n rfl
      rw [Keyed.Increasing, List.pairwise_map] at hinc
      refine hinc.imp fun {a b} hab => ?_
      have hhead : ∀ c : Text × Node, ∀ segments ∈ (branch c).map Prod.fst,
          segments.head? = some c.1 := by
        intro c segments hs
        rw [map_fst_branch] at hs
        rcases List.mem_cons.mp hs with rfl | hs
        · rfl
        · obtain ⟨rest, -, rfl⟩ := List.mem_map.mp hs
          rfl
      intro segments ha hb
      have heq := (hhead a segments ha).symm.trans (hhead b segments hb)
      rw [Option.some.inj heq] at hab
      exact irrefl_of (· < ·) b.1 hab

/-- Whatever their order, a visit meets a node and those strictly below it, under the paths that
their segments make. -/
theorem visit_perm (path : Text) (n : Node) :
    (Walk.visit path n).Perm
      ((path, n) :: n.descendants.map fun d => (d.1.foldl Walk.childPath path, d.2)) := by
  induction hsize : n.size using Nat.strong_induction_on generalizing n path with
  | _ size ih =>
    rw [Walk.visit_eq, descendants_eq, List.map_flatMap]
    refine List.Perm.cons _ ?_
    calc (Walk.below path n).flatMap (fun c => Walk.visit c.1 c.2)
      _ ~ (Walk.below path n).flatMap (fun c =>
          c :: c.2.descendants.map fun d => (d.1.foldl Walk.childPath c.1, d.2)) := by
        refine List.Perm.flatMap_left _ fun c hc => ?_
        exact ih c.2.size (hsize ▸ Walk.size_lt_of_mem_below hc) c.1 c.2 rfl
      _ ~ (n.children.map fun c => (Walk.childPath path c.1, c.2)).flatMap (fun c =>
          c :: c.2.descendants.map fun d => (d.1.foldl Walk.childPath c.1, d.2)) :=
        (Walk.below_perm path n).flatMap_right _
      _ = n.children.flatMap fun c =>
          (branch c).map fun d => (d.1.foldl Walk.childPath path, d.2) := by
        simp [List.flatMap_map, branch, Function.comp_def]

end Node

namespace Outline

theorem items_perm (o : Outline) :
    o.walk.items.Perm
      (o.root.descendants.map fun d => (d.1.foldl Walk.childPath [], d.2)) := by
  have hperm := Node.visit_perm [] o.root
  rw [Walk.visit_eq, List.perm_cons] at hperm
  rw [Walk.items_eq]
  exact hperm

/-- The length of an outline counts the lists of segments that lead to a block. -/
theorem length_eq (o : Outline) :
    o.length = (o.root.descendants.filter fun p => p.2.block.isSome).length := by
  have hcount := o.items_perm.countP_eq (fun p => p.2.block.isSome)
  rw [List.countP_map, List.countP_eq_length_filter, List.countP_eq_length_filter] at hcount
  exact hcount

end Outline

end DocComment
