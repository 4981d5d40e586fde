import DocComment.Export
import DocComment.Proofs.OutlineRegister

/-! # The shape of an outline

The shape of an outline is what is left when its creation numbers are forgotten: the segments, the
blocks, and what is below what.  It is settled by the blocks found at the paths alone.  The exported
data and, up to their order, the nodes that a walk meets depend on nothing else. -/

namespace DocComment
open scoped List

mutual

/-- The node with its creation number, and those of all below it, set to 0. -/
def Node.unnumbered : Node → Node
  | ⟨block, _, children⟩ => ⟨block, 0, Node.unnumberedAll children⟩

def Node.unnumberedAll : List (Text × Node) → List (Text × Node)
  | [] => []
  | (segment, n) :: rest => (segment, n.unnumbered) :: Node.unnumberedAll rest

end

namespace Node

@[simp] theorem block_unnumbered (n : Node) : n.unnumbered.block = n.block := by
  cases n
  rw [unnumbered]

@[simp] theorem line_unnumbered (n : Node) : n.unnumbered.line = n.line := by
  rw [line, line, block_unnumbered]

theorem children_unnumbered (n : Node) :
    n.unnumbered.children = n.children.map fun c => (c.1, c.2.unnumbered) := by
  obtain ⟨block, number, children⟩ := n
  rw [unnumbered]
  change unnumberedAll children = children.map fun c => (c.1, c.2.unnumbered)
  induction children with
  | nil => rfl
  | cons c children ih => rw [unnumberedAll, ih, List.map_cons]

theorem child?_unnumbered (n : Node) (segment : Text) :
    n.unnumbered.child? segment = (n.child? segment).map unnumbered := by
  rw [child?, child?, children_unnumbered, Keyed.get?_map]

theorem descend?_unnumbered (segments : List Text) (n : Node) :
    n.unnumbered.descend? segments = (n.descend? segments).map unnumbered := by
  induction segments generalizing n with
  | nil => rfl
  | cons segment segments ih =>
    rw [descend?_cons, descend?_cons, child?_unnumbered]
    cases n.child? segment with
    | none => rfl
    | some child => exact ih child

/-- Ordered nodes with the same blocks in the same places have the same shape. -/
theorem Ordered.unnumbered_eq {n n' : Node} (h : n.Ordered) (h' : n'.Ordered)
    (hsame : ∀ segments, (n.descend? segments).map block = (n'.descend? segments).map block) :
    n.unnumbered = n'.unnumbered := by
  induction hsize : n.size using Nat.strong_induction_on generalizing n n' with
  | _ size ih =>
    have hblock : n.block = n'.block := by simpa [descend?] using hsame []
    have hchildren : n.unnumbered.children = n'.unnumbered.children := by
      rw [children_unnumbered, children_unnumbered]
      apply (Keyed.increasing_map (h [] n rfl)).ext (Keyed.increasing_map (h' [] n' rfl))
      intro segment
      rw [Keyed.get?_map, Keyed.get?_map, ← child?, ← child?]
      have hchild := hsame [segment]
      simp only [descend?_cons] at hchild
      cases hc : n.child? segment with
      | none =>
        cases hc' : n'.child? segment with
        | none => rfl
        | some c' => simp [hc, hc', descend?] at hchild
      | some c =>
        cases hc' : n'.child? segment with
        | none => simp [hc, hc', descend?] at hchild
        | some c' =>
          have hlt := size_lt_of_mem_children (Keyed.mem_of_get? hc)
          have hbelow : ∀ segments,
              (c.descend? segments).map block = (c'.descend? segments).map block := by
            intro segments
            simpa [descend?_cons, hc, hc'] using hsame (segment :: segments)
          rw [Option.map_some, Option.map_some,
            ih c.size (hsize ▸ hlt) (h.child hc) (h'.child hc') hbelow rfl]
    obtain ⟨block, number, children⟩ := n
    obtain ⟨block', number', children'⟩ := n'
    cases hblock
    simp only [unnumbered] at hchildren ⊢
    rw [hchildren]

end Node

mutual

theorem Node.exportJson_unnumbered : ∀ n : Node, n.unnumbered.exportJson = n.exportJson
  | ⟨block, number, children⟩ => by
    cases block <;>
      rw [Node.unnumbered, Node.exportJson, Node.exportJson, Node.exportChildren_unnumbered children]

theorem Node.exportChildren_unnumbered :
    ∀ l : List (Text × Node), Node.exportChildren (Node.unnumberedAll l) = Node.exportChildren l
  | [] => rfl
  | (segment, n) :: rest => by
    rw [Node.unnumberedAll, Node.exportChildren, Node.exportChildren, Node.exportJson_unnumbered n,
      Node.exportChildren_unnumbered rest]

end

theorem Node.descendants_unnumbered (n : Node) :
    n.unnumbered.descendants = n.descendants.map fun d => (d.1, d.2.unnumbered) := by
  induction hsize : n.size using Nat.strong_induction_on generalizing n with
  | _ size ih =>
    rw [descendants_eq, descendants_eq, children_unnumbered, List.flatMap_map, List.map_flatMap]
    apply List.flatMap_congr
    intro c hc
    have hchild := ih c.2.size (hsize ▸ size_lt_of_mem_children hc) c.2 rfl
    simp only [branch, hchild, List.map_cons, List.map_map]
    rfl

namespace Outline

/-- The shape of an outline. -/
def unnumbered (o : Outline) : Outline := { root := o.root.unnumbered }

theorem node?_unnumbered (o : Outline) (path : Text) :
    o.unnumbered.node? path = (o.node? path).map Node.unnumbered :=
  Node.descend?_unnumbered ..

theorem block?_unnumbered (o : Outline) (path : Text) : o.unnumbered.block? path = o.block? path := by
  rw [block?, block?, node?_unnumbered]
  cases o.node? path with
  | none => rfl
  | some n => exact n.block_unnumbered

theorem exportText_unnumbered (o : Outline) : o.unnumbered.exportText = o.exportText := by
  have hroot : Node.exportChildren o.unnumbered.root.children =
      Node.exportChildren o.root.children := by
    obtain ⟨⟨block, number, children⟩, next, rule⟩ := o
    rw [unnumbered, Node.unnumbered]
    exact Node.exportChildren_unnumbered children
  rw [exportText, exportText, exportJson, exportJson, hroot]

/-- What a walk says of the nodes that it meets: their paths and their blocks. -/
def walked (o : Outline) : List (Text × Option Block) := o.walk.items.map fun p => (p.1, p.2.block)

theorem walked_unnumbered_perm (o : Outline) : o.unnumbered.walked ~ o.walked := by
  have hwalked : ∀ o : Outline, o.walked ~
      o.root.descendants.map fun d => (d.1.foldl Walk.childPath [], d.2.block) := by
    intro o
    have hperm := o.items_perm.map fun p => (p.1, p.2.block)
    rw [List.map_map] at hperm
    exact hperm
  have hshape := hwalked o.unnumbered
  rw [unnumbered, Node.descendants_unnumbered, List.map_map] at hshape
  simp only [Function.comp_def, Node.block_unnumbered] at hshape
  exact hshape.trans (hwalked o).symm

/-- The tries of registers that hold the same blocks have the same shape. -/
theorem IsTrieOf.unnumbered_eq {rule rule' : ClashRule} {o o' : Outline} {r r' : Register}
    (h : o.IsTrieOf rule r) (h' : o'.IsTrieOf rule' r')
    (hsame : ∀ path, Register.block? rule r path = Register.block? rule' r' path) :
    o.unnumbered = o'.unnumbered := by
  have hnode : ∀ segments, segments ≠ [] →
      ((o.root.descend? segments).isSome ↔ (o'.root.descend? segments).isSome) := by
    intro segments hne
    have hpaths : ∀ path, path ∈ r.map Prod.fst ↔ path ∈ r'.map Prod.fst := by
      intro path
      rw [← Register.isSome_block? rule, ← Register.isSome_block? rule', hsame]
    have hway : ∀ r : Register, (∃ b ∈ r, segments <+: b.1.splitOn '.') ↔
        ∃ path ∈ r.map Prod.fst, segments <+: path.splitOn '.' := by
      intro r
      simp only [List.mem_map, exists_exists_and_eq_and]
    rw [h.node_iff segments hne, h'.node_iff segments hne, hway, hway]
    simp only [hpaths]
  have hroot : o.root.unnumbered = o'.root.unnumbered := by
    apply h.ordered.unnumbered_eq h'.ordered
    intro segments
    by_cases hne : segments = []
    · simp [hne, Node.descend?, h.root_block, h'.root_block]
    · cases hn : o.root.descend? segments with
      | none =>
        have hnone := hnode segments hne
        rw [hn] at hnone
        cases hn' : o'.root.descend? segments with
        | none => rfl
        | some n' => simp [hn'] at hnone
      | some n =>
        have hsome := (hnode segments hne).mp (by simp [hn])
        obtain ⟨n', hn'⟩ := Option.isSome_iff_exists.mp hsome
        obtain ⟨b, -, hpre⟩ := (h.node_iff segments hne).mp (by simp [hn])
        obtain ⟨path, rfl⟩ := exists_splitOn_eq hne hpre
        have hblock := hsame path
        rw [← h.block_eq, ← h'.block_eq, block?, block?, node?, node?, hn, hn'] at hblock
        rw [hn', Option.map_some, Option.map_some]
        exact congrArg some hblock
  rw [unnumbered, unnumbered, hroot]

end Outline

end DocComment
