import DocComment.Outline
import DocComment.Proofs.KeyedOrder
import DocComment.Proofs.TextWords
import Mathlib.Data.Char
import Mathlib.Data.List.Lex

/-!
# Filing a block

What filing one block does below a node, said once for every list of segments.  A node on the way
to the block is the node that was there, or else a new one, with the rest of the path filed below it.
Away from the path nothing changes.  Everything an outline keeps from one addition to the next
follows from these two cases.
-/

namespace DocComment.Node

theorem descend?_cons (segment : Text) (rest : List Text) (n : Node) :
    n.descend? (segment :: rest) = (n.child? segment).bind (descend? rest) := rfl

theorem descend?_of_children_eq_nil {n : Node} (h : n.children = []) (segments : List Text) :
    n.descend? segments = if segments = [] then some n else none := by
  cases segments with
  | nil => rfl
  | cons segment rest => simp [descend?, child?, h, Keyed.get?]

/-- The node that filing goes on with below a segment. -/
def childOrNew (n : Node) (segment : Text) (next : Nat) : Node :=
  (n.child? segment).getD { number := next }

/-- A node with one child put in, or put in place of an old one. -/
def setChild (n : Node) (segment : Text) (child : Node) : Node :=
  { n with children := Keyed.insert segment child n.children }

@[simp] theorem block_setChild (n : Node) (segment : Text) (child : Node) :
    (n.setChild segment child).block = n.block := rfl

theorem child?_setChild (n : Node) (segment other : Text) (child : Node) :
    (n.setChild segment child).child? other =
      if other = segment then some child else n.child? other :=
  Keyed.get?_insert ..

theorem children_setChild_ne_nil (n : Node) (segment : Text) (child : Node) :
    (n.setChild segment child).children ≠ [] := Keyed.insert_ne_nil segment child n.children

theorem file_cons (block : Block) (segment : Text) (rest : List Text) (next : Nat) (n : Node) :
    ∃ next', n.file block (segment :: rest) next =
      (n.setChild segment ((n.childOrNew segment next).file block rest next').1,
        ((n.childOrNew segment next).file block rest next').2) := by
  cases h : n.child? segment with
  | none => exact ⟨next + 1, by simp [file, childOrNew, setChild, h]⟩
  | some child => exact ⟨next, by simp [file, childOrNew, setChild, h]⟩

/-- On the way to a filed block stands the node that was there, or else a new one, with the rest of
the path filed below it. -/
theorem descend?_file_append (block : Block) (segments rest : List Text) (next : Nat) (n : Node) :
    ∃ next' base, (n.file block (segments ++ rest) next).1.descend? segments =
        some (base.file block rest next').1 ∧
      (n.descend? segments = some base ∨
        n.descend? segments = none ∧ base.block = none ∧ base.children = []) := by
  induction segments generalizing n next with
  | nil => exact ⟨next, n, rfl, Or.inl rfl⟩
  | cons segment segments ih =>
    obtain ⟨after, hfile⟩ := file_cons block segment (segments ++ rest) next n
    obtain ⟨next', base, hbase, hold⟩ := ih after (n.childOrNew segment next)
    refine ⟨next', base, ?_, ?_⟩
    · rw [List.cons_append, hfile, descend?_cons, child?_setChild, if_pos rfl]
      exact hbase
    · cases hc : n.child? segment with
      | some child => simpa [descend?_cons, childOrNew, hc] using hold
      | none =>
        right
        simp only [descend?_cons, hc, Option.bind_none, true_and]
        simp only [childOrNew, hc, Option.getD_none, descend?_of_children_eq_nil] at hold
        rcases hold with hold | hold
        · split at hold
          · cases hold
            exact ⟨rfl, rfl⟩
          · cases hold
        · exact hold.2

/-- Away from the path of a filed block every node is what it was. -/
theorem descend?_file_off_path (block : Block) {segments path : List Text}
    (h : ¬ segments <+: path) (next : Nat) (n : Node) :
    (n.file block path next).1.descend? segments = n.descend? segments := by
  induction path generalizing segments n next with
  | nil =>
    cases segments with
    | nil => exact absurd List.nil_prefix h
    | cons segment rest => rfl
  | cons step path ih =>
    cases segments with
    | nil => exact absurd List.nil_prefix h
    | cons segment rest =>
      obtain ⟨after, hfile⟩ := file_cons block step path next n
      rw [hfile, descend?_cons, descend?_cons, child?_setChild]
      by_cases hs : segment = step
      · subst hs
        have hrest : ¬ rest <+: path := fun hp => h (List.cons_prefix_cons.mpr ⟨rfl, hp⟩)
        rw [if_pos rfl, Option.bind_some, ih hrest]
        cases hc : n.child? segment with
        | some child => simp [childOrNew, hc]
        | none =>
          have hne : rest ≠ [] := fun he => hrest (he ▸ List.nil_prefix)
          simp [childOrNew, hc, descend?_of_children_eq_nil, hne]
      · rw [if_neg hs]

theorem block_file (block : Block) (path : List Text) (next : Nat) (n : Node) :
    (n.file block path next).1.block = if path = [] then some block else n.block := by
  cases path with
  | nil => rfl
  | cons segment rest =>
    obtain ⟨after, hfile⟩ := file_cons block segment rest next n
    simp [hfile]

/-- Filing changes the block at its own path and at no other. -/
theorem block_descend?_file (block : Block) (path segments : List Text) (next : Nat) (n : Node) :
    ((n.file block path next).1.descend? segments).bind Node.block =
      if segments = path then some block else (n.descend? segments).bind Node.block := by
  by_cases hp : segments <+: path
  · obtain ⟨rest, rfl⟩ := hp
    obtain ⟨next', base, hbase, hold⟩ := descend?_file_append block segments rest next n
    have hblock : (n.descend? segments).bind Node.block = base.block := by
      rcases hold with hold | ⟨hold, hnone, -⟩
      · rw [hold, Option.bind_some]
      · rw [hold, hnone, Option.bind_none]
    simp [hbase, block_file, hblock]
  · have hne : segments ≠ path := by
      rintro rfl
      exact hp List.prefix_rfl
    rw [descend?_file_off_path block hp, if_neg hne]

theorem isSome_descend?_file (block : Block) (path segments : List Text) (next : Nat) (n : Node) :
    ((n.file block path next).1.descend? segments).isSome ↔
      (n.descend? segments).isSome ∨ segments <+: path := by
  by_cases hp : segments <+: path
  · obtain ⟨rest, rfl⟩ := hp
    obtain ⟨next', base, hbase, -⟩ := descend?_file_append block segments rest next n
    simp [hbase]
  · simp [descend?_file_off_path block hp, hp]

/-- From the node down, children are in increasing order of their segments. -/
def Ordered (n : Node) : Prop :=
  ∀ segments m, n.descend? segments = some m → Keyed.Increasing m.children

/-- Strictly below the node, a node without children holds a block. -/
def Fruitful (n : Node) : Prop :=
  ∀ segments m, segments ≠ [] → n.descend? segments = some m → m.children = [] → m.block.isSome

theorem Ordered.file {n : Node} (h : n.Ordered) (block : Block) (path : List Text) (next : Nat) :
    (n.file block path next).1.Ordered := by
  intro segments m hm
  by_cases hp : segments <+: path
  · obtain ⟨rest, rfl⟩ := hp
    obtain ⟨next', base, hbase, hold⟩ := descend?_file_append block segments rest next n
    have hinc : Keyed.Increasing base.children := by
      rcases hold with hold | ⟨-, -, hnil⟩
      · exact h segments base hold
      · simp [hnil]
    cases hbase.symm.trans hm
    cases rest with
    | nil => exact hinc
    | cons segment rest =>
      obtain ⟨after, hfile⟩ := file_cons block segment rest next' base
      rw [hfile]
      exact hinc.insert segment _
  · rw [descend?_file_off_path block hp] at hm
    exact h segments m hm

theorem Fruitful.file {n : Node} (h : n.Fruitful) (block : Block) (path : List Text) (next : Nat) :
    (n.file block path next).1.Fruitful := by
  intro segments m hne hm hleaf
  by_cases hp : segments <+: path
  · obtain ⟨rest, rfl⟩ := hp
    obtain ⟨next', base, hbase, -⟩ := descend?_file_append block segments rest next n
    cases hbase.symm.trans hm
    cases rest with
    | nil => rfl
    | cons segment rest =>
      obtain ⟨after, hfile⟩ := file_cons block segment rest next' base
      rw [hfile] at hleaf
      exact absurd hleaf (children_setChild_ne_nil base segment _)
  · rw [descend?_file_off_path block hp] at hm
    exact h segments m hne hm hleaf

end DocComment.Node

namespace DocComment.Outline

/-- Filing at a path changes the block at that path and at no other. -/
theorem block?_file (o : Outline) (path other : Text) (block : Block) :
    (o.file path block).block? other = if other = path then some block else o.block? other := by
  simp only [block?, node?, file, Node.block_descend?_file, (Text.splitOn_injective '.').eq_iff]

end DocComment.Outline
