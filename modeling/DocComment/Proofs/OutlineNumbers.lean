import DocComment.Proofs.OutlineRegister

/-! # Creation numbers

Filing a block numbers the nodes that it makes one after the other, from the next free number on, and
leaves every other number as it is.  So no two nodes of an outline have the same number, and a node
is told from all others by its content alone. -/

namespace DocComment

namespace Node

theorem number_file (block : Block) (path : List Text) (next : Nat) (n : Node) :
    (n.file block path next).1.number = n.number := by
  cases path with
  | nil => rfl
  | cons segment rest =>
    obtain ⟨after, hfile⟩ := file_cons block segment rest next n
    rw [hfile]
    rfl

theorem file_cons_of_some {n child : Node} {segment : Text} (h : n.child? segment = some child)
    (block : Block) (rest : List Text) (next : Nat) :
    n.file block (segment :: rest) next =
      (n.setChild segment (child.file block rest next).1, (child.file block rest next).2) := by
  simp [file, setChild, h]

theorem file_cons_of_none {n : Node} {segment : Text} (h : n.child? segment = none)
    (block : Block) (rest : List Text) (next : Nat) :
    n.file block (segment :: rest) next =
      (n.setChild segment (Node.file block rest (next + 1) { number := next }).1,
        (Node.file block rest (next + 1) { number := next }).2) := by
  simp [file, setChild, h]

/-- How many segments of a path lead through nodes that are there. -/
def known : List Text → Node → Nat
  | [], _ => 0
  | segment :: rest, n =>
    match n.child? segment with
    | none => 0
    | some child => known rest child + 1

theorem known_of_children_eq_nil {n : Node} (h : n.children = []) (path : List Text) :
    n.known path = 0 := by
  cases path with
  | nil => rfl
  | cons segment rest => simp [known, child?, h, Keyed.get?]

theorem known_le_length (path : List Text) (n : Node) : n.known path ≤ path.length := by
  induction path generalizing n with
  | nil => exact Nat.le_refl 0
  | cons segment rest ih =>
    cases hc : n.child? segment with
    | none => simp [known, hc]
    | some child =>
      have hchild := ih child
      simp only [known, hc, List.length_cons]
      omega

theorem next_file (block : Block) (path : List Text) (next : Nat) (n : Node) :
    (n.file block path next).2 + n.known path = next + path.length := by
  induction path generalizing n next with
  | nil => rfl
  | cons segment rest ih =>
    cases hc : n.child? segment with
    | none =>
      have hnew := ih (next + 1) { number := next }
      rw [known_of_children_eq_nil rfl] at hnew
      simp only [file_cons_of_none hc, known, hc, List.length_cons]
      omega
    | some child =>
      have hchild := ih next child
      simp only [file_cons_of_some hc, known, hc, List.length_cons]
      omega

/-- A node on the way to a filed block keeps its number or, where it is new, has the number that its
depth below the last known node gives it. -/
theorem number_on_path (block : Block) (segments rest : List Text) (next : Nat) (n : Node) :
    ∃ m, (n.file block (segments ++ rest) next).1.descend? segments = some m ∧
      ((∃ old, n.descend? segments = some old ∧ m.number = old.number) ∨
        n.known (segments ++ rest) < segments.length ∧
          m.number + n.known (segments ++ rest) + 1 = next + segments.length) := by
  induction segments generalizing n next with
  | nil => exact ⟨_, rfl, Or.inl ⟨n, rfl, number_file block rest next n⟩⟩
  | cons segment segments ih =>
    rw [List.cons_append]
    cases hc : n.child? segment with
    | some child =>
      obtain ⟨m, hm, hnumber⟩ := ih next child
      refine ⟨m, ?_, ?_⟩
      · rw [file_cons_of_some hc, descend?_cons, child?_setChild, if_pos rfl]
        exact hm
      · simp only [descend?_cons, hc, Option.bind_some, known, List.length_cons]
        rcases hnumber with hold | ⟨hlt, hnew⟩
        · exact Or.inl hold
        · exact Or.inr ⟨by omega, by omega⟩
    | none =>
      obtain ⟨m, hm, hnumber⟩ := ih (next + 1) { number := next }
      refine ⟨m, ?_, Or.inr ?_⟩
      · rw [file_cons_of_none hc, descend?_cons, child?_setChild, if_pos rfl]
        exact hm
      · rw [known_of_children_eq_nil rfl] at hnumber
        simp only [known, hc, List.length_cons]
        rcases hnumber with ⟨old, hold, heq⟩ | ⟨-, hnew⟩
        · rw [descend?_of_children_eq_nil rfl] at hold
          split at hold
          · rename_i hnil
            cases hold
            have hnext : m.number = next := heq
            simp only [hnil, List.length_nil]
            omega
          · cases hold
        · omega

theorem number_cases {block : Block} {path segments : List Text} {next : Nat} {n m : Node}
    (hm : (n.file block path next).1.descend? segments = some m) :
    (∃ old, n.descend? segments = some old ∧ m.number = old.number) ∨
      segments <+: path ∧ n.known path < segments.length ∧
        m.number + n.known path + 1 = next + segments.length := by
  by_cases hp : segments <+: path
  · obtain ⟨rest, rfl⟩ := hp
    obtain ⟨m', hm', hnumber⟩ := number_on_path block segments rest next n
    cases hm'.symm.trans hm
    exact hnumber.imp_right fun hnew => ⟨List.prefix_append segments rest, hnew⟩
  · rw [descend?_file_off_path block hp] at hm
    exact Or.inl ⟨m, hm, rfl⟩

/-- Strictly below the node, numbers are smaller than `next` and no two are the same. -/
structure Numbered (n : Node) (next : Nat) : Prop where
  lt_next : ∀ segments m, segments ≠ [] → n.descend? segments = some m → m.number < next
  unique : ∀ a b m m', a ≠ [] → b ≠ [] → n.descend? a = some m → n.descend? b = some m' →
    m.number = m'.number → a = b

theorem Numbered.file {n : Node} {next : Nat} (h : n.Numbered next) (block : Block)
    (path : List Text) :
    (n.file block path next).1.Numbered (n.file block path next).2 := by
  have hnext := next_file block path next n
  have hknown := known_le_length path n
  constructor
  · intro segments m hne hm
    rcases number_cases hm with ⟨old, hold, heq⟩ | ⟨hp, hlt, hnew⟩
    · have hlt := h.lt_next segments old hne hold
      omega
    · have hle := hp.length_le
      omega
  · intro a b m m' ha hb hm hm' heq
    rcases number_cases hm with ⟨old, hold, hnum⟩ | ⟨hp, hlt, hnew⟩
    · rcases number_cases hm' with ⟨old', hold', hnum'⟩ | ⟨hp', hlt', hnew'⟩
      · exact h.unique a b old old' ha hb hold hold' (by omega)
      · have hold := h.lt_next a old ha hold
        omega
    · rcases number_cases hm' with ⟨old', hold', hnum'⟩ | ⟨hp', hlt', hnew'⟩
      · have hold := h.lt_next b old' hb hold'
        omega
      · have hlength : a.length = b.length := by omega
        exact (List.prefix_of_prefix_length_le hp hp' hlength.le).eq_of_length hlength

end Node

namespace Outline

theorem numbered_run (rule : ClashRule) (requests : List Request) :
    let o := ((empty rule).run requests).1
    o.root.Numbered o.nextNumber := by
  intro o
  apply run_preserves (P := fun o => o.root.Numbered o.nextNumber)
  · intro o path block ho
    exact ho.file block (path.splitOn '.')
  · have hnone : ∀ segments m, segments ≠ [] → (empty rule).root.descend? segments ≠ some m := by
      intro segments m hne
      rw [Node.descend?_of_children_eq_nil rfl, if_neg hne]
      simp
    constructor
    · intro segments m hne hm
      exact absurd hm (hnone segments m hne)
    · intro a b m m' ha _ hm
      exact absurd hm (hnone a m ha)

end Outline

end DocComment
