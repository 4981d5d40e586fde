import DocComment.Proofs.OutlineNumbers
import DocComment.Proofs.ParsedSources
import DocComment.Proofs.PartialVisits
import DocComment.Proofs.SiblingOrder
import Mathlib.Data.Prod.Lex

/-! # Siblings in strict order

The comparison of siblings is that of a key with three parts, the last of which is the creation
number.  No two nodes of an outline have the same number, so no two siblings have the same key: their
order is strict, and neither their names nor the order in which they are kept can show in it.  A node
is numbered before those below it. -/

namespace DocComment
open scoped List

namespace Node

/-! ### The key of a node -/

/-- The rank of a node among its siblings: greater lines first, on one line nodes with a block
first, and then the order of creation. -/
def key (n : Node) : Natᵒᵈ ×ₗ Bool ×ₗ Nat :=
  toLex (OrderDual.toDual n.line, toLex (n.block.isNone, n.number))

theorem precedes_iff_key_le (a b : Node) : a.precedes b = true ↔ a.key ≤ b.key := by
  rw [precedes_iff, key, key, Prod.Lex.toLex_le_toLex, Prod.Lex.toLex_le_toLex]
  cases a.block <;> cases b.block <;> simp

theorem key_lt_iff (a b : Node) :
    a.key < b.key ↔ b.line < a.line ∨ a.line = b.line ∧
      (a.block.isSome = true ∧ b.block.isSome = false ∨
        a.block.isSome = b.block.isSome ∧ a.number < b.number) := by
  rw [key, key, Prod.Lex.toLex_lt_toLex, Prod.Lex.toLex_lt_toLex]
  cases a.block <;> cases b.block <;> simp

theorem number_eq_of_key_eq {a b : Node} (h : a.key = b.key) : a.number = b.number := by
  simp only [key, EmbeddingLike.apply_eq_iff_eq, Prod.mk.injEq] at h
  exact h.2.2

/-! ### Numbers on the way down -/

theorem le_known {segments path : List Text} {n m : Node} (h : n.descend? segments = some m)
    (hp : segments <+: path) : segments.length ≤ n.known path := by
  induction segments generalizing n path with
  | nil => exact Nat.zero_le _
  | cons segment segments ih =>
    obtain ⟨rest, rfl⟩ := hp
    rw [descend?_cons, Option.bind_eq_some_iff] at h
    obtain ⟨c, hc, hm⟩ := h
    have hdown := ih hm (List.prefix_append segments rest)
    simp only [List.cons_append, known, hc, List.length_cons]
    omega

/-- Strictly below the node, the number of a child is greater than that of its parent. -/
def Grows (n : Node) : Prop :=
  ∀ segments segment m c, segments ≠ [] → n.descend? segments = some m →
    m.child? segment = some c → m.number < c.number

theorem descend?_concat {n m c : Node} {segments : List Text} {segment : Text}
    (hm : n.descend? segments = some m) (hc : m.child? segment = some c) :
    n.descend? (segments ++ [segment]) = some c := by
  rw [descend?_append, hm, Option.bind_some, descend?_cons, hc]
  rfl

theorem Grows.file {n : Node} {next : Nat} (h : n.Grows) (hnum : n.Numbered next) (block : Block)
    (path : List Text) : (n.file block path next).1.Grows := by
  intro segments segment m c hne hm hc
  have hknown := known_le_length path n
  rcases number_cases (descend?_concat hm hc) with ⟨old, hold, heq⟩ | ⟨hp, hlt, hnew⟩
  · -- The child was there before, so its parent was there as well.
    rw [descend?_append, Option.bind_eq_some_iff] at hold
    obtain ⟨parent, hparent, hchild⟩ := hold
    have hbefore : parent.child? segment = some old := by
      rw [descend?_cons, Option.bind_eq_some_iff] at hchild
      obtain ⟨c', hc', hold⟩ := hchild
      cases hold
      exact hc'
    have hgrows := h segments segment parent old hne hparent hbefore
    rcases number_cases hm with ⟨parent', hparent', heq'⟩ | ⟨hp, hlt, -⟩
    · cases hparent.symm.trans hparent'
      omega
    · have hle := le_known hparent hp
      omega
  · rw [List.length_append, List.length_singleton] at hlt hnew
    rcases number_cases hm with ⟨old, hold, heq⟩ | ⟨-, -, hnew'⟩
    · have hold := hnum.lt_next segments old hne hold
      omega
    · omega

/-! ### The order of the children -/

section Children

variable {n : Node} (hordered : n.Ordered)
  (hnumbers : ∀ a b c d, n.child? a = some c → n.child? b = some d → c.number = d.number → a = b)

include hordered hnumbers

theorem number_injOn_children {c d : Text × Node} (hc : c ∈ n.children) (hd : d ∈ n.children)
    (h : c.2.number = d.2.number) : c = d := by
  have hc := hordered.mem_children_iff.mp hc
  have hd := hordered.mem_children_iff.mp hd
  have hname := hnumbers c.1 d.1 c.2 d.2 hc hd h
  rw [← hname] at hd
  exact Prod.ext hname (Option.some.inj (hc.symm.trans hd))

theorem pairwise_key_ranked : (n.ranked.map fun c => c.2.key).Pairwise (· < ·) := by
  have hnodup : (n.ranked.map Prod.fst).Nodup :=
    (n.ranked_perm.map Prod.fst).nodup_iff.mpr (hordered [] n rfl).nodup
  rw [List.pairwise_map]
  refine (n.pairwise_ranked.and hnodup.of_map).imp_of_mem ?_
  rintro c d hc hd ⟨hle, hne⟩
  refine lt_of_le_of_ne ((precedes_iff_key_le c.2 d.2).mp hle) fun heq => hne ?_
  exact number_injOn_children hordered hnumbers (n.ranked_perm.mem_iff.mp hc)
    (n.ranked_perm.mem_iff.mp hd) (number_eq_of_key_eq heq)

/-- The children of another node that are the same nodes come in the same order, whatever their
names. -/
theorem ranked_eq_of_perm {m : Node} (h : m.children.map Prod.snd ~ n.children.map Prod.snd) :
    m.ranked.map Prod.snd = n.ranked.map Prod.snd := by
  have hsorted : ∀ k : Node, (k.ranked.map Prod.snd).Pairwise fun a b => a.key ≤ b.key := by
    intro k
    rw [List.pairwise_map]
    exact k.pairwise_ranked.imp fun {c d} hle => (precedes_iff_key_le c.2 d.2).mp hle
  have hperm : m.ranked.map Prod.snd ~ n.ranked.map Prod.snd :=
    (m.ranked_perm.map Prod.snd).trans (h.trans (n.ranked_perm.map Prod.snd).symm)
  refine hperm.eq_of_pairwise ?_ (hsorted m) (hsorted n)
  intro a b ha hb hab hba
  obtain ⟨c, hc, rfl⟩ := List.mem_map.mp (hperm.mem_iff.mp ha)
  obtain ⟨d, hd, rfl⟩ := List.mem_map.mp hb
  have hnumber : c.2.number = d.2.number := number_eq_of_key_eq (le_antisymm hab hba)
  rw [number_injOn_children hordered hnumbers (n.ranked_perm.mem_iff.mp hc)
    (n.ranked_perm.mem_iff.mp hd) hnumber]

end Children

/-- Where lines are numbered from 1, a node without a block stands behind every sibling with one. -/
theorem isSome_of_key_lt {a b : Node} (hb : ∀ block, b.block = some block → 1 ≤ block.place.line)
    (h : a.key < b.key) (hsome : b.block.isSome = true) : a.block.isSome = true := by
  obtain ⟨block, hblock⟩ := Option.isSome_iff_exists.mp hsome
  have hline : 1 ≤ b.line := by
    rw [line, hblock]
    exact hb block hblock
  cases ha : a.block with
  | some _ => rfl
  | none =>
    have hone : a.line = 1 := by rw [line, ha]
    rw [key_lt_iff, ha, hblock, hone] at h
    rcases h with hlt | ⟨-, ⟨hfalse, -⟩ | ⟨hfalse, -⟩⟩
    · omega
    · cases hfalse
    · cases hfalse

end Node

/-- The blocks that a request is made for. -/
def Request.blocks : Request → List Block
  | add block | addAt _ block => [block]
  | addAll blocks => blocks

theorem Request.mem_blocks_of_mem_bindings {request : Request} {bindings : List (Text × Block)}
    (h : request.bindings = .ok bindings) : ∀ b ∈ bindings, b.2 ∈ request.blocks := by
  have hresolved : ∀ blocks, Outline.resolve blocks = .ok bindings →
      ∀ b ∈ bindings, b.2 ∈ blocks := by
    rintro blocks hblocks b hb
    rw [← (Outline.resolve_eq_ok hblocks).1]
    exact List.mem_map_of_mem hb
  cases request with
  | add block => exact hresolved [block] h
  | addAt path block =>
    cases h
    simp [blocks]
  | addAll blocks => exact hresolved blocks h

namespace Outline

/-- What holds of all blocks of the requests holds of all blocks in the outline. -/
theorem forall_block_run (rule : ClashRule) {requests : List Request} {P : Block → Prop}
    (h : ∀ request ∈ requests, ∀ b ∈ request.blocks, P b) {segments : List Text} {n : Node}
    (hn : ((empty rule).run requests).1.root.descend? segments = some n) {block : Block}
    (hblock : n.block = some block) : P block := by
  have htrie := ((isTrieOf_empty rule).run requests).2
  have hall : ∀ b ∈ (Register.run rule [] requests).1, P b.2 := by
    apply Register.run_forall
    · intro request hrequest bindings hb b hmem
      exact h request hrequest b.2 (Request.mem_blocks_of_mem_bindings hb b hmem)
    · simp
  have hne : segments ≠ [] := by
    rintro rfl
    cases hn
    rw [htrie.root_block] at hblock
    cases hblock
  obtain ⟨b, -, hpre⟩ := (htrie.node_iff segments hne).mp (by rw [hn]; rfl)
  obtain ⟨path, rfl⟩ := exists_splitOn_eq hne hpre
  have hheld : ((empty rule).run requests).1.block? path = some block := by
    rw [block?, node?, hn]
    exact hblock
  exact hall _ (Register.mem_of_block? ((htrie.block_eq path).symm.trans hheld))

theorem grows_run (rule : ClashRule) (requests : List Request) :
    ((empty rule).run requests).1.root.Grows := by
  have hboth : let o := ((empty rule).run requests).1
      o.root.Numbered o.nextNumber ∧ o.root.Grows := by
    apply run_preserves (P := fun o => o.root.Numbered o.nextNumber ∧ o.root.Grows)
    · rintro o path block ⟨hnum, hgrows⟩
      exact ⟨hnum.file block _, hgrows.file hnum block _⟩
    · refine ⟨numbered_run rule [], ?_⟩
      intro segments segment m c hne hm
      rw [Node.descend?_of_children_eq_nil rfl, if_neg hne] at hm
      cases hm
  exact hboth.2

/-- The nodes of an outline have distinct numbers, smaller than the next free one and growing on the
way down.  So the children of every node are listed once each and in strict order of their keys,
whatever their names, and with lines numbered from 1, as those of a source are, all children with a
block come before those without. -/
theorem siblings_strictly_ranked (rule : ClashRule) (requests : List Request) :
    let o := ((empty rule).run requests).1
    o.root.Numbered o.nextNumber ∧ o.root.Grows ∧
      (∀ segments n, o.root.descend? segments = some n →
        (n.ranked.map Prod.fst).Nodup ∧
        (∀ segment c, (segment, c) ∈ n.ranked ↔ n.child? segment = some c) ∧
        (n.ranked.map fun c => c.2.key).Pairwise (· < ·) ∧
        (∀ m : Node, m.children.map Prod.snd ~ n.children.map Prod.snd →
          m.ranked.map Prod.snd = n.ranked.map Prod.snd) ∧
        ((∀ request ∈ requests, ∀ b ∈ request.blocks, 1 ≤ b.place.line) →
          n.ranked.Pairwise fun c d => d.2.block.isSome → c.2.block.isSome)) ∧
      ∀ file lines found, Source.blocks file lines = .ok found → ∀ b ∈ found, 1 ≤ b.place.line := by
  intro o
  have hnum : o.root.Numbered o.nextNumber := numbered_run rule requests
  refine ⟨hnum, grows_run rule requests, ?_, fun file lines found => Source.one_le_line⟩
  intro segments n hn
  have hordered : n.Ordered := ((isTrieOf_empty rule).run requests).2.ordered.descend? hn
  have hnumbers : ∀ a b c d, n.child? a = some c → n.child? b = some d →
      c.number = d.number → a = b := by
    intro a b c d hc hd heq
    have hsame := hnum.unique (segments ++ [a]) (segments ++ [b]) c d (by simp) (by simp)
      (Node.descend?_concat hn hc) (Node.descend?_concat hn hd) heq
    simpa using hsame
  have hstrict := Node.pairwise_key_ranked hordered hnumbers
  refine ⟨(n.ranked_perm.map Prod.fst).nodup_iff.mpr (hordered [] n rfl).nodup, ?_, hstrict,
    fun m => Node.ranked_eq_of_perm hordered hnumbers, ?_⟩
  · intro segment c
    rw [n.ranked_perm.mem_iff, hordered.mem_children_iff]
  · intro hlines
    rw [List.pairwise_map] at hstrict
    refine hstrict.imp_of_mem ?_
    intro c d _ hd hlt
    have hd := hordered.mem_children_iff.mp (n.ranked_perm.mem_iff.mp hd)
    exact Node.isSome_of_key_lt
      (fun block => forall_block_run rule hlines (Node.descend?_concat hn hd)) hlt

/-- Of two names on one line the one filed first is listed first, and a name without a block last. -/
theorem siblings_strictly_ranked_below_m :
    let block (line : Nat) : Block := ⟨⟨"f.js", line⟩, [], []⟩
    let requests : List Request :=
      [.addAt "m.x.y" (block 5), .addAt "m.b" (block 9), .addAt "m.a" (block 9)]
    let o := ((empty .replace).run requests).1
    (∀ request ∈ requests, ∀ b ∈ request.blocks, 1 ≤ b.place.line) ∧
      ∃ m, o.root.descend? ["m"] = some m ∧
        m.ranked.map Prod.fst = ["b".toList, "a".toList, "x".toList] ∧
        (m.ranked.map fun c => c.2.key).Pairwise (· < ·) ∧
        m.ranked.Pairwise fun c d => d.2.block.isSome → c.2.block.isSome := by
  intro block requests o
  have hlines : ∀ request ∈ requests, ∀ b ∈ request.blocks, 1 ≤ b.place.line := by decide +kernel
  obtain ⟨-, -, hsiblings, -⟩ := siblings_strictly_ranked .replace requests
  obtain ⟨m, hm⟩ : ∃ m, o.root.descend? ["m"] = some m := ⟨_, rfl⟩
  obtain ⟨-, -, hstrict, -, hblocks⟩ := hsiblings _ m hm
  have hnames : (o.root.descend? ["m"]).map (·.ranked.map Prod.fst) =
      some ["b".toList, "a".toList, "x".toList] := by decide +kernel
  rw [hm] at hnames
  exact ⟨hlines, m, hm, Option.some.inj hnames, hstrict, hblocks hlines⟩

end Outline

end DocComment
