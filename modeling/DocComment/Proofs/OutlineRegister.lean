import DocComment.Proofs.OutlineBatch
import DocComment.Proofs.WalkNodes
import Mathlib.Data.Finset.Image
import Mathlib.Data.Finset.Card

/-!
# The outline as a register of paths

A register is the plain list of the blocks accepted so far with their paths.  It answers every
request to add blocks as an outline does, and after any run of requests the outline is the trie of
the register: the same block at every path, a node for each way to an accepted path, and no other.
-/

namespace DocComment

inductive Request where
  /-- A block at its own path. -/
  | add (block : Block)
  | addAt (path : Text) (block : Block)
  /-- The blocks of one source. -/
  | addAll (blocks : List Block)

/-- The blocks of a request with their paths. -/
def Request.bindings : Request → Except Problem (List (Text × Block))
  | add block => Outline.resolve [block]
  | addAt path block => .ok [(path, block)]
  | addAll blocks => Outline.resolve blocks

namespace Outline

def serve (o : Outline) : Request → Outline × Except Problem Unit
  | .add block => o.add block
  | .addAt path block => o.addAt path block
  | .addAll blocks => o.addAll blocks

def run (o : Outline) : List Request → Outline × List (Except Problem Unit)
  | [] => (o, [])
  | request :: rest =>
    let (later, outcome) := o.serve request
    let (last, outcomes) := later.run rest
    (last, outcome :: outcomes)

end Outline

/-- The accepted blocks with their paths, in the order in which they were accepted. -/
abbrev Register := List (Text × Block)

namespace Register

/-- The block that counts for a path: the one accepted last where later blocks replace earlier
ones, and otherwise the one accepted first. -/
def block? (rule : ClashRule) (r : Register) (path : Text) : Option Block :=
  let blocks := (r.filter (·.1 = path)).map (·.2)
  match rule with
  | .replace => blocks.getLast?
  | .keep | .refuse => blocks.head?

/-- Accepts a block at a path, unless the path is held and the rule refuses it. -/
def accept (rule : ClashRule) (r : Register) (binding : Text × Block) : Except Problem Register :=
  match block? rule r binding.1, rule with
  | some earlier, .refuse => .error (.taken binding.1 binding.2.place earlier.place)
  | _, _ => .ok (r ++ [binding])

/-- A request is accepted with all of its blocks, or it changes nothing. -/
def serve (rule : ClashRule) (r : Register) (request : Request) : Register × Except Problem Unit :=
  match request.bindings.bind (List.foldlM (accept rule) r) with
  | .ok later => (later, .ok ())
  | .error e => (r, .error e)

def run (rule : ClashRule) (r : Register) : List Request → Register × List (Except Problem Unit)
  | [] => (r, [])
  | request :: rest =>
    let (later, outcome) := serve rule r request
    let (last, outcomes) := run rule later rest
    (last, outcome :: outcomes)

theorem block?_append (rule : ClashRule) (r : Register) (path other : Text) (block : Block) :
    block? rule (r ++ [(path, block)]) other =
      if other = path then
        if rule = .replace then some block else (block? rule r path).or (some block)
      else block? rule r other := by
  by_cases h : other = path
  · subst h
    cases rule <;> simp [block?, List.filter_append, List.head?_append]
  · have hne : path ≠ other := fun he => h he.symm
    cases rule <;> simp [block?, List.filter_append, h, hne]

theorem mem_of_block? {rule : ClashRule} {r : Register} {path : Text} {block : Block}
    (h : block? rule r path = some block) : (path, block) ∈ r := by
  have hmem : block ∈ (r.filter (·.1 = path)).map (·.2) := by
    cases rule with
    | replace => exact List.mem_of_getLast? h
    | keep => exact List.mem_of_head? h
    | refuse => exact List.mem_of_head? h
  obtain ⟨b, hb, rfl⟩ := List.mem_map.mp hmem
  obtain ⟨hb, hpath⟩ := List.mem_filter.mp hb
  rwa [← of_decide_eq_true hpath]

/-- Bindings that are accepted are accepted in their order, behind those before. -/
theorem foldlM_accept {rule : ClashRule} {r r' : Register} {bindings : List (Text × Block)}
    (h : bindings.foldlM (accept rule) r = .ok r') : r' = r ++ bindings := by
  induction bindings generalizing r with
  | nil =>
    cases h
    simp
  | cons binding bindings ih =>
    rw [List.foldlM_cons] at h
    have haccept : accept rule r binding = .ok (r ++ [binding]) ∨
        ∃ e, accept rule r binding = .error e := by
      unfold accept
      split
      · exact Or.inr ⟨_, rfl⟩
      · exact Or.inl rfl
    rcases haccept with hok | ⟨e, herror⟩
    · rw [hok] at h
      rw [ih h]
      simp
    · rw [herror] at h
      cases h

/-- What holds of the bindings of every request holds of all that is accepted. -/
theorem run_forall {rule : ClashRule} {P : Text × Block → Prop} {requests : List Request}
    (hrequests : ∀ request ∈ requests, ∀ bindings, request.bindings = .ok bindings →
      ∀ b ∈ bindings, P b) {r : Register} (hr : ∀ b ∈ r, P b) :
    ∀ b ∈ (run rule r requests).1, P b := by
  induction requests generalizing r with
  | nil => exact hr
  | cons request requests ih =>
    obtain ⟨hfirst, hrest⟩ := List.forall_mem_cons.mp hrequests
    apply ih hrest
    cases hb : request.bindings with
    | error e => exact hr
    | ok bindings =>
      simp only [Except.bind]
      cases hfold : bindings.foldlM (accept rule) r with
      | error e => exact hr
      | ok later =>
        rw [foldlM_accept hfold]
        intro b hmem
        rcases List.mem_append.mp hmem with hold | hnew
        · exact hr b hold
        · exact hfirst bindings hb b hnew

theorem isSome_block? (rule : ClashRule) (r : Register) (path : Text) :
    (block? rule r path).isSome ↔ path ∈ r.map Prod.fst := by
  cases rule <;> simp [block?, Option.isSome_iff_ne_none]

end Register

namespace Outline

structure IsTrieOf (rule : ClashRule) (o : Outline) (r : Register) : Prop where
  rule_eq : o.rule = rule
  block_eq : ∀ path, o.block? path = Register.block? rule r path
  node_iff : ∀ segments, segments ≠ [] →
    ((o.root.descend? segments).isSome ↔ ∃ b ∈ r, segments <+: b.1.splitOn '.')
  root_block : o.root.block = none
  ordered : o.root.Ordered
  fruitful : o.root.Fruitful

theorem isTrieOf_empty (rule : ClashRule) : (empty rule).IsTrieOf rule [] := by
  have hdescend : ∀ segments, (empty rule).root.descend? segments =
      if segments = [] then some {} else none := fun segments =>
    Node.descend?_of_children_eq_nil rfl segments
  refine ⟨rfl, ?_, ?_, rfl, ?_, ?_⟩
  · intro path
    rw [block?, node?, hdescend, if_neg (Text.splitOn_ne_nil '.' path)]
    cases rule <;> rfl
  · intro segments hne
    simp [hdescend, hne]
  · intro segments m hm
    rw [hdescend] at hm
    split at hm
    · cases hm
      exact Keyed.increasing_nil
    · cases hm
  · intro segments m hne hm
    rw [hdescend, if_neg hne] at hm
    cases hm

/-- Filing a block is accepting it, where the path is free or the block there is to be replaced. -/
theorem IsTrieOf.file {rule : ClashRule} {o : Outline} {r : Register} (h : o.IsTrieOf rule r)
    {path : Text} (hfree : rule = .replace ∨ o.block? path = none) (block : Block) :
    (o.file path block).IsTrieOf rule (r ++ [(path, block)]) := by
  refine ⟨h.rule_eq, ?_, ?_, ?_, h.ordered.file block _ _, h.fruitful.file block _ _⟩
  · intro other
    rw [block?_file, Register.block?_append, h.block_eq]
    by_cases hother : other = path
    · rcases hfree with hrule | hnone
      · simp [hother, hrule]
      · rw [← h.block_eq path, hnone]
        simp [hother]
    · simp [hother]
  · intro segments hne
    rw [Outline.file, Node.isSome_descend?_file, h.node_iff segments hne]
    simp [or_comm]
  · rw [Outline.file, Node.block_file, if_neg (Text.splitOn_ne_nil '.' path)]
    exact h.root_block

/-- A block that is passed over changes nothing, and its path was accepted before. -/
theorem IsTrieOf.keep {o : Outline} {r : Register} (h : o.IsTrieOf .keep r) {path : Text}
    (hheld : (o.block? path).isSome) (block : Block) :
    o.IsTrieOf .keep (r ++ [(path, block)]) := by
  rw [h.block_eq] at hheld
  refine ⟨h.rule_eq, ?_, ?_, h.root_block, h.ordered, h.fruitful⟩
  · intro other
    obtain ⟨earlier, hearlier⟩ := Option.isSome_iff_exists.mp hheld
    rw [Register.block?_append, h.block_eq]
    by_cases hother : other = path
    · simp [hother, hearlier]
    · simp [hother]
  · intro segments hne
    rw [h.node_iff segments hne]
    obtain ⟨b, hb, hpath⟩ := List.mem_map.mp ((Register.isSome_block? ..).mp hheld)
    constructor
    · rintro ⟨c, hc, hpre⟩
      exact ⟨c, List.mem_append_left _ hc, hpre⟩
    · rintro ⟨c, hc, hpre⟩
      rcases List.mem_append.mp hc with hc | hc
      · exact ⟨c, hc, hpre⟩
      · rw [List.mem_singleton.mp hc] at hpre
        exact ⟨b, hb, hpath ▸ hpre⟩

/-- An outline and a register answer alike when one block is added. -/
theorem IsTrieOf.addAt {rule : ClashRule} {o : Outline} {r : Register} (h : o.IsTrieOf rule r)
    (path : Text) (block : Block) :
    match Register.accept rule r (path, block) with
    | .ok r' => (o.addAt path block).2 = .ok () ∧ (o.addAt path block).1.IsTrieOf rule r'
    | .error e => (o.addAt path block).2 = .error e := by
  unfold Register.accept Outline.addAt
  rw [h.rule_eq, ← h.block_eq]
  cases hold : o.block? path with
  | none => exact ⟨rfl, h.file (Or.inr hold) block⟩
  | some earlier =>
    cases rule with
    | replace => exact ⟨rfl, h.file (Or.inl rfl) block⟩
    | keep => exact ⟨rfl, h.keep (by simp [hold]) block⟩
    | refuse => rfl

theorem IsTrieOf.addEach {rule : ClashRule} {o : Outline} {r : Register} (h : o.IsTrieOf rule r)
    (bindings : List (Text × Block)) :
    match bindings.foldlM (Register.accept rule) r with
    | .ok r' => (o.addEach bindings).2 = .ok () ∧ (o.addEach bindings).1.IsTrieOf rule r'
    | .error e => (o.addEach bindings).2 = .error e := by
  induction bindings generalizing o r with
  | nil => exact ⟨rfl, h⟩
  | cons binding bindings ih =>
    obtain ⟨path, block⟩ := binding
    have hstep := h.addAt path block
    rw [List.foldlM_cons, Outline.addEach]
    rcases hadd : o.addAt path block with ⟨later, outcome⟩
    rw [hadd] at hstep
    cases haccept : Register.accept rule r (path, block) with
    | error e =>
      rw [haccept] at hstep
      cases hstep
      rfl
    | ok r' =>
      rw [haccept] at hstep
      obtain ⟨hok, htrie⟩ := hstep
      cases hok
      exact ih htrie

/-- Every request adds its blocks together. -/
theorem serve_eq (o : Outline) (request : Request) :
    o.serve request = match request.bindings with
      | .error e => (o, .error e)
      | .ok bindings => o.addTogether bindings := by
  have hone : ∀ path block, o.addTogether [(path, block)] = o.addAt path block := by
    intro path block
    unfold addTogether Outline.addEach Outline.addEach Outline.addAt
    cases o.block? path with
    | none => rfl
    | some earlier => cases o.rule <;> rfl
  cases request with
  | add block =>
    rw [Request.bindings, resolve_cons, serve, add]
    cases block.path with
    | error e => rfl
    | ok path => exact (hone path block).symm
  | addAt path block => exact (hone path block).symm
  | addAll blocks => exact addAll_eq o blocks

theorem IsTrieOf.serve {rule : ClashRule} {o : Outline} {r : Register} (h : o.IsTrieOf rule r)
    (request : Request) :
    (o.serve request).2 = (Register.serve rule r request).2 ∧
      (o.serve request).1.IsTrieOf rule (Register.serve rule r request).1 := by
  rw [serve_eq, Register.serve]
  cases request.bindings with
  | error e => exact ⟨rfl, h⟩
  | ok bindings =>
    have heach := h.addEach bindings
    simp only [addTogether, Except.bind]
    rcases hrun : o.addEach bindings with ⟨later, outcome⟩
    rw [hrun] at heach
    cases hfold : bindings.foldlM (Register.accept rule) r with
    | error e =>
      rw [hfold] at heach
      cases heach
      exact ⟨rfl, h⟩
    | ok r' =>
      rw [hfold] at heach
      obtain ⟨hok, htrie⟩ := heach
      cases hok
      exact ⟨rfl, htrie⟩

/-- The requests of a run are answered alike, and the outline stays the trie of the register. -/
theorem IsTrieOf.run {rule : ClashRule} {o : Outline} {r : Register} (h : o.IsTrieOf rule r)
    (requests : List Request) :
    (o.run requests).2 = (Register.run rule r requests).2 ∧
      (o.run requests).1.IsTrieOf rule (Register.run rule r requests).1 := by
  induction requests generalizing o r with
  | nil => exact ⟨rfl, h⟩
  | cons request requests ih =>
    obtain ⟨houtcome, hserve⟩ := h.serve request
    obtain ⟨houtcomes, hrun⟩ := ih hserve
    exact ⟨by simp only [Outline.run, Register.run, houtcome, houtcomes], hrun⟩

/-- Where every block of a batch is accepted, an empty outline becomes the trie of the batch. -/
theorem addAll_empty_of_accepted (rule : ClashRule) {blocks : List Block}
    {resolved : List (Text × Block)} (hres : resolve blocks = .ok resolved)
    (haccept : resolved.foldlM (Register.accept rule) [] = .ok resolved) :
    ((empty rule).addAll blocks).2 = .ok () ∧
      ((empty rule).addAll blocks).1.IsTrieOf rule resolved := by
  have hserve := (isTrieOf_empty rule).serve (.addAll blocks)
  rw [Register.serve, Request.bindings, hres] at hserve
  simp only [Except.bind, haccept] at hserve
  exact hserve

/-- What filing a block preserves, a run of requests preserves. -/
theorem run_preserves {P : Outline → Prop} (hfile : ∀ o path block, P o → P (o.file path block))
    {o : Outline} (h : P o) (requests : List Request) : P (o.run requests).1 := by
  have hat : ∀ o path block, P o → P (o.addAt path block).1 := by
    intro o path block ho
    unfold addAt
    split
    · exact ho
    · exact ho
    · exact hfile o path block ho
  have heach : ∀ (bindings : List (Text × Block)) o, P o → P (o.addEach bindings).1 := by
    intro bindings
    induction bindings with
    | nil => exact fun o ho => ho
    | cons binding bindings ih =>
      intro o ho
      have hnext := hat o binding.1 binding.2 ho
      unfold addEach
      split
      · rename_i hadd
        rw [hadd] at hnext
        exact ih _ hnext
      · rename_i hadd
        rw [hadd] at hnext
        exact hnext
  have hserve : ∀ o request, P o → P (o.serve request).1 := by
    intro o request ho
    rw [serve_eq]
    cases request.bindings with
    | error e => exact ho
    | ok bindings =>
      have hlater := heach bindings o ho
      simp only [addTogether]
      split
      · rename_i hrun
        rw [hrun] at hlater
        exact hlater
      · exact ho
  induction requests generalizing o with
  | nil => exact h
  | cons request requests ih => exact ih (hserve o request h)

/-- The beginning of a path's segments makes a path. -/
theorem exists_splitOn_eq {segments : List Text} {path : Text} (hne : segments ≠ [])
    (h : segments <+: path.splitOn '.') : ∃ start : Text, start.splitOn '.' = segments := by
  refine ⟨['.'].intercalate segments, Text.splitOn_intercalate ?_ hne⟩
  intro segment hs
  exact Text.notMem_of_mem_splitOn (h.subset hs)

/-- The length of the trie of a register is the number of its paths. -/
theorem IsTrieOf.length_eq {rule : ClashRule} {o : Outline} {r : Register}
    (h : o.IsTrieOf rule r) : o.length = (r.map Prod.fst).toFinset.card := by
  set filled := (o.root.descendants.filter fun p => p.2.block.isSome).map Prod.fst with hfilled
  have hnodup : filled.Nodup :=
    h.ordered.nodup_descendants.sublist (List.filter_sublist.map Prod.fst)
  have hmem : ∀ segments, segments ∈ filled ↔
      segments ≠ [] ∧ ((o.root.descend? segments).bind Node.block).isSome := by
    intro segments
    simp only [hfilled, List.mem_map, List.mem_filter, Prod.exists, exists_and_right,
      exists_eq_right, h.ordered.mem_descendants_iff]
    cases o.root.descend? segments <;> simp
  have himage : filled.toFinset = (r.map Prod.fst).toFinset.image (Text.splitOn '.') := by
    ext segments
    rw [List.mem_toFinset, hmem, Finset.mem_image]
    constructor
    · rintro ⟨hne, hblock⟩
      have hnode : (o.root.descend? segments).isSome := by
        cases hd : o.root.descend? segments with
        | none => simp [hd] at hblock
        | some n => rfl
      obtain ⟨b, -, hpre⟩ := (h.node_iff segments hne).mp hnode
      obtain ⟨path, rfl⟩ := exists_splitOn_eq hne hpre
      refine ⟨path, ?_, rfl⟩
      rw [List.mem_toFinset, ← Register.isSome_block? rule, ← h.block_eq]
      exact hblock
    · rintro ⟨path, hpath, rfl⟩
      rw [List.mem_toFinset, ← Register.isSome_block? rule, ← h.block_eq] at hpath
      exact ⟨Text.splitOn_ne_nil '.' path, hpath⟩
  rw [Outline.length_eq, ← List.length_map Prod.fst, ← hfilled,
    ← List.toFinset_card_of_nodup hnodup, himage,
    Finset.card_image_of_injective _ (Text.splitOn_injective '.')]

theorem IsTrieOf.isEmpty_iff {rule : ClashRule} {o : Outline} {r : Register}
    (h : o.IsTrieOf rule r) : o.isEmpty = true ↔ o.length = 0 := by
  rw [h.length_eq, Finset.card_eq_zero, List.toFinset_eq_empty_iff, List.map_eq_nil_iff, isEmpty,
    List.isEmpty_iff]
  constructor
  · intro hnil
    rw [List.eq_nil_iff_forall_not_mem]
    intro b hb
    have hnode := (h.node_iff _ (Text.splitOn_ne_nil '.' b.1)).mpr ⟨b, hb, List.prefix_rfl⟩
    rw [Node.descend?_of_children_eq_nil hnil, if_neg (Text.splitOn_ne_nil '.' b.1)] at hnode
    cases hnode
  · intro hr
    rw [List.eq_nil_iff_forall_not_mem]
    rintro ⟨segment, child⟩ hc
    have hnode : (o.root.descend? [segment]).isSome := by
      rw [Node.descend?_cons, h.ordered.mem_children_iff.mp hc]
      rfl
    obtain ⟨b, hb, -⟩ := (h.node_iff [segment] (by simp)).mp hnode
    rw [hr] at hb
    cases hb

/-- After any run of requests the outline is the trie of the accepted blocks. -/
theorem run_eq_trie (rule : ClashRule) (requests : List Request) :
    let o := ((empty rule).run requests).1
    let r := (Register.run rule [] requests).1
    ((empty rule).run requests).2 = (Register.run rule [] requests).2 ∧
      (∀ path, o.block? path = Register.block? rule r path) ∧
      (∀ path, (o.node? path).isSome ↔
        path.splitOn '.' ≠ [] ∧ ∃ b ∈ r, path.splitOn '.' <+: b.1.splitOn '.') ∧
      (∀ segments, segments ≠ [] →
        ((o.root.descend? segments).isSome ↔ ∃ b ∈ r, segments <+: b.1.splitOn '.')) ∧
      (∀ segments n, segments ≠ [] → o.root.descend? segments = some n → n.children = [] →
        n.block.isSome) ∧
      o.root.block = none ∧
      (∃ occupied : Finset Text,
        (∀ path, path ∈ occupied ↔ (Register.block? rule r path).isSome) ∧
          o.length = occupied.card) ∧
      (o.isEmpty = true ↔ o.length = 0) := by
  intro o r
  obtain ⟨houtcomes, htrie⟩ := (isTrieOf_empty rule).run requests
  refine ⟨houtcomes, htrie.block_eq, ?_, htrie.node_iff, htrie.fruitful, htrie.root_block, ?_,
    htrie.isEmpty_iff⟩
  · intro path
    have hne := Text.splitOn_ne_nil '.' path
    rw [and_iff_right hne]
    exact htrie.node_iff _ hne
  · refine ⟨(r.map Prod.fst).toFinset, ?_, htrie.length_eq⟩
    intro path
    rw [List.mem_toFinset, Register.isSome_block?]

end Outline

end DocComment
