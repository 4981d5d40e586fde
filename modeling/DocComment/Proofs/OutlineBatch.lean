import DocComment.Proofs.OutlineFiling
import Mathlib.Data.Set.List
import Mathlib.Tactic.Common

/-!
# Adding the blocks of one source

The blocks of a source are added together or not at all.  The comparison made beforehand says of
every block what adding it in its turn would say, so once it has passed no addition is refused, and
the outline is never left with a part of the blocks.
-/

namespace DocComment

section Outcomes

variable {α β ε : Type} {f : α → Except ε β}

theorem mapM_eq_ok_iff {l : List α} {ys : List β} :
    l.mapM f = .ok ys ↔ l.map f = ys.map .ok := by
  induction l generalizing ys with
  | nil =>
    cases ys with
    | nil => simp [pure, Except.pure]
    | cons y ys => simp [pure, Except.pure]
  | cons a l ih =>
    rw [List.mapM_cons, List.map_cons]
    cases ys with
    | nil => cases f a <;> cases l.mapM f <;> simp [bind, Except.bind, pure, Except.pure]
    | cons y ys =>
      rw [List.map_cons, List.cons.injEq, ← ih]
      cases f a <;> cases l.mapM f <;> simp [bind, Except.bind, pure, Except.pure]

theorem exists_mapM_eq_ok {l : List α} (h : ∀ a ∈ l, ∃ b, f a = .ok b) :
    ∃ ys, l.mapM f = .ok ys := by
  have hrange : l.map f ∈ Set.range (List.map (Except.ok : β → Except ε β)) := by
    rw [Set.range_list_map]
    intro outcome houtcome
    obtain ⟨a, ha, rfl⟩ := List.mem_map.mp houtcome
    obtain ⟨b, hb⟩ := h a ha
    exact ⟨b, hb.symm⟩
  obtain ⟨ys, hys⟩ := hrange
  exact ⟨ys, mapM_eq_ok_iff.mpr hys.symm⟩

end Outcomes

/-- What `P` gives at the first place where it gives anything. -/
def First (P : Nat → Problem → Prop) (e : Problem) : Prop :=
  ∃ i, P i e ∧ ∀ j < i, ∀ e', ¬ P j e'

theorem first_iff (P : Nat → Problem → Prop) (e : Problem) :
    First P e ↔ P 0 e ∨ (∀ e', ¬ P 0 e') ∧ First (fun i => P (i + 1)) e := by
  constructor
  · rintro ⟨i, hi, hfirst⟩
    cases i with
    | zero => exact Or.inl hi
    | succ i =>
      refine Or.inr ⟨hfirst 0 i.succ_pos, i, hi, fun j hj => ?_⟩
      exact hfirst (j + 1) (Nat.succ_lt_succ hj)
  · rintro (h | ⟨h, i, hi, hfirst⟩)
    · exact ⟨0, h, fun j hj => absurd hj j.not_lt_zero⟩
    · refine ⟨i + 1, hi, fun j hj => ?_⟩
      cases j with
      | zero => exact h
      | succ j => exact hfirst j (Nat.lt_of_succ_lt_succ hj)

theorem First.congr {P Q : Nat → Problem → Prop} (h : ∀ i e, P i e ↔ Q i e) {e : Problem} :
    First P e ↔ First Q e := by
  rw [show P = Q from funext fun i => funext fun e => propext (h i e)]

namespace Outline

/-! ### The comparison beforehand -/

/-- The comparison beforehand and the additions one by one have the same outcome. In `seen` are the
blocks that are already in the later outline and not in the one the comparison looks at. -/
theorem addEach_outcome (o : Outline) (seen : List (Text × Block)) (later : Outline)
    (hrule : later.rule = .refuse)
    (hseen : ∀ path, later.block? path = (seen.lookup path).or (o.block? path))
    (resolved : List (Text × Block)) :
    (later.addEach resolved).2 = (o.clash? seen resolved).elim (.ok ()) .error := by
  induction resolved generalizing seen later with
  | nil => rfl
  | cons r resolved ih =>
    obtain ⟨path, block⟩ := r
    rw [addEach, addAt, clash?, ← hseen path, hrule]
    cases hold : later.block? path with
    | some earlier => rfl
    | none =>
      apply ih ((path, block) :: seen) (later.file path block) hrule
      intro other
      rw [block?_file, List.lookup_cons]
      by_cases hother : other = path
      · simp [hother]
      · simp [hother, hseen, beq_false_of_ne hother]

theorem addEach_outcome_of_ne_refuse (o : Outline) (h : o.rule ≠ .refuse)
    (resolved : List (Text × Block)) : (o.addEach resolved).2 = .ok () := by
  induction resolved generalizing o with
  | nil => rfl
  | cons r resolved ih =>
    obtain ⟨path, block⟩ := r
    rw [addEach, addAt]
    cases hold : o.block? path with
    | none => exact ih (o.file path block) h
    | some earlier =>
      cases hrule : o.rule with
      | replace => exact ih (o.file path block) h
      | keep => exact ih o h
      | refuse => exact absurd hrule h

/-- The blocks with their paths, or the problem of the first that has none. -/
def resolve (blocks : List Block) : Except Problem (List (Text × Block)) :=
  blocks.mapM fun block => block.path.map (·, block)

/-- Adds blocks at given paths one by one, or leaves the outline as it is. -/
def addTogether (o : Outline) (resolved : List (Text × Block)) : Outline × Except Problem Unit :=
  match o.addEach resolved with
  | (later, .ok _) => (later, .ok ())
  | (_, .error e) => (o, .error e)

theorem addTogether_snd (o : Outline) (resolved : List (Text × Block)) :
    (o.addTogether resolved).2 = (o.addEach resolved).2 := by
  rw [addTogether]
  rcases o.addEach resolved with ⟨later, outcome⟩
  cases outcome <;> rfl

/-- The comparison beforehand keeps a refused addition from happening in part. -/
theorem addAll_eq (o : Outline) (blocks : List Block) :
    o.addAll blocks = match resolve blocks with
      | .error e => (o, .error e)
      | .ok resolved => o.addTogether resolved := by
  rw [addAll, ← resolve]
  cases resolve blocks with
  | error e => rfl
  | ok resolved =>
    have houtcome : (o.addEach resolved).2 =
        (if o.rule = .refuse then o.clash? [] resolved else none).elim (.ok ()) .error := by
      split
      · exact addEach_outcome o [] o ‹_› (fun path => by simp) resolved
      · exact addEach_outcome_of_ne_refuse o ‹_› resolved
    rcases hrun : o.addEach resolved with ⟨later, outcome⟩
    rw [hrun] at houtcome
    cases hclash : (if o.rule = .refuse then o.clash? [] resolved else none) with
    | none =>
      rw [hclash] at houtcome
      cases houtcome
      simp only [hclash, addTogether, hrun]
    | some e =>
      rw [hclash] at houtcome
      cases houtcome
      simp only [hclash, addTogether, hrun]

/-- Blocks that are refused leave the outline as it was. -/
theorem addAll_eq_self {o : Outline} {blocks : List Block} {e : Problem}
    (h : (o.addAll blocks).2 = .error e) : (o.addAll blocks).1 = o := by
  rw [addAll_eq] at h ⊢
  cases hres : resolve blocks with
  | error e => rfl
  | ok resolved =>
    simp only [hres, addTogether] at h ⊢
    rcases hrun : o.addEach resolved with ⟨later, outcome⟩
    cases outcome with
    | ok _ => simp [hrun] at h
    | error e => rfl

/-! ### Where the comparison fails -/

/-- The block that has a path among those filed `earlier` and those in the outline. -/
def Holder (o : Outline) (earlier : List (Text × Block)) (path : Text) (previous : Block) : Prop :=
  (path, previous) ∈ earlier ∨ o.block? path = some previous

/-- The binding at position `i` has a path that is held by one of the `seen` blocks, one before it,
or one in the outline. -/
def BindingClash (o : Outline) (seen resolved : List (Text × Block)) (i : Nat) (e : Problem) :
    Prop :=
  ∃ path block previous, resolved[i]? = some (path, block) ∧
    o.Holder (seen ++ resolved.take i) path previous ∧ e = .taken path block.place previous.place

theorem bindingClash_zero (o : Outline) (seen resolved : List (Text × Block)) (path : Text)
    (block : Block) (e : Problem) :
    o.BindingClash seen ((path, block) :: resolved) 0 e ↔
      ∃ previous, o.Holder seen path previous ∧ e = .taken path block.place previous.place := by
  simp [BindingClash]

theorem bindingClash_succ (o : Outline) (seen resolved : List (Text × Block)) (r : Text × Block)
    (i : Nat) (e : Problem) :
    o.BindingClash seen (r :: resolved) (i + 1) e ↔ o.BindingClash (r :: seen) resolved i e := by
  simp only [BindingClash, Holder, List.getElem?_cons_succ, List.take_succ_cons, List.mem_append,
    List.mem_cons, List.cons_append]
  simp only [or_left_comm]

/-- No path has two holders. -/
def Exclusive (o : Outline) (seen : List (Text × Block)) : Prop :=
  ∀ path a b, o.Holder seen path a → o.Holder seen path b → a = b

theorem Exclusive.lookup_iff {o : Outline} {seen : List (Text × Block)} (h : o.Exclusive seen)
    (path : Text) (previous : Block) :
    (seen.lookup path).or (o.block? path) = some previous ↔ o.Holder seen path previous := by
  cases hlook : seen.lookup path with
  | some found =>
    have hfound : o.Holder seen path found := by
      obtain ⟨before, after, rfl, -⟩ := List.lookup_eq_some_iff.mp hlook
      exact Or.inl (by simp)
    rw [Option.some_or, Option.some.injEq]
    exact ⟨fun he => he ▸ hfound, fun hp => h path found previous hfound hp⟩
  | none =>
    have hnot : (path, previous) ∉ seen := by
      intro hmem
      simpa using List.lookup_eq_none_iff.mp hlook _ hmem
    simp [Holder, hnot]

theorem Exclusive.cons {o : Outline} {seen : List (Text × Block)} (h : o.Exclusive seen)
    {path : Text} (hfree : ∀ previous, ¬ o.Holder seen path previous) (block : Block) :
    o.Exclusive ((path, block) :: seen) := by
  have hcases : ∀ other a, o.Holder ((path, block) :: seen) other a →
      other = path ∧ a = block ∨ o.Holder seen other a := by
    rintro other a (hmem | hold)
    · rcases List.mem_cons.mp hmem with heq | hmem
      · cases heq
        exact Or.inl ⟨rfl, rfl⟩
      · exact Or.inr (Or.inl hmem)
    · exact Or.inr (Or.inr hold)
  intro other a b ha hb
  rcases hcases other a ha with ⟨rfl, rfl⟩ | hseen
  · rcases hcases other b hb with ⟨-, rfl⟩ | hseen
    · rfl
    · exact absurd hseen (hfree b)
  · rcases hcases other b hb with ⟨rfl, -⟩ | hseen'
    · exact absurd hseen (hfree a)
    · exact h other a b hseen hseen'

/-- The comparison fails with the first binding whose path is held. -/
theorem clash?_eq_some_iff {o : Outline} {seen : List (Text × Block)} (h : o.Exclusive seen)
    (resolved : List (Text × Block)) (e : Problem) :
    o.clash? seen resolved = some e ↔ First (o.BindingClash seen resolved) e := by
  induction resolved generalizing seen with
  | nil => simp [clash?, First, BindingClash]
  | cons r resolved ih =>
    obtain ⟨path, block⟩ := r
    rw [first_iff, clash?]
    cases hlook : (seen.lookup path).or (o.block? path) with
    | some earlier =>
      have hheld := (h.lookup_iff path earlier).mp hlook
      simp only [bindingClash_zero, Option.some.injEq]
      constructor
      · rintro rfl
        exact Or.inl ⟨earlier, hheld, rfl⟩
      · rintro (⟨previous, hprevious, rfl⟩ | ⟨hnone, -⟩)
        · rw [h path earlier previous hheld hprevious]
        · exact absurd ⟨earlier, hheld, rfl⟩ (hnone _)
    | none =>
      have hfree : ∀ previous, ¬ o.Holder seen path previous := by
        intro previous hp
        rw [← h.lookup_iff path previous, hlook] at hp
        cases hp
      have hzero : ∀ e', ¬ o.BindingClash seen ((path, block) :: resolved) 0 e' := by
        rintro e' h0
        obtain ⟨previous, hp, -⟩ := (bindingClash_zero ..).mp h0
        exact hfree previous hp
      simp only [hzero, false_or, not_false_eq_true, implies_true, true_and]
      rw [ih (h.cons hfree block)]
      exact First.congr fun i e => (bindingClash_succ o seen resolved (path, block) i e).symm

/-! ### In terms of the blocks themselves -/

/-- The block at position `i` has no path. -/
def UnresolvedAt (blocks : List Block) (i : Nat) (e : Problem) : Prop :=
  ∃ block, blocks[i]? = some block ∧ block.path = .error e

/-- The path of the block at position `i` is that of a block before it or of one in the outline. -/
def ClashAt (o : Outline) (blocks : List Block) (i : Nat) (e : Problem) : Prop :=
  ∃ block path previous, blocks[i]? = some block ∧ block.path = .ok path ∧
    (previous ∈ blocks.take i ∧ previous.path = .ok path ∨ o.block? path = some previous) ∧
    e = .taken path block.place previous.place

theorem resolve_cons (block : Block) (blocks : List Block) :
    resolve (block :: blocks) = match block.path with
      | .error e => .error e
      | .ok path => (resolve blocks).map ((path, block) :: ·) := by
  rw [resolve, List.mapM_cons, ← resolve]
  cases block.path with
  | error e => rfl
  | ok path => cases resolve blocks <;> rfl

/-- Resolving fails with the first block that has no path. -/
theorem resolve_eq_error_iff (blocks : List Block) (e : Problem) :
    resolve blocks = .error e ↔ First (UnresolvedAt blocks) e := by
  induction blocks with
  | nil => simp [resolve, First, UnresolvedAt, pure, Except.pure]
  | cons block blocks ih =>
    have hsucc : First (fun i => UnresolvedAt (block :: blocks) (i + 1)) e ↔
        First (UnresolvedAt blocks) e := First.congr fun i e => by simp [UnresolvedAt]
    rw [first_iff, hsucc, ← ih, resolve_cons]
    cases hpath : block.path with
    | error e' => simp [UnresolvedAt, hpath]
    | ok path => cases resolve blocks <;> simp [UnresolvedAt, hpath, Except.map]

theorem resolve_eq_ok {blocks : List Block} {resolved : List (Text × Block)}
    (h : resolve blocks = .ok resolved) :
    resolved.map Prod.snd = blocks ∧ ∀ r ∈ resolved, r.2.path = .ok r.1 := by
  induction blocks generalizing resolved with
  | nil =>
    cases h
    simp
  | cons block blocks ih =>
    rw [resolve_cons] at h
    cases hpath : block.path with
    | error e => simp [hpath] at h
    | ok path =>
      cases hrest : resolve blocks with
      | error e => simp [hpath, hrest, Except.map] at h
      | ok rest =>
        simp only [hpath, hrest, Except.map, Except.ok.injEq] at h
        subst h
        obtain ⟨hsnd, hpaths⟩ := ih hrest
        refine ⟨by rw [List.map_cons, hsnd], ?_⟩
        exact List.forall_mem_cons.mpr ⟨hpath, hpaths⟩

theorem exists_resolve {blocks : List Block} (h : ∀ block ∈ blocks, ∃ path, block.path = .ok path) :
    ∃ resolved, resolve blocks = .ok resolved := by
  apply exists_mapM_eq_ok
  intro block hblock
  obtain ⟨path, hpath⟩ := h block hblock
  exact ⟨(path, block), by rw [hpath]; rfl⟩

theorem bindingClash_iff {blocks : List Block} {resolved : List (Text × Block)}
    (h : resolve blocks = .ok resolved) (o : Outline) (i : Nat) (e : Problem) :
    o.BindingClash [] resolved i e ↔ o.ClashAt blocks i e := by
  obtain ⟨rfl, hpaths⟩ := resolve_eq_ok h
  constructor
  · rintro ⟨path, block, previous, hget, hold, rfl⟩
    have hpath := hpaths (path, block) (List.mem_of_getElem? hget)
    refine ⟨block, path, previous, by simp [hget], hpath, ?_, rfl⟩
    refine hold.imp_left fun hmem => ?_
    rw [List.nil_append] at hmem
    rw [← List.map_take]
    exact ⟨List.mem_map_of_mem (f := Prod.snd) hmem, hpaths _ (List.mem_of_mem_take hmem)⟩
  · rintro ⟨block, path, previous, hget, hpath, hold, rfl⟩
    rw [List.getElem?_map, Option.map_eq_some_iff] at hget
    obtain ⟨⟨path', block'⟩, hget, rfl⟩ := hget
    have hsame := (hpaths _ (List.mem_of_getElem? hget)).symm.trans hpath
    cases hsame
    refine ⟨path', block', previous, hget, ?_, rfl⟩
    refine hold.imp_left fun hmem => ?_
    obtain ⟨hmem, hprevious⟩ := hmem
    rw [← List.map_take, List.mem_map] at hmem
    obtain ⟨⟨path, block⟩, hmem, rfl⟩ := hmem
    have hsame := (hpaths _ (List.mem_of_mem_take hmem)).symm.trans hprevious
    cases hsame
    exact hmem

theorem addEach_error_iff (o : Outline) (resolved : List (Text × Block)) (e : Problem) :
    (o.addEach resolved).2 = .error e ↔
      o.rule = .refuse ∧ First (o.BindingClash [] resolved) e := by
  by_cases hrule : o.rule = .refuse
  · have hexcl : o.Exclusive [] := by
      intro path a b ha hb
      simp only [Holder, List.not_mem_nil, false_or] at ha hb
      exact Option.some.inj (ha.symm.trans hb)
    rw [addEach_outcome o [] o hrule (fun path => by simp), ← clash?_eq_some_iff hexcl]
    cases o.clash? [] resolved <;> simp [hrule]
  · simp [addEach_outcome_of_ne_refuse o hrule, hrule]

/-- The blocks of a source that are refused leave the outline exactly as it was. They are refused
for the first block without a path, and when all have one, under the rule `refuse` only, for the
first block whose path is held by a block before it or by one in the outline. -/
theorem addAll_atomic (o : Outline) (blocks : List Block) (e : Problem) :
    ((o.addAll blocks).2 = .error e → (o.addAll blocks).1 = o) ∧
      ((o.addAll blocks).2 = .error e ↔
        First (UnresolvedAt blocks) e ∨
          (∀ block ∈ blocks, ∃ path, block.path = .ok path) ∧ o.rule = .refuse ∧
            First (o.ClashAt blocks) e) := by
  rw [addAll_eq]
  cases hres : resolve blocks with
  | error e' =>
    have hsome : ¬ ∀ block ∈ blocks, ∃ path, block.path = .ok path := by
      obtain ⟨i, ⟨block, hget, hpath⟩, -⟩ := (resolve_eq_error_iff blocks e').mp hres
      intro hall
      obtain ⟨path, hok⟩ := hall block (List.mem_of_getElem? hget)
      rw [hpath] at hok
      cases hok
    rw [← resolve_eq_error_iff, hres]
    simp [hsome]
  | ok resolved =>
    have hall : ∀ block ∈ blocks, ∃ path, block.path = .ok path := by
      obtain ⟨rfl, hpaths⟩ := resolve_eq_ok hres
      intro block hblock
      obtain ⟨r, hr, rfl⟩ := List.mem_map.mp hblock
      exact ⟨r.1, hpaths r hr⟩
    have hclash := addEach_error_iff o resolved e
    rw [First.congr fun i e => bindingClash_iff hres o i e] at hclash
    rw [← resolve_eq_error_iff, hres, ← hclash, and_iff_right hall]
    dsimp only [addTogether]
    rcases o.addEach resolved with ⟨later, outcome⟩
    cases outcome <;> simp

end Outline

end DocComment
