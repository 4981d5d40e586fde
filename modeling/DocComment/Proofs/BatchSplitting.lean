import DocComment.Proofs.OutlineRegister

/-! # Batches and single additions

The blocks of a batch are compared beforehand, with each other and with the outline as it is, while a
block added alone is compared with the outline as the ones before have left it.  For blocks that have
paths both come to the same: the same outline, or the same first failure.  So it does not matter where
a batch is cut. -/

namespace DocComment

/-- The outcome at position `i` is a failure. -/
def FailsAt (outcomes : List (Except Problem Unit)) (i : Nat) (e : Problem) : Prop :=
  outcomes[i]? = some (.error e)

theorem first_failsAt_nil (e : Problem) : ¬ First (FailsAt []) e := by
  rintro ⟨i, hi, -⟩
  simp [FailsAt] at hi

theorem first_failsAt_cons_error (e' e : Problem) (outcomes : List (Except Problem Unit)) :
    First (FailsAt (.error e' :: outcomes)) e ↔ e' = e := by
  rw [first_iff]
  simp [FailsAt]

theorem first_failsAt_cons_ok (e : Problem) (outcomes : List (Except Problem Unit)) :
    First (FailsAt (.ok () :: outcomes)) e ↔ First (FailsAt outcomes) e := by
  rw [first_iff]
  have hsucc : First (fun i => FailsAt (.ok () :: outcomes) (i + 1)) e ↔
      First (FailsAt outcomes) e := First.congr fun i e => by simp [FailsAt]
  simp [FailsAt] at hsucc ⊢
  exact hsucc

namespace Outline

theorem run_cons (o : Outline) (request : Request) (requests : List Request) :
    o.run (request :: requests) = (((o.serve request).1.run requests).1,
      (o.serve request).2 :: ((o.serve request).1.run requests).2) := rfl

theorem run_append (o : Outline) (requests more : List Request) :
    o.run (requests ++ more) = (((o.run requests).1.run more).1,
      (o.run requests).2 ++ ((o.run requests).1.run more).2) := by
  induction requests generalizing o with
  | nil => rfl
  | cons request requests ih => simp only [List.cons_append, run_cons, ih]

/-- Blocks that have paths are added one after the other as single requests add them, up to the
first that is refused. -/
theorem addEach_singly (o : Outline) {blocks : List Block} {resolved : List (Text × Block)}
    (h : resolve blocks = .ok resolved) :
    ((o.addEach resolved).2 = .ok () →
      o.run (blocks.map .add) = ((o.addEach resolved).1, blocks.map fun _ => .ok ())) ∧
    ∀ e, (o.addEach resolved).2 = .error e ↔ First (FailsAt (o.run (blocks.map .add)).2) e := by
  induction blocks generalizing o resolved with
  | nil =>
    cases h
    exact ⟨fun _ => rfl, fun e => by simp [addEach, run, first_failsAt_nil]⟩
  | cons block blocks ih =>
    rw [resolve_cons] at h
    cases hpath : block.path with
    | error e => simp [hpath] at h
    | ok path =>
      cases hrest : resolve blocks with
      | error e => simp [hpath, hrest, Except.map] at h
      | ok rest =>
        simp only [hpath, hrest, Except.map, Except.ok.injEq] at h
        subst h
        have hserve : o.serve (.add block) = o.addAt path block := by
          rw [serve, add, hpath]
        rw [List.map_cons, run_cons, hserve, addEach]
        rcases o.addAt path block with ⟨later, outcome⟩
        cases outcome with
        | ok _ =>
          obtain ⟨hok, herror⟩ := ih later hrest
          refine ⟨fun h => ?_, fun e => ?_⟩
          · rw [hok h, List.map_cons]
          · rw [first_failsAt_cons_ok]
            exact herror e
        | error e =>
          refine ⟨fun h => (by cases h), fun e' => ?_⟩
          rw [first_failsAt_cons_error, Except.error.injEq]

/-- A batch of blocks that have paths succeeds with what single requests leave, and fails as the first
of them that fails. -/
theorem addAll_singly (o : Outline) {blocks : List Block}
    (h : ∀ block ∈ blocks, ∃ path, block.path = .ok path) :
    ((o.addAll blocks).2 = .ok () →
      o.run (blocks.map .add) = ((o.addAll blocks).1, blocks.map fun _ => .ok ())) ∧
    ∀ e, (o.addAll blocks).2 = .error e ↔ First (FailsAt (o.run (blocks.map .add)).2) e := by
  obtain ⟨resolved, hres⟩ := exists_resolve h
  obtain ⟨hok, herror⟩ := o.addEach_singly hres
  rw [addAll_eq, hres]
  dsimp only [addTogether]
  rcases hrun : o.addEach resolved with ⟨later, outcome⟩
  rw [hrun] at hok herror
  cases outcome with
  | ok _ => exact ⟨hok, herror⟩
  | error e => exact ⟨nofun, herror⟩

theorem addAll_ok_iff (o : Outline) {blocks : List Block}
    (h : ∀ block ∈ blocks, ∃ path, block.path = .ok path) :
    (o.addAll blocks).2 = .ok () ↔
      ∀ outcome ∈ (o.run (blocks.map .add)).2, outcome = .ok () := by
  obtain ⟨hok, herror⟩ := o.addAll_singly h
  constructor
  · intro hall outcome houtcome
    rw [hok hall] at houtcome
    obtain ⟨-, -, rfl⟩ := List.mem_map.mp houtcome
    rfl
  · intro hall
    cases hbatch : (o.addAll blocks).2 with
    | ok _ => rfl
    | error e =>
      obtain ⟨i, hi, -⟩ := (herror e).mp hbatch
      cases hall _ (List.mem_of_getElem? hi)

theorem exists_taken_of_addAll {o : Outline} {blocks : List Block} {e : Problem}
    (h : ∀ block ∈ blocks, ∃ path, block.path = .ok path) (he : (o.addAll blocks).2 = .error e) :
    ∃ path block previous, e = .taken path block previous := by
  obtain ⟨resolved, hres⟩ := exists_resolve h
  simp only [addAll_eq, hres, addTogether_snd] at he
  obtain ⟨-, i, ⟨path, block, previous, -, -, rfl⟩, -⟩ := (addEach_error_iff o resolved e).mp he
  exact ⟨path, block.place, previous.place, rfl⟩

/-- Where single requests succeed, so do the batches that the blocks are cut into. -/
theorem run_batches (o : Outline) {batches : List (List Block)}
    (h : ∀ block ∈ batches.flatten, ∃ path, block.path = .ok path)
    (hok : ∀ outcome ∈ (o.run (batches.flatten.map .add)).2, outcome = .ok ()) :
    o.run (batches.map .addAll) =
      ((o.run (batches.flatten.map .add)).1, batches.map fun _ => .ok ()) := by
  induction batches generalizing o with
  | nil => rfl
  | cons batch batches ih =>
    rw [List.flatten_cons, List.forall_mem_append] at h
    rw [List.flatten_cons, List.map_append, run_append, List.forall_mem_append] at hok
    have hbatch := (o.addAll_ok_iff h.1).mpr hok.1
    have hsingly := (o.addAll_singly h.1).1 hbatch
    have hrest := ih (o.addAll batch).1 h.2 (by rw [hsingly] at hok; exact hok.2)
    rw [List.flatten_cons, List.map_append, run_append, hsingly, List.map_cons, run_cons, serve,
      hbatch, hrest, List.map_cons]

/-- Blocks that have paths are added together just as they are added one at a time: with success just
when each of them succeeds, then with the same outline, and otherwise with the failure of the first
that fails, which is a path already taken.  A batch that succeeds may be cut into batches at any
places. -/
theorem addAll_agrees_with_add (o : Outline) {blocks : List Block}
    (h : ∀ block ∈ blocks, ∃ path, block.path = .ok path) :
    let singly := o.run (blocks.map .add)
    ((o.addAll blocks).2 = .ok () ↔ ∀ outcome ∈ singly.2, outcome = .ok ()) ∧
      ((o.addAll blocks).2 = .ok () →
        (o.addAll blocks).1 = singly.1 ∧ (o.addAll blocks).1.walk.items = singly.1.walk.items) ∧
      (∀ e, (o.addAll blocks).2 = .error e ↔ First (FailsAt singly.2) e) ∧
      (∀ e, (o.addAll blocks).2 = .error e → ∃ path block previous, e = .taken path block previous) ∧
      ∀ batches : List (List Block), batches.flatten = blocks → (o.addAll blocks).2 = .ok () →
        o.run (batches.map .addAll) = ((o.addAll blocks).1, batches.map fun _ => .ok ()) := by
  intro singly
  obtain ⟨hok, herror⟩ := o.addAll_singly h
  have hsame : (o.addAll blocks).2 = .ok () → (o.addAll blocks).1 = singly.1 := by
    intro hbatch
    simp only [singly, hok hbatch]
  refine ⟨o.addAll_ok_iff h, fun hbatch => ⟨hsame hbatch, by rw [hsame hbatch]⟩, herror,
    fun e he => exists_taken_of_addAll h he, ?_⟩
  rintro batches rfl hbatch
  rw [o.run_batches h ((o.addAll_ok_iff h).mp hbatch), hsame hbatch]

/-- Under the rule `refuse` a second module `m` fails in a batch as it does alone, and a batch of the
modules `m` and `n` may be cut between them. -/
theorem addAll_agrees_on_modules :
    let block (line : Nat) (name : Text) : Block :=
      ⟨⟨"f.js", line⟩, [], [(.moduleName, [[.tagged .moduleName (.label name)]])]⟩
    let o := empty .refuse
    let e : Problem := .taken "m" ⟨"f.js", 5⟩ ⟨"f.js", 1⟩
    ((∀ b ∈ [block 1 "m", block 5 "m"], ∃ path, b.path = .ok path) ∧
      First (FailsAt (o.run [.add (block 1 "m"), .add (block 5 "m")]).2) e ∧
      (o.addAll [block 1 "m", block 5 "m"]).2 = .error e) ∧
    (∀ b ∈ [block 1 "m", block 5 "n"], ∃ path, b.path = .ok path) ∧
      (o.addAll [block 1 "m", block 5 "n"]).2 = .ok () ∧
      o.run [.addAll [block 1 "m"], .addAll [block 5 "n"]] =
        ((o.addAll [block 1 "m", block 5 "n"]).1, [.ok (), .ok ()]) := by
  intro block o e
  have hpath : ∀ line name, (block line name).path = .ok name := fun _ _ => rfl
  have hsame : ∀ b ∈ [block 1 "m", block 5 "m"], ∃ path, b.path = .ok path := by
    simp [hpath]
  have hother : ∀ b ∈ [block 1 "m", block 5 "n"], ∃ path, b.path = .ok path := by
    simp [hpath]
  have hfail : (o.addAll [block 1 "m", block 5 "m"]).2 = .error e := by decide +kernel
  have hok : (o.addAll [block 1 "m", block 5 "n"]).2 = .ok () := by decide +kernel
  refine ⟨⟨hsame, ?_, hfail⟩, hother, hok, ?_⟩
  · exact ((addAll_agrees_with_add o hsame).2.2.1 e).mp hfail
  · exact (addAll_agrees_with_add o hother).2.2.2.2 [[block 1 "m"], [block 5 "n"]] rfl hok

end Outline

end DocComment
