import DocComment.Proofs.ScanSteps

/-! # Places in what is read

A place enters what is read only as a place: nothing is decided by it.  So reading the same lines in
another file, or further down, gives the same blocks and the same problems with their places moved. -/

namespace DocComment

variable (f : Location → Location)

def Block.relocate (b : Block) : Block := { b with place := f b.place }

def Draft.relocate (d : Draft) : Draft := { d with block := d.block.relocate f }

/-- The problem with all of its places moved. -/
def Problem.relocate : Problem → Problem
  | incomplete tag place => incomplete tag (f place)
  | nameless block => nameless (f block)
  | orphan block => orphan (f block)
  | unterminated block => unterminated (f block)
  | taken path block previous => taken path (f block) (f previous)
  | unreadable place fault => unreadable (f place) fault

/-- An outcome with its places moved, where `g` says what that makes of a result. -/
def relocateOutcome {α β : Type} (g : α → β) : Except Problem α → Except Problem β
  | .ok a => .ok (g a)
  | .error e => .error (e.relocate f)

section Outcomes

variable {f} {α α' β β' : Type} {g : α → α'} {g' : β → β'}

/-- What moves with its places at every stage moves with them in the end. -/
theorem relocateOutcome_bind {x : Except Problem α} {x' : Except Problem α'}
    {k : α → Except Problem β} {k' : α' → Except Problem β'} (hx : x' = relocateOutcome f g x)
    (hk : ∀ a, k' (g a) = relocateOutcome f g' (k a)) :
    (x' >>= k') = relocateOutcome f g' (x >>= k) := by
  subst hx
  cases x with
  | error e => rfl
  | ok a => exact hk a

theorem relocateOutcome_mapM {k : α → Except Problem β} {k' : α' → Except Problem β'}
    (hk : ∀ a, k' (g a) = relocateOutcome f g' (k a)) (l : List α) :
    (l.map g).mapM k' = relocateOutcome f (List.map g') (l.mapM k) := by
  induction l with
  | nil => rfl
  | cons a l ih =>
    rw [List.map_cons, List.mapM_cons, List.mapM_cons]
    refine relocateOutcome_bind (hk a) fun b => relocateOutcome_bind ih fun rest => ?_
    rfl

theorem toOption_relocateOutcome (x : Except Problem α) :
    (relocateOutcome f g x).toOption = x.toOption.map g := by
  cases x <;> rfl

end Outcomes

namespace Draft

variable (d : Draft)

theorem filed_relocate : (d.relocate f).filed = d.filed.relocate f := by
  cases h : d.current <;> simp [filed, relocate, Block.relocate, Block.entries, h]

theorem take_relocate (line : Line) : (d.relocate f).take line = (d.take line).relocate f := by
  cases hd : d.closed with
  | true => simp [take, relocate, hd]
  | false =>
    have hclosed : (d.relocate f).closed = false := hd
    cases line with
    | start => simp
    | stop => simp [take, relocate, hd]
    | tagged tag payload =>
      have hfiled := filed_relocate f d
      simp only [take, hd, hclosed, hfiled]
      rfl
    | raw desc => cases hc : d.current <;> simp [take, relocate, Block.relocate, hd, hc]

theorem result_relocate : (d.relocate f).result = relocateOutcome f (Block.relocate f) d.result := by
  have hfiled := filed_relocate f d
  cases hd : d.closed <;> simp [result, relocate, hd] at hfiled ⊢
  · rfl
  · rw [hfiled]
    rfl

end Draft

theorem Line.recognize_relocate (place : Location) (source : Text) :
    recognize (f place) source = relocateOutcome f id (recognize place source) := by
  unfold recognize
  dsimp only
  split
  · split <;> rfl
  · split <;> rfl

namespace Block

variable (b : Block)

theorem kind_relocate : (b.relocate f).kind = relocateOutcome f (fun kind => kind) b.kind := by
  unfold kind
  simp only [has, relocate]
  split <;> rfl

theorem id_relocate : (b.relocate f).id = relocateOutcome f (fun name => name) b.id :=
  relocateOutcome_bind (b.kind_relocate f) fun _ => rfl

theorem parentPath_relocate : (b.relocate f).parentPath = relocateOutcome f (fun path => path) b.parentPath := by
  refine relocateOutcome_bind (b.kind_relocate f) fun kind => ?_
  have hname : (b.relocate f).firstName? = b.firstName? := rfl
  rw [hname]
  by_cases hmodule : kind = .moduleBlock
  · subst hmodule
    rfl
  · simp only [if_neg hmodule]
    cases parentTags.findSome? b.firstName? <;> rfl

theorem path_relocate : (b.relocate f).path = relocateOutcome f (fun path => path) b.path := by
  refine relocateOutcome_bind (b.id_relocate f) fun name => ?_
  refine relocateOutcome_bind (b.parentPath_relocate f) fun parent => ?_
  cases parent <;> rfl

end Block

namespace Source

variable {f} {file file' : Text} {k : Nat} (hplace : ∀ n, f ⟨file, n⟩ = ⟨file', n + k⟩)

include hplace

theorem step_relocate (n : Nat) (opened : Option Draft) (l : SourceLine) :
    step file' (n + k) (opened.map (Draft.relocate f)) l =
      ((step file n opened l).1.map (relocateOutcome f (Block.relocate f)),
        (step file n opened l).2.map (Draft.relocate f)) := by
  cases l with
  | error fault => cases opened <;> simp [step, relocateOutcome, Problem.relocate, hplace]
  | ok source =>
    cases opened with
    | none =>
      simp only [Option.map_none, step]
      cases Line.opensBlock source <;>
        simp [Draft.new, Draft.relocate, Block.relocate, hplace]
    | some draft =>
      simp only [Option.map_some, step, ← hplace, Line.recognize_relocate]
      cases Line.recognize ⟨file, n⟩ source with
      | error e => rfl
      | ok line? =>
        cases line? with
        | none => rfl
        | some line =>
          cases line <;> simp [relocateOutcome, Draft.take_relocate, Draft.result_relocate]

theorem scan_relocate {n : Nat} {opened : Option Draft} (h : Unclosed opened)
    (ls : List SourceLine) :
    scan file' (n + k) (opened.map (Draft.relocate f)) ls =
      (scan file n opened ls).map (relocateOutcome f (Block.relocate f)) := by
  have hmoved : ∀ opened : Option Draft, Unclosed opened →
      Unclosed (opened.map (Draft.relocate f)) := by
    intro opened h draft hdraft
    obtain ⟨d, hd, rfl⟩ := Option.map_eq_some_iff.mp hdraft
    exact h d hd
  induction ls generalizing n opened with
  | nil => cases opened <;> simp [scan_nil, Draft.result_relocate]
  | cons l ls ih =>
    have hrest := ih (h.step file n l) (n := n + 1)
    rw [Nat.add_right_comm] at hrest
    rw [scan_cons (hmoved opened h), scan_cons h, step_relocate hplace, hrest, List.map_append,
      Option.toList_map]

omit hplace in
theorem withPath_relocate (item : Except Problem Block) :
    withPath (relocateOutcome f (Block.relocate f) item) =
      relocateOutcome f (Block.relocate f) (withPath item) :=
  relocateOutcome_bind rfl fun b => relocateOutcome_bind (b.path_relocate f) fun _ => rfl

end Source

/-- The same lines under another name give the same blocks in that file, or the same problem there. -/
theorem Source.blocks_relocate {f : Location → Location} {file file' : Text}
    (hplace : ∀ n, f ⟨file, n⟩ = ⟨file', n⟩) (lines : List SourceLine) :
    blocks file' lines = relocateOutcome f (List.map (Block.relocate f)) (blocks file lines) := by
  have hitems : items file' lines =
      (items file lines).map (relocateOutcome f (Block.relocate f)) :=
    scan_relocate (k := 0) hplace unclosed_none lines
  have hblocks : ∀ file, blocks file lines = (items file lines).mapM withPath := fun _ => rfl
  rw [hblocks, hblocks, hitems, relocateOutcome_mapM withPath_relocate]

end DocComment
