import DocComment.Draft
import DocComment.Proofs.KeyedOrder
import DocComment.Proofs.TagMarks
import Mathlib.Data.List.TakeWhile

/-! # The groups of a finished block

The lines of a block up to its end delimiter fall into a leading run of free text and the groups
behind it, each a tagged line with the free text that follows.  What a draft comes to when it takes
further lines is said beforehand, one line keeps it, and so the finished block is this grouping. -/

namespace DocComment

namespace Draft

@[simp] theorem take_start (d : Draft) : d.take .start = d := by
  cases d with
  | mk block current closed => cases closed <;> rfl

/-- Only an end delimiter closes an open draft. -/
theorem closed_take {d : Draft} (h : d.closed = false) (line : Line) :
    (d.take line).closed = decide (line = .stop) := by
  cases line with
  | start => simp [h]
  | stop => simp [take, h]
  | tagged tag payload => simp [take, h]
  | raw desc => cases hc : d.current <;> simp [take, h, hc]

theorem result_take_stop {d : Draft} (h : d.closed = false) :
    (d.take .stop).result = .ok d.filed := by
  simp [take, h, result, filed]

theorem place_filed (d : Draft) : d.filed.place = d.block.place := by
  cases h : d.current <;> simp [filed, h]

theorem place_take (d : Draft) (line : Line) : (d.take line).block.place = d.block.place := by
  cases hd : d.closed with
  | true => simp [take, hd]
  | false =>
    cases line with
    | start => simp
    | stop => simp [take, hd]
    | tagged tag payload => simp [take, hd, place_filed]
    | raw desc => cases hc : d.current <;> simp [take, hd, hc]

theorem place_foldl_take (d : Draft) (lines : List Line) :
    (lines.foldl take d).block.place = d.block.place := by
  induction lines generalizing d with
  | nil => rfl
  | cons line lines ih => rw [List.foldl_cons, ih, place_take]

theorem foldl_take_filter_start (d : Draft) (lines : List Line) :
    (lines.filter (· != .start)).foldl take d = lines.foldl take d := by
  induction lines generalizing d with
  | nil => rfl
  | cons line lines ih =>
    by_cases hline : line = .start
    · simp [hline, ih]
    · simp [hline, ih]

end Draft

theorem Tag.ctorIdx_injective : Function.Injective Tag.ctorIdx :=
  Function.LeftInverse.injective Tag.ofNat_ctorIdx

instance : IsStrictTotalOrder Tag (· < ·) where
  irrefl a := Nat.lt_irrefl a.ctorIdx
  trans _ _ _ hab hbc := Nat.lt_trans hab hbc
  trichotomous a b hab hba := by
    apply Tag.ctorIdx_injective
    exact Nat.le_antisymm (Nat.le_of_not_lt hba) (Nat.le_of_not_lt hab)

theorem Tag.all_increasing : Tag.all.Pairwise (· < ·) := by decide

namespace Line

def isRaw : Line → Bool
  | raw _ => true
  | _ => false

@[simp] theorem takeWhile_isRaw_raw (desc : Text) (rest : List Line) :
    (raw desc :: rest).takeWhile isRaw = raw desc :: rest.takeWhile isRaw := rfl

@[simp] theorem takeWhile_isRaw_tagged (tag : Tag) (payload : Payload) (rest : List Line) :
    (tagged tag payload :: rest).takeWhile isRaw = [] := rfl

/-- Whether the line is kept in a block, in its description or in an entry. -/
def isContent : Line → Bool
  | tagged _ _ | raw _ => true
  | start | stop => false

end Line

/-- The lines of a block: those before the first end delimiter that are no start delimiter. -/
def Draft.counted (lines : List Line) : List Line :=
  (lines.takeWhile (· != .stop)).filter (· != .start)

/-- Each tagged line under its tag, with all free text up to the next tagged line. -/
def groups : List Line → List (Tag × Entry)
  | [] => []
  | .tagged tag payload :: rest =>
    (tag, .tagged tag payload :: rest.takeWhile Line.isRaw) :: groups rest
  | _ :: rest => groups rest

/-- The groups under one tag. -/
def headed (tag : Tag) (gs : List (Tag × Entry)) : List Entry :=
  (gs.filter (·.1 = tag)).map Prod.snd

/-- The block with the leading run of free text as its description and the groups as its entries.
Only tags with a group are bound. -/
def Block.grouped (place : Location) (lines : List Line) : Block where
  place := place
  desc := lines.takeWhile Line.isRaw
  tags := (Tag.all.map fun tag => (tag, headed tag (groups lines))).filter (!·.2.isEmpty)

/-! ### Laws of the grouping -/

theorem groups_headed (lines : List Line) :
    ∀ g ∈ groups lines, ∃ payload texts, g.2 = .tagged g.1 payload :: texts ∧
      ∀ line ∈ texts, line.isRaw = true := by
  fun_induction groups lines with
  | case1 => simp
  | case2 tag payload rest ih =>
    refine List.forall_mem_cons.mpr ⟨?_, ih⟩
    exact ⟨payload, rest.takeWhile Line.isRaw, rfl, fun line hline => List.mem_takeWhile_imp hline⟩
  | case3 line rest hline ih => exact ih

/-- The leading run and the groups put one after the other are the lines again. -/
theorem leading_append_groups {lines : List Line} (h : ∀ line ∈ lines, line.isContent = true) :
    lines.takeWhile Line.isRaw ++ (groups lines).flatMap Prod.snd = lines := by
  induction lines with
  | nil => rfl
  | cons line lines ih =>
    obtain ⟨hline, hlines⟩ := List.forall_mem_cons.mp h
    have hrest := ih hlines
    cases line with
    | start => cases hline
    | stop => cases hline
    | raw desc => simpa [groups] using hrest
    | tagged tag payload => simpa [groups] using hrest

theorem isContent_of_mem_counted (lines : List Line) :
    ∀ line ∈ Draft.counted lines, line.isContent = true := by
  intro line hline
  obtain ⟨hbefore, hstart⟩ := List.mem_filter.mp hline
  have hstop := List.mem_takeWhile_imp hbefore
  cases line with
  | start => simp at hstart
  | stop => simp at hstop
  | tagged tag payload => rfl
  | raw desc => rfl

/-! ### Filing groups -/

/-- Groups filed one after the other, each last under its tag. -/
def fileGroups (tags : Keyed Tag (List Entry)) (gs : List (Tag × Entry)) :
    Keyed Tag (List Entry) :=
  gs.foldl (fun m g => Keyed.insert g.1 ((Keyed.get? g.1 m).getD [] ++ [g.2]) m) tags

theorem increasing_fileGroups {tags : Keyed Tag (List Entry)} (h : Keyed.Increasing tags)
    (gs : List (Tag × Entry)) : Keyed.Increasing (fileGroups tags gs) := by
  induction gs generalizing tags with
  | nil => exact h
  | cons g gs ih => exact ih (h.insert g.1 _)

theorem headed_cons (tag : Tag) (g : Tag × Entry) (gs : List (Tag × Entry)) :
    headed tag (g :: gs) = if g.1 = tag then g.2 :: headed tag gs else headed tag gs := by
  by_cases h : g.1 = tag <;> simp [headed, h]

theorem get?_fileGroups (tag : Tag) (tags : Keyed Tag (List Entry)) (gs : List (Tag × Entry)) :
    Keyed.get? tag (fileGroups tags gs) =
      if headed tag gs = [] then Keyed.get? tag tags
      else some ((Keyed.get? tag tags).getD [] ++ headed tag gs) := by
  induction gs generalizing tags with
  | nil => rfl
  | cons g gs ih =>
    have hstep := ih (Keyed.insert g.1 ((Keyed.get? g.1 tags).getD [] ++ [g.2]) tags)
    rw [fileGroups, List.foldl_cons, ← fileGroups, hstep, Keyed.get?_insert, headed_cons]
    by_cases h : g.1 = tag
    · subst h
      by_cases hnil : headed g.1 gs = [] <;> simp [hnil]
    · have hne : tag ≠ g.1 := fun heq => h heq.symm
      simp [h, hne]

theorem increasing_grouped (place : Location) (lines : List Line) :
    Keyed.Increasing (Block.grouped place lines).tags := by
  have hall := Tag.all_increasing
  have hmap : (Tag.all.map fun tag => (tag, headed tag (groups lines))).Pairwise
      (fun p q => p.1 < q.1) := List.pairwise_map.mpr hall
  exact List.pairwise_map.mpr (hmap.sublist List.filter_sublist)

theorem get?_grouped (place : Location) (lines : List Line) (tag : Tag) :
    Keyed.get? tag (Block.grouped place lines).tags =
      if headed tag (groups lines) = [] then none else some (headed tag (groups lines)) := by
  have hinc := increasing_grouped place lines
  have hmem : ∀ v, (tag, v) ∈ (Block.grouped place lines).tags ↔
      v = headed tag (groups lines) ∧ v ≠ [] := by
    intro v
    have htag := Tag.mem_all tag
    simp only [Block.grouped, List.mem_filter, List.mem_map, Prod.mk.injEq]
    constructor
    · rintro ⟨⟨_, -, rfl, rfl⟩, hne⟩
      exact ⟨rfl, by simpa using hne⟩
    · rintro ⟨rfl, hne⟩
      exact ⟨⟨tag, htag, rfl, rfl⟩, by simpa using hne⟩
  by_cases hnil : headed tag (groups lines) = []
  · rw [if_pos hnil, Option.eq_none_iff_forall_ne_some]
    intro v hv
    obtain ⟨rfl, hne⟩ := (hmem v).mp (Keyed.mem_of_get? hv)
    exact hne hnil
  · rw [if_neg hnil]
    exact hinc.get?_of_mem ((hmem _).mpr ⟨rfl, hnil⟩)

/-- Filing the groups of some lines binds each tag to the groups under it. -/
theorem fileGroups_groups (place : Location) (lines : List Line) :
    fileGroups [] (groups lines) = (Block.grouped place lines).tags := by
  apply (increasing_fileGroups Keyed.increasing_nil _).ext (increasing_grouped place lines)
  intro tag
  rw [get?_fileGroups, get?_grouped]
  rfl

theorem entries_grouped (place : Location) (lines : List Line) (tag : Tag) :
    (Block.grouped place lines).entries tag = headed tag (groups lines) := by
  rw [Block.entries, get?_grouped]
  by_cases hnil : headed tag (groups lines) = [] <;> simp [hnil]

namespace Draft

/-! ### What a draft comes to -/

/-- The groups to be filed once some lines have been taken. The entry opened last goes on with the
free text that the lines begin with. -/
def pending (d : Draft) (lines : List Line) : List (Tag × Entry) :=
  match d.current with
  | none => groups lines
  | some (tag, entry) => (tag, entry ++ lines.takeWhile Line.isRaw) :: groups lines

/-- The block that a draft comes to with some lines. -/
def outcome (d : Draft) (lines : List Line) : Block where
  place := d.block.place
  desc := d.block.desc ++ if d.current.isNone then lines.takeWhile Line.isRaw else []
  tags := fileGroups d.block.tags (d.pending lines)

theorem outcome_nil (d : Draft) : d.outcome [] = d.filed := by
  cases hc : d.current with
  | none => simp [outcome, pending, filed, fileGroups, groups, hc]
  | some g => simp [outcome, pending, filed, fileGroups, groups, Block.entries, hc]

/-- Taking a line does not change what the draft comes to with it. -/
theorem outcome_take {d : Draft} (hd : d.closed = false) {line : Line}
    (hline : line.isContent = true) (lines : List Line) :
    (d.take line).outcome lines = d.outcome (line :: lines) := by
  cases line with
  | start => cases hline
  | stop => cases hline
  | raw desc =>
    cases hc : d.current with
    | none => simp [take, outcome, pending, groups, hd, hc]
    | some g => simp [take, outcome, pending, groups, hd, hc]
  | tagged tag payload =>
    cases hc : d.current with
    | none => simp [take, outcome, pending, groups, filed, hd, hc]
    | some g =>
      simp [take, outcome, pending, groups, filed, fileGroups, Block.entries, hd, hc]

theorem filed_foldl_take {d : Draft} (hd : d.closed = false) {lines : List Line}
    (h : ∀ line ∈ lines, line.isContent = true) :
    (lines.foldl take d).filed = d.outcome lines := by
  induction lines generalizing d with
  | nil => exact d.outcome_nil.symm
  | cons line lines ih =>
    obtain ⟨hline, hlines⟩ := List.forall_mem_cons.mp h
    have hne : line ≠ .stop := by
      rintro rfl
      cases hline
    have hopen : (d.take line).closed = false := by simp [closed_take hd, hne]
    rw [List.foldl_cons, ih hopen hlines, outcome_take hd hline]

theorem filed_counted (place : Location) (lines : List Line) :
    ((counted lines).foldl take (new place)).filed = Block.grouped place (counted lines) := by
  have hfiled := filed_foldl_take (d := new place) rfl (isContent_of_mem_counted lines)
  have htags := fileGroups_groups place (counted lines)
  rw [hfiled]
  simp only [outcome, pending, new, htags]
  rfl

/-! ### The end delimiter -/

theorem foldl_take_of_closed {d : Draft} (hd : d.closed = true) (lines : List Line) :
    lines.foldl take d = d := by
  induction lines with
  | nil => rfl
  | cons line lines ih =>
    have hstep : d.take line = d := by simp [take, hd]
    rw [List.foldl_cons, hstep, ih]

theorem closed_foldl_take {d : Draft} (hd : d.closed = false) (lines : List Line) :
    (lines.foldl take d).closed = decide (.stop ∈ lines) := by
  induction lines generalizing d with
  | nil => simpa using hd
  | cons line lines ih =>
    have hclosed := closed_take hd line
    by_cases hline : line = .stop
    · subst hline
      have hstop : (d.take .stop).closed = true := by simpa using hclosed
      rw [List.foldl_cons, foldl_take_of_closed hstop, hstop]
      simp
    · have hopen : (d.take line).closed = false := by simpa [hline] using hclosed
      have hne : Line.stop ≠ line := fun heq => hline heq.symm
      rw [List.foldl_cons, ih hopen]
      simp [hne]

/-- Only the lines that count matter to the block. -/
theorem filed_foldl_counted {d : Draft} (hd : d.closed = false) (lines : List Line) :
    (lines.foldl take d).filed = ((counted lines).foldl take d).filed := by
  rw [counted, foldl_take_filter_start]
  induction lines generalizing d with
  | nil => rfl
  | cons line lines ih =>
    have hclosed := closed_take hd line
    by_cases hline : line = .stop
    · subst hline
      have hstop : (d.take .stop).closed = true := by simpa using hclosed
      rw [List.foldl_cons, foldl_take_of_closed hstop]
      simp [take, hd, filed]
    · have hopen : (d.take line).closed = false := by simpa [hline] using hclosed
      rw [List.foldl_cons, ih hopen, List.takeWhile_cons_of_pos (by simpa using hline),
        List.foldl_cons]

theorem filed_foldl_of_notMem (place : Location) {lines : List Line} (h : Line.stop ∉ lines) :
    (lines.foldl take (new place)).filed = Block.grouped place (lines.filter (· != .start)) := by
  have hbefore : lines.takeWhile (· != .stop) = lines := by
    rw [List.takeWhile_eq_self_iff]
    intro line hline
    simpa using ne_of_mem_of_not_mem hline h
  rw [filed_foldl_counted rfl, filed_counted, counted, hbefore]

/-- A draft that takes any lines is closed just when an end delimiter is among them.  Closed, it
gives the grouping of the lines that count, in which each group stands once, in order and under its
own tag. -/
theorem result_eq_grouped (place : Location) (lines : List Line) :
    let d := lines.foldl take (new place)
    let body := counted lines
    (d.closed = true ↔ .stop ∈ lines) ∧
      d.result = (if d.closed then .ok (Block.grouped place body)
        else .error (.unterminated place)) ∧
      (Block.grouped place body).desc = body.takeWhile Line.isRaw ∧
      (∀ tag, (Block.grouped place body).entries tag =
        ((groups body).filter (·.1 = tag)).map Prod.snd) ∧
      (∀ g ∈ groups body, ∃ payload texts, g.2 = .tagged g.1 payload :: texts ∧
        ∀ line ∈ texts, line.isRaw = true) ∧
      body.takeWhile Line.isRaw ++ (groups body).flatMap Prod.snd = body := by
  intro d body
  have hnew : (new place).closed = false := rfl
  have hfiled : d.filed = Block.grouped place body := by
    rw [filed_foldl_counted hnew, filed_counted]
  have hplace : d.block.place = place := place_foldl_take (new place) lines
  refine ⟨?_, ?_, rfl, entries_grouped place body, groups_headed body,
    leading_append_groups (isContent_of_mem_counted lines)⟩
  · rw [closed_foldl_take hnew, decide_eq_true_iff]
  · rw [result, hfiled, hplace]

end Draft

end DocComment
