import DocComment.Proofs.DraftGroups

/-! # Lines attached where they belong

A block may also be filled in place.  Each line is put at once under its tag, and free text is attached
to the entry opened last, which is told by its tag and its position there.  Should there be no such entry,
the text would go into the description.  At every line such a block is the block of the draft with its
current entry filed, and the position is that of the current entry, so the two come to the same. -/

namespace DocComment

/-- Where free text goes. -/
inductive Attachment where
  | description
  | entry (tag : Tag) (index : Nat)
  deriving DecidableEq, Repr

structure AttachingDraft where
  block : Block
  attachment : Attachment := .description
  closed : Bool := false
  deriving DecidableEq, Repr

namespace AttachingDraft

def new (place : Location) : AttachingDraft := { block := { place } }

/-- The block with a line attached, in the description where the entry is missing. -/
def attached (d : AttachingDraft) (line : Line) : Block :=
  match d.attachment with
  | .description => { d.block with desc := d.block.desc ++ [line] }
  | .entry tag index =>
    match (Keyed.get? tag d.block.tags).bind (·[index]?) with
    | none => { d.block with desc := d.block.desc ++ [line] }
    | some entry =>
      let entries := (d.block.entries tag).set index (entry ++ [line])
      { d.block with tags := Keyed.insert tag entries d.block.tags }

def take (d : AttachingDraft) (line : Line) : AttachingDraft :=
  if d.closed then d
  else match line with
    | .start => d
    | .stop => { d with closed := true }
    | .raw _ => { d with block := d.attached line }
    | .tagged tag _ =>
      let entries := d.block.entries tag ++ [[line]]
      { d with
        block := { d.block with tags := Keyed.insert tag entries d.block.tags }
        attachment := .entry tag (entries.length - 1) }

def result (d : AttachingDraft) : Except Problem Block :=
  if d.closed then .ok d.block else .error (.unterminated d.block.place)

/-- The block is that of the draft with its current entry filed, and free text goes into that entry. -/
structure Represents (a : AttachingDraft) (d : Draft) : Prop where
  block : a.block = d.filed
  closed : a.closed = d.closed
  attachment : a.attachment = match d.current with
    | none => .description
    | some (tag, _) => .entry tag (d.block.entries tag).length

theorem new_represents (place : Location) : Represents (new place) (.new place) := ⟨rfl, rfl, rfl⟩

variable {a : AttachingDraft} {d : Draft}

theorem attached_of_current_eq_none (h : Represents a d) (hc : d.current = none) (line : Line) :
    a.attached line = { d.block with desc := d.block.desc ++ [line] } := by
  have hattachment := h.attachment
  have hblock := h.block
  rw [hc] at hattachment
  rw [Draft.filed, hc] at hblock
  rw [attached, hattachment, hblock]

/-- The entry that free text is attached to is there. -/
theorem attached_of_current (h : Represents a d) {tag : Tag} {entry : Entry}
    (hc : d.current = some (tag, entry)) (line : Line) :
    a.attached line = { d.block with
      tags := Keyed.insert tag (d.block.entries tag ++ [entry ++ [line]]) d.block.tags } := by
  have hattachment := h.attachment
  have hblock := h.block
  rw [hc] at hattachment
  rw [Draft.filed, hc] at hblock
  have hentries : Keyed.get? tag a.block.tags = some (d.block.entries tag ++ [entry]) := by
    rw [hblock, Keyed.get?_insert, if_pos rfl]
  have hfound : (Keyed.get? tag a.block.tags).bind (·[(d.block.entries tag).length]?) =
      some entry := by
    rw [hentries]
    exact List.getElem?_concat_length
  rw [attached, hattachment]
  simp only [hfound]
  rw [Block.entries, hentries, Option.getD_some, List.set_append_right _ _ (Nat.le_refl _),
    Nat.sub_self, List.set_cons_zero, hblock, Keyed.insert_insert]

theorem take_represents (h : Represents a d) (line : Line) :
    Represents (a.take line) (d.take line) := by
  cases hd : d.closed with
  | true =>
    have ha : a.take line = a := if_pos (h.closed.trans hd)
    have hdraft : d.take line = d := if_pos hd
    rwa [ha, hdraft]
  | false =>
    have ha : a.closed = false := h.closed.trans hd
    cases line with
    | start => simpa [take, ha] using h
    | stop =>
      have hstep : a.take .stop = { a with closed := true } := by simp [take, ha]
      have hdraft : d.take .stop = { d with closed := true } := by simp [Draft.take, hd]
      rw [hstep, hdraft]
      exact ⟨h.block, rfl, h.attachment⟩
    | raw desc =>
      have hstep : a.take (.raw desc) = { a with block := a.attached (.raw desc) } := by
        simp [take, ha]
      rw [hstep]
      cases hc : d.current with
      | none =>
        rw [attached_of_current_eq_none h hc]
        constructor <;> simp [Draft.take, Draft.filed, h.closed, h.attachment, hd, hc]
      | some g =>
        rw [attached_of_current h hc]
        constructor <;> simp [Draft.take, Draft.filed, h.closed, h.attachment, hd, hc]
    | tagged tag payload =>
      let entries := a.block.entries tag ++ [[.tagged tag payload]]
      have hstep : a.take (.tagged tag payload) =
          { a with
            block := { a.block with tags := Keyed.insert tag entries a.block.tags }
            attachment := .entry tag (entries.length - 1) } := by
        simp [take, ha, entries]
      rw [hstep]
      constructor <;> simp [Draft.take, Draft.filed, entries, h.block, h.closed, hd]

theorem foldl_take_represents (h : Represents a d) (lines : List Line) :
    Represents (lines.foldl take a) (lines.foldl Draft.take d) := by
  induction lines generalizing a d with
  | nil => exact h
  | cons line lines ih => exact ih (take_represents h line)

/-- Whatever lines are taken, a block filled in place and a draft close at the same line and give the same
block, or the same problem. -/
theorem result_foldl_take (place : Location) (lines : List Line) :
    let filled := lines.foldl take (new place)
    let draft := lines.foldl Draft.take (.new place)
    filled.closed = draft.closed ∧ filled.block = draft.filed ∧ filled.result = draft.result := by
  intro filled draft
  have h : Represents filled draft := foldl_take_represents (new_represents place) lines
  refine ⟨h.closed, h.block, ?_⟩
  rw [result, Draft.result, h.closed, h.block, Draft.place_filed]

end AttachingDraft

end DocComment
