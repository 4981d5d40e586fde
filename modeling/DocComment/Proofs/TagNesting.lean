import DocComment.Proofs.LinksAndSpans

/-! # Tags that are closed in the order in which they are open

A text is read from left to right with a stack of the elements that are open.  The tag of a link is one tag
with its address, in which no other tag stands.  A text begins with at most one tag, so what can be read
next is told by how the text begins. -/

namespace DocComment.Markup
open Text

/-- The elements that a rich text has. -/
inductive Inline where
  | link
  | code

/-- The tags that a rich text has. -/
inductive InlineTag where
  | openLink (address : Text) (h : Plain address)
  | closeLink
  | openCode
  | closeCode

namespace InlineTag

def text : InlineTag → Text
  | openLink address _ => "<a href=\"" ++ (address ++ "\" target=\"_blank\">")
  | closeLink => "</a>"
  | openCode => "<code>"
  | closeCode => "</code>"

/-- What is open behind the tag. Only the element that was opened last can be closed. -/
def step : InlineTag → List Inline → Option (List Inline)
  | openLink _ _, stack => some (.link :: stack)
  | openCode, stack => some (.code :: stack)
  | closeLink, .link :: stack => some stack
  | closeCode, .code :: stack => some stack
  | _, _ => none

end InlineTag

/-- The text closes what the stack has open, the last first, and all that it opens itself. -/
inductive Closes : List Inline → Text → Prop where
  | done : Closes [] []
  | char {c : Char} {stack : List Inline} {t : Text} (h : Plain [c]) :
      Closes stack t → Closes stack (c :: t)
  | tag {tag : InlineTag} {stack stack' : List Inline} {t : Text} (h : tag.step stack = some stack') :
      Closes stack' t → Closes stack (tag.text ++ t)

/-- Every tag of a link and of a code span is closed, the last one opened first, and no tag stands in an
address. -/
def WellNested (t : Text) : Prop := Closes [] t

/-! ### How a text begins -/

theorem append_cons_ne {x y s t : Text} {c d : Char} (hne : c ≠ d) (hx : d ∉ x) (hy : c ∉ y) :
    x ++ c :: s ≠ y ++ d :: t := by
  intro h
  rcases List.append_eq_append_iff.mp h with ⟨z, rfl, hz⟩ | ⟨z, rfl, hz⟩
  · cases z with
    | nil => exact hne (List.cons.inj hz).1
    | cons e z =>
      obtain ⟨rfl, -⟩ := List.cons.inj hz
      simp at hy
  · cases z with
    | nil => exact hne (List.cons.inj hz).1.symm
    | cons e z =>
      obtain ⟨rfl, -⟩ := List.cons.inj hz
      simp at hx

/-- An address ends at the first double quote. -/
theorem address_append_inj {x y s t : Text} (hx : Plain x) (hy : Plain y)
    (h : x ++ ("\" target=\"_blank\">" ++ s) = y ++ ("\" target=\"_blank\">" ++ t)) : x = y ∧ s = t := by
  have hends : ∀ {x : Text} (u : Text), Plain x →
      upTo? "\" target=\"_blank\">" (x ++ ("\" target=\"_blank\">" ++ u)) = some (x, u) :=
    fun u hx => upTo?_append_mark (hx '"' (by simp)) u
  have hsame := (hends s hx).symm.trans (h ▸ hends t hy)
  exact Prod.mk.inj (Option.some.inj hsame)

theorem head?_append_of_head? {x : Text} {c : Char} (h : x.head? = some c) (t : Text) :
    (x ++ t).head? = some c := by
  rw [List.head?_append, h, Option.some_or]

namespace InlineTag

theorem openLink_append (address t : Text) (h : Plain address) :
    (openLink address h).text ++ t =
      "<a href=\"" ++ (address ++ ("\" target=\"_blank\">" ++ t)) := by
  -- The pieces are named: the equations of the definition are slow to make with the literals in them.
  have happend (x y z : Text) : x ++ (y ++ z) ++ t = x ++ (y ++ (z ++ t)) := by
    rw [List.append_assoc, List.append_assoc]
  exact happend "<a href=\"" address "\" target=\"_blank\">"

theorem head?_append (tag : InlineTag) (t : Text) : (tag.text ++ t).head? = some '<' := by
  cases tag with
  | openLink address h =>
    rw [openLink_append]
    exact head?_append_of_head? (by decide) _
  | closeLink | openCode | closeCode => rfl

/-- No tag begins as another one does. -/
theorem append_inj {tag tag' : InlineTag} {t t' : Text} (h : tag.text ++ t = tag'.text ++ t') :
    tag = tag' ∧ t = t' := by
  cases tag with
  | openLink address haddress =>
    cases tag' with
    | openLink address' haddress' =>
      rw [openLink_append, openLink_append, List.append_cancel_left_eq] at h
      obtain ⟨rfl, rfl⟩ := address_append_inj haddress haddress' h
      exact ⟨rfl, rfl⟩
    | closeLink | openCode | closeCode => cases h
  | closeLink =>
    cases tag' with
    | closeLink => exact ⟨rfl, List.append_cancel_left h⟩
    | openLink | openCode | closeCode => cases h
  | openCode =>
    cases tag' with
    | openCode => exact ⟨rfl, List.append_cancel_left h⟩
    | openLink | closeLink | closeCode => cases h
  | closeCode =>
    cases tag' with
    | closeCode => exact ⟨rfl, List.append_cancel_left h⟩
    | openLink | closeLink | openCode => cases h

end InlineTag

/-! ### What can be read -/

section Steps
variable {stack : List Inline} {t : Text}

theorem closes_char {c : Char} (hc : Plain [c]) : Closes stack (c :: t) ↔ Closes stack t := by
  refine ⟨?_, .char hc⟩
  generalize hx : c :: t = x
  intro h
  cases h with
  | done => cases hx
  | char _ h =>
    cases hx
    exact h
  | @tag tag _ _ rest _ _ =>
    have hhead := tag.head?_append rest
    rw [← hx, List.head?_cons, Option.some_inj] at hhead
    rw [hhead] at hc
    exact absurd hc (by decide)

theorem closes_plain_append {x : Text} (hx : Plain x) : Closes stack (x ++ t) ↔ Closes stack t := by
  induction x with
  | nil => rfl
  | cons c x ih =>
    obtain ⟨hc, hx⟩ := (plain_append_iff (a := [c])).mp hx
    rw [List.cons_append, closes_char hc, ih hx]

/-- A text that begins with `<` is read by one of the tags. -/
theorem Closes.exists_tag {x : Text} (h : Closes stack x) (hx : x.head? = some '<') :
    ∃ tag : InlineTag, ∃ stack' t, tag.step stack = some stack' ∧ x = tag.text ++ t ∧
      Closes stack' t := by
  cases h with
  | done => cases hx
  | char hc _ =>
    cases hx
    exact absurd hc (by decide)
  | @tag tag _ stack' t hstep hrest => exact ⟨tag, stack', t, hstep, rfl, hrest⟩

theorem closes_tag (tag : InlineTag) :
    Closes stack (tag.text ++ t) ↔ ∃ stack', tag.step stack = some stack' ∧ Closes stack' t := by
  constructor
  · intro h
    obtain ⟨tag', stack', t', hstep, heq, hrest⟩ := h.exists_tag (tag.head?_append t)
    obtain ⟨rfl, rfl⟩ := InlineTag.append_inj heq
    exact ⟨stack', hstep, hrest⟩
  · rintro ⟨stack', hstep, hrest⟩
    exact .tag hstep hrest

theorem closes_openCode : Closes stack ("<code>" ++ t) ↔ Closes (.code :: stack) t :=
  (closes_tag .openCode).trans (by simp [InlineTag.step])

theorem closes_closeCode : Closes (.code :: stack) ("</code>" ++ t) ↔ Closes stack t :=
  (closes_tag .closeCode).trans (by simp [InlineTag.step])

theorem not_closes_closeCode : ¬ Closes (.link :: stack) ("</code>" ++ t) :=
  mt (closes_tag .closeCode).mp (by simp [InlineTag.step])

theorem closes_closeLink : Closes (.link :: stack) ("</a>" ++ t) ↔ Closes stack t :=
  (closes_tag .closeLink).trans (by simp [InlineTag.step])

theorem not_closes_closeLink : ¬ Closes (.code :: stack) ("</a>" ++ t) :=
  mt (closes_tag .closeLink).mp (by simp [InlineTag.step])

theorem closes_openLink {address : Text} (h : Plain address) :
    Closes stack ("<a href=\"" ++ (address ++ ("\" target=\"_blank\">" ++ t))) ↔
      Closes (.link :: stack) t := by
  rw [← InlineTag.openLink_append address t h, closes_tag]
  simp [InlineTag.step]

/-- No tag of a code span stands in an address. -/
theorem not_closes_codeInAddress {x : Text} (hx : Plain x) :
    ¬ Closes stack ("<a href=\"" ++ (x ++ ("<code>" ++ t))) := by
  intro h
  obtain ⟨tag, stack', rest, -, heq, -⟩ := h.exists_tag (head?_append_of_head? (by decide) _)
  cases tag with
  | openLink address haddress =>
    rw [InlineTag.openLink_append, List.append_cancel_left_eq] at heq
    exact append_cons_ne (by decide) (hx '"' (by simp)) (haddress '<' (by simp)) heq
  | closeLink | openCode | closeCode => cases heq

end Steps

end DocComment.Markup
