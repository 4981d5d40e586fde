import DocComment.Proofs.RichText

/-! # The pieces of rich text

A rich text is made of the tags of links and code spans and of plain texts.  The two pieces with a double
quote are the ones around the address of a link, and they alternate: a brace in an address gives way to
a tag of a code span, which has no quote.  So nothing in a description ends an address before its end. -/

namespace DocComment.Markup

inductive Piece where
  /-- The tag of a link up to its address. -/
  | addressOpening
  /-- The rest of the tag behind the address. -/
  | addressClosing
  | linkClosing
  | codeOpening
  | codeClosing
  | plain (t : Text) (h : Plain t)

namespace Piece

def text : Piece → Text
  | addressOpening => "<a href=\""
  | addressClosing => "\" target=\"_blank\">"
  | linkClosing => "</a>"
  | codeOpening => "<code>"
  | codeClosing => "</code>"
  | plain t _ => t

@[simp] theorem text_plain (t : Text) (h : Plain t) : (plain t h).text = t := rfl

/-- Whether the piece stands at one end of an address. -/
def boundsAddress : Piece → Bool
  | addressOpening | addressClosing => true
  | _ => false

@[simp] theorem boundsAddress_plain (t : Text) (h : Plain t) : (plain t h).boundsAddress = false := rfl

theorem notMem_text {p : Piece} (h : p.boundsAddress = false) : '"' ∉ p.text := by
  cases p with
  | addressOpening | addressClosing => cases h
  | linkClosing | codeOpening | codeClosing => decide
  | plain t ht => exact ht '"' (by simp)

/-- Only plain text has braces. -/
theorem exists_plain_of_brace {p : Piece} {c : Char} (hc : c ∈ ['\x7b', '\x7d']) (h : c ∈ p.text) :
    ∃ t ht, p = plain t ht := by
  have hnone : ∀ fixed : Piece, '\x7b' ∉ fixed.text ∧ '\x7d' ∉ fixed.text → c ∉ fixed.text := by
    rintro fixed ⟨hopen, hclose⟩
    have hbrace : c = '\x7b' ∨ c = '\x7d' := by simpa using hc
    rcases hbrace with rfl | rfl
    · exact hopen
    · exact hclose
  cases p with
  | plain t ht => exact ⟨t, ht, rfl⟩
  | addressOpening | addressClosing | linkClosing | codeOpening | codeClosing =>
    exact absurd h (hnone _ (by decide))

end Piece

/-- Openings and closings of addresses, in turns. -/
inductive Alternating : List Piece → Prop where
  | nil : Alternating []
  | address {rest : List Piece} :
      Alternating rest → Alternating (.addressOpening :: .addressClosing :: rest)

namespace Alternating

theorem append {a b : List Piece} (ha : Alternating a) (hb : Alternating b) :
    Alternating (a ++ b) := by
  induction ha with
  | nil => exact hb
  | address _ ih => exact .address ih

theorem closing_of_opening {before behind : List Piece}
    (h : Alternating (before ++ .addressOpening :: behind)) :
    ∃ rest, behind = .addressClosing :: rest := by
  generalize hall : before ++ .addressOpening :: behind = all at h
  induction h generalizing before with
  | nil => simp at hall
  | @address rest _ ih =>
    match before with
    | [] =>
      cases hall
      exact ⟨rest, rfl⟩
    | [_] => cases hall
    | _ :: _ :: before => exact ih (List.cons.inj (List.cons.inj hall).2).2

end Alternating

/-- The text is made of pieces among which the ends of addresses alternate. -/
def Pieced (t : Text) : Prop :=
  ∃ pieces : List Piece, t = pieces.flatMap Piece.text ∧
    Alternating (pieces.filter Piece.boundsAddress)

theorem pieced_of_plain {t : Text} (h : Plain t) : Pieced t :=
  ⟨[.plain t h], by simp, .nil⟩

theorem pieced_link {label address : Text} (hlabel : Plain label) (haddress : Plain address) :
    Pieced (link label address) :=
  ⟨[.addressOpening, .plain address haddress, .addressClosing, .plain label hlabel, .linkClosing],
    rfl, .address .nil⟩

theorem Pieced.append {a b : Text} (ha : Pieced a) (hb : Pieced b) : Pieced (a ++ b) := by
  obtain ⟨ps, rfl, hps⟩ := ha
  obtain ⟨qs, rfl, hqs⟩ := hb
  refine ⟨ps ++ qs, List.flatMap_append.symm, ?_⟩
  rw [List.filter_append]
  exact hps.append hqs

/-- A character of a text made of pieces stands in one of them. -/
theorem exists_piece {pieces : List Piece} {x y : Text} {c : Char}
    (h : pieces.flatMap Piece.text = x ++ c :: y) :
    ∃ before p behind u v, pieces = before ++ p :: behind ∧ p.text = u ++ c :: v ∧
      x = before.flatMap Piece.text ++ u ∧ y = v ++ behind.flatMap Piece.text := by
  induction pieces generalizing x with
  | nil => simp at h
  | cons p pieces ih =>
    rw [List.flatMap_cons] at h
    rcases List.append_eq_append_iff.mp h with ⟨z, rfl, hz⟩ | ⟨z, hp, hz⟩
    · obtain ⟨before, q, behind, u, v, rfl, hq, rfl, rfl⟩ := ih hz
      exact ⟨p :: before, q, behind, u, v, rfl, hq, by simp, rfl⟩
    · cases z with
      | nil =>
        obtain ⟨before, q, behind, u, v, rfl, hq, hbefore, rfl⟩ := ih (x := []) hz.symm
        refine ⟨p :: before, q, behind, u, v, rfl, hq, ?_, rfl⟩
        rw [List.flatMap_cons, List.append_assoc, ← hbefore, hp, List.append_nil, List.append_nil]
      | cons d v =>
        obtain ⟨rfl, rfl⟩ := List.cons.inj hz
        exact ⟨[], p, pieces, x, v, rfl, hp, rfl, rfl⟩

/-- A brace may give way to a tag of a code span. -/
theorem Pieced.replace {x y : Text} {c : Char} (h : Pieced (x ++ c :: y))
    (hc : c ∈ ['\x7b', '\x7d']) (tag : Piece) (htag : tag.boundsAddress = false) :
    Pieced (x ++ (tag.text ++ y)) := by
  obtain ⟨pieces, htext, halternating⟩ := h
  obtain ⟨before, p, behind, u, v, rfl, hp, rfl, rfl⟩ := exists_piece htext.symm
  obtain ⟨t, ht, rfl⟩ := Piece.exists_plain_of_brace hc (p := p) (by rw [hp]; simp)
  obtain rfl : t = u ++ c :: v := hp
  obtain ⟨hu, hv⟩ := plain_append_iff.mp ht
  have hv : Plain v := (plain_append_iff (a := [c])).mp hv |>.2
  refine ⟨before ++ .plain u hu :: tag :: .plain v hv :: behind, by simp, ?_⟩
  simpa [List.filter_cons, htag] using halternating

/-- A rich text falls into the tags of links and code spans and into texts without `<`, `>` and `"`.
Behind each opening of an address stands its closing, with no double quote in between. -/
theorem richText_pieces (t : Text) :
    ∃ pieces : List Piece, richText t = pieces.flatMap Piece.text ∧
      ∀ before behind, pieces = before ++ .addressOpening :: behind →
        ∃ address rest, behind = address ++ .addressClosing :: rest ∧
          ∀ p ∈ address, '"' ∉ p.text := by
  obtain ⟨pieces, htext, halternating⟩ : Pieced (richText t) :=
    richText_induction (fun _ => pieced_of_plain) Pieced.append (fun _ _ => pieced_link)
      (fun _ _ h => h.replace (by simp) .codeOpening rfl)
      (fun _ _ h => h.replace (by simp) .codeClosing rfl) t
  refine ⟨pieces, htext, ?_⟩
  rintro before behind rfl
  rw [List.filter_append, List.filter_cons_of_pos rfl] at halternating
  obtain ⟨rest, hrest⟩ := halternating.closing_of_opening
  obtain ⟨address, behind', rfl, haddress, -, -⟩ := List.filter_eq_cons_iff.mp hrest
  exact ⟨address, behind', rfl, fun p hp => Piece.notMem_text (by simpa using haddress p hp)⟩

end DocComment.Markup
