import DocComment.Text

/-!
# Markup

Elements with attributes, text made safe for a page, and the two notations that descriptions may
use: `[label]{@link address}` for a link and `{name}` for code.
-/

namespace DocComment

namespace Markup

def element (name : Text) (attributes : List (Text × Text)) (content : Text) : Text :=
  List.flatten [['<'], name,
    attributes.flatMap fun (key, value) => List.flatten [[' '], key, "='", value, "'"],
    ['>'], content, "</", name, ['>']]

/-- The four characters that markup gives a meaning to, written as entities. The ampersand comes
first, so that no entity is escaped again. -/
def escape (t : Text) : Text :=
  (((t.replaceChar '&' "&amp;").replaceChar '<' "&lt;").replaceChar '>' "&gt;").replaceChar
    '"' "&quot;"

/-- What stands before the first occurrence of a mark, and what follows the mark. -/
def upTo? (mark : Text) : Text → Option (Text × Text)
  | [] => none
  | c :: t =>
    if mark.isPrefixOf (c :: t) then some ([], (c :: t).drop mark.length)
    else (upTo? mark t).map fun (before, rest) => (c :: before, rest)

theorem length_upTo? {mark t before rest : Text} (hm : mark ≠ [])
    (h : upTo? mark t = some (before, rest)) : rest.length < t.length := by
  induction t generalizing before with
  | nil => simp [upTo?] at h
  | cons c t ih =>
    simp only [upTo?] at h
    split at h
    · simp only [Option.some.injEq, Prod.mk.injEq] at h
      have := List.length_pos_iff.mpr hm
      simp only [← h.2, List.length_drop, List.length_cons]
      omega
    · obtain ⟨⟨before', rest'⟩, ht, heq⟩ := Option.map_eq_some_iff.mp h
      simp only [Prod.mk.injEq] at heq
      have := ih (heq.2 ▸ ht)
      simp only [List.length_cons]
      omega

def link (label address : Text) : Text :=
  List.flatten ["<a href=\"", address, "\" target=\"_blank\">", label, "</a>"]

/-- The links of a line written as elements. When the first opening bracket begins no link, no
later one does. -/
def links (line : Text) : Text :=
  match _h₁ : upTo? ['['] line with
  | none => line
  | some (before, t) =>
    match _h₂ : upTo? "]\x7b@link ".toList t with
    | none => line
    | some (label, t) =>
      match _h₃ : upTo? ['\x7d'] t with
      | none => line
      | some (address, rest) => before ++ link label address ++ links rest
termination_by line.length
decreasing_by
  have := length_upTo? (by simp) _h₁
  have := length_upTo? (by simp) _h₂
  have := length_upTo? (by simp) _h₃
  omega

/-- The code spans of a line written as elements. When the first opening brace begins no span, no
later one does. -/
def codeSpans (line : Text) : Text :=
  match _h₁ : upTo? ['\x7b'] line with
  | none => line
  | some (before, t) =>
    match _h₂ : upTo? ['\x7d'] t with
    | none => line
    | some (code, rest) => before ++ element "code" [] code ++ codeSpans rest
termination_by line.length
decreasing_by
  have := length_upTo? (by simp) _h₁
  have := length_upTo? (by simp) _h₂
  omega

/-- A description as it stands on a page: escaped, then its links, then its code spans. Neither
extends over the end of a line. -/
def richText (t : Text) : Text :=
  ((escape t).mapLines links).mapLines codeSpans

end Markup

end DocComment
