import DocComment.SourceLines
import DocComment.Proofs.TextWords
import Mathlib.Data.List.Basic

/-! # Line ends

Every piece but the last is ended, and is a line without the carriage return at its end.  So the lines
of ended text and of what stands behind it are the lines of both, and a property that a carriage return
does not spoil holds of all pieces once it holds of the lines. -/

namespace DocComment.SourceLine

section Pieces

variable {α : Type} [DecidableEq α] (cr : α)

/-- A piece without one carriage return `cr` at its end. -/
def stripped (piece : List α) : List α := ([cr].isSuffixOf? piece).getD piece

theorem stripped_append (piece : List α) : stripped cr (piece ++ [cr]) = piece := by
  have hsome : [cr].isSuffixOf? (piece ++ [cr]) = some piece :=
    List.isSuffixOf?_eq_some_iff_append_eq.mpr rfl
  rw [stripped, hsome, Option.getD_some]

theorem stripped_eq_self {piece : List α} (h : piece.getLast? ≠ some cr) :
    stripped cr piece = piece := by
  cases hsuffix : [cr].isSuffixOf? piece with
  | none => rw [stripped, hsuffix, Option.getD_none]
  | some rest =>
    rw [← List.isSuffixOf?_eq_some_iff_append_eq.mp hsuffix, List.getLast?_concat] at h
    exact absurd rfl h

theorem ended_cons_cons (piece next : List α) (rest : List (List α)) :
    ended cr (piece :: next :: rest) = stripped cr piece :: ended cr (next :: rest) := rfl

theorem ended_append (pieces : List (List α)) {more : List (List α)} (hmore : more ≠ []) :
    ended cr (pieces ++ more) = pieces.map (stripped cr) ++ ended cr more := by
  induction pieces with
  | nil => rfl
  | cons piece pieces ih =>
    obtain ⟨next, rest, hrest⟩ := List.exists_cons_of_ne_nil
      (List.append_ne_nil_of_right_ne_nil pieces hmore)
    rw [List.cons_append, hrest, ended_cons_cons, ← hrest, ih, List.map_cons, List.cons_append]

/-- What holds of the lines holds of the pieces that they were cut from. -/
theorem forall_of_ended {P : List α → Prop} (hnil : P []) (hcr : ∀ line, P line → P (line ++ [cr]))
    {pieces : List (List α)} (h : ∀ line ∈ ended cr pieces, P line) : ∀ piece ∈ pieces, P piece := by
  induction pieces with
  | nil => simp
  | cons piece pieces ih =>
    cases pieces with
    | nil =>
      rw [List.forall_mem_singleton]
      by_cases hpiece : piece = []
      · exact hpiece ▸ hnil
      · exact h piece (by simp [ended, hpiece])
    | cons next pieces =>
      rw [ended_cons_cons, List.forall_mem_cons] at h
      rw [List.forall_mem_cons]
      refine ⟨?_, ih h.2⟩
      by_cases hlast : piece.getLast? = some cr
      · obtain ⟨line, rfl⟩ := List.getLast?_eq_some_iff.mp hlast
        exact hcr line (stripped_append cr line ▸ h.1)
      · exact stripped_eq_self cr hlast ▸ h.1

end Pieces

/-- Text of ended lines may be cut off in front. -/
theorem textLines_append {a : Text} (h : a = [] ∨ a.getLast? = some '\n') (b : Text) :
    textLines (a ++ b) = textLines a ++ textLines b := by
  rcases h with rfl | h
  · rfl
  · obtain ⟨a, rfl⟩ := List.getLast?_eq_some_iff.mp h
    have hlines : ∀ b, textLines (a ++ '\n' :: b) =
        (Text.splitOn '\n' a).map (stripped '\r') ++ textLines b := by
      intro b
      rw [textLines, Text.splitOn_append_cons, ended_append _ _ (Text.splitOn_ne_nil '\n' b), textLines]
    have hempty : textLines [] = [] := rfl
    rw [List.append_assoc, List.singleton_append, hlines, hlines, hempty, List.append_nil]

end DocComment.SourceLine
