import DocComment.Proofs.EscapedText
import DocComment.Proofs.TextReplacement

/-! # Entities

An escaped text is read back by one pass over it.  An ampersand stands in it only where an entity begins,
so a character is never taken for part of an entity, not even in a text that held entities before it was
escaped. -/

namespace DocComment.Markup
open Text

/-- The entities with the characters that they stand for. -/
def entities : List (Char × Text) :=
  [('&', "&amp;"), ('<', "&lt;"), ('>', "&gt;"), ('"', "&quot;")]

/-- The character whose entity begins a text, and the length of the entity. -/
def readEntity? (t : Text) : Option (Text × Nat) :=
  (entities.find? fun e => e.2.isPrefixOf t).map fun e => ([e.1], e.2.length)

/-- The text in which each entity has given way to its character, from left to right. -/
def unescape (t : Text) : Text := substitute readEntity? 0 t

theorem head?_entity {e : Char × Text} (h : e ∈ entities) : e.2.head? = some '&' := by
  have hall : ∀ e ∈ entities, e.2.head? = some '&' := by decide
  exact hall e h

/-- An entity has no ampersand but the one that begins it. -/
theorem notMem_tail_entity {e : Char × Text} (h : e ∈ entities) : '&' ∉ e.2.tail := by
  have hall : ∀ e ∈ entities, '&' ∉ e.2.tail := by decide
  exact hall e h

theorem mem_entities_of_mem {c : Char} (h : c ∈ escapedChars) : (c, escapeChar c) ∈ entities :=
  forall_escapedChars (P := fun c => (c, escapeChar c) ∈ entities) (by decide) c h

/-! ### Where an ampersand stands -/

theorem eq_nil_of_escapeChar {c : Char} {before rest : Text}
    (h : escapeChar c = before ++ '&' :: rest) : before = [] ∧ c ∈ escapedChars := by
  by_cases hc : c ∈ escapedChars
  · refine ⟨?_, hc⟩
    have htail := notMem_tail_entity (mem_entities_of_mem hc)
    cases before with
    | nil => rfl
    | cons b before => simp [h] at htail
  · rw [escapeChar_of_notMem hc] at h
    cases before with
    | nil =>
      obtain ⟨rfl, -⟩ := List.cons.inj h
      exact ⟨rfl, by decide⟩
    | cons b before => simp at h

theorem exists_entity_of_suffix {t rest : Text} (h : '&' :: rest <:+ escape t) :
    ∃ e ∈ entities, e.2 <+: '&' :: rest := by
  induction t with
  | nil => exact absurd (List.suffix_nil.mp h) (List.cons_ne_nil _ _)
  | cons c t ih =>
    obtain ⟨before, hbefore⟩ := h
    rw [escape_cons, List.append_eq_append_iff] at hbefore
    rcases hbefore with ⟨inside, hchar, hrest⟩ | ⟨behind, -, hbehind⟩
    · cases inside with
      | nil => exact ih ⟨[], hrest⟩
      | cons a inside =>
        obtain ⟨rfl, -⟩ := List.cons.inj hrest
        obtain ⟨rfl, hc⟩ := eq_nil_of_escapeChar hchar
        refine ⟨_, mem_entities_of_mem hc, ?_⟩
        rw [hchar, hrest]
        exact List.prefix_append _ _
    · exact ih ⟨behind, hbehind.symm⟩

/-! ### Reading back -/

theorem readEntity?_append {e : Char × Text} (h : e ∈ entities) (t : Text) :
    readEntity? (e.2 ++ t) = some ([e.1], e.2.length) := by
  have hall : ∀ e ∈ entities, readEntity? (e.2 ++ t) = some ([e.1], e.2.length) := by
    simp only [entities, List.forall_mem_cons]
    exact ⟨rfl, rfl, rfl, rfl, fun _ h => absurd h List.not_mem_nil⟩
  exact hall e h

theorem readEntity?_cons {c : Char} (h : c ≠ '&') (t : Text) : readEntity? (c :: t) = none := by
  rw [readEntity?, Option.map_eq_none_iff, List.find?_eq_none]
  intro e he hprefix
  obtain ⟨rest, hrest⟩ := List.isPrefixOf_iff_prefix.mp hprefix
  have hhead := congrArg List.head? hrest
  rw [List.head?_append, head?_entity he] at hhead
  exact h (Option.some.inj hhead).symm

theorem unescape_escape (t : Text) : unescape (escape t) = t := by
  induction t with
  | nil => rfl
  | cons c t ih =>
    rw [escape_cons]
    by_cases hc : c ∈ escapedChars
    · have hentity := mem_entities_of_mem hc
      have hne : escapeChar c ≠ [] := by
        intro hnil
        have hhead := head?_entity hentity
        rw [hnil] at hhead
        cases hhead
      rw [unescape, substitute_append hne (readEntity?_append hentity _), ← unescape, ih]
      rfl
    · have hamp : c ≠ '&' := by
        rintro rfl
        exact hc (by decide)
      rw [escapeChar_of_notMem hc, List.singleton_append, unescape,
        substitute_cons (readEntity?_cons hamp _), ← unescape, ih]

theorem escape_injective : Function.Injective escape :=
  Function.LeftInverse.injective unescape_escape

/-- Escaping writes each character by itself, and what it writes can be read back. -/
theorem escape_reads_back (t : Text) :
    escape t = t.flatMap escapeChar ∧ (∀ s, escape (s ++ t) = escape s ++ escape t) ∧
      Plain (escape t) ∧
      (∀ rest, '&' :: rest <:+ escape t → ∃ e ∈ entities, e.2 <+: '&' :: rest) ∧
      unescape (escape t) = t ∧ ∀ s, escape s = escape t → s = t :=
  ⟨escape_eq_flatMap t, fun s => escape_append s t, plain_escape t,
    fun _ => exists_entity_of_suffix, unescape_escape t, fun _ h => escape_injective h⟩

/-- A text that holds an entity is told from the text that this entity stands for. -/
theorem escape_reads_back_of_entity :
    escape "&lt;" = "&amp;lt;" ∧ (∃ e ∈ entities, e.2 <+: "&amp;lt;") ∧
      unescape (escape "&lt;") = "&lt;" ∧ unescape "&lt;" = ['<'] := by
  obtain ⟨-, -, -, hentity, hback, -⟩ := escape_reads_back "&lt;"
  exact ⟨by decide, hentity "amp;lt;" (by decide), hback, by decide⟩

end DocComment.Markup
