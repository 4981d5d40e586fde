import DocComment.TypeUnion
import DocComment.Proofs.TextWords
import Mathlib.Data.List.DropRight
import Mathlib.Data.List.Infix
import Mathlib.Tactic.Tauto

/-! # Reading type annotations

An annotation is a union with the sign of its modifier on one side and braces around both.  Reading takes
the braces off, then the sign, then one pair of parentheses, and cuts the rest at its bars.  So a type is
read back from what is written for it just when nothing in its union is taken for a sign or for such a
pair.  The pair is told by the first and the last character alone: where these belong to two members of
a union, both members lose one of theirs. -/

namespace DocComment.TypeUnion

/-- The members of a union with bars between them. -/
def union (members : List Text) : Text := ['|'].intercalate members

/-- A text with the sign of a modifier on its side. -/
def signed : Option Modifier → Text → Text
  | none, t => t
  | some .optional, t => t ++ ['=']
  | some .nullable, t => '?' :: t
  | some .nonNullable, t => '!' :: t

def braced (t : Text) : Text := '\x7b' :: (t ++ ['\x7d'])

def parenthesized (t : Text) : Text := '(' :: (t ++ [')'])

theorem print_eq (e : TypeUnion) : e.print = braced (signed e.modifier (union e.members)) := by
  obtain ⟨members, modifier⟩ := e
  rcases modifier with - | - | - | - <;> simp [print, signed, union, isOptional, braced]

/-! ### Braces and parentheses -/

theorem unbrace_braced (t : Text) : unbrace (braced t) = t := by
  have hopen : ['\x7b'].isPrefixOf? (braced t) = some (t ++ ['\x7d']) :=
    List.isPrefixOf?_eq_some_iff_append_eq.mpr rfl
  have hclose : ['\x7d'].isSuffixOf? (t ++ ['\x7d']) = some t :=
    List.isSuffixOf?_eq_some_iff_append_eq.mpr rfl
  rw [unbrace, hopen, Option.getD_some, hclose, Option.getD_some]

theorem parse_braced (t : Text) :
    parse (braced t) = ⟨(unparen (takeModifier t).2).splitOn '|', (takeModifier t).1⟩ := by
  rw [parse, unbrace_braced]

theorem unparen_parenthesized (t : Text) : unparen (parenthesized t) = t := by
  have hopen : ['('].isPrefixOf? (parenthesized t) = some (t ++ [')']) :=
    List.isPrefixOf?_eq_some_iff_append_eq.mpr rfl
  have hclose : [')'].isSuffixOf? (t ++ [')']) = some t :=
    List.isSuffixOf?_eq_some_iff_append_eq.mpr rfl
  rw [unparen, hopen, Option.bind_some, hclose, Option.getD_some]

theorem unparen_of_ne {t : Text} (h : ∀ inner, t ≠ parenthesized inner) : unparen t = t := by
  cases hread : (['('].isPrefixOf? t).bind ([')'].isSuffixOf? ·) with
  | none => rw [unparen, hread, Option.getD_none]
  | some inner =>
    obtain ⟨rest, hopen, hclose⟩ := Option.bind_eq_some_iff.mp hread
    rw [List.isPrefixOf?_eq_some_iff_append_eq] at hopen
    rw [List.isSuffixOf?_eq_some_iff_append_eq] at hclose
    exact absurd (by rw [parenthesized, hclose, ← hopen]; rfl) (h inner)

theorem unparen_sublist (t : Text) : (unparen t).Sublist t := by
  by_cases h : ∃ inner, t = parenthesized inner
  · obtain ⟨inner, rfl⟩ := h
    rw [unparen_parenthesized]
    exact (List.sublist_append_left inner [')']).cons '('
  · rw [unparen_of_ne (not_exists.mp h)]

theorem unparen_eq_self_iff {t : Text} : unparen t = t ↔ ∀ inner, t ≠ parenthesized inner := by
  constructor
  · rintro h inner rfl
    rw [unparen_parenthesized] at h
    have hlength := congrArg List.length h
    simp only [parenthesized, List.length_cons, List.length_append] at hlength
    omega
  · exact unparen_of_ne

/-! ### Signs -/

section TakeModifier
variable {t : Text}

theorem takeModifier_of_equals (h : t.getLast? = some '=') :
    takeModifier t = (some .optional, t.rdropWhile (· == '=')) := by
  rw [takeModifier, if_pos h]
  rfl

theorem takeModifier_of_question (hlast : t.getLast? ≠ some '=') (h : t.head? = some '?') :
    takeModifier t = (some .nullable, t.dropWhile (· == '?')) := by
  rw [takeModifier, if_neg hlast, if_pos h]

theorem takeModifier_of_bang (hlast : t.getLast? ≠ some '=') (h : t.head? = some '!') :
    takeModifier t = (some .nonNullable, t.dropWhile (· == '!')) := by
  have hquestion : t.head? ≠ some '?' := by simp [h]
  rw [takeModifier, if_neg hlast, if_neg hquestion, if_pos h]

theorem takeModifier_of_bare (hlast : t.getLast? ≠ some '=')
    (hhead : t.head? ≠ some '?' ∧ t.head? ≠ some '!') : takeModifier t = (none, t) := by
  rw [takeModifier, if_neg hlast, if_neg hhead.1, if_neg hhead.2]

end TakeModifier

private theorem getLast?_cons_eq {c d : Char} (hne : c ≠ d) (t : Text) :
    (c :: t).getLast? = some d ↔ t.getLast? = some d := by
  rw [List.getLast?_cons]
  cases t.getLast? <;> simp [hne]

private theorem dropWhile_eq_self {c : Char} {t : Text} :
    t.dropWhile (· == c) = t ↔ t.head? ≠ some c := by
  rw [List.dropWhile_eq_self_iff]
  cases t <;> simp

private theorem rdropWhile_eq_self {c : Char} {t : Text} :
    t.rdropWhile (· == c) = t ↔ t.getLast? ≠ some c := by
  rw [List.rdropWhile, List.reverse_eq_iff, dropWhile_eq_self, List.head?_reverse]

/-- What is left of a text with a modifier when every repetition of its sign is taken off. -/
def trimmed : Option Modifier → Text → Text
  | none, t => t
  | some .optional, t => t.rdropWhile (· == '=')
  | some .nullable, t => t.dropWhile (· == '?')
  | some .nonNullable, t => t.dropWhile (· == '!')

theorem trimmed_sublist (m : Option Modifier) (t : Text) : (trimmed m t).Sublist t := by
  match m with
  | none => exact List.Sublist.refl t
  | some .optional => exact (List.rdropWhile_prefix _ _).sublist
  | some .nullable | some .nonNullable => exact List.dropWhile_sublist _

/-- Nothing in a text with a modifier is taken for the sign of another one. -/
structure NoOtherSign (m : Option Modifier) (t : Text) : Prop where
  last : m ≠ some .optional → t.getLast? ≠ some '='
  head : m = none → t.head? ≠ some '?' ∧ t.head? ≠ some '!'

namespace NoOtherSign
variable {m : Option Modifier} {t : Text}

theorem takeModifier_signed (h : NoOtherSign m t) :
    takeModifier (signed m t) = (m, trimmed m t) := by
  match m with
  | none => exact takeModifier_of_bare (h.last (by simp)) (h.head rfl)
  | some .optional =>
    have hlast : (t ++ ['=']).getLast? = some '=' := List.getLast?_concat
    rw [signed, takeModifier_of_equals hlast, List.rdropWhile_concat_pos _ _ _ (by rfl)]
    rfl
  | some .nullable =>
    have hlast : ('?' :: t).getLast? ≠ some '=' :=
      mt (getLast?_cons_eq (by decide) t).mp (h.last (by simp))
    rw [signed, takeModifier_of_question hlast rfl, List.dropWhile_cons_of_pos rfl]
    rfl
  | some .nonNullable =>
    have hlast : ('!' :: t).getLast? ≠ some '=' :=
      mt (getLast?_cons_eq (by decide) t).mp (h.last (by simp))
    rw [signed, takeModifier_of_bang hlast rfl, List.dropWhile_cons_of_pos rfl]
    rfl

theorem of_takeModifier (h : (takeModifier (signed m t)).1 = m) : NoOtherSign m t := by
  constructor
  · intro hm hlast
    have hsigned : (signed m t).getLast? = some '=' := by
      match m with
      | none => exact hlast
      | some .optional => exact absurd rfl hm
      | some .nullable | some .nonNullable => exact (getLast?_cons_eq (by decide) t).mpr hlast
    rw [takeModifier_of_equals hsigned] at h
    exact hm h.symm
  · rintro rfl
    have hlast : t.getLast? ≠ some '=' := by
      intro hlast
      rw [signed, takeModifier_of_equals hlast] at h
      cases h
    constructor
    · intro hquestion
      rw [signed, takeModifier_of_question hlast hquestion] at h
      cases h
    · intro hbang
      rw [signed, takeModifier_of_bang hlast hbang] at h
      cases h

/-- Nothing is taken for a sign, be it another one or the modifier's own once more. -/
theorem and_trimmed_iff :
    NoOtherSign m t ∧ trimmed m t = t ↔
      t.getLast? ≠ some '=' ∧ (m = none → t.head? ≠ some '?' ∧ t.head? ≠ some '!') ∧
        (m = some .nullable → t.head? ≠ some '?') ∧
        (m = some .nonNullable → t.head? ≠ some '!') := by
  have hother : NoOtherSign m t ↔ (m ≠ some .optional → t.getLast? ≠ some '=') ∧
      (m = none → t.head? ≠ some '?' ∧ t.head? ≠ some '!') :=
    ⟨fun h => ⟨h.last, h.head⟩, fun h => ⟨h.1, h.2⟩⟩
  rw [hother]
  match m with
  | none => simp [trimmed]
  | some .optional =>
    rw [trimmed, rdropWhile_eq_self]
    simp
  | some .nullable =>
    rw [trimmed, dropWhile_eq_self]
    simp
  | some .nonNullable =>
    rw [trimmed, dropWhile_eq_self]
    simp

end NoOtherSign

/-! ### Writing and reading back -/

/-- A union comes back whole when neither a sign nor a pair of parentheses is taken off it. -/
theorem parse_signed_iff (m : Option Modifier) (s : Text) :
    parse (braced (signed m s)) = ⟨s.splitOn '|', m⟩ ↔
      NoOtherSign m s ∧ trimmed m s = s ∧ ∀ inner, s ≠ parenthesized inner := by
  rw [parse_braced, TypeUnion.mk.injEq, (Text.splitOn_injective '|').eq_iff]
  constructor
  · rintro ⟨hbody, hmodifier⟩
    have hother := NoOtherSign.of_takeModifier hmodifier
    rw [hother.takeModifier_signed] at hbody
    have hwhole : s.Sublist (trimmed m s) := by
      have hle := unparen_sublist (trimmed m s)
      rwa [hbody] at hle
    have htrimmed : trimmed m s = s := (trimmed_sublist m s).antisymm hwhole
    rw [htrimmed] at hbody
    exact ⟨hother, htrimmed, unparen_eq_self_iff.mp hbody⟩
  · rintro ⟨hother, htrimmed, hbare⟩
    rw [hother.takeModifier_signed, htrimmed, unparen_of_ne hbare]
    exact ⟨rfl, rfl⟩

theorem splitOn_union {members : List Text} (hne : members ≠ [])
    (hbar : ∀ m ∈ members, '|' ∉ m) : (union members).splitOn '|' = members :=
  Text.splitOn_intercalate hbar hne

/-- A type is read back from what is written for it just when its union ends with no `=`, stands in no
pair of parentheses and begins with no sign that could be its modifier's. -/
theorem parse_print_eq_iff {e : TypeUnion} (hne : e.members ≠ [])
    (hbar : ∀ m ∈ e.members, '|' ∉ m) :
    let s := union e.members
    parse e.print = e ↔
      s.getLast? ≠ some '=' ∧ (∀ inner, s ≠ '(' :: (inner ++ [')'])) ∧
        (e.modifier = none → s.head? ≠ some '?' ∧ s.head? ≠ some '!') ∧
        (e.modifier = some .nullable → s.head? ≠ some '?') ∧
        (e.modifier = some .nonNullable → s.head? ≠ some '!') := by
  intro s
  have he : (⟨s.splitOn '|', e.modifier⟩ : TypeUnion) = e := by rw [splitOn_union hne hbar]
  have hread := parse_signed_iff e.modifier s
  rw [← print_eq, he, ← and_assoc, NoOtherSign.and_trimmed_iff] at hread
  rw [hread]
  simp only [parenthesized]
  tauto

/-- Braces, and a sign that is not the modifier's, may begin a member, and a member may be empty. -/
theorem parse_print_of_nullable :
    let e : TypeUnion := ⟨["!\x7b(a)", "", "b)\x7d"], some .nullable⟩
    e.members ≠ [] ∧ (∀ m ∈ e.members, '|' ∉ m) ∧ parse e.print = e := by
  intro e
  have hne : e.members ≠ [] := by decide
  have hbar : ∀ m ∈ e.members, '|' ∉ m := by decide
  have hbare : ∀ inner, union e.members ≠ '(' :: (inner ++ [')']) := by
    intro inner h
    cases h
  refine ⟨hne, hbar, (parse_print_eq_iff hne hbar).mpr ⟨by decide, hbare, ?_⟩⟩
  decide

/-! ### Unions of balanced members -/

/-- The number of open parentheses behind a character. There is none if it closes one that is not
open. -/
def openBehind? (n : Nat) (c : Char) : Option Nat :=
  if c = '(' then some (n + 1) else if c = ')' then if n = 0 then none else some (n - 1) else some n

/-- Every parenthesis has its counterpart. -/
def Balanced (t : Text) : Prop := t.foldlM openBehind? 0 = some 0

instance : DecidablePred Balanced := fun t =>
  inferInstanceAs (Decidable (t.foldlM openBehind? 0 = some 0))

theorem openBehind?_succ {n k : Nat} {c : Char} (h : openBehind? n c = some k) :
    openBehind? (n + 1) c = some (k + 1) := by
  grind [openBehind?]

/-- With one parenthesis more open before a text, one more is open behind it. -/
theorem foldlM_openBehind?_succ {n k : Nat} {t : Text} (h : t.foldlM openBehind? n = some k) :
    t.foldlM openBehind? (n + 1) = some (k + 1) := by
  induction t generalizing n with
  | nil =>
    cases h
    rfl
  | cons c t ih =>
    rw [List.foldlM_cons] at h ⊢
    obtain ⟨m, hc, ht⟩ := Option.bind_eq_some_iff.mp h
    rw [openBehind?_succ hc]
    exact ih ht

theorem Balanced.not_tail {t : Text} (h : Balanced ('(' :: t)) : ¬ Balanced t := by
  intro ht
  have hone : t.foldlM openBehind? 1 = some 0 := h
  rw [foldlM_openBehind?_succ ht] at hone
  cases hone

theorem Balanced.not_dropLast {t : Text} (h : Balanced (t ++ [')'])) : ¬ Balanced t := by
  intro ht
  rw [Balanced, List.foldlM_append, ht] at h
  cases h

/-- The text has no character that annotations give a meaning to, parentheses apart. -/
def Unmarked (t : Text) : Prop := ∀ c ∈ ['|', '\x7b', '\x7d', '=', '?', '!'], c ∉ t

-- The characters are those of the list: the instance for a finite type would try every character.
instance : DecidablePred Unmarked := fun _ => List.decidableBAll _ _

/-- What may stand between the bars of a union without a modifier. -/
structure IsMember (m : Text) : Prop where
  ne_nil : m ≠ []
  balanced : Balanced m
  unmarked : Unmarked m

theorem union_singleton (m : Text) : union [m] = m := List.intercalate_singleton

theorem union_cons (m : Text) {rest : List Text} (h : rest ≠ []) :
    union (m :: rest) = m ++ '|' :: union rest := by
  rw [union, List.intercalate_cons_of_ne_nil h]
  simp [union]

theorem union_append_head (s m : Text) (rest : List Text) :
    union ((s ++ m) :: rest) = s ++ union (m :: rest) := by
  by_cases h : rest = []
  · rw [h, union_singleton, union_singleton]
  · rw [union_cons _ h, union_cons _ h, List.append_assoc]

theorem union_append_last (before : List Text) (m s : Text) :
    union (before ++ [m ++ s]) = union (before ++ [m]) ++ s := by
  induction before with
  | nil => simp [union_singleton]
  | cons first before ih =>
    rw [List.cons_append, union_cons _ (by simp), ih, List.cons_append, union_cons _ (by simp)]
    simp

/-- A pair of parentheses around a union belongs to its first and its last member. -/
theorem parenthesized_union (first last : Text) (middle : List Text) :
    union (('(' :: first) :: (middle ++ [last ++ [')']])) =
      parenthesized (union (first :: (middle ++ [last]))) := by
  have hhead := union_append_head ['('] first (middle ++ [last ++ [')']])
  have hlast := union_append_last (first :: middle) last [')']
  rw [List.singleton_append] at hhead
  rw [hhead, ← List.cons_append, hlast]
  rfl

theorem head?_union {m : Text} (h : m ≠ []) (rest : List Text) :
    (union (m :: rest)).head? = m.head? := by
  obtain ⟨c, t, rfl⟩ := List.exists_cons_of_ne_nil h
  have hunion := union_append_head [c] t rest
  rw [List.singleton_append] at hunion
  rw [hunion]
  rfl

theorem getLast?_union {m : Text} (h : m ≠ []) (before : List Text) :
    (union (before ++ [m])).getLast? = m.getLast? := by
  rw [← List.dropLast_concat_getLast h, union_append_last, List.getLast?_concat,
    List.getLast?_concat]

theorem union_eq_parenthesized_iff {first last : Text} (hfirst : first ≠ []) (hlast : last ≠ [])
    (middle : List Text) :
    (∃ inner, union (first :: (middle ++ [last])) = parenthesized inner) ↔
      first.head? = some '(' ∧ last.getLast? = some ')' := by
  constructor
  · rintro ⟨inner, h⟩
    have hhead := head?_union hfirst (middle ++ [last])
    have hend := getLast?_union hlast (first :: middle)
    rw [h] at hhead
    rw [List.cons_append, h, parenthesized, ← List.cons_append, List.getLast?_concat] at hend
    exact ⟨hhead.symm, hend.symm⟩
  · rintro ⟨hhead, hend⟩
    obtain ⟨f, rfl⟩ := List.head?_eq_some_iff.mp hhead
    obtain ⟨l, rfl⟩ := List.getLast?_eq_some_iff.mp hend
    exact ⟨_, parenthesized_union f l middle⟩

theorem parse_parenthesized (t : Text) : parse (braced (parenthesized t)) = ⟨t.splitOn '|', none⟩ := by
  have hlast : (parenthesized t).getLast? = some ')' := by
    rw [parenthesized, ← List.cons_append, List.getLast?_concat]
  have htake : takeModifier (parenthesized t) = (none, parenthesized t) :=
    takeModifier_of_bare (by simp [hlast]) (by simp [parenthesized])
  rw [parse_braced, htake, unparen_parenthesized]

theorem noOtherSign_union {first last : Text} (hfirst : IsMember first) (hlast : IsMember last)
    (middle : List Text) : NoOtherSign none (union (first :: (middle ++ [last]))) := by
  constructor
  · intro _ hequals
    rw [← List.cons_append, getLast?_union hlast.ne_nil] at hequals
    exact hlast.unmarked '=' (by simp) (List.mem_of_getLast? hequals)
  · intro _
    rw [head?_union hfirst.ne_nil]
    constructor
    · intro hquestion
      exact hfirst.unmarked '?' (by simp) (List.mem_of_head? hquestion)
    · intro hbang
      exact hfirst.unmarked '!' (by simp) (List.mem_of_head? hbang)

/-- A union of two members or more, written in braces, is read as these members and without a modifier
unless the first begins with a parenthesis and the last ends with one.  Then both lose theirs, which
leaves neither of them balanced.  A union in parentheses is always read as its members. -/
theorem parse_union_iff {first last : Text} {middle : List Text}
    (h : ∀ m ∈ first :: (middle ++ [last]), IsMember m) :
    let members := first :: (middle ++ [last])
    (parse (braced (union members)) = ⟨members, none⟩ ↔
        ¬ (first.head? = some '(' ∧ last.getLast? = some ')')) ∧
      (first.head? = some '(' → last.getLast? = some ')' →
        parse (braced (union members)) = ⟨first.tail :: (middle ++ [last.dropLast]), none⟩ ∧
          ¬ Balanced first.tail ∧ ¬ Balanced last.dropLast) ∧
      parse (braced (parenthesized (union members))) = ⟨members, none⟩ := by
  intro members
  have hfirst := h first (by simp)
  have hlast := h last (by simp)
  have hbar : ∀ m ∈ members, '|' ∉ m := fun m hm => (h m hm).unmarked '|' (by simp)
  have hsplit : (union members).splitOn '|' = members := splitOn_union (by simp [members]) hbar
  refine ⟨?_, ?_, ?_⟩
  · have hread := parse_signed_iff none (union members)
    have hsign := noOtherSign_union hfirst hlast middle
    rw [hsplit, ← not_exists, union_eq_parenthesized_iff hfirst.ne_nil hlast.ne_nil] at hread
    rw [signed] at hread
    rw [hread]
    exact ⟨fun hbare => hbare.2.2, fun hbare => ⟨hsign, rfl, hbare⟩⟩
  · intro hhead hend
    obtain ⟨f, rfl⟩ := List.head?_eq_some_iff.mp hhead
    obtain ⟨l, rfl⟩ := List.getLast?_eq_some_iff.mp hend
    have hinner : (union (f :: (middle ++ [l]))).splitOn '|' = f :: (middle ++ [l]) := by
      apply splitOn_union (by simp)
      simp only [members, List.forall_mem_cons, List.forall_mem_append] at hbar ⊢
      obtain ⟨hf, hmiddle, hl, hnil⟩ := hbar
      exact ⟨mt (List.mem_cons_of_mem _) hf, hmiddle, mt (List.mem_append_left _) hl, hnil⟩
    rw [List.dropLast_concat, List.tail_cons]
    refine ⟨?_, hfirst.balanced.not_tail, hlast.balanced.not_dropLast⟩
    rw [parenthesized_union, parse_parenthesized, hinner]
  · rw [parse_parenthesized, hsplit]

/-- A parenthesis at one end alone belongs to its member. -/
theorem parse_union_of_callbacks :
    let members : List Text := ["(a)[]", "function(b)", "c"]
    (∀ m ∈ members, IsMember m) ∧ parse (braced (union members)) = ⟨members, none⟩ ∧
      parse (braced (parenthesized (union members))) = ⟨members, none⟩ := by
  intro members
  have hfirst : IsMember "(a)[]" := ⟨by decide, by decide, by decide⟩
  have hmiddle : IsMember "function(b)" := ⟨by decide, by decide, by decide⟩
  have hlast : IsMember "c" := ⟨by decide, by decide, by decide⟩
  have hall : ∀ m ∈ members, IsMember m := by simpa [members] using ⟨hfirst, hmiddle, hlast⟩
  obtain ⟨hread, -, hparenthesized⟩ := @parse_union_iff "(a)[]" "c" ["function(b)"] hall
  exact ⟨hall, hread.mpr (by decide), hparenthesized⟩

/-- Both members of the union lose a parenthesis. -/
theorem parse_union_splits_members :
    let members : List Text := ["(a)", "(b)"]
    (∀ m ∈ members, IsMember m) ∧
      parse (braced (union members)) = ⟨["a)", "(b"], none⟩ ∧
      parse (braced (union members)) ≠ ⟨members, none⟩ := by
  intro members
  refine ⟨?_, by decide, by decide⟩
  have ha : IsMember "(a)" := ⟨by decide, by decide, by decide⟩
  have hb : IsMember "(b)" := ⟨by decide, by decide, by decide⟩
  simpa [members] using ⟨ha, hb⟩

end DocComment.TypeUnion
