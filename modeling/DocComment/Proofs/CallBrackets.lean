import DocComment.Content
import DocComment.Source
import Mathlib.Data.List.Infix
import Mathlib.Tactic.Common

/-! # The brackets of a call

A bracket opens before each optional parameter of a call, and all of them close at its end.  So every
bracket finds its counterpart, and without the brackets the names are left.  A pair that opens before
one parameter also goes around all parameters behind it.  It encloses the optional parameters alone
just when they stand behind all others. -/

namespace DocComment.Content

/-- Every square bracket has its counterpart. -/
inductive Matched : Text → Prop where
  | nil : Matched []
  | char {c : Char} {t : Text} (h : c ∉ ['[', ']']) : Matched t → Matched (c :: t)
  | pair {s t : Text} : Matched s → Matched t → Matched ('[' :: (s ++ ']' :: t))

namespace Matched

theorem append {s t : Text} (hs : Matched s) (ht : Matched t) : Matched (s ++ t) := by
  induction hs with
  | nil => exact ht
  | char h _ ih => exact ih.char h
  | pair hs _ _ ih =>
    rw [List.cons_append, List.append_assoc, List.cons_append]
    exact hs.pair ih

theorem of_notMem {t : Text} (h : '[' ∉ t ∧ ']' ∉ t) : Matched t := by
  induction t with
  | nil => exact .nil
  | cons c t ih =>
    simp only [List.mem_cons, not_or] at h
    obtain ⟨⟨hopen, hopens⟩, hclose, hcloses⟩ := h
    refine (ih ⟨hopens, hcloses⟩).char ?_
    simpa using ⟨Ne.symm hopen, Ne.symm hclose⟩

end Matched

/-- A text between two others lies in a pair of brackets that belong together. -/
def Enclosed (before t after : Text) : Prop :=
  ∃ u x y v, before = u ++ '[' :: x ∧ after = y ++ ']' :: v ∧ Matched (x ++ (t ++ y))

/-- A text with its brackets deleted. -/
def unbracketed (t : Text) : Text := t.filter fun c => c ≠ '[' && c ≠ ']'

theorem unbracketed_append (s t : Text) : unbracketed (s ++ t) = unbracketed s ++ unbracketed t :=
  List.filter_append ..

theorem unbracketed_of_notMem {t : Text} (h : '[' ∉ t ∧ ']' ∉ t) : unbracketed t = t := by
  rw [unbracketed, List.filter_eq_self]
  intro c hc
  simp only [Bool.and_eq_true, decide_eq_true_eq]
  exact ⟨fun heq => h.1 (heq ▸ hc), fun heq => h.2 (heq ▸ hc)⟩

@[simp] theorem unbracketed_closings (n : Nat) : unbracketed (List.replicate n ']') = [] := by
  simp [unbracketed]

/-! ### The parts of a call -/

/-- What separates a parameter from the one before it. -/
def separator (i : Nat) : Text := if i = 0 then "" else ", "

/-- What a call has before the name of the parameter with a number. -/
def lead (i : Nat) (p : NamedField) : Text :=
  (if p.type.isOptional then "[" else "" : Text) ++ separator i

/-- The brackets and names of a call, without those that close at its end. The first of the
parameters has the given number. -/
def opened (i : Nat) (params : List NamedField) : Text :=
  (params.zipIdx i).flatMap fun (p, i) => lead i p ++ p.name

def optionals (params : List NamedField) : Nat := params.countP (·.type.isOptional)

variable {p : NamedField} {params left right : List NamedField}

theorem parameterList_eq (params : List NamedField) :
    parameterList params = opened 0 params ++ List.replicate (optionals params) ']' := by
  simp [parameterList, opened, optionals, lead, separator]

theorem opened_cons (i : Nat) (p : NamedField) (params : List NamedField) :
    opened i (p :: params) = lead i p ++ (p.name ++ opened (i + 1) params) := by
  simp [opened]

theorem opened_append (i : Nat) (left right : List NamedField) :
    opened i (left ++ right) = opened i left ++ opened (i + left.length) right := by
  simp [opened, List.zipIdx_append]

theorem lead_of_optional (h : p.type.isOptional = true) (i : Nat) : lead i p = '[' :: separator i := by
  simp [lead, h]

theorem lead_of_required (h : p.type.isOptional = false) (i : Nat) : lead i p = separator i := by
  simp [lead, h]

/-- The text of a call before the name of a parameter that stands behind some others. -/
def callBefore (left : List NamedField) (p : NamedField) : Text :=
  opened 0 left ++ lead left.length p

/-- The text of a call behind the name of a parameter that stands between some others. -/
def callBehind (left : List NamedField) (p : NamedField) (right : List NamedField) : Text :=
  opened (left.length + 1) right ++ List.replicate (optionals (left ++ p :: right)) ']'

theorem parameterList_cut (left : List NamedField) (p : NamedField) (right : List NamedField) :
    parameterList (left ++ p :: right) =
      callBefore left p ++ (p.name ++ callBehind left p right) := by
  rw [parameterList_eq, opened_append, opened_cons, callBefore, callBehind]
  simp

/-! ### Names without brackets -/

/-- No parameter has a bracket in its name. -/
def PlainNames (params : List NamedField) : Prop := ∀ p ∈ params, '[' ∉ p.name ∧ ']' ∉ p.name

instance : DecidablePred PlainNames := fun _ => List.decidableBAll _ _

theorem separator_plain (i : Nat) : '[' ∉ separator i ∧ ']' ∉ separator i := by
  rw [separator]
  split <;> decide

theorem matched_opened (h : PlainNames params) (i : Nat) :
    Matched (opened i params ++ List.replicate (optionals params) ']') := by
  induction params generalizing i with
  | nil => exact .nil
  | cons p params ih =>
    obtain ⟨hp, hparams⟩ := List.forall_mem_cons.mp h
    have hrest := (Matched.of_notMem hp).append (ih hparams (i + 1))
    have hinner := (Matched.of_notMem (separator_plain i)).append hrest
    rw [opened_cons]
    cases hopt : p.type.isOptional with
    | true =>
      have hcount : optionals (p :: params) = optionals params + 1 := List.countP_cons_of_pos hopt
      rw [lead_of_optional hopt, hcount, List.replicate_succ']
      simpa using hinner.pair .nil
    | false =>
      have hcount : optionals (p :: params) = optionals params :=
        List.countP_cons_of_neg (by simp [hopt])
      rw [lead_of_required hopt, hcount]
      simpa using hinner

theorem exists_optional_of_mem_opened (h : PlainNames params) {i : Nat} (hmem : '[' ∈ opened i params) :
    ∃ p ∈ params, p.type.isOptional = true := by
  induction params generalizing i with
  | nil => cases hmem
  | cons p params ih =>
    obtain ⟨hp, hparams⟩ := List.forall_mem_cons.mp h
    cases hopt : p.type.isOptional with
    | true => exact ⟨p, List.mem_cons_self, hopt⟩
    | false =>
      rw [opened_cons, lead_of_required hopt, List.mem_append, List.mem_append] at hmem
      have hrest := (hmem.resolve_left (separator_plain i).1).resolve_left hp.1
      obtain ⟨q, hq, hoptional⟩ := ih hparams hrest
      exact ⟨q, List.mem_cons_of_mem p hq, hoptional⟩

@[simp] theorem unbracketed_lead (i : Nat) (p : NamedField) : unbracketed (lead i p) = separator i := by
  rw [lead, unbracketed_append, unbracketed_of_notMem (separator_plain i)]
  split <;> rfl

/-- Behind the first parameter each name follows a comma. -/
theorem unbracketed_opened_succ (h : PlainNames params) (i : Nat) :
    unbracketed (opened (i + 1) params) =
      (", " : Text).intercalate ([] :: params.map NamedField.name) := by
  induction params generalizing i with
  | nil => rfl
  | cons p params ih =>
    obtain ⟨hp, hparams⟩ := List.forall_mem_cons.mp h
    have hseparator : separator (i + 1) = ", " := rfl
    rw [opened_cons, unbracketed_append, unbracketed_append, unbracketed_lead, hseparator,
      unbracketed_of_notMem hp, ih hparams]
    cases params <;> simp [List.intercalate_cons_cons]

theorem unbracketed_opened (h : PlainNames params) :
    unbracketed (opened 0 params) = (", " : Text).intercalate (params.map NamedField.name) := by
  cases params with
  | nil => rfl
  | cons p params =>
    obtain ⟨hp, hparams⟩ := List.forall_mem_cons.mp h
    have hseparator : separator 0 = [] := rfl
    rw [opened_cons, unbracketed_append, unbracketed_append, unbracketed_lead, hseparator,
      unbracketed_of_notMem hp, unbracketed_opened_succ hparams]
    cases params <;> simp [List.intercalate_cons_cons]

/-- The names before a parameter, each with the comma behind it. -/
theorem unbracketed_callBefore (h : PlainNames left) (p : NamedField) :
    unbracketed (callBefore left p) =
      (", " : Text).intercalate (left.map NamedField.name ++ [[]]) := by
  -- The text up to a name is the whole text of a call whose last name is empty.
  have hlast : opened 0 (left ++ [⟨[], p.type, p.desc⟩]) = callBefore left p := by
    rw [opened_append, opened_cons, callBefore, Nat.zero_add]
    simp [lead, opened]
  rw [← hlast, unbracketed_opened]
  · simp
  · intro q hq
    rcases List.mem_append.mp hq with hq | hq
    · exact h q hq
    · rw [List.mem_singleton.mp hq]
      simp

theorem unbracketed_callBehind (h : PlainNames right) (left : List NamedField) (p : NamedField) :
    unbracketed (callBehind left p right) =
      (", " : Text).intercalate ([] :: right.map NamedField.name) := by
  rw [callBehind, unbracketed_append, unbracketed_opened_succ h, unbracketed_closings,
    List.append_nil]

/-! ### Pairs and optional parameters -/

/-- One of the brackets that close belongs to an optional parameter. -/
theorem closings_eq {q : NamedField} (hopt : q.type.isOptional = true)
    (left right : List NamedField) :
    List.replicate (optionals (left ++ q :: right)) ']' =
      List.replicate (optionals right) ']' ++ ']' :: List.replicate (optionals left) ']' := by
  have hcount : optionals (left ++ q :: right) = optionals right + (optionals left + 1) := by
    have hq : optionals (q :: right) = optionals right + 1 := List.countP_cons_of_pos hopt
    have happend : optionals (left ++ q :: right) = optionals left + optionals (q :: right) :=
      List.countP_append
    omega
  rw [hcount, ← List.replicate_append_replicate, List.replicate_succ]

theorem enclosed_self (h : PlainNames (p :: right)) (hopt : p.type.isOptional = true) :
    Enclosed (callBefore left p) p.name (callBehind left p right) := by
  obtain ⟨hp, hright⟩ := List.forall_mem_cons.mp h
  refine ⟨opened 0 left, separator left.length,
    opened (left.length + 1) right ++ List.replicate (optionals right) ']',
    List.replicate (optionals left) ']', ?_, ?_, ?_⟩
  · rw [callBefore, lead_of_optional hopt]
  · rw [callBehind, closings_eq hopt, List.append_assoc]
  · exact (Matched.of_notMem (separator_plain left.length)).append
      ((Matched.of_notMem hp).append (matched_opened hright (left.length + 1)))

/-- The bracket before an optional parameter also goes around each one behind it. -/
theorem enclosed_of_optional {q : NamedField} {between : List NamedField}
    (h : PlainNames (q :: (between ++ p :: right))) (hopt : q.type.isOptional = true) :
    Enclosed (callBefore (left ++ q :: between) p) p.name
      (callBehind (left ++ q :: between) p right) := by
  obtain ⟨hq, hbehind⟩ := List.forall_mem_cons.mp h
  have hlength : (left ++ q :: between).length = left.length + 1 + between.length := by
    simp only [List.length_append, List.length_cons]
    omega
  have hall : (left ++ q :: between) ++ p :: right = left ++ q :: (between ++ p :: right) := by simp
  let inner := separator left.length ++ (q.name ++ opened (left.length + 1) between) ++
    lead (left.length + 1 + between.length) p
  refine ⟨opened 0 left, inner,
    opened (left.length + 1 + between.length + 1) right ++
      List.replicate (optionals (between ++ p :: right)) ']',
    List.replicate (optionals left) ']', ?_, ?_, ?_⟩
  · rw [callBefore, opened_append, opened_cons, lead_of_optional hopt, hlength, Nat.zero_add]
    simp [inner]
  · rw [callBehind, hall, closings_eq hopt, hlength, List.append_assoc]
  · have hrest := matched_opened hbehind (left.length + 1)
    rw [opened_append, opened_cons] at hrest
    have hinner := (Matched.of_notMem (separator_plain left.length)).append
      ((Matched.of_notMem hq).append hrest)
    simpa [inner] using hinner

/-- A name lies in a pair of brackets just when its parameter, or one before it, is optional. -/
theorem enclosed_iff (h : PlainNames (left ++ p :: right)) :
    Enclosed (callBefore left p) p.name (callBehind left p right) ↔
      ∃ q ∈ left ++ [p], q.type.isOptional = true := by
  constructor
  · rintro ⟨u, x, -, -, hbefore, -, -⟩
    have hmem : '[' ∈ callBefore left p := by simp [hbefore]
    rcases List.mem_append.mp hmem with hmem | hmem
    · have hleft : PlainNames left := fun q hq => h q (List.mem_append_left _ hq)
      obtain ⟨q, hq, hopt⟩ := exists_optional_of_mem_opened hleft hmem
      exact ⟨q, List.mem_append_left _ hq, hopt⟩
    · refine ⟨p, by simp, ?_⟩
      by_contra hopt
      rw [lead_of_required (by simpa using hopt)] at hmem
      exact (separator_plain _).1 hmem
  · rintro ⟨q, hq, hopt⟩
    rcases List.mem_append.mp hq with hq | hq
    · obtain ⟨before, between, rfl⟩ := List.append_of_mem hq
      refine enclosed_of_optional (fun r hr => h r ?_) hopt
      rw [List.append_assoc]
      exact List.mem_append_right before hr
    · obtain rfl := List.mem_singleton.mp hq
      exact enclosed_self (fun r hr => h r (List.mem_append_right left hr)) hopt

/-- Each parameter stands behind those that stand before it. -/
theorem pairwise_iff_forall_cut {R : NamedField → NamedField → Prop} :
    params.Pairwise R ↔ ∀ left p right, params = left ++ p :: right → ∀ q ∈ left, R q p := by
  constructor
  · rintro h left p right rfl q hq
    exact (List.pairwise_append.mp h).2.2 q hq p List.mem_cons_self
  · intro h
    induction params with
    | nil => exact .nil
    | cons q params ih =>
      refine .cons (fun p hp => ?_) (ih fun left p right hcut r hr => ?_)
      · obtain ⟨left, right, rfl⟩ := List.append_of_mem hp
        exact h (q :: left) p right rfl q List.mem_cons_self
      · exact h (q :: left) p right (by rw [hcut, List.cons_append]) r (List.mem_cons_of_mem q hr)

/-- The brackets of a call belong together in pairs, and without them its names are left with commas in
between.  A name lies in a pair just when its parameter or one before it is optional.  So the pairs
enclose the names of the optional parameters alone just when none of these is followed by a parameter
that is required. -/
theorem parameterList_brackets_iff (h : PlainNames params) :
    Matched (parameterList params) ∧
      unbracketed (parameterList params) =
        (", " : Text).intercalate (params.map NamedField.name) ∧
      (∀ left p right, params = left ++ p :: right →
        parameterList params = callBefore left p ++ (p.name ++ callBehind left p right) ∧
          unbracketed (callBefore left p) =
            (", " : Text).intercalate (left.map NamedField.name ++ [[]]) ∧
          unbracketed (callBehind left p right) =
            (", " : Text).intercalate ([] :: right.map NamedField.name) ∧
          (Enclosed (callBefore left p) p.name (callBehind left p right) ↔
            ∃ q ∈ left ++ [p], q.type.isOptional = true)) ∧
      ((∀ left p right, params = left ++ p :: right →
          (Enclosed (callBefore left p) p.name (callBehind left p right) ↔
            p.type.isOptional = true)) ↔
        params.Pairwise fun p q => p.type.isOptional = true → q.type.isOptional = true) := by
  refine ⟨?_, ?_, ?_, ?_⟩
  · rw [parameterList_eq]
    exact matched_opened h 0
  · rw [parameterList_eq, unbracketed_append, unbracketed_opened h, unbracketed_closings,
      List.append_nil]
  · rintro left p right rfl
    have hleft : PlainNames left := fun q hq => h q (List.mem_append_left _ hq)
    have hright : PlainNames right := fun q hq =>
      h q (List.mem_append_right _ (List.mem_cons_of_mem p hq))
    exact ⟨parameterList_cut left p right, unbracketed_callBefore hleft p,
      unbracketed_callBehind hright left p, enclosed_iff h⟩
  · rw [pairwise_iff_forall_cut]
    constructor
    · rintro hall left p right rfl q hq hopt
      exact (hall left p right rfl).mp ((enclosed_iff h).mpr ⟨q, List.mem_append_left _ hq, hopt⟩)
    · rintro hall left p right rfl
      rw [enclosed_iff h]
      constructor
      · rintro ⟨q, hq, hopt⟩
        rcases List.mem_append.mp hq with hq | hq
        · exact hall left p right rfl q hq hopt
        · rwa [List.mem_singleton.mp hq] at hopt
      · exact fun hopt => ⟨p, by simp, hopt⟩

/-- In `sample(k[, n[, seed]])` the brackets enclose the optional parameters alone. -/
theorem parameterList_brackets_of_sample :
    let k : NamedField := ⟨"k", ⟨["number"], none⟩, ""⟩
    let n : NamedField := ⟨"n", ⟨["number"], some .optional⟩, ""⟩
    let seed : NamedField := ⟨"seed", ⟨["number", "string"], some .optional⟩, ""⟩
    PlainNames [k, n, seed] ∧ parameterList [k, n, seed] = "k[, n[, seed]]" ∧
      Matched (parameterList [k, n, seed]) ∧
      unbracketed (parameterList [k, n, seed]) = "k, n, seed" ∧
      ¬ Enclosed (callBefore [] k) "k" (callBehind [] k [n, seed]) ∧
      Enclosed (callBefore [k, n] seed) "seed" (callBehind [k, n] seed []) := by
  intro k n seed
  have hplain : PlainNames [k, n, seed] := by decide
  obtain ⟨hmatched, hnames, -, hexact⟩ := parameterList_brackets_iff hplain
  have hall := hexact.mpr (by decide)
  refine ⟨hplain, by decide, hmatched, hnames.trans (by decide), ?_, ?_⟩
  · exact mt (hall [] k [n, seed] rfl).mp (by decide)
  · exact (hall [k, n] seed [] rfl).mpr (by decide)

/-- The bracket that opens before an optional parameter closes behind a required one. -/
theorem parameterList_encloses_required :
    let options : NamedField := ⟨"options", ⟨["Object"], some .optional⟩, ""⟩
    let callback : NamedField := ⟨"callback", ⟨["Function"], none⟩, ""⟩
    let source : Text :=
      "/**\n * @method f\n * @memberOf m\n * @param {Object=} options\n * @param {Function} callback\n */"
    (Source.blocksOfText "f.js" source).map (·.map Block.params) = .ok [[options, callback]] ∧
      PlainNames [options, callback] ∧
      parameterList [options, callback] = "[options, callback]" ∧
      callback.type.isOptional = false ∧
      Enclosed (callBefore [options] callback) callback.name (callBehind [options] callback []) := by
  intro options callback source
  have hplain : PlainNames ([options] ++ callback :: []) := by decide
  have henclosed := (enclosed_iff hplain).mpr ⟨options, by simp, rfl⟩
  exact ⟨by decide +kernel, hplain, by decide, rfl, henclosed⟩

end DocComment.Content
