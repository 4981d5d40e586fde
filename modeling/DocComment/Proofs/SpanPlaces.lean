import DocComment.Proofs.TagNesting

/-! # Where the code spans of a line begin and end

A line is running text and links.  Code spans are found on the page, where the address of a link stands
before its label, without regard to the links: a brace in a label may be closed behind the link, and one in
an address is never closed there.  The tags of a description are well nested exactly if every code span ends
at the place where it begins. -/

namespace DocComment.Markup
open Text

/-! ### The parts of a line -/

inductive Part where
  | running (t : Text)
  | link (label address : Text)

/-- A part as it stands on a page before its braces are looked at. -/
def Part.markup : Part → Text
  | .running t => escape t
  | .link label address => Markup.link (escape label) (escape address)

/-- The links of a line, and the text around them. -/
def parts (line : Text) : List Part :=
  match _h : firstLink? line with
  | none => [.running line]
  | some l => .running l.before :: .link l.label l.address :: parts l.rest
termination_by line.length
decreasing_by exact length_rest_lt _h

theorem links_escape (line : Text) : links (escape line) = (parts line).flatMap Part.markup := by
  fun_induction parts line with
  | case1 line h =>
    rw [links_eq, firstLink?_escape, h]
    simp [Part.markup]
  | case2 line l h ih =>
    rw [links_eq, firstLink?_escape, h]
    simp [Part.markup, FoundLink.escaped, ih]

theorem closing_notMem_address {line label address : Text} (h : .link label address ∈ parts line) :
    '\x7d' ∉ address := by
  fun_induction parts line with
  | case1 line hnone => simp at h
  | case2 line l hsome ih =>
    simp only [List.mem_cons, reduceCtorEq, Part.link.injEq, false_or] at h
    rcases h with ⟨-, rfl⟩ | h
    · exact (firstLink?_eq_some hsome).2
    · exact ih h

/-! ### Places and spans -/

/-- Where a character of a line stands. Links are counted from the left. -/
inductive Place where
  | running
  | label (n : Nat)
  | address (n : Nat)

/-- The characters of the parts with their places, in the order in which they stand on the page. The
first argument is the number of the next link. -/
def placedFrom : Nat → List Part → List (Char × Place)
  | _, [] => []
  | n, .running t :: ps => t.map (·, .running) ++ placedFrom n ps
  | n, .link label address :: ps =>
    address.map (·, .address n) ++ (label.map (·, .label n) ++ placedFrom (n + 1) ps)

theorem mem_map_place {c : Char} {p q : Place} {x : Text} :
    (c, p) ∈ x.map (·, q) ↔ c ∈ x ∧ q = p := by
  rw [List.mem_map]
  constructor
  · rintro ⟨d, hd, heq⟩
    obtain ⟨rfl, rfl⟩ := Prod.mk.inj heq
    exact ⟨hd, rfl⟩
  · rintro ⟨hc, rfl⟩
    exact ⟨c, hc, rfl⟩

/-- A code span with the places of its braces. -/
structure Span where
  opening : Place
  closing : Place

/-- The code spans, from left to right. The first argument is the place of the brace that is open. A brace
opens a span only if it is closed later. -/
def spansOf : Option Place → List (Char × Place) → List Span
  | _, [] => []
  | none, (c, p) :: l =>
    if c = '\x7b' ∧ '\x7d' ∈ l.map Prod.fst then spansOf (some p) l else spansOf none l
  | some q, (c, p) :: l =>
    if c = '\x7d' then ⟨q, p⟩ :: spansOf none l else spansOf (some q) l

/-- The code spans of a line. -/
def lineSpans (line : Text) : List Span := spansOf none (placedFrom 0 (parts line))

/-- Every code span ends at the place where it begins. -/
def Kept (opened : Option Place) (l : List (Char × Place)) : Prop :=
  ∀ span ∈ spansOf opened l, span.opening = span.closing

section Kept
variable {opened : Option Place} {p q : Place} {l : List (Char × Place)}

theorem kept_opening (h : '\x7d' ∈ l.map Prod.fst) :
    Kept none (('\x7b', p) :: l) ↔ Kept (some p) l := by
  rw [Kept, spansOf, if_pos ⟨rfl, h⟩, Kept]

theorem kept_closing : Kept (some q) (('\x7d', p) :: l) ↔ q = p ∧ Kept none l := by
  rw [Kept, spansOf, if_pos rfl, List.forall_mem_cons, Kept]

theorem kept_append {x : Text} (hx : awaited opened.isSome ∉ x) :
    Kept opened (x.map (·, p) ++ l) ↔ Kept opened l := by
  induction x with
  | nil => rfl
  | cons c x ih =>
    rw [List.mem_cons, not_or] at hx
    rw [← ih hx.2, List.map_cons, List.cons_append, Kept, Kept]
    cases opened with
    | none => rw [spansOf, if_neg (fun h => hx.1 h.1.symm)]
    | some q => rw [spansOf, if_neg (fun h => hx.1 h.symm)]

theorem kept_of_unclosed (h : '\x7d' ∉ l.map Prod.fst) : Kept none l := by
  induction l with
  | nil => simp [Kept, spansOf]
  | cons d l ih =>
    rw [List.map_cons, List.mem_cons, not_or] at h
    rw [Kept, spansOf, if_neg (fun hd => h.2 hd.2)]
    exact ih h.2

/-- A span is not kept if no brace closes it at its place. -/
theorem not_kept (h : '\x7d' ∈ l.map Prod.fst) (hp : ('\x7d', p) ∉ l) : ¬ Kept (some p) l := by
  induction l with
  | nil => simp at h
  | cons d l ih =>
    obtain ⟨c, q⟩ := d
    rw [List.mem_cons, not_or] at hp
    by_cases hc : c = '\x7d'
    · rw [hc, kept_closing]
      rintro ⟨rfl, -⟩
      exact hp.1 (by rw [hc])
    · rw [Kept, spansOf, if_neg hc]
      exact ih (by simpa [Ne.symm hc] using h) hp.2

end Kept

/-! ### Reading the rest of a line -/

section Brace
variable {page x : Text} {placed : List (Char × Place)}

theorem mem_escape_append (h : '\x7d' ∈ page ↔ '\x7d' ∈ placed.map Prod.fst) (x : Text) (p : Place) :
    '\x7d' ∈ escape x ++ page ↔ '\x7d' ∈ (x.map (·, p) ++ placed).map Prod.fst := by
  rw [List.mem_append, mem_escape_iff (by decide), h, List.map_append, List.map_map, List.mem_append]
  simp

theorem awaited_notMem_escape {inside : Bool} (h : awaited inside ∉ x) : awaited inside ∉ escape x := by
  have hbrace : ∀ inside, awaited inside ∉ escapedChars ∧ awaited inside ∉ entityChars := by decide
  exact mt (mem_escape_iff (hbrace inside)).mp h

theorem spansFrom_linkClosing (inside : Bool) (page : Text) :
    spansFrom inside ("</a>" ++ page) = "</a>" ++ spansFrom inside page := by
  have hbrace : ∀ inside, awaited inside ∉ "</a>".toList := by decide
  exact spansFrom_append (hbrace inside) page

theorem mem_linkClosing_append : '\x7d' ∈ "</a>" ++ page ↔ '\x7d' ∈ page := by
  have hbrace : '\x7d' ∉ "</a>".toList := by decide
  rw [List.mem_append, or_iff_right hbrace]

theorem mem_openTag : '\x7d' ∈ "<a href=\"" ++ (escape x ++ ("\" target=\"_blank\">" ++ page)) ↔
    '\x7d' ∈ escape x ++ page := by
  have hbegin : '\x7d' ∉ "<a href=\"".toList := by decide
  have hend : '\x7d' ∉ "\" target=\"_blank\">".toList := by decide
  rw [List.mem_append, or_iff_right hbegin, List.mem_append, List.mem_append, or_iff_right hend,
    List.mem_append]

end Brace

/-- The rest of a line, of which the braces are still to be looked at, closes what is open exactly if each
of its code spans is kept. A span is open only if a brace closes it. -/
structure Told (tail : Text) (stack : List Inline) (opened : Option Place) (page : Text)
    (placed : List (Char × Place)) : Prop where
  braces : '\x7d' ∈ page ↔ '\x7d' ∈ placed.map Prod.fst
  closes : (opened.isSome → '\x7d' ∈ page) →
    (Closes stack (spansFrom opened.isSome page ++ tail) ↔ Kept opened placed ∧ Closes [] tail)

namespace Told

variable {tail page x : Text} {stack : List Inline} {opened : Option Place} {p q : Place}
  {placed : List (Char × Place)}

theorem append (h : Told tail stack opened page placed) (hx : awaited opened.isSome ∉ x) (p : Place) :
    Told tail stack opened (escape x ++ page) (x.map (·, p) ++ placed) := by
  refine ⟨mem_escape_append h.braces x p, fun hclosed => ?_⟩
  have hescape : awaited opened.isSome ∉ escape x := awaited_notMem_escape hx
  have hclosed' : opened.isSome → '\x7d' ∈ page := by
    cases opened with
    | none => simp
    | some q => exact fun hq => (List.mem_append.mp (hclosed hq)).resolve_left hescape
  rw [spansFrom_append hescape, List.append_assoc, closes_plain_append (plain_escape x),
    kept_append hx, h.closes hclosed']

theorem opening (hsome : Told tail (.code :: stack) (some p) page placed)
    (hnone : Told tail stack none page placed) :
    Told tail stack none ('\x7b' :: page) (('\x7b', p) :: placed) := by
  by_cases hclosed : '\x7d' ∈ page
  · refine ⟨by simp [hsome.braces], fun _ => ?_⟩
    rw [Option.isSome_none, spansFrom, if_pos ⟨rfl, hclosed⟩, List.append_assoc, closes_openCode,
      kept_opening (hsome.braces.mp hclosed), ← hsome.closes fun _ => hclosed]
    rfl
  · have hplaced := mt hsome.braces.mpr hclosed
    refine ⟨by simp [hsome.braces], fun _ => ?_⟩
    have hpass := hnone.closes (by simp)
    rw [Option.isSome_none] at hpass ⊢
    rw [spansFrom, if_neg (fun h => hclosed h.2), List.cons_append, closes_char (by decide), hpass]
    have hkept : Kept none (('\x7b', p) :: placed) := kept_of_unclosed (by simpa using hplaced)
    simp [hkept, kept_of_unclosed hplaced]

theorem closing (hnone : Told tail stack none page placed) :
    Told tail (.code :: stack) (some p) ('\x7d' :: page) (('\x7d', p) :: placed) := by
  refine ⟨by simp, fun _ => ?_⟩
  have hrest := hnone.closes (by simp)
  rw [Option.isSome_none] at hrest
  rw [Option.isSome_some, spansFrom, if_pos rfl, List.append_assoc, closes_closeCode, kept_closing,
    hrest]
  simp

/-- Text at one place, with no span open or one that began there. -/
theorem text (hnone : Told tail stack none page placed)
    (hsome : Told tail (.code :: stack) (some p) page placed) (x : Text) :
    Told tail stack none (escape x ++ page) (x.map (·, p) ++ placed) ∧
      Told tail (.code :: stack) (some p) (escape x ++ page) (x.map (·, p) ++ placed) := by
  induction x with
  | nil => exact ⟨hnone, hsome⟩
  | cons c x ih =>
    have hpass : ∀ {stack opened}, awaited opened.isSome ≠ c →
        Told tail stack opened (escape x ++ page) (x.map (·, p) ++ placed) →
        Told tail stack opened (escape (c :: x) ++ page) ((c :: x).map (·, p) ++ placed) := by
      intro stack opened hc h
      have hone := h.append (x := [c]) (by simpa using hc) p
      rwa [escape_singleton, ← List.append_assoc, ← escape_cons] at hone
    have hbrace : ∀ inside, escapeChar (awaited inside) = [awaited inside] := by decide
    constructor
    · by_cases hc : awaited false = c
      · have hopen := opening ih.2 ih.1
        rw [escape_cons, ← hc, hbrace]
        exact hopen
      · exact hpass hc ih.1
    · by_cases hc : awaited true = c
      · have hclose := closing (p := p) ih.1
        rw [escape_cons, ← hc, hbrace]
        exact hclose
      · exact hpass hc ih.2

/-- A span that began before a link is not closed in the label. -/
theorem crossing (h : Told tail (.link :: stack) (some q) page placed) (hq : q ≠ p) (x : Text) :
    Told tail (.link :: stack) (some q) (escape x ++ page) (x.map (·, p) ++ placed) := by
  by_cases hx : '\x7d' ∈ x
  · obtain ⟨y, z, rfl, hy⟩ := List.eq_append_cons_of_mem hx
    refine ⟨mem_escape_append h.braces _ p, fun _ => iff_of_false ?_ fun hkept => ?_⟩
    · have hpage : escape (y ++ '\x7d' :: z) ++ page = escape y ++ '\x7d' :: (escape z ++ page) := by
        simp [escape_append, escape_cons, escapeChar_of_notMem (c := '\x7d') (by decide)]
      have hescape : '\x7d' ∉ escape y := mt (mem_escape_iff (by decide)).mp hy
      rw [Option.isSome_some, hpage, spansFrom_closing hescape, List.append_assoc,
        closes_plain_append (plain_escape y), List.append_assoc]
      exact not_closes_closeCode
    · have hall := hkept.1
      rw [List.map_append, List.append_assoc, kept_append hy, List.map_cons, List.cons_append,
        kept_closing] at hall
      exact hq hall.1
  · exact h.append hx p

theorem labelEnd (h : Told tail stack opened page placed) :
    Told tail (.link :: stack) opened ("</a>" ++ page) placed := by
  refine ⟨mem_linkClosing_append.trans h.braces, fun hclosed => ?_⟩
  rw [spansFrom_linkClosing, List.append_assoc, closes_closeLink,
    h.closes fun hopened => mem_linkClosing_append.mp (hclosed hopened)]

/-- A span that began in a label is not closed behind it. -/
theorem unclosedLabel (h : '\x7d' ∈ page ↔ '\x7d' ∈ placed.map Prod.fst) (hp : ('\x7d', p) ∉ placed) :
    Told tail (.code :: stack) (some p) ("</a>" ++ page) placed := by
  refine ⟨mem_linkClosing_append.trans h, fun hclosed => iff_of_false ?_ fun hkept => ?_⟩
  · rw [spansFrom_linkClosing, List.append_assoc]
    exact not_closes_closeLink
  · exact not_kept (h.mp (mem_linkClosing_append.mp (hclosed rfl))) hp hkept.1

/-- The tag of a link in which no span begins. -/
theorem openTag (h : Told tail (.link :: stack) opened page placed) (hx : '\x7d' ∉ x)
    (hspans : spansFrom opened.isSome
        ("<a href=\"" ++ (escape x ++ ("\" target=\"_blank\">" ++ page))) =
      "<a href=\"" ++ (escape x ++ ("\" target=\"_blank\">" ++ spansFrom opened.isSome page)))
    (hkept : Kept opened (x.map (·, p) ++ placed) ↔ Kept opened placed) :
    Told tail stack opened ("<a href=\"" ++ (escape x ++ ("\" target=\"_blank\">" ++ page)))
      (x.map (·, p) ++ placed) := by
  refine ⟨mem_openTag.trans (mem_escape_append h.braces x p), fun hclosed => ?_⟩
  have hescape : '\x7d' ∉ escape x := mt (mem_escape_iff (by decide)).mp hx
  have hclosed' : opened.isSome → '\x7d' ∈ page := fun hopened =>
    (List.mem_append.mp (mem_openTag.mp (hclosed hopened))).resolve_left hescape
  rw [hspans, hkept, ← h.closes hclosed', List.append_assoc, List.append_assoc, List.append_assoc,
    closes_openLink (plain_escape x)]

/-- A span that begins in an address is closed behind it. -/
theorem brokenTag (h : '\x7d' ∈ page ↔ '\x7d' ∈ placed.map Prod.fst) (hclosed : '\x7d' ∈ page)
    (hp : ('\x7d', p) ∉ placed) {y z : Text} (hy : '\x7b' ∉ y) (hz : '\x7d' ∉ z) :
    Told tail stack none
      ("<a href=\"" ++ (escape (y ++ '\x7b' :: z) ++ ("\" target=\"_blank\">" ++ page)))
      ((y ++ '\x7b' :: z).map (·, p) ++ placed) := by
  refine ⟨mem_openTag.trans (mem_escape_append h _ p), fun _ => iff_of_false ?_ fun hkept => ?_⟩
  · have hpage : "<a href=\"" ++ (escape (y ++ '\x7b' :: z) ++ ("\" target=\"_blank\">" ++ page)) =
        ("<a href=\"".toList ++ escape y) ++
          '\x7b' :: (escape z ++ ("\" target=\"_blank\">" ++ page)) := by
      rw [escape_append, escape_cons, escapeChar_of_notMem (by decide)]
      simp only [List.append_assoc, List.cons_append, List.nil_append]
    have hbefore : '\x7b' ∉ "<a href=\"".toList ++ escape y := by
      rw [List.mem_append, not_or]
      exact ⟨by decide, mt (mem_escape_iff (by decide)).mp hy⟩
    have hbehind : '\x7d' ∈ escape z ++ ("\" target=\"_blank\">" ++ page) :=
      List.mem_append_right _ (List.mem_append_right _ hclosed)
    rw [Option.isSome_none, hpage, spansFrom_opening hbefore hbehind, List.append_assoc,
      List.append_assoc, List.append_assoc]
    exact not_closes_codeInAddress (plain_escape y)
  · have hlater : '\x7d' ∈ (z.map (·, p) ++ placed).map Prod.fst := by
      rw [List.map_append]
      exact List.mem_append_right _ (h.mp hclosed)
    have hplace : ('\x7d', p) ∉ z.map (·, p) ++ placed := by
      simp [mem_map_place, hz, hp]
    have hspan := hkept.1
    rw [List.map_append, List.append_assoc, kept_append hy, List.map_cons, List.cons_append,
      kept_opening hlater] at hspan
    exact not_kept hlater hplace hspan

theorem address (h : Told tail (.link :: stack) opened page placed) (hx : '\x7d' ∉ x)
    (hp : ('\x7d', p) ∉ placed) :
    Told tail stack opened ("<a href=\"" ++ (escape x ++ ("\" target=\"_blank\">" ++ page)))
      (x.map (·, p) ++ placed) := by
  have hbegin : ∀ inside, awaited inside ∉ "<a href=\"".toList := by decide
  have hend : ∀ inside, awaited inside ∉ "\" target=\"_blank\">".toList := by decide
  by_cases hopen : awaited opened.isSome ∈ x
  · cases opened with
    | some q => exact absurd hopen hx
    | none =>
      by_cases hclosed : '\x7d' ∈ page
      · obtain ⟨y, z, rfl, hy⟩ := List.eq_append_cons_of_mem hopen
        exact brokenTag h.braces hclosed hp hy (fun hz => hx (by simp [hz]))
      · have hall : '\x7d' ∉ "<a href=\"" ++ (escape x ++ ("\" target=\"_blank\">" ++ page)) := by
          rw [mem_openTag, List.mem_append, mem_escape_iff (by decide), not_or]
          exact ⟨hx, hclosed⟩
        have hplaced := mt h.braces.mpr hclosed
        have hallPlaced : '\x7d' ∉ (x.map (·, p) ++ placed).map Prod.fst := by
          rw [← mem_escape_append h.braces x p, List.mem_append, mem_escape_iff (by decide), not_or]
          exact ⟨hx, hclosed⟩
        refine h.openTag hx ?_ (iff_of_true (kept_of_unclosed hallPlaced) (kept_of_unclosed hplaced))
        rw [Option.isSome_none, spansFrom_of_unclosed hall, spansFrom_of_unclosed hclosed]
  · refine h.openTag hx ?_ (kept_append hopen)
    rw [spansFrom_append (hbegin _), spansFrom_append (awaited_notMem_escape hopen),
      spansFrom_append (hend _)]

end Told

/-! ### Whole lines -/

theorem link_append (label address page : Text) :
    Markup.link label address ++ page =
      "<a href=\"" ++ (address ++ ("\" target=\"_blank\">" ++ (label ++ ("</a>" ++ page)))) := by
  unfold Markup.link
  simp only [List.flatten_cons, List.flatten_nil, List.append_assoc, List.nil_append]

theorem notMem_placedFrom {n m : Nat} (h : n < m) (c : Char) (ps : List Part) :
    (c, .label n) ∉ placedFrom m ps ∧ (c, .address n) ∉ placedFrom m ps := by
  induction ps generalizing m with
  | nil => simp [placedFrom]
  | cons part ps ih =>
    cases part with
    | running t => simpa [placedFrom, mem_map_place] using ih h
    | link label address =>
      simpa [placedFrom, mem_map_place, Nat.ne_of_gt h] using ih (Nat.lt_succ_of_lt h)

/-- A brace closes no span in an address. -/
theorem closing_notMem_placedFrom {ps : List Part}
    (haddress : ∀ label address, .link label address ∈ ps → '\x7d' ∉ address) (n m : Nat) :
    ('\x7d', .address n) ∉ placedFrom m ps := by
  induction ps generalizing m with
  | nil => simp [placedFrom]
  | cons part ps ih =>
    have hrest := ih fun label address h => haddress label address (List.mem_cons_of_mem _ h)
    cases part with
    | running t => simpa [placedFrom, mem_map_place] using hrest m
    | link label address =>
      have hclosed := haddress label address List.mem_cons_self
      simpa [placedFrom, mem_map_place, hclosed] using hrest (m + 1)

theorem told_parts (tail : Text) {ps : List Part}
    (haddress : ∀ label address, .link label address ∈ ps → '\x7d' ∉ address) (n : Nat) :
    Told tail [] none (ps.flatMap Part.markup) (placedFrom n ps) ∧
      Told tail [.code] (some .running) (ps.flatMap Part.markup) (placedFrom n ps) := by
  induction ps generalizing n with
  | nil =>
    have hbraces : '\x7d' ∈ ([] : List Part).flatMap Part.markup ↔
        '\x7d' ∈ (placedFrom n []).map Prod.fst := by
      simp [placedFrom]
    refine ⟨⟨hbraces, fun _ => ?_⟩, hbraces, fun hclosed => absurd (hclosed rfl) (by simp)⟩
    simp [spansFrom, Kept, spansOf, placedFrom]
  | cons part ps ih =>
    have hrest := ih fun label address h => haddress label address (List.mem_cons_of_mem _ h)
    rw [List.flatMap_cons]
    cases part with
    | running t => exact Told.text (hrest n).1 (hrest n).2 t
    | link label address =>
      obtain ⟨hnone, hrunning⟩ := hrest (n + 1)
      obtain ⟨hlabelPlace, haddressPlace⟩ := notMem_placedFrom (Nat.lt_succ_self n) '\x7d' ps
      have hclosed := haddress label address List.mem_cons_self
      have hfresh : ('\x7d', .address n) ∉ label.map (·, Place.label n) ++ placedFrom (n + 1) ps := by
        simp [mem_map_place, haddressPlace]
      have hlabel := (Told.text hnone.labelEnd (Told.unclosedLabel hnone.braces hlabelPlace) label).1
      have hcrossing := hrunning.labelEnd.crossing (p := .label n) (by simp) label
      rw [Part.markup, link_append]
      exact ⟨hlabel.address hclosed hfresh, hcrossing.address hclosed hfresh⟩

theorem closing_mem_of_mem_spansOf {opened : Option Place} {l : List (Char × Place)} {span : Span}
    (h : span ∈ spansOf opened l) : ('\x7d', span.closing) ∈ l := by
  fun_induction spansOf opened l with
  | case1 => simp at h
  | case2 c p l _ ih => exact List.mem_cons_of_mem _ (ih h)
  | case3 c p l _ ih => exact List.mem_cons_of_mem _ (ih h)
  | case4 q p l ih =>
    rcases List.mem_cons.mp h with rfl | h
    · exact List.mem_cons_self
    · exact List.mem_cons_of_mem _ (ih h)
  | case5 q c p l _ ih => exact List.mem_cons_of_mem _ (ih h)

theorem kept_iff (line : Text) :
    Kept none (placedFrom 0 (parts line)) ↔ ∀ span ∈ lineSpans line,
      span.opening = .running ∧ span.closing = .running ∨
        ∃ n, span.opening = .label n ∧ span.closing = .label n := by
  refine forall₂_congr fun span hspan => ⟨fun heq => ?_, ?_⟩
  · rw [heq]
    cases hplace : span.closing with
    | running => exact Or.inl ⟨rfl, rfl⟩
    | label n => exact Or.inr ⟨n, rfl, rfl⟩
    | address n =>
      have hmem := closing_mem_of_mem_spansOf hspan
      rw [hplace] at hmem
      exact absurd hmem (closing_notMem_placedFrom (fun _ _ => closing_notMem_address) n 0)
  · rintro (⟨hopening, hclosing⟩ | ⟨n, hopening, hclosing⟩) <;> rw [hopening, hclosing]

theorem closes_richLine (line tail : Text) :
    Closes [] (richLine line ++ tail) ↔ Kept none (placedFrom 0 (parts line)) ∧ Closes [] tail := by
  have haddress : ∀ label address, .link label address ∈ parts line → '\x7d' ∉ address :=
    fun _ _ => closing_notMem_address
  have hline := (told_parts tail haddress 0).1
  rw [richLine, codeSpans_eq, links_escape]
  exact hline.closes (by simp)

theorem closes_richLines {lines : List Text} (hne : lines ≠ []) :
    Closes [] (['\n'].intercalate (lines.map richLine)) ↔
      ∀ line ∈ lines, Kept none (placedFrom 0 (parts line)) := by
  induction lines with
  | nil => exact absurd rfl hne
  | cons line lines ih =>
    cases lines with
    | nil =>
      have hline := closes_richLine line []
      rw [List.append_nil, and_iff_left .done] at hline
      simpa using hline
    | cons next lines =>
      rw [List.map_cons, List.map_cons, List.intercalate_cons_cons, List.append_assoc, closes_richLine,
        closes_plain_append (by decide), ← List.map_cons, ih (List.cons_ne_nil _ _)]
      exact (List.forall_mem_cons (p := fun line => Kept none (placedFrom 0 (parts line)))).symm

/-- The tags of a rich text are well nested if and only if every code span of every line begins and ends
in the running text, or begins and ends in the label of one link. -/
theorem wellNested_richText_iff (t : Text) :
    WellNested (richText t) ↔ ∀ line ∈ t.splitOn '\n', ∀ span ∈ lineSpans line,
      span.opening = .running ∧ span.closing = .running ∨
        ∃ n, span.opening = .label n ∧ span.closing = .label n := by
  rw [WellNested, richText_eq_mapLines, mapLines, closes_richLines (splitOn_ne_nil '\n' t)]
  exact forall₂_congr fun line _ => kept_iff line

/-- A span that begins in the label of a link and ends behind it is open where the link is closed. -/
theorem span_across_link_not_nested : ¬ WellNested (richText "[a \x7bb]\x7b@link u\x7d c\x7d") := by
  have hfirst : firstLink? "[a \x7bb]\x7b@link u\x7d c\x7d" = some ⟨[], "a \x7bb", "u", " c\x7d"⟩ := by
    rfl
  have hlast : firstLink? " c\x7d" = none := by rfl
  have hlinks : links "[a \x7bb]\x7b@link u\x7d c\x7d" = link "a \x7bb" "u" ++ " c\x7d" := by
    rw [links_eq, hfirst]
    simp only
    rw [links_eq, hlast]
    rfl
  have hpage : richText "[a \x7bb]\x7b@link u\x7d c\x7d" =
      "<a href=\"" ++ ("u".toList ++ ("\" target=\"_blank\">" ++
        ("a ".toList ++ ("<code>" ++ ("b".toList ++ ("</a>" ++ " c</code>".toList)))))) := by
    rw [richText_eq_mapLines, mapLines, splitOn_of_notMem (by decide), List.map_singleton,
      List.intercalate_singleton, richLine, escape_eq_self (by decide), hlinks, codeSpans_eq]
    decide
  rw [WellNested, hpage, closes_openLink (by decide), closes_plain_append (by decide), closes_openCode,
    closes_plain_append (by decide)]
  exact not_closes_closeLink

end DocComment.Markup
