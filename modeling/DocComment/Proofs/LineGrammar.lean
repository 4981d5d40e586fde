import DocComment.Line
import DocComment.Proofs.TagMarks

/-!
# The grammar of documentation lines

A line is read by its words alone.  A first word that is a lone star with another word behind it is
left out, and the first word that remains decides: a delimiter begins it, or it is the mark of a tag,
whose fields are the words behind it.  A line without a mark is free text if it begins with a star.
-/

namespace DocComment

/-- The number of words that have to follow the mark. -/
def Category.required : Category → Nat
  | delimiter | flag | description | text => 0
  | label | typed => 1
  | value | named => 2

namespace Payload

/-- The payload that the words behind a mark make, unless there are too few of them. -/
def ofWords? : Category → List Text → Option Payload
  | .flag, _ => some flag
  | .label, name :: _ => some (label name)
  | .description, rest => some (description ([' '].intercalate rest))
  | .value, type :: name :: _ => some (value (.parse type) name)
  | .typed, type :: rest => some (typed (.parse type) ([' '].intercalate rest))
  | .named, type :: name :: rest => some (named (.parse type) name ([' '].intercalate rest))
  | .text, [] => some (text none)
  | .text, first :: rest => some (text (some ([' '].intercalate (first :: rest))))
  | _, _ => none

theorem isSome_ofWords? {category : Category} (h : category ≠ .delimiter) (rest : List Text) :
    (ofWords? category rest).isSome ↔ category.required ≤ rest.length := by
  cases category with
  | delimiter => exact absurd rfl h
  | flag => simp [ofWords?, Category.required]
  | label => cases rest <;> simp [ofWords?, Category.required]
  | description => simp [ofWords?, Category.required]
  | value =>
    match rest with
    | [] | [_] | _ :: _ :: _ => simp [ofWords?, Category.required]
  | typed => cases rest <;> simp [ofWords?, Category.required]
  | named =>
    match rest with
    | [] | [_] | _ :: _ :: _ => simp [ofWords?, Category.required]
  | text => cases rest <;> simp [ofWords?, Category.required]

private theorem wordAt_cons_succ (mark : Text) {rest : List Text} (h : ∀ w ∈ rest, w ≠ [])
    (i : Nat) : wordAt (mark :: rest) (i + 1) = rest[i]? := by
  rw [wordAt, List.getElem?_cons_succ]
  cases hw : rest[i]? with
  | none => rfl
  | some w =>
    have hne : w ≠ [] := h w (List.mem_of_getElem? hw)
    simp [hne]

/-- Reading by position is reading word by word, since no word is empty. -/
theorem ofTokens?_cons (mark : Text) {rest : List Text} (h : ∀ w ∈ rest, w ≠ [])
    (category : Category) : ofTokens? (mark :: rest) category = ofWords? category rest := by
  have hword := wordAt_cons_succ mark h
  cases category with
  | delimiter => rfl
  | flag => rfl
  | label => cases rest <;> simp [ofTokens?, ofWords?, hword]
  | description => simp [ofTokens?, ofWords?, wordsFrom]
  | value =>
    match rest with
    | [] | [_] | _ :: _ :: _ => simp [ofTokens?, ofWords?, hword]
  | typed => cases rest <;> simp [ofTokens?, ofWords?, hword, wordsFrom]
  | named =>
    match rest with
    | [] | [_] | _ :: _ :: _ => simp [ofTokens?, ofWords?, hword, wordsFrom]
  | text =>
    cases rest with
    | nil => simp [ofTokens?, ofWords?, wordsFrom]
    | cons first rest =>
      have hfirst : first ≠ [] := h first List.mem_cons_self
      cases rest <;> simp [ofTokens?, ofWords?, wordsFrom, hfirst]

end Payload

namespace Line
open Text

/-- The words of a line without its continuation star. -/
def content (source : Text) : List Text :=
  match source.words with
  | ['*'] :: w :: ws => w :: ws
  | ws => ws

theorem mem_content {source w : Text} (h : w ∈ content source) :
    w ≠ [] ∧ ∀ c ∈ w, isBlank c = false := by
  apply mem_words (t := source)
  unfold content at h
  split at h
  · rename_i heq
    rw [heq]
    exact List.mem_cons_of_mem _ h
  · exact h

/-- Behind the first of joined words stands nothing or a space. -/
private theorem intercalate_cons (w : Text) (ws : List Text) :
    ∃ rest : Text, [' '].intercalate (w :: ws) = w ++ rest ∧ ∀ c ∈ rest.head?, c = ' ' := by
  cases ws with
  | nil => exact ⟨[], by simp⟩
  | cons v vs => exact ⟨' ' :: [' '].intercalate (v :: vs), by simp [List.intercalate_cons_cons]⟩

private theorem takeWhile_intercalate_cons {w : Text} (h : ∀ c ∈ w, isBlank c = false)
    (ws : List Text) : ([' '].intercalate (w :: ws)).takeWhile (!isBlank ·) = w := by
  obtain ⟨rest, hjoin, hrest⟩ := intercalate_cons w ws
  rw [hjoin, List.takeWhile_append_of_pos (by simpa using h)]
  cases rest with
  | nil => simp
  | cons c rest =>
    have hc : c = ' ' := hrest c rfl
    simp [hc]

private theorem splitOn_words {ws : List Text} (h : ∀ w ∈ ws, ∀ c ∈ w, isBlank c = false)
    (hne : ws ≠ []) : splitOn ' ' ([' '].intercalate ws) = ws := by
  apply splitOn_intercalate _ hne
  intro w hw hspace
  have hblank := h w hw ' ' hspace
  rw [isBlank_space] at hblank
  cases hblank

/-- A star is left out when it is the first of several words. -/
theorem body_collapse (source : Text) :
    body source.collapse = [' '].intercalate (content source) := by
  have hmem : ∀ w ∈ source.words, ∀ c ∈ w, isBlank c = false := fun w hw => (mem_words hw).2
  rw [collapse_eq, body]
  unfold content
  generalize source.words = ws at hmem
  split
  · rename_i w ws
    have hstar : ("* " : Text).isPrefixOf? ([' '].intercalate (['*'] :: w :: ws)) =
        some ([' '].intercalate (w :: ws)) := by
      rw [List.isPrefixOf?_eq_some_iff_append_eq, List.intercalate_cons_cons]
      rfl
    rw [hstar, Option.getD_some]
  · rename_i hstar
    cases hrest : ("* " : Text).isPrefixOf? ([' '].intercalate ws) with
    | none => rfl
    | some rest =>
      rw [List.isPrefixOf?_eq_some_iff_append_eq] at hrest
      have hne : ws ≠ [] := by
        rintro rfl
        simp at hrest
      have hsplit : ws = ['*'] :: splitOn ' ' rest := by
        rw [← splitOn_words hmem hne, ← hrest]
        rfl
      obtain ⟨w, ws', htail⟩ := List.exists_cons_of_ne_nil (splitOn_ne_nil ' ' rest)
      rw [htail] at hsplit
      exact absurd hsplit (hstar w ws')

theorem splitOn_body {source mark : Text} {rest : List Text} (h : content source = mark :: rest) :
    (body source.collapse).splitOn ' ' = mark :: rest := by
  rw [body_collapse, ← h]
  apply splitOn_words
  · exact fun w hw => (mem_content hw).2
  · simp [h]

/-- The tag that introduces a line is read off the first word of its content. -/
theorem introducing?_body {source : Text} {tag : Tag} :
    Tag.introducing? (body source.collapse) = some tag ↔
      ∃ head rest, content source = head :: rest ∧
        if tag.category = .delimiter then tag.mark <+: head else head = tag.mark := by
  rw [Tag.introducing?_eq_some_iff, Tag.introduces_iff, body_collapse]
  cases hcontent : content source with
  | nil =>
    have hmark := Tag.mark_ne_nil tag
    simp [hmark, hmark.symm]
  | cons head rest =>
    have hhead : ∀ c ∈ head, isBlank c = false :=
      (mem_content (hcontent ▸ List.mem_cons_self)).2
    have hword := takeWhile_intercalate_cons hhead rest
    have hpre : tag.mark <+: [' '].intercalate (head :: rest) ↔ tag.mark <+: head := by
      constructor
      · rintro ⟨tail, htail⟩
        -- A mark holds no white space, so it cannot reach beyond the first word.
        rw [← htail, Tag.takeWhile_mark_append] at hword
        exact ⟨_, hword⟩
      · intro h
        rw [← hword] at h
        exact h.trans (List.takeWhile_prefix _)
    rw [hword, hpre]
    constructor
    · intro h
      exact ⟨head, rest, rfl, h⟩
    · rintro ⟨head', rest', heq, h⟩
      cases heq
      exact h

/-- The first word of the content is no mark and no delimiter begins it. -/
def Unmarked (source : Text) : Prop :=
  ∀ head ∈ (content source).head?,
    ¬ ("/**" : Text) <+: head ∧ ¬ ("*/" : Text) <+: head ∧ ∀ tag : Tag, head ≠ tag.mark

/-- The grammar of lines over the words of a source line. -/
inductive Reads (place : Location) (source : Text) : Except Problem (Option Line) → Prop where
  | start {head : Text} {rest : List Text} :
      content source = head :: rest → ("/**" : Text) <+: head →
      Reads place source (.ok (some .start))
  | stop {head : Text} {rest : List Text} :
      content source = head :: rest → ("*/" : Text) <+: head →
      Reads place source (.ok (some .stop))
  | tagged {tag : Tag} {rest : List Text} {payload : Payload} :
      content source = tag.mark :: rest → tag.category ≠ .delimiter →
      tag.category.required ≤ rest.length → Payload.ofWords? tag.category rest = some payload →
      Reads place source (.ok (some (.tagged tag payload)))
  | incomplete {tag : Tag} {rest : List Text} :
      content source = tag.mark :: rest → rest.length < tag.category.required →
      Reads place source (.error (.incomplete tag place))
  | raw {word : Text} {ws : List Text} :
      Unmarked source → source.words = ('*' :: word) :: ws →
      Reads place source (.ok (some (.raw
        (([' '].intercalate source.words).dropWhile fun c => c == '*' || c == ' '))))
  | other :
      Unmarked source → (∀ word ws, source.words ≠ ('*' :: word) :: ws) →
      Reads place source (.ok none)

private theorem recognize_of_introducing (place : Location) {source : Text} {tag : Tag} {line : Line}
    (htag : Tag.introducing? (body source.collapse) = some tag)
    (hline : ofTokens? ((body source.collapse).splitOn ' ') tag = some line) :
    recognize place source = .ok (some line) := by
  simp only [recognize, htag, hline]

private theorem ofTokens?_eq {tag : Tag} (h : tag.category ≠ .delimiter) (tokens : List Text) :
    ofTokens? tokens tag = (Payload.ofTokens? tokens tag.category).map (tagged tag) := by
  cases tag <;> first | rfl | exact absurd rfl h

theorem recognize_marked (place : Location) {source : Text} {tag : Tag} {rest : List Text}
    (hcontent : content source = tag.mark :: rest) (h : tag.category ≠ .delimiter) :
    recognize place source =
      match Payload.ofWords? tag.category rest with
      | some payload => .ok (some (.tagged tag payload))
      | none => .error (.incomplete tag place) := by
  have htag : Tag.introducing? (body source.collapse) = some tag :=
    introducing?_body.mpr ⟨tag.mark, rest, hcontent, by rw [if_neg h]⟩
  have hrest : ∀ w ∈ rest, w ≠ [] := by
    intro w hw
    exact (mem_content (hcontent ▸ List.mem_cons_of_mem _ hw)).1
  simp only [recognize, htag, splitOn_body hcontent, ofTokens?_eq h,
    Payload.ofTokens?_cons tag.mark hrest]
  cases Payload.ofWords? tag.category rest <;> rfl

theorem introducing?_eq_none_iff {source : Text} :
    Tag.introducing? (body source.collapse) = none ↔ Unmarked source := by
  rw [Option.eq_none_iff_forall_ne_some]
  constructor
  · intro h head hhead
    obtain ⟨rest, hcontent⟩ := List.head?_eq_some_iff.mp hhead
    refine ⟨fun hstart => ?_, fun hstop => ?_, fun tag htag => ?_⟩
    · exact h .start (introducing?_body.mpr ⟨head, rest, hcontent, hstart⟩)
    · exact h .stop (introducing?_body.mpr ⟨head, rest, hcontent, hstop⟩)
    · refine h tag (introducing?_body.mpr ⟨head, rest, hcontent, ?_⟩)
      split
      · exact htag ▸ List.prefix_rfl
      · exact htag
  · intro h tag htag
    obtain ⟨head, rest, hcontent, hmark⟩ := introducing?_body.mp htag
    obtain ⟨hstart, hstop, hother⟩ := h head (by simp [hcontent])
    split at hmark
    · rename_i hdelimiter
      rcases Tag.eq_start_or_stop hdelimiter with rfl | rfl
      · exact hstart hmark
      · exact hstop hmark
    · exact hother tag hmark

theorem head?_collapse {source : Text} :
    source.collapse.head? = some '*' ↔ ∃ word ws, source.words = ('*' :: word) :: ws := by
  rw [collapse_eq]
  cases hwords : source.words with
  | nil => simp
  | cons w ws =>
    obtain ⟨c, word, rfl⟩ := List.exists_cons_of_ne_nil (mem_words (t := source) (w := w)
      (hwords ▸ List.mem_cons_self)).1
    obtain ⟨rest, hjoin, -⟩ := intercalate_cons (c :: word) ws
    simp [hjoin]

theorem Reads.recognize_eq {place : Location} {source : Text}
    {result : Except Problem (Option Line)} (h : Reads place source result) :
    recognize place source = result := by
  cases h with
  | start hcontent hmark =>
    have htag : Tag.introducing? (body source.collapse) = some .start :=
      introducing?_body.mpr ⟨_, _, hcontent, hmark⟩
    exact recognize_of_introducing place htag rfl
  | stop hcontent hmark =>
    have htag : Tag.introducing? (body source.collapse) = some .stop :=
      introducing?_body.mpr ⟨_, _, hcontent, hmark⟩
    exact recognize_of_introducing place htag rfl
  | tagged hcontent hcategory _ hpayload => rw [recognize_marked place hcontent hcategory, hpayload]
  | @incomplete tag rest hcontent hlength =>
    have hcategory : tag.category ≠ .delimiter := by
      intro h
      rw [h] at hlength
      exact Nat.not_lt_zero _ hlength
    have hnone : Payload.ofWords? tag.category rest = none := by
      rw [← Option.not_isSome_iff_eq_none, Payload.isSome_ofWords? hcategory]
      exact Nat.not_le_of_lt hlength
    rw [recognize_marked place hcontent hcategory, hnone]
  | raw hunmarked hwords =>
    have hstar : source.collapse.head? = some '*' := head?_collapse.mpr ⟨_, _, hwords⟩
    simp only [recognize, introducing?_eq_none_iff.mpr hunmarked, if_pos hstar]
    rw [collapse_eq]
  | other hunmarked hwords =>
    have hstar : ¬ source.collapse.head? = some '*' := by
      rw [head?_collapse]
      rintro ⟨word, ws, h⟩
      exact hwords word ws h
    simp only [recognize, introducing?_eq_none_iff.mpr hunmarked, if_neg hstar]

/-- Every source line has a reading. -/
theorem exists_reads (place : Location) (source : Text) : ∃ result, Reads place source result := by
  cases htag : Tag.introducing? (body source.collapse) with
  | none =>
    have hunmarked := introducing?_eq_none_iff.mp htag
    by_cases hstar : ∃ word ws, source.words = ('*' :: word) :: ws
    · obtain ⟨word, ws, hwords⟩ := hstar
      exact ⟨_, .raw hunmarked hwords⟩
    · exact ⟨_, .other hunmarked fun word ws h => hstar ⟨word, ws, h⟩⟩
  | some tag =>
    obtain ⟨head, rest, hcontent, hmark⟩ := introducing?_body.mp htag
    split at hmark
    · rename_i hdelimiter
      rcases Tag.eq_start_or_stop hdelimiter with rfl | rfl
      · exact ⟨_, .start hcontent hmark⟩
      · exact ⟨_, .stop hcontent hmark⟩
    · rename_i hcategory
      rw [hmark] at hcontent
      by_cases hlength : tag.category.required ≤ rest.length
      · obtain ⟨payload, hpayload⟩ := Option.isSome_iff_exists.mp
          ((Payload.isSome_ofWords? hcategory rest).mpr hlength)
        exact ⟨_, .tagged hcontent hcategory hlength hpayload⟩
      · exact ⟨_, .incomplete hcontent (Nat.lt_of_not_le hlength)⟩

/-- Recognition accepts exactly the grammar, and a block is opened by just the lines that are
recognized as its start. -/
theorem recognize_iff_reads (place : Location) (source : Text) :
    (∀ result, recognize place source = result ↔ Reads place source result) ∧
      (opensBlock source = true ↔ recognize place source = .ok (some .start)) := by
  obtain ⟨found, hfound⟩ := exists_reads place source
  have hiff : ∀ result, recognize place source = result ↔ Reads place source result := by
    intro result
    constructor
    · rintro rfl
      rw [hfound.recognize_eq]
      exact hfound
    · exact Reads.recognize_eq
  refine ⟨hiff, ?_⟩
  rw [opensBlock, beq_iff_eq, introducing?_body, hiff]
  constructor
  · rintro ⟨head, rest, hcontent, hmark⟩
    exact .start hcontent hmark
  · intro h
    cases h with
    | start hcontent hmark => exact ⟨_, _, hcontent, hmark⟩

example : recognize ⟨"dog.js", 7⟩ "\t*  @methodOf   Dog " =
    .ok (some (.tagged .methodOf (.label "Dog"))) := by rfl

end Line

end DocComment
