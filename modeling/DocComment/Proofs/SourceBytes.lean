import DocComment.Proofs.LineEnds
import DocComment.Proofs.ScanSteps
import Mathlib.Data.Set.List
import Mathlib.Tactic.Common

/-! # Bytes and text

The two characters that end lines are written as one byte each, and no other character has these bytes
in its UTF-8 form.  So bytes are cut into lines where their text is, and bytes of which every line can be
decoded are those of a text.  A line that cannot be decoded ends the reading, unless a problem was met
before it; a block that is open there does not count. -/

namespace DocComment

namespace Bytes

/-! ### The UTF-8 form of a text -/

theorem ofText_append (s t : Text) : ofText (s ++ t) = ofText s ++ ofText t := List.flatMap_append

theorem ofText_cons (c : Char) (t : Text) : ofText (c :: t) = String.utf8EncodeChar c ++ ofText t :=
  List.flatMap_cons

theorem ofText_eq_nil_iff {t : Text} : ofText t = [] ↔ t = [] := by
  cases t with
  | nil => simp [ofText]
  | cons c t => simp [ofText_cons]

theorem decode?_eq_some_iff {b : Bytes} {t : Text} : b.decode? = some t ↔ b = ofText t := by
  have hencode : (ofText t).toByteArray = t.utf8Encode := rfl
  constructor
  · intro h
    obtain ⟨chars, hchars, rfl⟩ := Option.map_eq_some_iff.mp h
    have hvalid : (b.toByteArray.utf8Decode?).isSome := by simp [hchars]
    have hget := ByteArray.utf8Encode_get_utf8Decode? (h := hvalid)
    simp only [hchars, Option.get_some] at hget
    have hdata := congrArg (fun a : ByteArray => a.data.toList) (hencode.trans hget)
    simpa using hdata.symm
  · rintro rfl
    simp [decode?, hencode]

/-- The byte of an ASCII character is in the UTF-8 form of no other character. -/
theorem mem_utf8EncodeChar_iff {a c : Char} (ha : a.toNat < 128) :
    UInt8.ofNat a.toNat ∈ String.utf8EncodeChar c ↔ c = a := by
  have hval : c = a ↔ c.val.toNat = a.toNat := by
    rw [← Char.toNat_inj]
    rfl
  rw [hval, String.utf8EncodeChar]
  generalize c.val.toNat = v
  generalize a.toNat = u at ha
  -- Only a form of one byte has a byte below 128.
  split
  · simp [← UInt8.toNat_inj]
    omega
  · split
    · simp [← UInt8.toNat_inj]
      omega
    · split
      · simp [← UInt8.toNat_inj]
        omega
      · simp [← UInt8.toNat_inj]
        omega

theorem ofText_intercalate (sep : Text) (ts : List Text) :
    ofText (sep.intercalate ts) = (ofText sep).intercalate (ts.map ofText) :=
  flatMap_intercalate String.utf8EncodeChar sep ts

/-- The byte of an ASCII character cuts the UTF-8 form of a text where the character cuts the text. -/
theorem split_ofText {sep : Char} (hsep : sep.toNat < 128) (t : Text) :
    split (· == UInt8.ofNat sep.toNat) (ofText t) = (t.splitOn sep).map ofText := by
  induction t with
  | nil => rfl
  | cons c t ih =>
    obtain ⟨first, rest, ht⟩ := List.exists_cons_of_ne_nil (Text.splitOn_ne_nil sep t)
    rw [ht] at ih
    rw [ofText_cons, Text.splitOn, split_cons, ← Text.splitOn, ht]
    by_cases hc : c = sep
    · have hbyte : String.utf8EncodeChar c = [UInt8.ofNat sep.toNat] := by
        subst hc
        exact String.utf8EncodeChar_eq_singleton (by
          rw [Char.utf8Size_eq_one_iff, UInt32.le_iff_toNat_le]
          exact Nat.le_of_lt_succ hsep)
      rw [hbyte, List.singleton_append, split_cons, ih]
      simp [hc, ofText]
    · have hother : ∀ u ∈ String.utf8EncodeChar c, (u == UInt8.ofNat sep.toNat) = false := by
        intro u hu
        rw [beq_eq_false_iff_ne]
        rintro rfl
        exact hc ((mem_utf8EncodeChar_iff hsep).mp hu)
      rw [split_append_of_forall hother, ih]
      simp [hc, ofText_cons]

end Bytes

namespace SourceLine

/-! ### Lines of bytes -/

theorem getLast?_ofText {t : Text} (h : t.getLast? ≠ some '\r') : (Bytes.ofText t).getLast? ≠ some 13 := by
  intro hlast
  cases hend : t.getLast? with
  | none =>
    rw [List.getLast?_eq_none_iff.mp hend] at hlast
    cases hlast
  | some c =>
    obtain ⟨rest, rfl⟩ := List.getLast?_eq_some_iff.mp hend
    have hone : Bytes.ofText [c] = String.utf8EncodeChar c := List.append_nil _
    rw [Bytes.ofText_append, hone,
      List.getLast?_append_of_ne_nil _ String.utf8EncodeChar_ne_nil] at hlast
    have hc : c = '\r' :=
      (Bytes.mem_utf8EncodeChar_iff (by decide)).mp (List.mem_of_getLast? hlast)
    exact h (by rw [hend, hc])

theorem stripped_ofText (t : Text) : stripped 13 (Bytes.ofText t) = Bytes.ofText (stripped '\r' t) := by
  by_cases hlast : t.getLast? = some '\r'
  · obtain ⟨line, rfl⟩ := List.getLast?_eq_some_iff.mp hlast
    have hbyte : Bytes.ofText ['\r'] = [13] := rfl
    rw [Bytes.ofText_append, hbyte, stripped_append, stripped_append]
  · rw [stripped_eq_self 13 (getLast?_ofText hlast), stripped_eq_self '\r' hlast]

theorem ended_ofText (pieces : List Text) :
    ended 13 (pieces.map Bytes.ofText) = (ended '\r' pieces).map Bytes.ofText := by
  induction pieces with
  | nil => rfl
  | cons piece pieces ih =>
    cases pieces with
    | nil =>
      by_cases hpiece : piece = [] <;> simp [ended, Bytes.ofText_eq_nil_iff, hpiece]
    | cons next pieces =>
      rw [List.map_cons, List.map_cons, ended_cons_cons, ← List.map_cons, ih, stripped_ofText,
        ended_cons_cons, List.map_cons]

/-- The lines of the bytes of a text are those of the text. -/
theorem ofBytes_ofText (t : Text) : ofBytes (Bytes.ofText t) = ofText t := by
  have hlines : byteLines (Bytes.ofText t) = (textLines t).map Bytes.ofText := by
    have hfeed : '\n'.toNat < 128 := by decide
    have hsplit : split (· == 10) (Bytes.ofText t) = (t.splitOn '\n').map Bytes.ofText :=
      Bytes.split_ofText hfeed t
    rw [byteLines, textLines, ← ended_ofText, hsplit]
  rw [ofBytes, ofText, hlines, List.map_map]
  apply List.map_congr_left
  intro line _
  simp only [Function.comp_apply, decode, Bytes.decode?_eq_some_iff.mpr rfl]

/-- Bytes of which every line can be decoded are those of a text. -/
theorem exists_ofText_eq {b : Bytes} (h : ∀ line ∈ byteLines b, (Bytes.decode? line).isSome) :
    ∃ t, b = Bytes.ofText t := by
  have hlines : ∀ line ∈ byteLines b, line ∈ Set.range Bytes.ofText := by
    intro line hline
    obtain ⟨t, ht⟩ := Option.isSome_iff_exists.mp (h line hline)
    exact ⟨t, (Bytes.decode?_eq_some_iff.mp ht).symm⟩
  have hpieces : ∀ piece ∈ split (· == 10) b, piece ∈ Set.range Bytes.ofText := by
    refine forall_of_ended 13 ⟨[], rfl⟩ ?_ hlines
    rintro _ ⟨t, rfl⟩
    exact ⟨t ++ ['\r'], Bytes.ofText_append t ['\r']⟩
  have hrange : split (· == 10) b ∈ Set.range (List.map Bytes.ofText) := by
    rw [Set.range_list_map]
    exact hpieces
  obtain ⟨ts, hts⟩ := hrange
  refine ⟨['\n'].intercalate ts, ?_⟩
  rw [Bytes.ofText_intercalate, hts, split_eq_splitOnP]
  exact (List.intercalate_splitOn (10 : UInt8)).symm

end SourceLine

/-! ### Lines that cannot be decoded -/

theorem exists_of_mapM_eq_error {α β ε : Type} {f : α → Except ε β} {l : List α} {e : ε}
    (h : l.mapM f = .error e) : ∃ a ∈ l, f a = .error e := by
  induction l with
  | nil => cases h
  | cons a l ih =>
    rw [List.mapM_cons] at h
    cases ha : f a with
    | error e' =>
      rw [ha] at h
      cases h
      exact ⟨a, List.mem_cons_self, ha⟩
    | ok b =>
      cases hl : l.mapM f with
      | error e' =>
        rw [ha, hl] at h
        cases h
        obtain ⟨a', ha', he⟩ := ih hl
        exact ⟨a', List.mem_cons_of_mem _ ha', he⟩
      | ok bs =>
        rw [ha, hl] at h
        cases h

theorem Block.path_eq_error {b : Block} {e : Problem} (h : b.path = .error e) :
    e = .nameless b.place ∨ e = .orphan b.place := by
  cases hfind : Kind.all.find? (b.has ·.tag) with
  | none =>
    rw [path, Block.id, kind, hfind] at h
    cases h
    exact Or.inl rfl
  | some kind =>
    rw [path, Block.id, parentPath, Block.kind, hfind] at h
    by_cases hmodule : kind = .moduleBlock
    · subst hmodule
      cases h
    · cases hparent : parentTags.findSome? b.firstName? with
      | some parent => simp [bind, Except.bind, pure, Except.pure, hmodule, hparent] at h
      | none =>
        simp [bind, Except.bind, pure, Except.pure, hmodule, hparent] at h
        exact Or.inr h.symm

namespace Source

variable {file : Text}

/-- A line that can be read gives no problem but an incomplete tag. -/
theorem step_eq_error {opened : Option Draft} (h : Unclosed opened) {n : Nat} {source : Text}
    {e : Problem} (he : (step file n opened (.ok source)).1 = some (.error e)) :
    ∃ tag place, e = .incomplete tag place := by
  cases opened with
  | none => cases he
  | some draft =>
    rw [step] at he
    split at he
    · rename_i e' hread
      cases he
      obtain ⟨tag, rfl⟩ := Line.recognize_eq_error hread
      exact ⟨tag, _, rfl⟩
    · cases he
    · rw [Draft.result_take_stop (h draft rfl)] at he
      cases he
    · cases he

theorem exists_incomplete_of_mem_steps {n : Nat} {opened : Option Draft} (h : Unclosed opened)
    {texts : List Text} {e : Problem} (he : .error e ∈ (steps file n opened (texts.map .ok)).1) :
    ∃ tag place, e = .incomplete tag place := by
  induction texts generalizing n opened with
  | nil => cases he
  | cons t texts ih =>
    rw [List.map_cons, steps] at he
    rcases List.mem_append.mp he with hfirst | hrest
    · exact step_eq_error h (Option.mem_toList.mp hfirst)
    · exact ih (h.step file n (.ok t)) hrest

/-- What is wrong before the input ends is wrong in a line or in a block that was closed. -/
theorem problem_of_mapM_steps {texts : List Text} {e : Problem}
    (h : (steps file 1 none (texts.map .ok)).1.mapM withPath = .error e) :
    (∃ tag place, e = .incomplete tag place) ∨ (∃ block, e = .nameless block) ∨
      ∃ block, e = .orphan block := by
  obtain ⟨item, hitem, he⟩ := exists_of_mapM_eq_error h
  cases item with
  | error e' =>
    cases he
    exact Or.inl (exists_incomplete_of_mem_steps unclosed_none hitem)
  | ok block =>
    right
    rw [withPath_ok] at he
    cases hpath : block.path with
    | ok path =>
      rw [hpath] at he
      cases he
    | error e' =>
      rw [hpath] at he
      cases he
      exact (block.path_eq_error hpath).imp (fun h => ⟨_, h⟩) fun h => ⟨_, h⟩

/-- A line that cannot be read ends the reading, unless a problem was met before. -/
theorem blocks_append_error (file : Text) (ls more : List SourceLine) (fault : Fault) :
    blocks file (ls ++ .error fault :: more) = (do
      let _ ← (steps file 1 none ls).1.mapM withPath
      .error (.unreadable ⟨file, ls.length + 1⟩ fault)) := by
  have hscan : ∀ opened, scan file (ls.length + 1) opened (.error fault :: more) =
      .error (.unreadable ⟨file, ls.length + 1⟩ fault) :: scan file (ls.length + 2) none more := by
    intro opened
    cases opened <;> rfl
  rw [blocks_append, Nat.add_comm 1, hscan, List.mapM_cons]
  rfl

/-- Bytes of which every line can be decoded give what their text gives.  Where `bad` is the first line
that cannot be decoded, they give the problem of the lines before it if that lies in a line or in a
block that was closed, and otherwise the line itself is the problem, also where a block is open. -/
theorem blocksOfBytes_by_lines (file : Text) (bytes : Bytes) :
    ((∀ line ∈ SourceLine.byteLines bytes, (Bytes.decode? line).isSome) →
      ∃ text, bytes.decode? = some text ∧ blocksOfBytes file bytes = blocksOfText file text) ∧
    ∀ before bad after, SourceLine.byteLines bytes = before ++ bad :: after →
      (∀ line ∈ before, (Bytes.decode? line).isSome) → Bytes.decode? bad = none →
      blocksOfBytes file bytes = match blocks file (before.map SourceLine.decode) with
        | .error (.incomplete tag place) => .error (.incomplete tag place)
        | .error (.nameless block) => .error (.nameless block)
        | .error (.orphan block) => .error (.orphan block)
        | _ => .error (.unreadable ⟨file, before.length + 1⟩ .invalidUtf8) := by
  constructor
  · intro hlines
    obtain ⟨text, rfl⟩ := SourceLine.exists_ofText_eq hlines
    refine ⟨text, Bytes.decode?_eq_some_iff.mpr rfl, ?_⟩
    rw [blocksOfBytes, SourceLine.ofBytes_ofText, blocksOfText]
  · intro before bad after hlines hbefore hbad
    have hread : ∃ texts : List Text, before.map SourceLine.decode = texts.map .ok := by
      have hrange : before.map SourceLine.decode ∈
          Set.range (List.map (Except.ok : Text → SourceLine)) := by
        rw [Set.range_list_map]
        intro l hl
        obtain ⟨line, hline, rfl⟩ := List.mem_map.mp hl
        obtain ⟨t, ht⟩ := Option.isSome_iff_exists.mp (hbefore line hline)
        exact ⟨t, by rw [SourceLine.decode, ht]⟩
      obtain ⟨texts, htexts⟩ := hrange
      exact ⟨texts, htexts.symm⟩
    obtain ⟨texts, htexts⟩ := hread
    have hsource : SourceLine.ofBytes bytes =
        before.map SourceLine.decode ++ .error .invalidUtf8 :: after.map SourceLine.decode := by
      rw [SourceLine.ofBytes, hlines, List.map_append, List.map_cons, SourceLine.decode.eq_1 bad, hbad]
    rw [blocksOfBytes, hsource, blocks_append_error, blocks_eq, List.length_map]
    cases hfound : (steps file 1 none (before.map SourceLine.decode)).1.mapM withPath with
    | ok found =>
      cases (steps file 1 none (before.map SourceLine.decode)).2 <;> rfl
    | error e =>
      rw [htexts] at hfound
      rcases problem_of_mapM_steps hfound with ⟨tag, place, rfl⟩ | ⟨block, rfl⟩ | ⟨block, rfl⟩ <;> rfl

/-- The mixed line ends of a module do not matter.  A byte that begins no character is met on line 5 while
a block is open, and is not met behind a tag without its name on line 2. -/
theorem blocksOfBytes_of_module :
    let text : Text := "/**\r\n * @module m\n */"
    let opened : List Text := ["/**", " * @module m", " */", "/**"]
    let broken : List Text := ["/**", " * @module"]
    let bytes (lines : List Text) : Bytes := lines.flatMap fun t => Bytes.ofText t ++ [10]
    let m : Block := ⟨⟨"f.js", 1⟩, [], [(.moduleName, [[.tagged .moduleName (.label "m")]])]⟩
    ((∀ line ∈ SourceLine.byteLines (Bytes.ofText text), (Bytes.decode? line).isSome) ∧
        blocksOfBytes "f.js" (Bytes.ofText text) = .ok [m]) ∧
      (blocks "f.js" (opened.map .ok) = .error (.unterminated ⟨"f.js", 4⟩) ∧
        blocksOfBytes "f.js" (bytes opened ++ [255]) = .error (.unreadable ⟨"f.js", 5⟩ .invalidUtf8)) ∧
      blocksOfBytes "f.js" (bytes broken ++ [255]) = .error (.incomplete .moduleName ⟨"f.js", 2⟩) := by
  intro text opened broken bytes m
  have htext : ∀ line ∈ SourceLine.byteLines (Bytes.ofText text), (Bytes.decode? line).isSome := by
    decide +kernel
  have hm : blocksOfText "f.js" text = .ok [m] := by decide +kernel
  have hbad : ∀ lines ∈ [opened, broken],
      SourceLine.byteLines (bytes lines ++ [255]) = lines.map Bytes.ofText ++ [[255]] ∧
        (∀ line ∈ lines.map Bytes.ofText, (Bytes.decode? line).isSome) ∧
        (lines.map Bytes.ofText).map SourceLine.decode = lines.map .ok := by decide +kernel
  have hnone : Bytes.decode? [255] = none := by decide +kernel
  have hopened : blocks "f.js" (opened.map .ok) = .error (.unterminated ⟨"f.js", 4⟩) := by
    decide +kernel
  have hbroken : blocks "f.js" (broken.map .ok) = .error (.incomplete .moduleName ⟨"f.js", 2⟩) := by
    decide +kernel
  refine ⟨⟨htext, ?_⟩, ⟨hopened, ?_⟩, ?_⟩
  · obtain ⟨t, ht, hsame⟩ := (blocksOfBytes_by_lines "f.js" (Bytes.ofText text)).1 htext
    have heq : t = text :=
      Option.some.inj (ht.symm.trans (Bytes.decode?_eq_some_iff.mpr rfl))
    rw [hsame, heq, hm]
  · obtain ⟨hlines, hbefore, hdecode⟩ := hbad opened (by simp)
    have h := (blocksOfBytes_by_lines "f.js" _).2 _ _ _ hlines hbefore hnone
    rw [hdecode, hopened] at h
    exact h
  · obtain ⟨hlines, hbefore, hdecode⟩ := hbad broken (by simp)
    have h := (blocksOfBytes_by_lines "f.js" _).2 _ _ _ hlines hbefore hnone
    rw [hdecode, hbroken] at h
    exact h

end Source

end DocComment
