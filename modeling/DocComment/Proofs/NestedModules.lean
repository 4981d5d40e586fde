import DocComment.Proofs.MenuTargets
import Mathlib.Data.List.Pairwise

/-! # Modules inside modules

The menu has a part for every visible module, and the part of a module goes on through the modules
below it.  So a module within another is listed in both parts, with all that is below it, unless a method
or a variable between the two ends the part of the outer one. -/

namespace DocComment
open scoped List

/-- All levels are equally long, so the box of an entry tells its path. -/
theorem Block.path_eq_of_checkbox {b c : Block} {e e' : MenuEntry} {box : Text}
    (hb : b.menuEntry = .ok e) (hc : c.menuEntry = .ok e') (he : e.checkbox? = some box)
    (he' : e'.checkbox? = some box) : b.path = c.path := by
  have hlength : ∀ (kind : Kind) (level : Text), kind.level? = some level → level.length = 2 := by
    intro kind level h
    cases kind <;> cases h <;> rfl
  have hboth : ∀ {b : Block} {e : MenuEntry}, b.menuEntry = .ok e → e.checkbox? = some box →
      ∃ level : Text, level.length = 2 ∧ level ++ '-' :: e.path = box := by
    intro b e hb he
    obtain ⟨kind, path, id, -, -, -, -, rfl⟩ := b.of_bind_eq_ok _ hb
    obtain ⟨level, hlevel, hbox⟩ := Option.map_eq_some_iff.mp he
    exact ⟨level, hlength kind level hlevel, hbox⟩
  obtain ⟨level, htwo, hbox⟩ := hboth hb he
  obtain ⟨level', htwo', hbox'⟩ := hboth hc he'
  have htails := (List.append_inj (hbox.trans hbox'.symm) (htwo.trans htwo'.symm)).2
  rw [path_of_menuEntry hb, path_of_menuEntry hc, (List.cons.inj htails).2]

namespace Outline

/-- Between any two visible modules, one within the other, there is a visible method or variable. -/
def ModulesApart (o : Outline) (s : Settings) : Prop :=
  ∀ outer ∈ o.visibleBlocks s, ∀ inner ∈ o.visibleBlocks s,
    outer.kind = .ok .moduleBlock → inner.kind = .ok .moduleBlock →
    outer ≠ inner → outer.Covers inner →
      ∃ between ∈ o.visibleBlocks s, outer.Covers between ∧ between.Covers inner ∧
        (between.kind = .ok .methodBlock ∨ between.kind = .ok .varBlock)

section OwnPaths

variable {rule : ClashRule} {o : Outline} {r : Register} {s : Settings}
  (h : o.IsTrieOf rule r) (hown : ∀ b ∈ r, b.2.path = .ok b.1)

include h hown

/-- Blocks that cover each other are the same. -/
theorem IsTrieOf.eq_of_covers {b c : Block} (hb : b ∈ o.visibleBlocks s)
    (hc : c ∈ o.visibleBlocks s) (hbc : b.Covers c) (hcb : c.Covers b) : b = c := by
  obtain ⟨p, q, hp, hq, hpq⟩ := hbc
  have hqp := (Block.covers_iff hq hp).mp hcb
  have hpath : p = q := Text.splitOn_injective '.' (hpq.eq_of_length_le hqp.length_le)
  exact h.eq_of_path_eq hown hb hc (by rw [hp, hq, hpath])

theorem IsTrieOf.covers_self {b : Block} (hb : b ∈ o.visibleBlocks s) : b.Covers b := by
  obtain ⟨path, hpath⟩ := h.exists_path hown hb
  exact ⟨path, path, hpath, hpath, List.prefix_rfl⟩

theorem IsTrieOf.isGroup_iff {b : Block} (hb : b ∈ o.visibleBlocks s) :
    b.isGroup = true ↔ ¬ (b.kind = .ok .methodBlock ∨ b.kind = .ok .varBlock) := by
  obtain ⟨path, hpath⟩ := h.exists_path hown hb
  exact Block.isGroup_iff hpath

/-- Where a method or a variable stands between two modules, the menu lists no block below both. -/
theorem IsTrieOf.not_lists_both (hapart : o.ModulesApart s) {outer inner b : Block}
    (houter : outer ∈ o.visibleBlocks s) (hinner : inner ∈ o.visibleBlocks s)
    (hb : b ∈ o.visibleBlocks s) (hko : outer.kind = .ok .moduleBlock)
    (hki : inner.kind = .ok .moduleBlock) (hne : outer ≠ inner) (hcovers : outer.Covers inner)
    (hlo : o.Lists s outer b) (hli : o.Lists s inner b) : False := by
  obtain ⟨between, hbetween, hob, hbi, hkind⟩ :=
    hapart outer houter inner hinner hko hki hne hcovers
  have hgroup : between.isGroup = true := by
    refine hlo.2 between hbetween hob (hbi.trans hli.1) ?_
    rintro rfl
    -- The block would be the inner module, but it is a method or a variable.
    cases h.eq_of_covers hown hbetween hinner hbi hli.1
    rw [hki] at hkind
    simp at hkind
  exact (h.isGroup_iff hown hbetween).mp hgroup hkind

/-- Where no method and no variable stands between two modules, the outer one lists the inner one. -/
theorem IsTrieOf.lists_of_not_between {outer inner : Block} (hcovers : outer.Covers inner)
    (hnone : ¬ ∃ between ∈ o.visibleBlocks s, outer.Covers between ∧ between.Covers inner ∧
      (between.kind = .ok .methodBlock ∨ between.kind = .ok .varBlock)) :
    o.Lists s outer inner := by
  refine ⟨hcovers, fun c hc hoc hci _ => ?_⟩
  rw [h.isGroup_iff hown hc]
  exact fun hkind => hnone ⟨c, hc, hoc, hci, hkind⟩

theorem IsTrieOf.lists_self {b : Block} (hb : b ∈ o.visibleBlocks s) : o.Lists s b b := by
  refine ⟨h.covers_self hown hb, fun c hc hbc hcb hne => ?_⟩
  exact absurd (h.eq_of_covers hown hc hb hcb hbc) hne

/-! ### Keys of entries

A key is anything that entries may have and that tells their paths, such as the name of the box. -/

variable {key : MenuEntry → Option Text}
  (hkey : ∀ {b c : Block} {e e' : MenuEntry} {k : Text}, b.menuEntry = .ok e → c.menuEntry = .ok e' →
    key e = some k → key e' = some k → b.path = c.path)

include hkey

theorem IsTrieOf.nodup_moduleEntries {p : Text × Node} (hp : p ∈ o.visible s) :
    ((moduleEntries s p.2).filterMap key).Nodup := by
  obtain ⟨outer, houter⟩ := Option.isSome_iff_exists.mp (mem_visible hp).2.1
  obtain ⟨listed, hsub, hlisted, -⟩ := h.exists_listed hown hp houter
  let Apart (x y : Except Problem MenuEntry) : Prop := ∀ e e', x = .ok e → y = .ok e' →
    ∀ k, key e = some k → ∀ k', key e' = some k' → k ≠ k'
  have hblocks : (listed.map Block.menuEntry).Pairwise Apart := by
    have hpaths := List.pairwise_map.mp (h.nodup_visibleBlocks hown (s := s))
    rw [List.pairwise_map]
    refine (hpaths.sublist hsub).imp ?_
    intro b c hne e e' he he' k hk k' hk' heq
    exact hne (hkey he he' hk (heq ▸ hk'))
  rw [mapM_eq_ok_iff.mp hlisted, List.pairwise_map] at hblocks
  refine List.Nodup.sublist ((moduleEntries_sublist s p.2).filterMap key) ?_
  rw [List.Nodup, List.pairwise_filterMap]
  exact hblocks.imp fun hne => hne _ _ rfl rfl

/-- Let modules have keys.  Then no key comes twice in the menu just when all visible modules are
apart. -/
theorem IsTrieOf.nodup_menu_iff
    (hmodule : ∀ {b : Block} {e : MenuEntry}, b.kind = .ok .moduleBlock → b.menuEntry = .ok e →
      ∃ k, key e = some k) :
    ((MenuItem.entriesAll (o.menu s)).filterMap key).Nodup ↔ o.ModulesApart s := by
  have hmem : ∀ {p : Text × Node} {outer : Block} {k : Text}, p ∈ o.visible s →
      p.2.block = some outer → (k ∈ (moduleEntries s p.2).filterMap key ↔
        ∃ e, (outer.kind = .ok .moduleBlock ∧ ∃ b ∈ o.visibleBlocks s, b.menuEntry = .ok e ∧
          o.Lists s outer b) ∧ key e = some k) := by
    intro p outer k hp houter
    simp only [List.mem_filterMap, h.mem_moduleEntries_iff hown hp houter]
  rw [entriesAll_menu, List.filterMap_flatMap, List.nodup_flatMap]
  constructor
  · rintro ⟨-, hdisjoint⟩ outer houter inner hinner hko hki hne hcovers
    by_contra hnone
    have hlists := h.lists_of_not_between hown hcovers hnone
    obtain ⟨path, hpath⟩ := h.exists_path hown hinner
    obtain ⟨kind, id, -, -, hentry⟩ := inner.menuEntry_eq_ok hpath
    obtain ⟨k, hk⟩ := hmodule hki hentry
    obtain ⟨p, hp, hpo⟩ := mem_visibleBlocks.mp houter
    obtain ⟨q, hq, hqi⟩ := mem_visibleBlocks.mp hinner
    have hpq : p ≠ q := by
      rintro rfl
      exact hne (Option.some.inj (hpo.symm.trans hqi))
    have hsymm : Std.Symm (Function.onFun List.Disjoint fun p : Text × Node =>
        (moduleEntries s p.2).filterMap key) := ⟨fun _ _ hd => hd.symm⟩
    exact hdisjoint.forall hp hq hpq
      ((hmem hp hpo).mpr ⟨_, ⟨hko, inner, hinner, hentry, hlists⟩, hk⟩)
      ((hmem hq hqi).mpr ⟨_, ⟨hki, inner, hinner, hentry, h.lists_self hown hinner⟩, hk⟩)
  · intro hapart
    refine ⟨fun p hp => h.nodup_moduleEntries hown hkey hp, ?_⟩
    have hpaths := List.pairwise_filterMap.mp
      (List.pairwise_map.mp (h.nodup_visibleBlocks hown (s := s)))
    refine hpaths.imp_of_mem ?_
    intro p q hp hq hne k hkp hkq
    obtain ⟨outer, hpo⟩ := Option.isSome_iff_exists.mp (mem_visible hp).2.1
    obtain ⟨inner, hqi⟩ := Option.isSome_iff_exists.mp (mem_visible hq).2.1
    obtain ⟨e, ⟨hko, b, hb, hbe, hlo⟩, hk⟩ := (hmem hp hpo).mp hkp
    obtain ⟨e', ⟨hki, c, hc, hce, hli⟩, hk'⟩ := (hmem hq hqi).mp hkq
    cases h.eq_of_path_eq hown hb hc (hkey hbe hce hk hk')
    have houter := mem_visibleBlocks.mpr ⟨p, hp, hpo⟩
    have hinner := mem_visibleBlocks.mpr ⟨q, hq, hqi⟩
    have hdiffer : outer ≠ inner := fun heq => hne outer hpo inner hqi (congrArg Block.path heq)
    rcases hlo.1.total hli.1 with hcovers | hcovers
    · exact h.not_lists_both hown hapart houter hinner hb hko hki hdiffer hcovers hlo hli
    · exact h.not_lists_both hown hapart hinner houter hb hki hko hdiffer.symm hcovers hli hlo

end OwnPaths

/-- After any requests that file blocks at their own paths, with any settings, the menu lists no block
twice just when between any two visible modules, one within the other, there is a visible method or
variable.  The names of its boxes, as they stand in the pieces of the written menu, are distinct in the same
cases. -/
theorem menu_lists_once_iff (rule : ClashRule) {requests : List Request}
    (h : ∀ request ∈ requests, request.AtOwnPaths) (s : Settings) :
    let o := ((empty rule).run requests).1
    let entries := MenuItem.entriesAll (o.menu s)
    (∃ written, MenuItem.WrittenAs (o.menu s) written) ∧
      ((entries.map MenuEntry.path).Nodup ↔ o.ModulesApart s) ∧
      ((entries.filterMap MenuEntry.checkbox?).Nodup ↔ o.ModulesApart s) := by
  intro o entries
  have htrie : o.IsTrieOf rule (Register.run rule [] requests).1 :=
    ((isTrieOf_empty rule).run requests).2
  have hown := Register.path_of_mem_run rule h
  refine ⟨⟨_, MenuItem.writtenAs_pieces _⟩, ?_, ?_⟩
  · rw [← List.filterMap_eq_map]
    apply htrie.nodup_menu_iff hown
    · intro b c e e' k hb hc he he'
      rw [Block.path_of_menuEntry hb, Block.path_of_menuEntry hc]
      exact congrArg _ (Option.some.inj (he.trans he'.symm))
    · exact fun _ _ => ⟨_, rfl⟩
  · apply htrie.nodup_menu_iff hown Block.path_eq_of_checkbox
    intro b e hkind hentry
    obtain ⟨kind, path, id, hk, -, -, -, rfl⟩ := b.of_bind_eq_ok _ hentry
    cases hk.symm.trans hkind
    exact ⟨_, rfl⟩

/-- The method `a.b` keeps the module `a.b.c` out of the part of the module `a`. -/
theorem menu_lists_once_across_method :
    let tagged (tag : Tag) (payload : Payload) : Tag × List Entry := (tag, [[.tagged tag payload]])
    let a : Block := ⟨⟨"f.js", 1⟩, [], [tagged .moduleName (.label "a")]⟩
    let b : Block := ⟨⟨"f.js", 5⟩, [], [tagged .methodName (.label "b"),
      tagged .memberOf (.label "a")]⟩
    let c : Block := ⟨⟨"f.js", 9⟩, [], [tagged .moduleName (.label "a.b.c")]⟩
    let requests : List Request := [.add c, .addAll [a, b]]
    let o := ((empty .keep).run requests).1
    let s : Settings := ⟨"API", none, false⟩
    (∀ request ∈ requests, request.AtOwnPaths) ∧ o.ModulesApart s ∧
      ((MenuItem.entriesAll (o.menu s)).filterMap MenuEntry.checkbox?).Nodup := by
  intro tagged a b c requests o s
  have hown : ∀ request ∈ requests, request.AtOwnPaths := by
    simp [requests, Request.AtOwnPaths]
  let leaf : Node := ⟨some c, 2, []⟩
  let method : Node := ⟨some b, 1, [("c", leaf)]⟩
  let top : Node := ⟨some a, 0, [("b", method)]⟩
  have hvisible : o.visible s =
      [("a".toList, top), ("a.b".toList, method), ("a.b.c".toList, leaf)] := by
    have hroot : Walk.below [] o.root = [("a".toList, top)] := rfl
    have htop : Walk.below "a" top = [("a.b".toList, method)] := rfl
    have hmethod : Walk.below "a.b" method = [("a.b.c".toList, leaf)] := rfl
    have hleaf : Walk.below "a.b.c" leaf = [] := rfl
    have hshown : ∀ n ∈ [top, method, leaf], s.conceals n = false := by decide +kernel
    rw [visible_eq, hroot, List.flatMap_singleton, shown_of_not_conceals (hshown top (by simp)),
      htop, List.flatMap_singleton, shown_of_not_conceals (hshown method (by simp)), hmethod,
      List.flatMap_singleton, shown_of_not_conceals (hshown leaf (by simp)), hleaf]
    rfl
  obtain ⟨-, hpaths, hboxes⟩ := menu_lists_once_iff .keep hown s
  have hapart : o.ModulesApart s := by
    rw [← hpaths, menu, hvisible]
    decide +kernel
  exact ⟨hown, hapart, hboxes.mpr hapart⟩

/-- The module `a.b` is listed in the part of the module `a` and in one of its own, with two boxes of one
name. -/
theorem menu_repeats_nested_module :
    let block (line : Nat) (name : Text) : Block :=
      ⟨⟨"f.js", line⟩, [], [(.moduleName, [[.tagged .moduleName (.label name)]])]⟩
    let blocks := [block 1 "a", block 4 "a.b"]
    let o := ((empty .replace).run [.addAll blocks]).1
    let entries := MenuItem.entriesAll (o.menu ⟨"API", none, false⟩)
    Source.blocksOfText "f.js" "/**\n * @module a\n */\n/**\n * @module a.b\n */" = .ok blocks ∧
      entries.map MenuEntry.path = ["a", "a.b", "a.b"] ∧
      ¬ (entries.map MenuEntry.path).Nodup ∧
      ¬ (entries.filterMap MenuEntry.checkbox?).Nodup ∧
      Text.occurrences "<input id='s1-a.b' type='checkbox'>"
        (MenuItem.markupAll (o.menu ⟨"API", none, false⟩)) = 2 := by
  intro block blocks o entries
  let inner : Node := ⟨some (block 4 "a.b"), 1, []⟩
  let outer : Node := ⟨some (block 1 "a"), 0, [("b", inner)]⟩
  have hvisible : o.visible ⟨"API", none, false⟩ = [("a".toList, outer), ("a.b".toList, inner)] := by
    have hroot : Walk.below [] o.root = [("a".toList, outer)] := rfl
    have houter : Walk.below "a" outer = [("a.b".toList, inner)] := rfl
    have hinner : Walk.below "a.b" inner = [] := rfl
    have hshown : ∀ n ∈ [outer, inner], Settings.conceals ⟨"API", none, false⟩ n = false := by
      decide +kernel
    rw [visible_eq, hroot, List.flatMap_singleton, shown_of_not_conceals (hshown outer (by simp)),
      houter, List.flatMap_singleton, shown_of_not_conceals (hshown inner (by simp)), hinner]
    rfl
  have hentries : entries =
      [⟨some "s1", "a", "a"⟩, ⟨some "s1", "a.b", "a.b"⟩, ⟨some "s1", "a.b", "a.b"⟩] := by
    change MenuItem.entriesAll (o.menu ⟨"API", none, false⟩) = _
    rw [menu, hvisible]
    decide +kernel
  rw [hentries]
  refine ⟨by decide +kernel, rfl, by decide, by decide, ?_⟩
  rw [menu, hvisible]
  decide +kernel

end Outline

end DocComment
