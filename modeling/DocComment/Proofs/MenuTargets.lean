import DocComment.Proofs.MenuMarkup

/-! # Where the menu leads

Every visible block has a section, whose heading is the target of links to the path of the block, and
no two visible blocks have the same path.  What the menu lists from a visible block down are visible
blocks in their order.  So each link that is written in the menu leads to one heading, and the menu lists
nothing that is concealed or stands below something concealed. -/

namespace DocComment
open scoped List

namespace Section

/-- The name that links to the section use. -/
def target (part : Section) : Text := "api-" ++ part.path

def heading (part : Section) : Text :=
  List.flatten ["<h", Text.ofNat part.rank, " id='", part.target, "'>", part.title, "</h",
    Text.ofNat part.rank, ['>']]

end Section

namespace Outline

variable {rule : ClashRule} {o : Outline} {r : Register} {s : Settings}

/-- The entries that a node brings into the menu of the page: none unless it holds a module. -/
def moduleEntries (s : Settings) (n : Node) : List MenuEntry :=
  MenuItem.entriesAll <| match n.block.map Block.kind with
    | some (.ok .moduleBlock) => MenuItem.ofNode s n
    | _ => []

theorem moduleEntries_sublist (s : Settings) (n : Node) :
    moduleEntries s n <+ MenuItem.entriesAll (MenuItem.ofNode s n) := by
  rw [moduleEntries]
  split
  · exact List.Sublist.refl _
  · exact List.nil_sublist _

theorem entriesAll_menu (o : Outline) (s : Settings) :
    MenuItem.entriesAll (o.menu s) = (o.visible s).flatMap fun p => moduleEntries s p.2 := by
  rw [MenuItem.entriesAll_eq, menu, List.flatMap_assoc]
  apply List.flatMap_congr
  intro p _
  exact (MenuItem.entriesAll_eq _).symm

section OwnPaths

variable (h : o.IsTrieOf rule r) (hown : ∀ b ∈ r, b.2.path = .ok b.1)

include h hown

theorem IsTrieOf.eq_of_path_eq {b c : Block} (hb : b ∈ o.visibleBlocks s)
    (hc : c ∈ o.visibleBlocks s) (heq : b.path = c.path) : b = c :=
  List.inj_on_of_nodup_map (h.nodup_visibleBlocks hown) hb hc heq

/-- What the menu lists from a visible block down are the visible blocks that it lists there by their
paths, in the order of the visible blocks. -/
theorem IsTrieOf.exists_listed {p : Text × Node} (hp : p ∈ o.visible s) {outer : Block}
    (houter : p.2.block = some outer) :
    ∃ listed, listed <+ o.visibleBlocks s ∧
      listed.mapM Block.menuEntry = .ok (MenuItem.entriesAll (MenuItem.ofNode s p.2)) ∧
      ∀ b, b ∈ listed ↔ b ∈ o.visibleBlocks s ∧ o.Lists s outer b := by
  have hentries : ∀ b ∈ o.visibleBlocks s, ∃ e, b.menuEntry = .ok e := by
    intro b hb
    obtain ⟨path, hpath⟩ := h.exists_path hown hb
    obtain ⟨kind, id, -, -, hentry⟩ := b.menuEntry_eq_ok hpath
    exact ⟨_, hentry⟩
  obtain ⟨entries, hall⟩ := exists_mapM_eq_ok hentries
  have hsub := (entriesAll_sublist hall hp).map (Except.ok : MenuEntry → Except Problem MenuEntry)
  rw [← mapM_eq_ok_iff.mp hall, List.sublist_map_iff] at hsub
  obtain ⟨listed, hlisted, hmap⟩ := hsub
  refine ⟨listed, hlisted, mapM_eq_ok_iff.mpr hmap.symm, ?_⟩
  intro b
  constructor
  · intro hb
    have hentry : b.menuEntry ∈ listed.map Block.menuEntry := List.mem_map_of_mem hb
    rw [← hmap] at hentry
    obtain ⟨e, he, hentry⟩ := List.mem_map.mp hentry
    obtain ⟨c, hc, hce, hlists⟩ := (h.mem_entriesAll_iff hown hp houter).mp he
    have hsame : b.path = c.path := by
      rw [Block.path_of_menuEntry hentry.symm, Block.path_of_menuEntry hce]
    cases h.eq_of_path_eq hown (hlisted.subset hb) hc hsame
    exact ⟨hc, hlists⟩
  · rintro ⟨hb, hlists⟩
    obtain ⟨e, he⟩ := hentries b hb
    have hentry : Except.ok e ∈ listed.map Block.menuEntry := by
      rw [← hmap]
      exact List.mem_map_of_mem ((h.mem_entriesAll_iff hown hp houter).mpr ⟨b, hb, he, hlists⟩)
    obtain ⟨c, hc, hce⟩ := List.mem_map.mp hentry
    have hsame : b.path = c.path := by
      rw [Block.path_of_menuEntry he, Block.path_of_menuEntry hce]
    cases h.eq_of_path_eq hown hb (hlisted.subset hc) hsame
    exact hc

theorem IsTrieOf.mem_moduleEntries_iff {p : Text × Node} (hp : p ∈ o.visible s) {outer : Block}
    (houter : p.2.block = some outer) {e : MenuEntry} :
    e ∈ moduleEntries s p.2 ↔ outer.kind = .ok .moduleBlock ∧
      ∃ b ∈ o.visibleBlocks s, b.menuEntry = .ok e ∧ o.Lists s outer b := by
  rw [← h.mem_entriesAll_iff hown hp houter, moduleEntries, houter, Option.map_some]
  split
  · rename_i hkind
    simp [Option.some.inj hkind]
  · rename_i hkind
    simpa [MenuItem.entriesAll] using fun hmodule => absurd (congrArg some hmodule) hkind

end OwnPaths

end Outline

end DocComment
