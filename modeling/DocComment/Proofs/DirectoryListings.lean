import DocComment.Inputs
import DocComment.Proofs.KeyedOrder
import Mathlib.Data.List.Perm.Basic

/-! # The order in which directories are listed

The items of a file tree stand in a list, and a directory is listed in the order of that list.  In another
order the same is found under every path name, and what a directory lists and what a pattern leads to stays
the same but for its order. -/

namespace DocComment

namespace FileTree

private theorem flatMap_perm {α β : Type} {l l' : List α} {f g : α → List β} (h : l.Perm l')
    (hfg : ∀ a, (f a).Perm (g a)) : (l.flatMap f).Perm (l'.flatMap g) :=
  (List.Perm.flatMap_left l fun a _ => hfg a).trans (h.flatMap_right g)

/-- The same is at every place of both trees, but their directories may be listed in different orders. -/
structure Relists (fs' fs : FileTree) : Prop where
  home : fs'.home = fs.home
  item? : ∀ place, fs'.item? place = fs.item? place
  items : fs'.items.Perm fs.items

theorem Relists.symm {fs' fs : FileTree} (h : fs'.Relists fs) : fs.Relists fs' :=
  ⟨h.home.symm, fun place => (h.item? place).symm, h.items.symm⟩

/-- Items at different places may be put in any order. -/
theorem relists_of_perm {fs : FileTree} (hplaces : (fs.items.map Prod.fst).Nodup)
    {items : Keyed (List Text) FileItem} (h : items.Perm fs.items) :
    ({ fs with items } : FileTree).Relists fs := by
  refine ⟨rfl, fun place => ?_, h⟩
  rw [item?, item?, Keyed.get?_of_perm h hplaces]

namespace Relists
variable {fs' fs : FileTree} (h : fs'.Relists fs)

include h

theorem follow (place steps : List Text) : fs'.follow place steps = fs.follow place steps := by
  induction steps generalizing place with
  | nil => rfl
  | cons step rest ih => simp only [FileTree.follow, h.item?, ih]

theorem locate (path : Text) : fs'.locate path = fs.locate path := by
  simp only [FileTree.locate, origin, h.home, h.follow]

theorem look (path : Text) : fs'.look path = fs.look path := by
  simp only [FileTree.look, h.locate, h.item?]

theorem isFile (path : Text) : fs'.isFile path = fs.isFile path := by
  rw [FileTree.isFile, h.look, ← FileTree.isFile]

theorem isDirectory (path : Text) : fs'.isDirectory path = fs.isDirectory path := by
  rw [FileTree.isDirectory, h.look, ← FileTree.isDirectory]

theorem exists? (path : Text) : fs'.exists? path = fs.exists? path := by
  rw [FileTree.exists?, h.look, ← FileTree.exists?]

theorem below (place : List Text) : (fs'.below place).Perm (fs.below place) := h.items.filterMap _

theorem names (path : Text) : (fs'.names path).Perm (fs.names path) := by
  rw [FileTree.names, FileTree.names, h.locate]
  cases fs.locate path with
  | ok place => exact (h.below place).filterMap _
  | error fault => exact .refl _

theorem descendants (path : Text) : (fs'.descendants path).Perm (fs.descendants path) := by
  rw [FileTree.descendants, FileTree.descendants, h.locate]
  cases fs.locate path with
  | ok place => exact (h.below place).map _
  | error fault => exact .refl _

theorem expand (steps : List PatternStep) (path : Text) :
    (fs'.expand steps path).Perm (fs.expand steps path) := by
  fun_induction FileTree.expand fs steps path with
  | case1 path => exact .refl _
  | case2 name rest path found hfound ih =>
    rw [FileTree.expand, h.isDirectory, h.exists?]
    exact (if_pos hfound).symm ▸ ih
  | case3 name rest path found hfound =>
    rw [FileTree.expand, h.isDirectory, h.exists?]
    exact (if_neg hfound).symm ▸ .refl _
  | case4 ws rest path dots named ihDots ihNamed =>
    rw [FileTree.expand, h.isDirectory]
    have hnamed := (h.names path).filter (Wildcard.matchName ws)
    exact (flatMap_perm (.refl dots) ihDots).append (flatMap_perm hnamed ihNamed)
  | case5 rest path ih => rwa [FileTree.expand]
  | case6 path =>
    rw [FileTree.expand]
    exact (h.descendants path).filterMap _
  | case7 step rest path hstep ih =>
    rw [FileTree.expand]
    · apply flatMap_perm (h.descendants path)
      rintro ⟨below, name, item⟩
      dsimp only
      split
      · exact ih below
      · exact .refl _
    · exact hstep

theorem expandPattern (p : Pattern) : (fs'.expandPattern p).Perm (fs.expandPattern p) := by
  have hsteps := h.expand p.steps (if p.absolute then ['/'] else ['.'])
  have hdirectory : fs'.isDirectory = fs.isDirectory := funext h.isDirectory
  rw [FileTree.expandPattern, FileTree.expandPattern, hdirectory]
  split
  · exact hsteps.filter _
  · exact hsteps

end Relists

end FileTree

end DocComment
