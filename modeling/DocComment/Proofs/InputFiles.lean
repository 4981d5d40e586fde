import DocComment.Proofs.DirectoryListings
import DocComment.Proofs.PathOrder

/-! # The input files of some arguments

An argument names a file, has a directory scanned or is a pattern to be matched.  The input files are the
path names that any of the arguments selects, each in the spelling that was collected first and all in
order, so neither the order of the arguments nor that of the directory listings shows in them but for the
spelling.  How patterns are matched is left open: of any search that finds what matches, whatever the order
in which directories are listed, all this holds, and `FileTree.glob` is one. -/

namespace DocComment

/-- The path names that match a pattern in a tree. -/
def FileTree.Matches (fs : FileTree) (pattern path : Text) : Prop :=
  ∃ p, Pattern.parse pattern = .ok p ∧ path ∈ fs.expandPattern p

namespace Inputs
open PathName

/-- A search for the path names that match a pattern. Whether it finds fault with a pattern is a matter of
the pattern alone, and what matches does not depend on the order in which directories are listed. -/
structure Globs (glob : Glob) (Matches : FileTree → Text → Text → Prop) : Prop where
  finds : ∀ {fs pattern paths}, glob fs pattern = .ok paths →
    ∀ path, path ∈ paths ↔ Matches fs pattern path
  faulty : ∀ {fs pattern e}, glob fs pattern = .error e → ∀ fs', glob fs' pattern = .error e
  relisted : ∀ {fs fs' : FileTree}, fs'.Relists fs →
    ∀ {pattern path}, Matches fs pattern path → Matches fs' pattern path

theorem globs_glob : Globs FileTree.glob FileTree.Matches where
  finds := by
    intro fs pattern paths h path
    rw [FileTree.glob] at h
    cases hp : Pattern.parse pattern with
    | error e => simp [hp, Except.map] at h
    | ok p =>
      rw [hp] at h
      cases h
      simp [FileTree.Matches, hp]
  faulty := by
    intro fs pattern e h fs'
    rw [FileTree.glob] at h ⊢
    cases hp : Pattern.parse pattern with
    | error e => rwa [hp] at h
    | ok p => simp [hp, Except.map] at h
  relisted := by
    rintro fs fs' hrelists pattern path ⟨p, hp, hpath⟩
    exact ⟨p, hp, (hrelists.expandPattern p).mem_iff.mpr hpath⟩

variable {glob : Glob} {Matches : FileTree → Text → Text → Prop}

/-- The path names that an argument selects. -/
inductive Selects (Matches : FileTree → Text → Text → Prop) (fs : FileTree) : Text → Text → Prop where
  | named {path : Text} : fs.isFile path = true → Selects Matches fs path path
  | scanned {directory name : Text} :
      fs.isDirectory directory = true → name ∈ fs.names directory → isSource name = true →
      fs.isFile (join directory name) = true → Selects Matches fs directory (join directory name)
  | matched {arg path : Text} :
      fs.isFile arg = false → fs.isDirectory arg = false → Matches fs arg path →
      fs.isFile path = true → Selects Matches fs arg path

variable {fs fs' : FileTree} {arg path : Text}

theorem isFile_of_isDirectory (h : fs.isDirectory path = true) : fs.isFile path = false := by
  rw [FileTree.isDirectory] at h
  rw [FileTree.isFile]
  split at h
  · rename_i hlook
    rw [hlook]
  · cases h

theorem mem_scan_iff {directory : Text} :
    path ∈ scan fs directory ↔
      ∃ name ∈ fs.names directory, isSource name = true ∧ join directory name = path ∧
        fs.isFile path = true := by
  rw [scan, List.mem_filter, List.mem_map]
  constructor
  · rintro ⟨⟨name, hname, rfl⟩, hfile⟩
    obtain ⟨hname, hsource⟩ := List.mem_filter.mp hname
    exact ⟨name, hname, hsource, rfl, hfile⟩
  · rintro ⟨name, hname, hsource, rfl, hfile⟩
    exact ⟨⟨name, List.mem_filter.mpr ⟨hname, hsource⟩, rfl⟩, hfile⟩

theorem selects_iff_of_isFile (h : fs.isFile arg = true) :
    Selects Matches fs arg path ↔ path = arg := by
  constructor
  · rintro (_ | ⟨hdirectory, -, -, -⟩ | ⟨hfile, -, -, -⟩)
    · rfl
    · exact absurd h (by simp [isFile_of_isDirectory hdirectory])
    · exact absurd h (by simp [hfile])
  · rintro rfl
    exact .named h

theorem selects_iff_of_isDirectory (h : fs.isDirectory arg = true) :
    Selects Matches fs arg path ↔ path ∈ scan fs arg := by
  rw [mem_scan_iff]
  constructor
  · rintro (hfile | ⟨-, hname, hsource, hfile⟩ | ⟨-, hdirectory, -, -⟩)
    · exact absurd hfile (by simp [isFile_of_isDirectory h])
    · exact ⟨_, hname, hsource, rfl, hfile⟩
    · exact absurd h (by simp [hdirectory])
  · rintro ⟨name, hname, hsource, rfl, hfile⟩
    exact .scanned h hname hsource hfile

theorem selects_iff_of_pattern (hfile : fs.isFile arg = false) (hdirectory : fs.isDirectory arg = false) :
    Selects Matches fs arg path ↔ Matches fs arg path ∧ fs.isFile path = true := by
  constructor
  · rintro (h | ⟨h, -, -, -⟩ | ⟨-, -, hmatches, h⟩)
    · exact absurd h (by simp [hfile])
    · exact absurd h (by simp [hdirectory])
    · exact ⟨hmatches, h⟩
  · rintro ⟨hmatches, h⟩
    exact .matched hfile hdirectory hmatches h

theorem mem_select_iff (hglob : Globs glob Matches) {paths : List Text}
    (h : select glob fs arg = .ok paths) : path ∈ paths ↔ Selects Matches fs arg path := by
  rw [select] at h
  split at h
  · rename_i hfile
    cases h
    rw [List.mem_singleton, selects_iff_of_isFile hfile]
  · rename_i hfile
    split at h
    · rename_i hdirectory
      cases h
      rw [selects_iff_of_isDirectory hdirectory]
    · rename_i hdirectory
      cases hfound : glob fs arg with
      | error e => rw [hfound] at h; cases h
      | ok found =>
        rw [hfound] at h
        cases h
        rw [List.mem_filter, hglob.finds hfound,
          selects_iff_of_pattern (by simpa using hfile) (by simpa using hdirectory)]

/-- Only a pattern can be at fault. -/
theorem exists_select_iff :
    (∃ paths, select glob fs arg = .ok paths) ↔
      fs.isFile arg = true ∨ fs.isDirectory arg = true ∨ ∃ paths, glob fs arg = .ok paths := by
  rw [select]
  split
  · rename_i hfile
    simp [hfile]
  · rename_i hfile
    split
    · rename_i hdirectory
      simp [hdirectory]
    · rename_i hdirectory
      cases glob fs arg <;> simp [hfile, hdirectory, Except.map]

/-! ### Collected path names -/

/-- The path names of all arguments are collected in the order of the arguments. -/
theorem collect_eq_ok_iff {args found : List Text} :
    (collect glob fs args).2 = .ok found ↔
      ∃ selected : List (List Text),
        args.map (select glob fs) = selected.map .ok ∧ selected.flatten = found := by
  induction args generalizing found with
  | nil =>
    rw [collect]
    constructor
    · rintro ⟨⟩
      exact ⟨[], rfl, rfl⟩
    · rintro ⟨selected, hselected, rfl⟩
      rw [List.map_eq_nil_iff.mp hselected.symm, List.flatten_nil]
  | cons arg rest ih =>
    rw [collect]
    constructor
    · intro h
      cases hselect : select glob fs arg with
      | error e => simp [hselect] at h
      | ok paths =>
        cases hrest : (collect glob fs rest).2 with
        | error e => simp [hselect, hrest, Except.map] at h
        | ok others =>
          simp only [hselect, hrest, Except.map, Except.ok.injEq] at h
          obtain ⟨selected, hselected, rfl⟩ := ih.mp hrest
          exact ⟨paths :: selected, by rw [List.map_cons, hselect, hselected, List.map_cons], h⟩
    · rintro ⟨selected, hselected, rfl⟩
      cases selected with
      | nil => cases hselected
      | cons paths selected =>
        obtain ⟨hselect, hselected⟩ := List.cons_eq_cons.mp hselected
        have hrest : (collect glob fs rest).2 = .ok selected.flatten := ih.mpr ⟨selected, hselected, rfl⟩
        simp only [hselect, hrest, Except.map, List.flatten_cons]

theorem expandBy_eq_ok_iff {args paths : List Text} :
    (expandBy glob fs args).2 = .ok paths ↔
      ∃ selected : List (List Text),
        args.map (select glob fs) = selected.map .ok ∧ arrange selected.flatten = paths := by
  rw [expandBy]
  constructor
  · intro h
    cases hcollect : (collect glob fs args).2 with
    | error e => simp [hcollect, Except.map] at h
    | ok found =>
      obtain ⟨selected, hselected, rfl⟩ := collect_eq_ok_iff.mp hcollect
      simp only [hcollect, Except.map, Except.ok.injEq] at h
      exact ⟨selected, hselected, h⟩
  · rintro ⟨selected, hselected, rfl⟩
    have hcollect := collect_eq_ok_iff.mpr ⟨selected, hselected, rfl⟩
    simp only [hcollect, Except.map]

theorem mem_flatten_iff (hglob : Globs glob Matches) {args : List Text} {selected : List (List Text)}
    (h : args.map (select glob fs) = selected.map .ok) :
    path ∈ selected.flatten ↔ ∃ arg ∈ args, Selects Matches fs arg path := by
  rw [List.mem_flatten]
  constructor
  · rintro ⟨paths, hpaths, hpath⟩
    have hmem : .ok paths ∈ args.map (select glob fs) := h ▸ List.mem_map_of_mem hpaths
    obtain ⟨arg, harg, hselect⟩ := List.mem_map.mp hmem
    exact ⟨arg, harg, (mem_select_iff hglob hselect).mp hpath⟩
  · rintro ⟨arg, harg, hselects⟩
    have hmem : select glob fs arg ∈ selected.map .ok := h ▸ List.mem_map_of_mem harg
    obtain ⟨paths, hpaths, hselect⟩ := List.mem_map.mp hmem
    exact ⟨paths, hpaths, (mem_select_iff hglob hselect.symm).mpr hselects⟩

/-- Some arguments stand for files as soon as each of them does. -/
theorem exists_selected_iff {args : List Text} :
    (∃ selected : List (List Text), args.map (select glob fs) = selected.map .ok) ↔
      ∀ arg ∈ args, ∃ paths, select glob fs arg = .ok paths := by
  constructor
  · rintro ⟨selected, h⟩ arg harg
    have hmem : select glob fs arg ∈ selected.map .ok := h ▸ List.mem_map_of_mem harg
    obtain ⟨paths, -, hselect⟩ := List.mem_map.mp hmem
    exact ⟨paths, hselect.symm⟩
  · intro h
    induction args with
    | nil => exact ⟨[], rfl⟩
    | cons arg rest ih =>
      obtain ⟨paths, hselect⟩ := h arg List.mem_cons_self
      obtain ⟨selected, hrest⟩ := ih fun other hother => h other (List.mem_cons_of_mem _ hother)
      exact ⟨paths :: selected, by rw [List.map_cons, hselect, hrest, List.map_cons]⟩

/-! ### Listings in another order -/

theorem Selects.relisted (hglob : Globs glob Matches) (h : fs'.Relists fs)
    (hselects : Selects Matches fs arg path) : Selects Matches fs' arg path := by
  cases hselects with
  | named hfile => exact .named (by rwa [h.isFile])
  | scanned hdirectory hname hsource hfile =>
    exact .scanned (by rwa [h.isDirectory]) ((h.names _).mem_iff.mpr hname) hsource (by rwa [h.isFile])
  | matched hfile hdirectory hmatches hfound =>
    exact .matched (by rwa [h.isFile]) (by rwa [h.isDirectory]) (hglob.relisted h hmatches)
      (by rwa [h.isFile])

theorem selects_iff_of_relists (hglob : Globs glob Matches) (h : fs'.Relists fs) :
    Selects Matches fs' arg path ↔ Selects Matches fs arg path :=
  ⟨.relisted hglob h.symm, .relisted hglob h⟩

theorem exists_glob_of_exists (hglob : Globs glob Matches) (h : ∃ paths, glob fs arg = .ok paths)
    (fs' : FileTree) : ∃ paths, glob fs' arg = .ok paths := by
  obtain ⟨paths, hpaths⟩ := h
  cases hglob' : glob fs' arg with
  | error e => cases hpaths.symm.trans (hglob.faulty hglob' fs)
  | ok paths' => exact ⟨paths', rfl⟩

theorem exists_select_of_relists (hglob : Globs glob Matches) (h : fs'.Relists fs)
    (hselect : ∃ paths, select glob fs arg = .ok paths) : ∃ paths, select glob fs' arg = .ok paths := by
  rw [exists_select_iff] at hselect ⊢
  rw [h.isFile, h.isDirectory]
  exact hselect.imp_right (Or.imp_right fun hfound => exists_glob_of_exists hglob hfound fs')

/-- The input files that some arguments stand for are in strictly increasing order, so no two of them are the
same path name.  Up to spelling they are the path names that the arguments select, and each has the spelling
that was collected first.  Up to spelling they are also the same for the arguments in any order and any
number, and for directories listed in any order. -/
theorem expand_once_in_order (hglob : Globs glob Matches) {fs : FileTree} {args paths : List Text}
    (h : (expandBy glob fs args).2 = .ok paths) :
    (paths.Pairwise fun a b => components a < components b) ∧
      (paths.Pairwise fun a b => same a b = false) ∧
      (∀ path, (∃ p ∈ paths, same p path = true) ↔
        ∃ arg ∈ args, ∃ p, Selects Matches fs arg p ∧ same p path = true) ∧
      (∃ selected : List (List Text), args.map (select glob fs) = selected.map .ok ∧
        ∀ p ∈ paths, selected.flatten.find? (same p) = some p) ∧
      ∀ fs' args', fs'.Relists fs → (∀ arg, arg ∈ args' ↔ arg ∈ args) →
        ∃ paths', (expandBy glob fs' args').2 = .ok paths' ∧
          paths'.map components = paths.map components := by
  obtain ⟨selected, hselected, rfl⟩ := expandBy_eq_ok_iff.mp h
  refine ⟨pairwise_arrange _, ?_, ?_, ⟨selected, hselected, fun p hp => mem_arrange_iff.mp hp⟩, ?_⟩
  · refine (pairwise_arrange _).imp ?_
    intro a b hlt
    rw [Bool.eq_false_iff, Ne, same_iff]
    exact ne_of_irrefl hlt
  · intro path
    rw [exists_same_arrange_iff]
    constructor
    · rintro ⟨p, hp, hsame⟩
      obtain ⟨arg, harg, hselects⟩ := (mem_flatten_iff hglob hselected).mp hp
      exact ⟨arg, harg, p, hselects, hsame⟩
    · rintro ⟨arg, harg, p, hselects, hsame⟩
      exact ⟨p, (mem_flatten_iff hglob hselected).mpr ⟨arg, harg, hselects⟩, hsame⟩
  · intro fs' args' hrelists hargs
    have hselect : ∀ arg ∈ args', ∃ paths, select glob fs' arg = .ok paths := by
      intro arg harg
      apply exists_select_of_relists hglob hrelists
      exact exists_selected_iff.mp ⟨selected, hselected⟩ arg ((hargs arg).mp harg)
    obtain ⟨selected', hselected'⟩ := exists_selected_iff.mpr hselect
    refine ⟨arrange selected'.flatten, expandBy_eq_ok_iff.mpr ⟨selected', hselected', rfl⟩, ?_⟩
    apply map_components_arrange
    intro path
    rw [mem_flatten_iff hglob hselected', mem_flatten_iff hglob hselected]
    simp only [hargs, selects_iff_of_relists hglob hrelists]

/-- A file that is named, scanned and matched in two spellings stands once, in the one that came first, and
in a directory before the file whose name goes on behind the name of the directory.  Listed the other way
round, with one argument twice, the same two files stand in the same order. -/
theorem expand_once_in_order_of_spellings :
    let fs : FileTree := { items := [(["a"], .directory), (["a", "z.js"], .file []),
      (["a", "notes.txt"], .file []), (["a-b.js"], .file [])] }
    let args : List Text := ["a//z.js", "a", "a/*.js", "a-b.js"]
    let fs' : FileTree := { fs with items := fs.items.reverse }
    let args' : List Text := ["a-b.js", "a/*.js", "a", "a//z.js", "a"]
    let paths : List Text := ["a//z.js", "a-b.js"]
    (expand fs args).2 = .ok paths ∧ fs'.Relists fs ∧ (∀ arg, arg ∈ args' ↔ arg ∈ args) ∧
      ∃ paths', (expand fs' args').2 = .ok paths' ∧
        paths'.map components = paths.map components := by
  intro fs args fs' args' paths
  have hexpand : (expand fs args).2 = .ok paths := by
    have hcollect : collect FileTree.glob fs args =
        ([], .ok (["a//z.js", "a/z.js", "a/z.js", "a-b.js"] : List Text)) := by decide +kernel
    have hsorted : (["a//z.js", "a/z.js", "a/z.js", "a-b.js"] : List Text).mergeSort precedes =
        ["a//z.js", "a/z.js", "a/z.js", "a-b.js"] := List.mergeSort_of_pairwise (by decide +kernel)
    have harrange : arrange ["a//z.js", "a/z.js", "a/z.js", "a-b.js"] = paths := by
      rw [arrange, hsorted]
      decide +kernel
    simp only [expand, expandBy, hcollect, Except.map, harrange]
  have hrelists : fs'.Relists fs :=
    FileTree.relists_of_perm (by decide +kernel) (List.reverse_perm _)
  have hargs : ∀ arg, arg ∈ args' ↔ arg ∈ args := by
    have hsubset : args' ⊆ args := by decide
    have hsubset' : args ⊆ args' := by decide
    exact fun arg => ⟨fun harg => hsubset harg, fun harg => hsubset' harg⟩
  exact ⟨hexpand, hrelists, hargs, (expand_once_in_order globs_glob hexpand).2.2.2.2 fs' args' hrelists hargs⟩

end Inputs

end DocComment
