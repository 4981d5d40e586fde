import DocComment.Inputs
import DocComment.Proofs.KeyedOrder
import DocComment.Proofs.TextWords

/-! # Files after a change

Only directories are passed on the way to a place, so where directories stay, path names lead to the
same places.  Making directories keeps everything that is there, and writing a file keeps all
directories and the files at other places. -/

namespace DocComment

namespace FileTree

theorem item?_put {fs : FileTree} {place : List Text} (h : place ≠ []) (item : FileItem)
    (other : List Text) :
    (fs.put place item).item? other = if other = place then some item else fs.item? other := by
  rw [item?, item?, put, Keyed.get?_insert]
  by_cases hroot : other = []
  · rw [if_pos hroot, if_pos hroot, hroot, if_neg h.symm]
  · rw [if_neg hroot, if_neg hroot]

/-- The place that a step leads to from a directory. -/
def stepFrom (place : List Text) (step : Text) : List Text :=
  if step = ['.'] then place else if step = ['.', '.'] then place.dropLast else place ++ [step]

theorem follow_cons_eq_ok_iff {fs : FileTree} {place reached rest : List Text} {step : Text} :
    fs.follow place (step :: rest) = .ok reached ↔
      fs.item? place = some .directory ∧ fs.follow (stepFrom place step) rest = .ok reached := by
  rw [follow, stepFrom]
  cases fs.item? place with
  | none => simp
  | some item =>
    cases item with
    | file content => simp
    | directory =>
      by_cases hhere : step = ['.']
      · simp [hhere]
      · by_cases hup : step = ['.', '.'] <;> simp [hhere, hup]

/-- Whether all directories of a tree are there in a later one, with the same working directory. -/
structure KeepsDirectories (fs later : FileTree) : Prop where
  home : later.home = fs.home
  directory : ∀ place, fs.item? place = some .directory → later.item? place = some .directory

/-- Whether all that is in a tree is there in a later one, with the same working directory. -/
structure KeepsAll (fs later : FileTree) : Prop where
  home : later.home = fs.home
  item : ∀ place item, fs.item? place = some item → later.item? place = some item

namespace KeepsDirectories

variable {fs later : FileTree} (h : fs.KeepsDirectories later)

include h

theorem follow {place reached steps : List Text} (hfollow : fs.follow place steps = .ok reached) :
    later.follow place steps = .ok reached := by
  induction steps generalizing place with
  | nil => exact hfollow
  | cons step rest ih =>
    rw [follow_cons_eq_ok_iff] at hfollow ⊢
    exact ⟨h.directory place hfollow.1, ih hfollow.2⟩

theorem locate {path : Text} {place : List Text} (hlocate : fs.locate path = .ok place) :
    later.locate path = .ok place := by
  have horigin : later.origin path = fs.origin path := by rw [origin, origin, h.home]
  rw [FileTree.locate, horigin]
  rw [FileTree.locate] at hlocate
  split at hlocate
  · cases hlocate
  · rename_i hempty
    rw [if_neg hempty]
    exact h.follow hlocate

end KeepsDirectories

namespace KeepsAll

theorem refl (fs : FileTree) : fs.KeepsAll fs := ⟨rfl, fun _ _ h => h⟩

theorem trans {fs later last : FileTree} (h : fs.KeepsAll later) (h' : later.KeepsAll last) :
    fs.KeepsAll last :=
  ⟨h'.home.trans h.home, fun place item hitem => h'.item place item (h.item place item hitem)⟩

theorem directories {fs later : FileTree} (h : fs.KeepsAll later) : fs.KeepsDirectories later :=
  ⟨h.home, fun place => h.item place .directory⟩

theorem look {fs later : FileTree} (h : fs.KeepsAll later) {path : Text} {item : FileItem}
    (hlook : fs.look path = .ok item) : later.look path = .ok item := by
  rw [FileTree.look] at hlook ⊢
  cases hplace : fs.locate path with
  | error fault => simp [hplace, bind, Except.bind] at hlook
  | ok place =>
    rw [h.directories.locate hplace]
    rw [hplace] at hlook
    simp only [bind, Except.bind] at hlook ⊢
    cases hitem : fs.item? place with
    | none => simp [hitem] at hlook
    | some found =>
      rw [hitem] at hlook
      rw [h.item place found hitem]
      exact hlook

end KeepsAll

/-! ### Directories -/

theorem keepsAll_makeDirectory {fs later : FileTree} {path : Text}
    (h : fs.makeDirectory path = .ok later) : fs.KeepsAll later := by
  rw [makeDirectory] at h
  split at h
  · cases h
  · cases hparent : fs.follow (fs.origin path) ((PathName.steps path).dropLast ++ [['.']]) with
    | error fault => simp [hparent, bind, Except.bind] at h
    | ok parent =>
      simp only [hparent, bind, Except.bind] at h
      split at h
      · cases h
      · rename_i step _
        split at h
        · cases h
        · rename_i hfree
          cases h
          have hnone : fs.item? (parent ++ [step]) = none := by
            simpa using (not_or.mp (not_or.mp hfree).2).2
          refine ⟨rfl, fun place item hitem => ?_⟩
          rw [item?_put (by simp), if_neg ?_, hitem]
          rintro rfl
          rw [hnone] at hitem
          cases hitem

theorem keepsAll_settle {fs later : FileTree} {path : Text} {outcome : Except Fault FileTree}
    (houtcome : ∀ made, outcome = .ok made → fs.KeepsAll made)
    (h : fs.settle path outcome = .ok later) : fs.KeepsAll later := by
  cases outcome with
  | ok made =>
    cases h
    exact houtcome _ rfl
  | error fault =>
    rw [settle] at h
    split at h
    · cases h
      exact .refl fs
    · cases h

theorem keepsAll_makeDirectories {fs later : FileTree} {path : Text}
    (h : fs.makeDirectories path = .ok later) : fs.KeepsAll later := by
  have hfrom : ∀ (components : List Component) (fs later : FileTree) (path : Text),
      makeDirectoriesFrom components fs path = .ok later → fs.KeepsAll later := by
    intro components
    induction components with
    | nil =>
      intro fs later path h
      cases h
      exact .refl fs
    | cons last above ih =>
      intro fs later path h
      rw [makeDirectoriesFrom.eq_def] at h
      dsimp only at h
      split at h
      · cases hmade : makeDirectoriesFrom above fs (PathName.ofComponents above.reverse) with
        | error fault => simp [hmade, bind, Except.bind] at h
        | ok made =>
          simp only [hmade, bind, Except.bind] at h
          exact (ih _ _ _ hmade).trans
            (keepsAll_settle (fun _ => keepsAll_makeDirectory) h)
      · exact keepsAll_settle (fun _ => keepsAll_makeDirectory) h
  exact hfrom _ _ _ _ h

/-! ### Files -/

/-- Whether any content can be written at a path name. -/
def Writable (fs : FileTree) (path : Text) : Prop :=
  ∀ content, ∃ later, fs.write path content = .ok later

theorem write_eq_ok_iff {fs later : FileTree} {path : Text} {content : Bytes} :
    fs.write path content = .ok later ↔ ∃ place, fs.locate path = .ok place ∧
      fs.item? place ≠ some .directory ∧ later = fs.put place (.file content) := by
  rw [write]
  cases fs.locate path with
  | error fault => simp [bind, Except.bind]
  | ok place =>
    simp only [bind, Except.bind, Except.ok.injEq, exists_eq_left']
    split
    · simp_all
    · rename_i hitem
      simpa [pure, Except.pure, eq_comm] using fun _ => hitem

theorem read_eq_ok_iff {fs : FileTree} {path : Text} {content : Bytes} :
    fs.read path = .ok content ↔
      ∃ place, fs.locate path = .ok place ∧ fs.item? place = some (.file content) := by
  rw [read, look]
  cases fs.locate path with
  | error fault => simp [bind, Except.bind]
  | ok place =>
    cases hitem : fs.item? place with
    | none => simp [bind, Except.bind, hitem]
    | some item => cases item <;> simp [bind, Except.bind, pure, Except.pure, hitem]

theorem look_of_read {fs : FileTree} {path : Text} {content : Bytes}
    (h : fs.read path = .ok content) : fs.look path = .ok (.file content) := by
  obtain ⟨place, hplace, hitem⟩ := read_eq_ok_iff.mp h
  rw [look, hplace]
  simp only [bind, Except.bind, hitem]
  rfl

theorem writable_iff {fs : FileTree} {path : Text} :
    fs.Writable path ↔ ∃ place, fs.locate path = .ok place ∧ fs.item? place ≠ some .directory := by
  constructor
  · intro h
    obtain ⟨later, hwrite⟩ := h []
    obtain ⟨place, hplace, hitem, -⟩ := write_eq_ok_iff.mp hwrite
    exact ⟨place, hplace, hitem⟩
  · rintro ⟨place, hplace, hitem⟩ content
    exact ⟨_, write_eq_ok_iff.mpr ⟨place, hplace, hitem, rfl⟩⟩

section Write

variable {fs later : FileTree} {path other : Text} {content kept : Bytes}
  (h : fs.write path content = .ok later)

include h

/-- A write changes what is at one place, which is no directory. -/
theorem exists_of_write : ∃ place, fs.locate path = .ok place ∧ fs.KeepsDirectories later ∧
    ∀ other, later.item? other = if other = place then some (.file content) else fs.item? other := by
  obtain ⟨place, hplace, hitem, rfl⟩ := write_eq_ok_iff.mp h
  have hne : place ≠ [] := by
    rintro rfl
    exact hitem rfl
  refine ⟨place, hplace, ⟨rfl, fun other hother => ?_⟩, item?_put hne _⟩
  rw [item?_put hne, if_neg ?_, hother]
  rintro rfl
  exact hitem hother

theorem read_write : later.read path = .ok content := by
  obtain ⟨place, hplace, hkeeps, hitems⟩ := exists_of_write h
  refine read_eq_ok_iff.mpr ⟨place, hkeeps.locate hplace, ?_⟩
  rw [hitems, if_pos rfl]

theorem read_write_of_ne (hne : fs.locate other ≠ fs.locate path)
    (hread : fs.read other = .ok kept) : later.read other = .ok kept := by
  obtain ⟨place, hplace, hkeeps, hitems⟩ := exists_of_write h
  obtain ⟨there, hthere, hitem⟩ := read_eq_ok_iff.mp hread
  refine read_eq_ok_iff.mpr ⟨there, hkeeps.locate hthere, ?_⟩
  rw [hitems, if_neg ?_, hitem]
  rintro rfl
  exact hne (hthere.trans hplace.symm)

theorem Writable.write (hother : fs.Writable other) : later.Writable other := by
  obtain ⟨place, hplace, hkeeps, hitems⟩ := exists_of_write h
  obtain ⟨there, hthere, hitem⟩ := writable_iff.mp hother
  refine writable_iff.mpr ⟨there, hkeeps.locate hthere, ?_⟩
  rw [hitems]
  split
  · simp
  · exact hitem

end Write

/-! ### Names in a directory -/

theorem getLast?_of_follow {fs : FileTree} {place reached steps : List Text} {step : Text}
    (hhere : step ≠ ['.']) (hup : step ≠ ['.', '.'])
    (h : fs.follow place (steps ++ [step]) = .ok reached) : reached.getLast? = some step := by
  induction steps generalizing place with
  | nil =>
    obtain ⟨-, hlast⟩ := follow_cons_eq_ok_iff.mp h
    rw [stepFrom, if_neg hhere, if_neg hup] at hlast
    cases hlast
    exact List.getLast?_concat ..
  | cons _ _ ih => exact ih (follow_cons_eq_ok_iff.mp h).2

end FileTree

/-- The steps of a name in a directory are those of the directory and the name. -/
theorem PathName.steps_join {name : Text} (hname : name ≠ []) (hslash : '/' ∉ name)
    (directory : Text) : steps (join directory name) = steps directory ++ [name] := by
  have hsingle : steps name = [name] := by
    rw [steps, Text.splitOn_of_notMem hslash]
    simp [hname]
  have hcons : ∀ path, steps (path ++ '/' :: name) = steps path ++ [name] := by
    intro path
    rw [← hsingle, steps, Text.splitOn_append_cons, List.filter_append]
    rfl
  rw [join]
  split
  · rename_i hend
    rw [Bool.or_eq_true, decide_eq_true_eq] at hend
    rcases hend with hempty | hend
    · rw [List.isEmpty_iff.mp hempty]
      exact hsingle
    · obtain ⟨path, rfl⟩ := List.getLast?_eq_some_iff.mp hend
      have hslashed : steps (path ++ ['/']) = steps path := by
        rw [steps, Text.splitOn_append_cons, List.filter_append]
        exact List.append_nil _
      rw [hslashed, List.append_assoc]
      exact hcons path
  · exact hcons directory

namespace FileTree

/-- Whether a text can be the name of a file. -/
structure IsName (name : Text) : Prop where
  ne_nil : name ≠ []
  slash : '/' ∉ name
  here : name ≠ ['.']
  up : name ≠ ['.', '.']

theorem getLast?_of_locate_join {fs : FileTree} {directory name : Text} {place : List Text}
    (hname : IsName name) (h : fs.locate (PathName.join directory name) = .ok place) :
    place.getLast? = some name := by
  have hlast : (PathName.join directory name).getLast? ≠ some '/' := by
    have hsuffix : name <:+ PathName.join directory name := by
      rw [PathName.join]
      split
      · exact List.suffix_append directory name
      · exact ⟨directory ++ ['/'], by simp⟩
    obtain ⟨before, hbefore⟩ := hsuffix
    rw [← hbefore, List.getLast?_append]
    cases hend : name.getLast? with
    | none => exact absurd (List.getLast?_eq_none_iff.mp hend) hname.ne_nil
    | some c =>
      rintro ⟨⟩
      exact hname.slash (List.mem_of_getLast? hend)
  rw [locate, if_neg hlast, PathName.steps_join hname.ne_nil hname.slash, List.append_nil] at h
  split at h
  · cases h
  · exact getLast?_of_follow hname.here hname.up h

/-- Two names in one directory stand for different places. -/
theorem locate_join_ne {fs : FileTree} {directory name other : Text} (hname : IsName name)
    (hother : IsName other) (hne : name ≠ other) {place : List Text}
    (hplace : fs.locate (PathName.join directory name) = .ok place) :
    fs.locate (PathName.join directory name) ≠ fs.locate (PathName.join directory other) := by
  intro heq
  have hlast := getLast?_of_locate_join hname hplace
  rw [getLast?_of_locate_join hother (heq ▸ hplace)] at hlast
  exact hne (Option.some.inj hlast).symm

end FileTree

end DocComment
