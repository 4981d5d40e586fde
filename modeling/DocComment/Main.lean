import DocComment.Command

/-!
# The program

The part of the file system that the arguments speak of is read into a file tree, the command is
run on it, and what it has made or changed is carried out.
-/

namespace DocComment

/-- Access to the file system by places below its root. -/
structure Disk where
  home : List Text
  look : List Text → IO (Option FileItem)
  names : List Text → IO (List Text)
  makeDirectory : List Text → IO Unit
  write : List Text → Bytes → IO Unit

namespace Disk

def here : IO Disk := do
  let cwd ← IO.currentDir
  let real (place : List Text) := cwd / String.ofList ('/' :: ['/'].intercalate place)
  return {
    home := PathName.steps cwd.toString.toList
    look := fun place => do
      if ← (real place).isDir then return some .directory
      else if ← (real place).pathExists then
        return some (.file (← IO.FS.readBinFile (real place)).toList)
      else return none
    names := fun place => do
      return (← (real place).readDir).toList.map (·.fileName.toList)
    makeDirectory := fun place => IO.FS.createDirAll (real place)
    write := fun place content => IO.FS.writeBinFile (real place) content.toByteArray }

def load (disk : Disk) (fs : FileTree) (place : List Text) : IO FileTree := do
  match ← disk.look place with
  | some item => return fs.put place item
  | none => return fs

/-- Loads what the steps pass through, and gives the place that they lead to. -/
def loadAlong (disk : Disk) (fs : FileTree) (place : List Text) :
    List Text → IO (FileTree × List Text)
  | [] => return (fs, place)
  | step :: rest => do
    let place := if step = ['.'] then place
      else if step = ['.', '.'] then place.dropLast else place ++ [step]
    disk.loadAlong (← disk.load fs place) place rest

def loadNames (disk : Disk) (fs : FileTree) (place : List Text) : IO FileTree := do
  if fs.item? place != some .directory then return fs
  (← disk.names place).foldlM (fun fs name => disk.load fs (place ++ [name])) fs

partial def loadBelow (disk : Disk) (fs : FileTree) (place : List Text) : IO FileTree := do
  if fs.item? place != some .directory then return fs
  (← disk.names place).foldlM (fun fs name => do
    disk.loadBelow (← disk.load fs (place ++ [name])) (place ++ [name])) fs

/-- Loads what a path name stands for, with the content of a directory. -/
def loadPath (disk : Disk) (fs : FileTree) (path : Text) : IO FileTree := do
  let (fs, place) ← disk.loadAlong fs (fs.origin path) (PathName.steps path)
  disk.loadNames fs place

/-- Loads what an input can stand for: everything below the directory where its wildcards begin. -/
def loadInput (disk : Disk) (fs : FileTree) (arg : Text) : IO FileTree := do
  let steps := PathName.steps arg
  let fixed := steps.takeWhile fun step => !step.any ("*?[" : Text).contains
  if fixed.length = steps.length then disk.loadPath fs arg
  else
    let (fs, place) ← disk.loadAlong fs (fs.origin arg) fixed
    disk.loadBelow fs place

def snapshot (disk : Disk) (o : Options) : IO FileTree := do
  let (fs, _) ← disk.loadAlong { home := disk.home } [] disk.home
  let fs ← (o.output.toList ++ o.template.toList).foldlM disk.loadPath fs
  o.inputs.foldlM disk.loadInput fs

/-- Makes the directories and writes the files that are new or changed. -/
def carryOut (disk : Disk) (before after : FileTree) : IO Unit := do
  for (place, item) in after.items do
    if item = .directory && before.item? place = none then disk.makeDirectory place
  for (place, content) in before.changed after do
    disk.write place content

end Disk

end DocComment

open DocComment in
def main (args : List String) : IO UInt32 := do
  let args := args.map String.toList
  let disk ← Disk.here
  let (fs, stdin) ← match Options.read args with
    | .error _ => pure ({ home := disk.home }, [])
    | .ok o => do
      let stdin ← if o.inputs.isEmpty then (← IO.getStdin).readBinToEnd else pure .empty
      pure (← disk.snapshot o, stdin.toList)
  let report := Command.run args stdin fs
  disk.carryOut fs report.files
  IO.print (String.ofList report.stdout)
  IO.eprint (String.ofList report.stderr)
  return report.exit.toUInt32
