import DocComment.Command
import DocComment.Proofs.OutlinePlaces
import DocComment.Proofs.ParsedSources
import DocComment.Proofs.SourceBytes
import DocComment.Proofs.WrittenFiles

/-! # What is printed and what is written

The documentation of a text on standard input is printed, and that of a file is written into a
directory.  The two ways part in how they read lines, in the name under which the blocks are filed and
in where the output goes.  They come to the same: the same problem on the same line, the same page, and
the same data except for the files in the entries. -/

namespace DocComment

/-! ### Reading one file -/

/-- A file that holds a text has the blocks of that text. -/
theorem FileTree.blocksOfFile_eq {fs : FileTree} {path text : Text}
    (h : fs.look path = .ok (.file (Bytes.ofText text))) :
    fs.blocksOfFile path = Source.blocksOfText path text := by
  have hlines : fs.readLines path = .ok (SourceLine.ofText text) := by
    rw [readLines, h, ← SourceLine.ofBytes_ofText]
    rfl
  rw [blocksOfFile, hlines]
  rfl

theorem Inputs.expand_file {fs : FileTree} {path : Text} {content : Bytes}
    (h : fs.look path = .ok (.file content)) : expand fs [path] = ([], .ok [path]) := by
  have hfile : fs.isFile path = true := by rw [FileTree.isFile, h]
  simp [expand, expandBy, collect, select, hfile, Except.map, arrange, dropRepeats]

/-- The blocks of a text are added under another name as they are under the first. -/
theorem Merge.add_inFile (rule : ClashRule) (name file text : Text) :
    add (.empty rule) (Source.blocksOfText file text) =
      let added := add (.empty rule) (Source.blocksOfText name text)
      (added.1.relocate (·.inFile file), relocateOutcome (·.inFile file) id added.2) := by
  have hblocks : Source.blocksOfText file text =
      relocateOutcome (·.inFile file) (List.map (Block.relocate (·.inFile file)))
        (Source.blocksOfText name text) :=
    Source.blocks_relocate (fun _ => rfl) _
  have hempty := Outline.empty_relocate (·.inFile file) rule
  rw [hblocks]
  cases Source.blocksOfText name text with
  | error e => simp [add, relocateOutcome, hempty]
  | ok blocks =>
    have hadd := Outline.addAll_relocate (·.inFile file) (.empty rule) blocks
    rw [hempty] at hadd
    exact hadd

/-! ### Writing the output -/

/-- What a format makes of an outline in another file, beside what it makes of the outline: the same
page, and the same data except for the files in the entries. -/
def Format.Agrees (format : Format) (file printed written : Text) : Prop :=
  match format with
  | .html => written = printed
  | .json => ∃ value : Json, printed = value.pretty ++ ['\n'] ∧
      written = (value.inFile file).pretty ++ ['\n']

theorem Format.render_inFile {format : Format} {o : Outline} {s : Settings} {printed : Text}
    (h : format.render o s = .ok printed) (file : Text) :
    ∃ written, format.render (o.relocate (·.inFile file)) s = .ok written ∧
      format.Agrees file printed written := by
  cases format with
  | html =>
    refine ⟨printed, ?_, rfl⟩
    have hpage : o.page s = .ok printed := h
    rw [render, Outline.page_relocate (f := (·.inFile file)) (fun _ => rfl), hpage]
    rfl
  | json =>
    have hexport := Outline.exportJson_inFile file o
    rw [render, Outline.exportText] at h
    rw [render, Outline.exportText, hexport]
    cases hvalue : o.exportJson with
    | error e =>
      rw [hvalue] at h
      cases h
    | ok value =>
      rw [hvalue] at h
      cases h
      exact ⟨_, rfl, value, rfl, rfl⟩

/-- What has been added to an empty outline can be rendered. -/
theorem Merge.exists_render {rule : ClashRule} {blocks : Except Problem (List Block)}
    {outline : Outline} (h : add (.empty rule) blocks = (outline, .ok ())) (format : Format)
    (s : Settings) : ∃ output, format.render outline s = .ok output := by
  cases blocks with
  | error e => cases h
  | ok blocks =>
    obtain ⟨output, houtput⟩ :=
      Outline.exists_render rule (Request.atOwnPaths_addAll [blocks]) format s
    have houtline : ((Outline.empty rule).run [.addAll blocks]).1 = outline :=
      congrArg Prod.fst h
    exact ⟨output, houtline ▸ houtput⟩

namespace Command

theorem isName_fileName (format : Format) : FileTree.IsName format.fileName := by
  cases format <;> constructor <;> decide

/-- In a directory where the output and the search index can be written, both are. -/
theorem publish_eq {fs : FileTree} (warnings : Text) {directory output : Text} {format : Format}
    {settings : Settings} {outline : Outline} (hrender : format.render outline settings = .ok output)
    (hwritable : ∀ name ∈ ([format.fileName, "search.json"] : List Text),
      fs.Writable (PathName.join directory name)) :
    ∃ files, publish fs warnings directory format settings outline =
        { exit := 0, stderr := warnings, files } ∧
      files.read (PathName.join directory format.fileName) = .ok (Bytes.ofText output) ∧
      files.read (PathName.join directory "search.json") =
        .ok (Bytes.ofText (outline.searchText settings)) := by
  obtain ⟨later, hlater⟩ := hwritable format.fileName (by simp) (Bytes.ofText output)
  have hindex := FileTree.Writable.write hlater (hwritable "search.json" (by simp))
  obtain ⟨files, hfiles⟩ := hindex (Bytes.ofText (outline.searchText settings))
  refine ⟨files, ?_, ?_, FileTree.read_write hfiles⟩
  · rw [publish, hrender]
    simp only [writeOutput, hlater, Except.mapError, hfiles]
  · refine FileTree.read_write_of_ne hfiles ?_ (FileTree.read_write hlater)
    obtain ⟨place, hplace, -⟩ := FileTree.read_eq_ok_iff.mp (FileTree.read_write hlater)
    refine FileTree.locate_join_ne (isName_fileName format) ?_ ?_ hplace
    · constructor <;> decide
    · cases format <;> decide

theorem exists_prepare {o : Options} {fs : FileTree} {format : Format}
    (hformat : Format.ofName? (o.format.getD "json") = some format)
    (htemplate : ∀ template ∈ o.template, ∃ page, fs.readText template = .ok page) :
    ∃ settings, prepare o fs = .ok (format, settings) := by
  rw [prepare, hformat]
  cases htemp : o.template with
  | none => exact ⟨_, rfl⟩
  | some template =>
    obtain ⟨page, hpage⟩ := htemplate template htemp
    simp only [Option.mapM_some, hpage]
    exact ⟨_, rfl⟩

/-! ### The two runs -/

section Text

variable {o : Options} {fs : FileTree} {format : Format} {settings : Settings} {text : Text}
  {outline : Outline} (hprepare : prepare o fs = .ok (format, settings))

include hprepare

theorem runText_of_error {e : Problem}
    (hadd : Merge.add (emptyOutline o) (Source.blocksOfText "<stdin>" text) = (outline, .error e)) :
    runText o fs (Bytes.ofText text) =
      .failed fs [] ((Failure.ofProblem e).inContext "failed to parse stdin") := by
  have hdecode : (Bytes.ofText text).decode? = some text := Bytes.decode?_eq_some_iff.mpr rfl
  simp only [runText, printText, hprepare, hdecode, hadd, bind, Except.bind, Except.mapError]

theorem runText_of_ok {output : Text}
    (hadd : Merge.add (emptyOutline o) (Source.blocksOfText "<stdin>" text) = (outline, .ok ()))
    (hrender : format.render outline settings = .ok output) :
    runText o fs (Bytes.ofText text) = { exit := 0, stdout := output, files := fs } := by
  have hdecode : (Bytes.ofText text).decode? = some text := Bytes.decode?_eq_some_iff.mpr rfl
  simp only [runText, printText, hprepare, hdecode, hadd, hrender, bind, Except.bind,
    Except.mapError]

end Text

theorem runFiles_eq {o : Options} {fs made : FileTree} {directory : Text} {format : Format}
    {settings : Settings} (houtput : o.output = some directory)
    (hprepare : prepare o fs = .ok (format, settings))
    (hmade : fs.makeDirectories directory = .ok made) :
    runFiles o fs = document o made directory format settings := by
  simp only [runFiles, houtput, hprepare, hmade]

section File

variable {o : Options} {fs : FileTree} {path text : Text} {outline : Outline}
  (hinputs : o.inputs = [path]) (hkeep : o.keepGoing = false)
  (hfile : fs.look path = .ok (.file (Bytes.ofText text)))

include hinputs hkeep hfile

theorem document_of_error {e : Problem}
    (hadd : Merge.add (emptyOutline o) (Source.blocksOfText path text) = (outline, .error e))
    (directory : Text) (format : Format) (settings : Settings) :
    document o fs directory format settings =
      .failed fs [] ((Failure.ofProblem e).inContext ("failed to parse " ++ path)) := by
  rw [document, hinputs, Inputs.expand_file hfile, hkeep]
  simp only [Merge.run, FileTree.blocksOfFile_eq hfile, hadd]
  rfl

theorem document_of_ok
    (hadd : Merge.add (emptyOutline o) (Source.blocksOfText path text) = (outline, .ok ()))
    (directory : Text) (format : Format) (settings : Settings) :
    document o fs directory format settings = publish fs [] directory format settings outline := by
  rw [document, hinputs, Inputs.expand_file hfile, hkeep]
  simp only [Merge.run, FileTree.blocksOfFile_eq hfile, hadd]
  rfl

end File

/-- Let one run have a text on standard input, and let another with the same options have a file of that
text and a directory where its output can be written.  Either both fail with the same problem, in the
first on a line of standard input and in the second on that line of the file, or both succeed and the
second has written what the first has printed: the same page, or the same data except for the files in
the entries. -/
theorem run_writes_what_it_prints {args args' : List Text} {o : Options} {format : Format}
    {fs made : FileTree} {path directory text : Text}
    (hargs : Options.read args = .ok o)
    (hargs' : Options.read args' = .ok { o with inputs := [path], output := some directory })
    (hinputs : o.inputs = []) (hkeep : o.keepGoing = false)
    (hformat : Format.ofName? (o.format.getD "json") = some format)
    (htemplate : ∀ template ∈ o.template, ∃ page, fs.readText template = .ok page)
    (hfile : fs.read path = .ok (Bytes.ofText text)) (hmade : fs.makeDirectories directory = .ok made)
    (hwritable : ∀ name ∈ ([format.fileName, "search.json"] : List Text),
      made.Writable (PathName.join directory name)) (stdin : Bytes) :
    let printed := run args (Bytes.ofText text) fs
    let written := run args' stdin fs
    (∃ e : Problem,
      printed = .failed fs [] ((Failure.ofProblem e).inContext "failed to parse stdin") ∧
      written = .failed made [] ((Failure.ofProblem (e.relocate (·.inFile path))).inContext
        ("failed to parse " ++ path))) ∨
    ∃ output content files,
      printed = { exit := 0, stdout := output, files := fs } ∧ written = { exit := 0, files } ∧
      files.read (PathName.join directory format.fileName) = .ok (Bytes.ofText content) ∧
      format.Agrees path output content := by
  intro printed written
  obtain ⟨settings, hprepare⟩ := exists_prepare hformat htemplate
  have hprinted : printed = runText o fs (Bytes.ofText text) := by
    simp only [printed, run, hargs, hinputs, List.isEmpty_nil, if_true]
  let o' : Options := { o with inputs := [path], output := some directory }
  have hwritten : written = document o' made directory format settings := by
    have hfiles : written = runFiles o' fs := by
      simp only [written, run, hargs', List.isEmpty_cons, Bool.false_eq_true, if_false]
      rfl
    rw [hfiles]
    exact runFiles_eq (o := o') rfl hprepare hmade
  have hlook : made.look path = .ok (.file (Bytes.ofText text)) :=
    (FileTree.keepsAll_makeDirectories hmade).look (FileTree.look_of_read hfile)
  have hadd' := Merge.add_inFile (o.onDuplicate.getD .replace) "<stdin>" path text
  rw [hprinted, hwritten]
  rcases hadd : Merge.add (emptyOutline o) (Source.blocksOfText "<stdin>" text) with
    ⟨outline, outcome⟩
  rw [← emptyOutline, hadd] at hadd'
  cases outcome with
  | error e =>
    left
    exact ⟨e, runText_of_error hprepare hadd, document_of_error (o := o') rfl hkeep hlook hadd' ..⟩
  | ok _ =>
    right
    obtain ⟨output, houtput⟩ := Merge.exists_render hadd format settings
    obtain ⟨content, hcontent, hagrees⟩ := Format.render_inFile houtput path
    obtain ⟨files, hpublish, hread, -⟩ := publish_eq [] hcontent hwritable
    refine ⟨output, content, files, runText_of_ok hprepare hadd houtput, ?_, hread, hagrees⟩
    rw [document_of_ok (o := o') rfl hkeep hlook hadd', hpublish]

/-- The module `m` is printed from standard input, and written from the file `f.js` into a directory that
is made for it, with a carriage return before a line feed and an option that both runs have. -/
theorem run_writes_printed_module :
    let text : Text := "/**\r\n * @module m\n */"
    let args : List Text := ["--on-duplicate", "error"]
    let args' : List Text := ["--on-duplicate", "error", "-o", "out", "f.js"]
    let o : Options := { onDuplicate := some .refuse }
    let fs : FileTree := { items := [(["f.js"], .file (Bytes.ofText text))] }
    let made : FileTree := fs.put ["out"] .directory
    Options.read args = .ok o ∧
      Options.read args' = .ok { o with inputs := ["f.js"], output := some "out" } ∧
      fs.read "f.js" = .ok (Bytes.ofText text) ∧ fs.makeDirectories "out" = .ok made ∧
      (∀ name ∈ (["api.json", "search.json"] : List Text),
        made.Writable (PathName.join "out" name)) ∧
      ∃ output content files,
        run args (Bytes.ofText text) fs = { exit := 0, stdout := output, files := fs } ∧
        run args' [] fs = { exit := 0, files } ∧
        files.read "out/api.json" = .ok (Bytes.ofText content) ∧
        Format.json.Agrees "f.js" output content := by
  intro text args args' o fs made
  have hargs : Options.read args = .ok o := by decide +kernel
  have hargs' : Options.read args' = .ok { o with inputs := ["f.js"], output := some "out" } := by
    decide +kernel
  have hfile : fs.read "f.js" = .ok (Bytes.ofText text) := by decide +kernel
  have hmade : fs.makeDirectories "out" = .ok made := by decide +kernel
  have hwritable : ∀ name ∈ (["api.json", "search.json"] : List Text),
      made.Writable (PathName.join "out" name) := by
    have hplace : ∀ name ∈ (["api.json", "search.json"] : List Text),
        made.locate (PathName.join "out" name) = .ok ["out", name] ∧
          made.item? ["out", name] = none := by
      decide +kernel
    intro name hname
    obtain ⟨hlocate, hnone⟩ := hplace name hname
    exact FileTree.writable_iff.mpr ⟨_, hlocate, by rw [hnone]; exact nofun⟩
  have hexit : (run args (Bytes.ofText text) fs).exit = 0 := by decide +kernel
  refine ⟨hargs, hargs', hfile, hmade, hwritable, ?_⟩
  have hformat : Format.ofName? (o.format.getD "json") = some .json := rfl
  have htemplate : ∀ template ∈ o.template, ∃ page, fs.readText template = .ok page := nofun
  rcases run_writes_what_it_prints hargs hargs' rfl rfl hformat htemplate hfile hmade hwritable []
    with ⟨e, hfailed, -⟩ | hsame
  · rw [hfailed] at hexit
    cases hexit
  · exact hsame

end Command

end DocComment
