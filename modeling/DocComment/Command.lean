import DocComment.Format
import DocComment.Inputs
import DocComment.Merge
import DocComment.Options

/-!
# The command

With input files the documentation and a search index are written into a directory, without them
standard input is read and the documentation is printed.  A run takes a file tree to a report and
the file tree that it leaves.
-/

namespace DocComment

/-- A failure that ends a run, with what caused it, the nearest cause first. -/
structure Failure where
  message : Text
  causes : List Text := []
  deriving DecidableEq, Repr

namespace Failure

def ofProblem (e : Problem) : Failure := ⟨e.message, e.cause.toList.map Fault.message⟩

def ofFault (context : Text) (fault : Fault) : Failure := ⟨context, [fault.message]⟩

def inContext (context : Text) (f : Failure) : Failure := ⟨context, f.message :: f.causes⟩

/-- A cause under a heading; the lines after its first are set in as far as the heading is long. -/
def indent (heading cause : Text) : Text :=
  '\n' :: heading ++
    ('\n' :: List.replicate heading.length ' ').intercalate (cause.splitOn '\n')

/-- The causes are numbered when there are several. -/
def trace : List Text → Text
  | [] => []
  | [cause] => "\n\nCaused by:" ++ indent "    " cause
  | causes => "\n\nCaused by:" ++ causes.zipIdx.flatMap fun (cause, i) =>
    let number := Text.ofNat i
    indent (List.replicate (5 - number.length) ' ' ++ number ++ ": ") cause

def report (f : Failure) : Text := List.flatten ["Error: ", f.message, trace f.causes, ['\n']]

end Failure

structure Report where
  exit : Nat
  stdout : Text := []
  stderr : Text := []
  files : FileTree
  deriving DecidableEq, Repr

namespace Report

def failed (files : FileTree) (warnings : Text) (f : Failure) : Report :=
  { exit := 1, stderr := warnings ++ f.report, files }

end Report

namespace Command

def warning (message : Text) : Text := List.flatten ["warning: ", message, ['\n']]

def unmatchedWarnings (patterns : List Text) : Text :=
  patterns.flatMap fun pattern => warning ("no files matched: " ++ pattern)

def skippedWarnings (skipped : List (Text × Problem)) : Text :=
  skipped.flatMap fun (path, e) =>
    warning (List.flatten ["skipping ", path, ": ", e.message])

/-- The format and the settings that the options ask for. The template has to be readable even
where it is not used. -/
def prepare (o : Options) (fs : FileTree) : Except Failure (Format × Settings) := do
  let name := o.format.getD "json"
  let some format := Format.ofName? name | .error ⟨Format.unknown name, []⟩
  let template ← o.template.mapM fun path =>
    (fs.readText path).mapError (Failure.ofFault ("failed to read template: " ++ path))
  return (format, { name := o.name.getD "API", template, showPrivate := o.showPrivate })

def emptyOutline (o : Options) : Outline := .empty (o.onDuplicate.getD .replace)

def printText (o : Options) (fs : FileTree) (stdin : Bytes) : Except Failure Text := do
  let (format, settings) ← prepare o fs
  let some text := stdin.decode? | .error (.ofFault "failed to read stdin" .invalidUtf8)
  let parsed := Merge.add (emptyOutline o) (Source.blocksOfText "<stdin>" text)
  parsed.2.mapError fun e => (Failure.ofProblem e).inContext "failed to parse stdin"
  (format.render parsed.1 settings).mapError .ofProblem

def runText (o : Options) (fs : FileTree) (stdin : Bytes) : Report :=
  match printText o fs stdin with
  | .ok output => { exit := 0, stdout := output, files := fs }
  | .error f => .failed fs [] f

def writeOutput (fs : FileTree) (directory name content : Text) : Except Failure FileTree :=
  let path := PathName.join directory name
  (fs.write path (Bytes.ofText content)).mapError (.ofFault ("failed to write " ++ path))

/-- Writes the documentation and, after it, the search index. -/
def publish (fs : FileTree) (warnings directory : Text) (format : Format) (settings : Settings)
    (outline : Outline) : Report :=
  match format.render outline settings with
  | .error e => .failed fs warnings (.ofProblem e)
  | .ok output =>
    match writeOutput fs directory format.fileName output with
    | .error f => .failed fs warnings f
    | .ok fs =>
      match writeOutput fs directory "search.json" (outline.searchText settings) with
      | .error f => .failed fs warnings f
      | .ok fs => { exit := 0, stderr := warnings, files := fs }

/-- Merges the input files and publishes the outline in a directory that is there. -/
def document (o : Options) (fs : FileTree) (directory : Text) (format : Format)
    (settings : Settings) : Report :=
  match Inputs.expand fs o.inputs with
  | (unmatched, .error (pattern, e)) =>
    .failed fs (unmatchedWarnings unmatched)
      ⟨"invalid glob pattern: " ++ pattern, [e.message]⟩
  | (unmatched, .ok paths) =>
    let merge := Merge.run fs.blocksOfFile o.keepGoing (emptyOutline o) paths
    let warnings := unmatchedWarnings unmatched ++ skippedWarnings merge.skipped
    match merge.stopped with
    | some (path, e) =>
      .failed fs warnings ((Failure.ofProblem e).inContext ("failed to parse " ++ path))
    | none => publish fs warnings directory format settings merge.outline

def runFiles (o : Options) (fs : FileTree) : Report :=
  match o.output with
  | none => .failed fs [] ⟨"--output is required when files are given", []⟩
  | some directory =>
    match prepare o fs with
    | .error f => .failed fs [] f
    | .ok (format, settings) =>
      match fs.makeDirectories directory with
      | .error fault =>
        .failed fs [] (.ofFault ("failed to create output directory: " ++ directory) fault)
      | .ok fs => document o fs directory format settings

/-- Runs the program with the given arguments. Options that cannot be read end it with 2. -/
def run (args : List Text) (stdin : Bytes) (fs : FileTree) : Report :=
  match Options.read args with
  | .error .help => { exit := 0, stdout := Options.usage, files := fs }
  | .error .usage => { exit := 2, stderr := Options.usage, files := fs }
  | .ok o => if o.inputs.isEmpty then runText o fs stdin else runFiles o fs

end Command

end DocComment
