import DocComment.Outline

/-!
# Command line options

Options are read from left to right.  A value follows its option as the next argument, behind an
equals sign, or directly behind a one-letter option; one-letter options may stand together.  After
two hyphens everything is an input.
-/

namespace DocComment

structure Options where
  inputs : List Text := []
  output : Option Text := none
  format : Option Text := none
  name : Option Text := none
  template : Option Text := none
  onDuplicate : Option ClashRule := none
  showPrivate : Bool := false
  keepGoing : Bool := false
  /-- Asks for a log. It has no part in what the program reports. -/
  verbose : Bool := false
  deriving DecidableEq, Repr

inductive Parameter where
  | output
  | format
  | name
  | template
  | onDuplicate
  deriving DecidableEq, Repr

inductive Switch where
  | showPrivate
  | keepGoing
  | verbose
  | help
  deriving DecidableEq, Repr

inductive Refusal where
  | help
  | usage
  deriving DecidableEq, Repr

namespace Options

def longName? (name : Text) : Option (Parameter ⊕ Switch) :=
  List.lookup name [("output", .inl .output), ("format", .inl .format), ("name", .inl .name),
    ("template", .inl .template), ("on-duplicate", .inl .onDuplicate),
    ("show-private", .inr .showPrivate), ("keep-going", .inr .keepGoing),
    ("verbose", .inr .verbose), ("help", .inr .help)]

def shortName? (c : Char) : Option (Parameter ⊕ Switch) :=
  List.lookup c [('o', .inl .output), ('f', .inl .format), ('n', .inl .name),
    ('t', .inl .template), ('v', .inr .verbose), ('h', .inr .help)]

def rule? (word : Text) : Option ClashRule :=
  List.lookup word [("last", .replace), ("first", .keep), ("error", .refuse)]

def once {α : Type} (given : Option α) (value : α) : Except Refusal (Option α) :=
  if given.isSome then .error .usage else .ok (some value)

def onceOn (given : Bool) : Except Refusal Bool := if given then .error .usage else .ok true

/-- A path name, which is not empty. -/
def pathValue (value : Text) : Except Refusal Text :=
  if value.isEmpty then .error .usage else .ok value

def set (o : Options) (value : Text) : Parameter → Except Refusal Options
  | .output => do return { o with output := ← once o.output (← pathValue value) }
  | .format => do return { o with format := ← once o.format value }
  | .name => do return { o with name := ← once o.name value }
  | .template => do return { o with template := ← once o.template (← pathValue value) }
  | .onDuplicate =>
    match rule? value with
    | some rule => do return { o with onDuplicate := ← once o.onDuplicate rule }
    | none => .error .usage

def turnOn (o : Options) : Switch → Except Refusal Options
  | .showPrivate => do return { o with showPrivate := ← onceOn o.showPrivate }
  | .keepGoing => do return { o with keepGoing := ← onceOn o.keepGoing }
  | .verbose => do return { o with verbose := ← onceOn o.verbose }
  | .help => .error .help

/-- Reads one-letter options that stand together. The parameter that comes out still lacks its
value. -/
def readShort (o : Options) : Text → Except Refusal (Options × Option Parameter)
  | [] => .ok (o, none)
  | c :: rest =>
    match shortName? c with
    | none => .error .usage
    | some (.inr switch) => do readShort (← o.turnOn switch) rest
    | some (.inl parameter) =>
      match rest with
      | [] => .ok (o, some parameter)
      | '=' :: value => do return (← o.set value parameter, none)
      | value => do return (← o.set value parameter, none)

/-- Reads a long option, given without its hyphens. -/
def readLong (o : Options) (t : Text) : Except Refusal (Options × Option Parameter) :=
  let value := t.dropWhile (· != '=')
  match longName? (t.takeWhile (· != '=')), value with
  | some (.inl parameter), [] => .ok (o, some parameter)
  | some (.inl parameter), _ :: value => do return (← o.set value parameter, none)
  | some (.inr switch), [] => do return (← o.turnOn switch, none)
  | _, _ => .error .usage

/-- Whether an argument is read as an option. A single hyphen is not. -/
def isOption (arg : Text) : Bool := arg.head? == some '-' && arg != ['-']

/-- Reads arguments. A parameter that lacks its value takes the next argument, which may not be
read as an option. -/
def readFrom (o : Options) : Option Parameter → List Text → Except Refusal Options
  | none, [] => .ok o
  | some _, [] => .error .usage
  | some parameter, arg :: rest =>
    if isOption arg then .error .usage
    else do (← o.set arg parameter).readFrom none rest
  | none, arg :: rest =>
    if !isOption arg then readFrom { o with inputs := o.inputs ++ [arg] } none rest
    else match arg.drop 1 with
      | ['-'] => .ok { o with inputs := o.inputs ++ rest }
      | '-' :: long => do
        let (o, pending) ← o.readLong long
        o.readFrom pending rest
      | short => do
        let (o, pending) ← o.readShort short
        o.readFrom pending rest

def read (args : List Text) : Except Refusal Options := readFrom {} none args

def usage : Text :=
  "Usage: doccomment [OPTION]... [FILE]...\n" ++
  "Documents the comment blocks of the given files, or of standard input.\n\n" ++
  "  -o, --output DIRECTORY   where the documentation of files is written\n" ++
  "  -f, --format FORMAT      json or html\n" ++
  "  -n, --name NAME          the name of the project\n" ++
  "  -t, --template FILE      the page to be filled\n" ++
  "      --on-duplicate WORD  last, first or error: which block of a path counts\n" ++
  "      --show-private       leave no block out\n" ++
  "      --keep-going         pass over files that cannot be read\n" ++
  "  -v, --verbose            ask for a log\n" ++
  "  -h, --help               print this text\n"

end Options

end DocComment
