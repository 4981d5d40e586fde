import DocComment.Block
import DocComment.StableSort

/-!
# The outline of the documentation

Blocks are filed under the segments of their dotted paths.  A node may be there for the sake of
those below it only, and it holds a block once one is filed at exactly its path.  Adding gives the
outline together with the outcome, so that a refused addition still says what it left behind.
-/

namespace DocComment

structure Node where
  block : Option Block := none
  /-- The number of the node in order of creation. -/
  number : Nat := 0
  children : List (Text × Node) := []

namespace Node

def child? (n : Node) (segment : Text) : Option Node := Keyed.get? segment n.children

def descend? : List Text → Node → Option Node
  | [], n => some n
  | segment :: rest, n => (n.child? segment).bind (descend? rest)

/-- The line that ranks a node among its siblings. -/
def line (n : Node) : Nat :=
  match n.block with
  | some block => block.place.line
  | none => 1

/-- Whether a node may stand before a sibling: greater lines first, on one line nodes with a block
first, and otherwise in order of creation. -/
def precedes (a b : Node) : Bool :=
  if a.line = b.line then
    if a.block.isSome = b.block.isSome then a.number ≤ b.number else a.block.isSome
  else b.line < a.line

def ranked (n : Node) : List (Text × Node) :=
  sortBy (fun a b => a.2.precedes b.2) n.children

/-- Files a block below a node, making the nodes that are missing on the way, numbered from
`next` on. Gives the node and the next free number. -/
def file (block : Block) : List Text → Nat → Node → Node × Nat
  | [], next, n => ({ n with block := some block }, next)
  | segment :: rest, next, n =>
    let (child, next) := match n.child? segment with
      | some child => file block rest next child
      | none => file block rest (next + 1) { number := next }
    ({ n with children := Keyed.insert segment child n.children }, next)

end Node

/-- What happens to a block whose path already holds one. -/
inductive ClashRule where
  | replace
  | keep
  | refuse
  deriving DecidableEq, Repr

structure Outline where
  /-- The node at no path, which never holds a block. -/
  root : Node := {}
  nextNumber : Nat := 0
  rule : ClashRule := .replace

namespace Outline

def empty (rule : ClashRule) : Outline := { rule }

def node? (o : Outline) (path : Text) : Option Node := o.root.descend? (path.splitOn '.')

def block? (o : Outline) (path : Text) : Option Block := (o.node? path).bind Node.block

def isEmpty (o : Outline) : Bool := o.root.children.isEmpty

def file (o : Outline) (path : Text) (block : Block) : Outline :=
  let (root, nextNumber) := o.root.file block (path.splitOn '.') o.nextNumber
  { o with root, nextNumber }

def addAt (o : Outline) (path : Text) (block : Block) : Outline × Except Problem Unit :=
  match o.block? path, o.rule with
  | some earlier, .refuse => (o, .error (.taken path block.place earlier.place))
  | some _, .keep => (o, .ok ())
  | _, _ => (o.file path block, .ok ())

def add (o : Outline) (block : Block) : Outline × Except Problem Unit :=
  match block.path with
  | .ok path => o.addAt path block
  | .error e => (o, .error e)

def addEach (o : Outline) : List (Text × Block) → Outline × Except Problem Unit
  | [] => (o, .ok ())
  | (path, block) :: rest =>
    match o.addAt path block with
    | (o, .ok _) => o.addEach rest
    | (o, .error e) => (o, .error e)

/-- The first block whose path is taken by one of the `seen` blocks or by one in the outline. -/
def clash? (o : Outline) (seen : List (Text × Block)) : List (Text × Block) → Option Problem
  | [] => none
  | (path, block) :: rest =>
    match (seen.lookup path).or (o.block? path) with
    | some earlier => some (.taken path block.place earlier.place)
    | none => o.clash? ((path, block) :: seen) rest

/-- Adds the blocks of one source. All paths are resolved first, and under the rule `refuse` all
are compared, before the first block is filed. -/
def addAll (o : Outline) (blocks : List Block) : Outline × Except Problem Unit :=
  match blocks.mapM fun block => block.path.map (·, block) with
  | .error e => (o, .error e)
  | .ok resolved =>
    match (if o.rule = .refuse then o.clash? [] resolved else none) with
    | some e => (o, .error e)
    | none => o.addEach resolved

end Outline

end DocComment
