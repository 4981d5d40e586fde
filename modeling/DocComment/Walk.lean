import DocComment.Outline

/-!
# Walking the outline

A walk keeps the nodes still to be visited, the next one first.  Visiting a node puts its children
in front of the others, the one with the smallest line foremost.
-/

namespace DocComment

mutual

/-- The number of nodes from a node down, itself included. -/
def Node.size : Node → Nat
  | ⟨_, _, children⟩ => 1 + Node.sizeAll children

def Node.sizeAll : List (Text × Node) → Nat
  | [] => 0
  | (_, n) :: rest => n.size + Node.sizeAll rest

end

theorem Node.sizeAll_append (l k : List (Text × Node)) :
    Node.sizeAll (l ++ k) = Node.sizeAll l + Node.sizeAll k := by
  induction l with
  | nil => simp [Node.sizeAll]
  | cons p rest ih => simp only [List.cons_append, Node.sizeAll, ih, Nat.add_assoc]

theorem Node.sizeAll_perm {l k : List (Text × Node)} (h : l.Perm k) :
    Node.sizeAll l = Node.sizeAll k := by
  induction h with
  | nil => rfl
  | cons p _ ih => simp only [Node.sizeAll, ih]
  | swap p q l =>
    simp only [Node.sizeAll]
    omega
  | trans _ _ hl hk => exact hl.trans hk

theorem Node.sizeAll_rename (f : Text × Node → Text) (l : List (Text × Node)) :
    Node.sizeAll (l.map fun p => (f p, p.2)) = Node.sizeAll l := by
  induction l with
  | nil => rfl
  | cons p rest ih => simp only [List.map_cons, Node.sizeAll, ih]

structure Walk where
  pending : List (Text × Node)

namespace Walk

/-- The path of a child. No dot is written below the empty path. -/
def childPath (path segment : Text) : Text :=
  if path.isEmpty then segment else path ++ '.' :: segment

def below (path : Text) (n : Node) : List (Text × Node) :=
  (n.ranked.map fun c => (childPath path c.1, c.2)).reverse

def start (n : Node) (path : Text) : Walk := ⟨below path n⟩

def next? : Walk → Option ((Text × Node) × Walk)
  | ⟨[]⟩ => none
  | ⟨(path, n) :: rest⟩ => some ((path, n), ⟨below path n ++ rest⟩)

/-- Passes over as many pending nodes as a node has children. Directly after the visit of that
node they are its children. -/
def passOver (w : Walk) (n : Node) : Walk := ⟨w.pending.drop n.children.length⟩

def size (w : Walk) : Nat := Node.sizeAll w.pending

theorem sizeAll_below (path : Text) (n : Node) :
    Node.sizeAll (below path n) = Node.sizeAll n.children := by
  rw [below, Node.sizeAll_perm (List.reverse_perm _),
    Node.sizeAll_rename (fun c => childPath path c.1)]
  exact Node.sizeAll_perm (sortBy_perm _ _)

theorem size_next? {w w' : Walk} {item : Text × Node} (h : w.next? = some (item, w')) :
    w'.size < w.size := by
  obtain ⟨pending⟩ := w
  match pending, h with
  | (path, ⟨entry, number, children⟩) :: rest, h =>
    simp only [next?, Option.some.injEq, Prod.mk.injEq] at h
    obtain ⟨-, rfl⟩ := h
    simp only [size, Node.sizeAll_append, sizeAll_below, Node.sizeAll, Node.size]
    omega

theorem size_passOver (w : Walk) (n : Node) : (w.passOver n).size ≤ w.size := by
  have h := Node.sizeAll_append (w.pending.take n.children.length)
    (w.pending.drop n.children.length)
  rw [List.take_append_drop] at h
  simp only [size, passOver]
  omega

/-- All nodes that the walk visits, each before those below it. -/
def items (w : Walk) : List (Text × Node) :=
  match _h : w.next? with
  | none => []
  | some (item, w') => item :: w'.items
termination_by w.size
decreasing_by exact size_next? _h

end Walk

namespace Outline

def walk (o : Outline) : Walk := Walk.start o.root []

/-- The number of nodes that hold a block. -/
def length (o : Outline) : Nat := (o.walk.items.filter fun p => p.2.block.isSome).length

end Outline

end DocComment
