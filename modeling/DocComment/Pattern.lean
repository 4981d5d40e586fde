import DocComment.Text

/-!
# File name patterns

In a pattern `?` stands for one character, `*` for any number of them, and a class in brackets for
one character of a set or outside it.  Two stars are only allowed as a whole component between
slashes, where they stand for any number of directories.
-/

namespace DocComment

inductive PatternFault where
  | invalidRange
  | tooManyStars
  | partialRecursion
  deriving DecidableEq, Repr

structure PatternError where
  position : Nat
  fault : PatternFault
  deriving DecidableEq, Repr

def PatternFault.message : PatternFault → Text
  | invalidRange => "invalid range pattern"
  | tooManyStars => "wildcards are either regular `*` or recursive `**`"
  | partialRecursion => "recursive wildcards must form a single path component"

def PatternError.message (e : PatternError) : Text :=
  List.flatten ["Pattern syntax error near position ", Text.ofNat e.position, ": ", e.fault.message]

inductive ClassItem where
  | one (c : Char)
  | range (low high : Char)
  deriving DecidableEq, Repr

inductive Wildcard where
  | char (c : Char)
  | anyChar
  | anySequence
  | anyDirectories
  | within (items : List ClassItem)
  | outside (items : List ClassItem)
  deriving DecidableEq, Repr

namespace ClassItem

def admits (c : Char) : ClassItem → Bool
  | one d => c == d
  | range low high => low ≤ c && c ≤ high

/-- A hyphen makes a range when a character stands on either side of it. -/
def parse : Text → List ClassItem
  | low :: '-' :: high :: rest => range low high :: parse rest
  | c :: rest => one c :: parse rest
  | [] => []

end ClassItem

namespace Wildcard

/-- The text of a class up to its closing bracket, and what follows that. The first character
belongs to the class even if it is a bracket. -/
def classBody? : Text → Option (Text × Text)
  | [] => none
  | c :: rest =>
    if rest.contains ']' then
      some (c :: rest.takeWhile (· != ']'), (rest.dropWhile (· != ']')).drop 1)
    else none

theorem length_classBody? {t body rest : Text} (h : classBody? t = some (body, rest)) :
    rest.length < t.length := by
  match t, h with
  | c :: t, h =>
    simp only [classBody?] at h
    split at h
    · simp only [Option.some.injEq, Prod.mk.injEq] at h
      obtain ⟨-, rfl⟩ := h
      have := (List.dropWhile_sublist (· != ']') : List.Sublist _ t).length_le
      simp only [List.length_drop, List.length_cons]
      omega
    · simp at h

/-- Reads the class that follows an opening bracket, and gives the text after it. -/
def parseClass? (t : Text) : Option (Wildcard × Text) :=
  match t with
  | '!' :: body => (classBody? body).map fun (body, rest) => (outside (ClassItem.parse body), rest)
  | _ => (classBody? t).map fun (body, rest) => (within (ClassItem.parse body), rest)

theorem length_parseClass? {t rest : Text} {w : Wildcard} (h : parseClass? t = some (w, rest)) :
    rest.length < t.length := by
  unfold parseClass? at h
  split at h
  · obtain ⟨⟨body, rest'⟩, hb, heq⟩ := Option.map_eq_some_iff.mp h
    simp only [Prod.mk.injEq] at heq
    have := length_classBody? hb
    simp only [List.length_cons, ← heq.2]
    omega
  · obtain ⟨⟨body, rest'⟩, hb, heq⟩ := Option.map_eq_some_iff.mp h
    simp only [Prod.mk.injEq] at heq
    exact heq.2 ▸ length_classBody? hb

/-- Reads a pattern. The last character read and the position are those before the text that is
left. -/
def parseFrom (last : Option Char) (position : Nat) (t : Text) :
    Except PatternError (List Wildcard) :=
  match t with
  | [] => .ok []
  | '?' :: rest => do return anyChar :: (← parseFrom (some '?') (position + 1) rest)
  | '[' :: rest =>
    match _h : parseClass? rest with
    | none => .error ⟨position, .invalidRange⟩
    | some (w, after) => do
      return w :: (← parseFrom (some ']') (position + (rest.length - after.length) + 1) after)
  | '*' :: '*' :: '*' :: _ => .error ⟨position + 2, .tooManyStars⟩
  | '*' :: '*' :: rest =>
    if last.any (· != '/') then .error ⟨position - 1, .partialRecursion⟩
    else match rest with
      | [] => .ok [anyDirectories]
      | c :: rest =>
        if c = '/' then do
          return anyDirectories :: (← parseFrom (some '/') (position + 3) rest)
        else .error ⟨position + 2, .partialRecursion⟩
  | '*' :: rest => do return anySequence :: (← parseFrom (some '*') (position + 1) rest)
  | c :: rest => do return char c :: (← parseFrom (some c) (position + 1) rest)
termination_by t.length
decreasing_by
  · simp
  · have := length_parseClass? _h
    simp only [List.length_cons]
    omega
  · simp only [List.length_cons]
    omega
  · simp
  · simp

def parse (t : Text) : Except PatternError (List Wildcard) := parseFrom none 0 t

def admits (c : Char) : Wildcard → Bool
  | char d => c == d
  | within items => items.any (·.admits c)
  | outside items => !items.any (·.admits c)
  | _ => true

/-- A text and everything that it leaves when characters are taken from its front, the longest
first. -/
def rests : Text → List Text
  | [] => [[]]
  | c :: t => (c :: t) :: rests t

/-- What one wildcard can leave of the texts given, which are rests of one name, the longest first.
A star leaves every rest of the longest of them. -/
def advance (left : List Text) : Wildcard → List Text
  | anySequence => (left.head?.map rests).getD []
  | w => left.filterMap fun
    | [] => none
    | c :: t => if w.admits c then some t else none

/-- Whether the wildcards together stand for a name: one after the other they can leave nothing of
it. All that they can leave is followed at once, so that no part is tried twice. -/
def matchName (ws : List Wildcard) (name : Text) : Bool :=
  (ws.foldl advance [name]).contains []

end Wildcard

inductive PatternStep where
  | literal (name : Text)
  | wild (wildcards : List Wildcard)
  | directories
  deriving DecidableEq, Repr

namespace PatternStep

def ofWildcards (ws : List Wildcard) : PatternStep :=
  if ws.contains .anyDirectories then .directories
  else match ws.mapM fun
      | .char c => some c
      | _ => none with
    | some name => .literal name
    | none => .wild ws

def allows : PatternStep → Text → Bool
  | literal name, t => t == name
  | wild ws, t => Wildcard.matchName ws t
  | directories, _ => true

end PatternStep

structure Pattern where
  absolute : Bool
  steps : List PatternStep
  /-- A slash at the end leaves only directories. -/
  onlyDirectories : Bool
  deriving DecidableEq, Repr

namespace Pattern

/-- The components of a pattern between its slashes. A slash at the end does not open another
one, and an empty pattern has one that is empty. -/
def components (t : Text) : List Text :=
  let pieces := t.splitOn '/'
  if pieces.length = 1 then pieces
  else if pieces.getLast? = some [] then pieces.dropLast else pieces

/-- Reads a pattern, which has to be right as a whole and in each of its components. -/
def parse (t : Text) : Except PatternError Pattern := do
  let _ ← Wildcard.parse t
  let absolute := t.head? == some '/'
  let steps ← (components (if absolute then t.drop 1 else t)).mapM fun component =>
    return PatternStep.ofWildcards (← Wildcard.parse component)
  return ⟨absolute, steps, t.getLast? == some '/'⟩

end Pattern

end DocComment
