/-!
# Text

Text is a list of characters.  This file holds what reading and writing comments needs of it:
the white space table, splitting at separators, and substitution from left to right.  Every
function is structural, so closed instances evaluate in the kernel.
-/

namespace DocComment

abbrev Text := List Char

instance : Coe String Text := ⟨String.toList⟩

/-- The pieces of a list between the elements that satisfy `p`. There is always one more piece
than there are separators. -/
def split {α : Type} (p : α → Bool) (s : List α) : List (List α) :=
  s.foldr (fun a pieces => if p a then [] :: pieces else pieces.modifyHead (a :: ·)) [[]]

namespace Text

/-- The code points with the Unicode property White_Space. -/
def blanks : List Nat :=
  [0x09, 0x0A, 0x0B, 0x0C, 0x0D, 0x20, 0x85, 0xA0, 0x1680,
    0x2000, 0x2001, 0x2002, 0x2003, 0x2004, 0x2005, 0x2006, 0x2007, 0x2008, 0x2009, 0x200A,
    0x2028, 0x2029, 0x202F, 0x205F, 0x3000]

def isBlank (c : Char) : Bool := blanks.contains c.toNat

def splitOn (sep : Char) (t : Text) : List Text := split (· == sep) t

def mapLines (f : Text → Text) (t : Text) : Text :=
  ['\n'].intercalate ((t.splitOn '\n').map f)

def trim (t : Text) : Text := ((t.dropWhile isBlank).reverse.dropWhile isBlank).reverse

/-- Each run of white space made one space. The first argument says whether the character before
the text belongs to such a run, which is then already written. -/
def squeeze : Bool → Text → Text
  | _, [] => []
  | inRun, c :: t =>
    if isBlank c then if inRun then squeeze true t else ' ' :: squeeze true t
    else c :: squeeze false t

def collapse (t : Text) : Text := squeeze false t.trim

/-- Substitutes in a text from left to right. At each position `rule` may give a substitute and the
number of characters that it stands for; what has been substituted is not looked at again. The
first argument counts the characters of the current match still to be passed over. -/
def substitute (rule : Text → Option (Text × Nat)) : Nat → Text → Text
  | _, [] => []
  | n + 1, _ :: t => substitute rule n t
  | 0, c :: t =>
    match rule (c :: t) with
    | some (new, n) => new ++ substitute rule (n - 1) t
    | none => c :: substitute rule 0 t

/-- Every occurrence of a non-empty text replaced, the leftmost first. -/
def replace (t old new : Text) : Text :=
  substitute (fun s => if old.isPrefixOf s then some (new, old.length) else none) 0 t

def replaceChar (t : Text) (old : Char) (new : Text) : Text :=
  t.flatMap fun c => if c = old then new else [c]

def ofNat (n : Nat) : Text := Nat.toDigits 10 n

end Text

end DocComment
