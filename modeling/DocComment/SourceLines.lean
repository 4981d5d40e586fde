import DocComment.Problem

/-!
# Lines of a source

A source is text or bytes, cut at line feeds.  A carriage return before a line feed belongs to the
line end, and a last line need not be ended.  Bytes are decoded line by line, so that one bad line
leaves the others readable.
-/

namespace DocComment

abbrev Bytes := List UInt8

/-- A line as it was read, or why it could not be. -/
abbrev SourceLine := Except Fault Text

namespace Bytes

/-- The UTF-8 form of a text. -/
def ofText (t : Text) : Bytes := t.flatMap String.utf8EncodeChar

/-- The text whose UTF-8 form the bytes are. -/
def decode? (b : Bytes) : Option Text := b.toByteArray.utf8Decode?.map Array.toList

end Bytes

namespace SourceLine

/-- The lines among the pieces between line feeds. The last piece is a line only if it holds
something; the others were ended, and lose one carriage return `cr`. -/
def ended {α : Type} [DecidableEq α] (cr : α) : List (List α) → List (List α)
  | [] => []
  | [last] => if last = [] then [] else [last]
  | piece :: next :: rest => (([cr].isSuffixOf? piece).getD piece) :: ended cr (next :: rest)

def textLines (t : Text) : List Text := ended '\r' (t.splitOn '\n')

def byteLines (b : Bytes) : List Bytes := ended 13 (split (· == 10) b)

def decode (b : Bytes) : SourceLine :=
  match b.decode? with
  | some t => .ok t
  | none => .error .invalidUtf8

def ofText (t : Text) : List SourceLine := (textLines t).map .ok

def ofBytes (b : Bytes) : List SourceLine := (byteLines b).map decode

end SourceLine

end DocComment
