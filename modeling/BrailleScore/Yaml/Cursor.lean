/-! Places in a YAML text, and what its characters are to the reader. -/

namespace BrailleScore.Yaml

/-- The line breaks that are left once a text is `clean`ed. -/
def isBreak (c : Char) : Bool := c == '\n' || c == '\u2028' || c == '\u2029'

/-- A space or a tab. -/
def isGap (c : Char) : Bool := c == ' ' || c == '\t'

/-- A word ends before such a character and at the end of the text. -/
def endsWord : Option Char → Bool
  | none => true
  | some c => isGap c || isBreak c

/-- The characters that a text may hold. -/
def isPrintable (c : Char) : Bool :=
  c == '\t' || c == '\n' || c == '\r' || (' ' ≤ c && c ≤ '~') || c == '\u0085' ||
    ('\u00a0' ≤ c && c ≤ '\ufffd') || '\ufffd'.toNat + 2 < c.toNat

/-- Every line break as a single character; line and paragraph separators are kept apart. -/
def unifyBreaks : List Char → List Char
  | [] => []
  | '\r' :: '\n' :: rest => '\n' :: unifyBreaks rest
  | c :: rest => (if c == '\r' || c == '\u0085' then '\n' else c) :: unifyBreaks rest

/-- The text with uniform line breaks, if all of it is printable. -/
def clean (text : List Char) : Option (List Char) :=
  if text.all isPrintable then some (unifyBreaks text) else none

/-- The byte order mark, which may stand in front of a line without belonging to what it says. It
takes up a column all the same. -/
def byteOrderMark : Char := '\ufeff'

/-- The unread text and the place where it begins. -/
structure Cursor where
  rest : List Char
  /-- The bytes in front of it, where a character takes as many as it does in UTF-8. -/
  bytes : Nat := 0
  line : Nat := 0
  column : Nat := 0
deriving Repr

namespace Cursor

def peek (c : Cursor) : Option Char := c.rest.head?

/-- The character after the next one. -/
def peekSecond (c : Cursor) : Option Char := c.rest.tail.head?

/-- Steps over the next character. -/
def next (c : Cursor) : Cursor :=
  match c.rest with
  | [] => c
  | x :: rest =>
    if isBreak x then ⟨rest, c.bytes + x.utf8Size, c.line + 1, 0⟩
    else ⟨rest, c.bytes + x.utf8Size, c.line, c.column + 1⟩

def skip : Nat → Cursor → Cursor
  | 0, c => c
  | n + 1, c => skip n c.next

/-- Three of the given character stand at the start of a line, followed by the end of a word. -/
def atMark (mark : Char) (c : Cursor) : Bool :=
  c.column == 0 && match c.rest with
    | x :: y :: z :: rest => x == mark && y == mark && z == mark && endsWord rest.head?
    | _ => false

/-- The start or the end of a document is marked here. -/
def atDocumentMark (c : Cursor) : Bool := c.atMark '-' || c.atMark '.'

end Cursor

end BrailleScore.Yaml
