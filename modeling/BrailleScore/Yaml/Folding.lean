import BrailleScore.Yaml.Cursor

/-!
Plain and quoted scalars over several lines. The gap between two lines is folded: a single line
break reads as a space, of several the first is dropped.
-/

namespace BrailleScore.Yaml

/-- Blanks and line breaks between two words of a scalar. -/
structure Gap where
  /-- The blanks before the first line break. -/
  blanks : List Char := []
  breaks : List Char := []
  /-- A tab stands where the indentation of a line was due. -/
  tabbed : Bool := false
deriving Repr

namespace Gap

/-- Reads a gap. Lines are due to be indented to column `indent`. -/
def read (indent : Nat) : Nat → Gap → Cursor → Gap × Cursor
  | 0, gap, c => (gap, c)
  | fuel + 1, gap, c => match c.peek with
    | none => (gap, c)
    | some x =>
      if isGap x then
        if gap.breaks.isEmpty then
          read indent fuel { gap with blanks := gap.blanks ++ [x] } c.next
        else
          let tabbed := gap.tabbed || (c.column < indent && x == '\t')
          read indent fuel { gap with tabbed } c.next
      else if isBreak x then read indent fuel { gap with breaks := gap.breaks ++ [x] } c.next
      else (gap, c)

/-- What the gap reads as. -/
def text (gap : Gap) : List Char :=
  match gap.breaks with
  | [] => gap.blanks
  | ['\n'] => [' ']
  | '\n' :: more => more
  | breaks => breaks

end Gap

/-- The characters that end a plain scalar in a flow collection. -/
def flowIndicators : List Char := ",[]\x7b\x7d".toList

/-- Reads a plain scalar whose lines are due at column `indent`, in a text of at most `size`
characters. The second component tells whether the scalar was followed by a line break. -/
def plainFrom (inFlow : Bool) (indent size : Nat) :
    Nat → List Char → Option Gap → Cursor → Option (List Char × Bool × Cursor)
  | 0, _, _, _ => none
  | fuel + 1, read, pending, c =>
    let broke := pending.any fun gap => !gap.breaks.isEmpty
    let atWord := read.isEmpty || pending.isSome
    if atWord && (c.atDocumentMark || c.peek == some '#') then some (read.reverse, broke, c)
    else match c.peek with
      | none => some (read.reverse, broke, c)
      | some x =>
        if isGap x || isBreak x then
          let (gap, after) := Gap.read indent (size + 1) {} c
          if gap.tabbed then none
          else if !inFlow && after.column < indent then
            some (read.reverse, !gap.breaks.isEmpty, after)
          else plainFrom inFlow indent size fuel read (some gap) after
        else if inFlow && x == ':' && c.peekSecond.any ('?' :: flowIndicators).contains then none
        else if (x == ':' && endsWord c.peekSecond) ||
            (inFlow && flowIndicators.contains x) then
          some (read.reverse, broke, c)
        else
          let gap := (pending.map Gap.text).getD []
          plainFrom inFlow indent size fuel (x :: (gap.reverse ++ read)) none c.next

/-- The plain scalar at the cursor, in a text of at most `size` characters. -/
def plain (inFlow : Bool) (indent size : Nat) (c : Cursor) : Option (List Char × Bool × Cursor) :=
  plainFrom inFlow indent size (2 * size + 2) [] none c

/-- The characters that stand for others behind a backslash. -/
def escapes : List (Char × Char) :=
  [('0', '\x00'), ('a', '\x07'), ('b', '\x08'), ('t', '\t'), ('\t', '\t'), ('n', '\n'),
    ('v', '\x0b'), ('f', '\x0c'), ('r', '\r'), ('e', '\x1b'), (' ', ' '), ('"', '"'), ('/', '/'),
    ('\\', '\\'), ('N', '\u0085'), ('_', '\u00a0'), ('L', '\u2028'), ('P', '\u2029')]

/-- How many hexadecimal digits follow the letter of a numeric escape. -/
def escapeLength? : Char → Option Nat
  | 'x' => some 2
  | 'u' => some 4
  | 'U' => some 8
  | _ => none

def hexDigit? (c : Char) : Option Nat :=
  if '0' ≤ c ∧ c ≤ '9' then some (c.toNat - '0'.toNat)
  else if 'a' ≤ c ∧ c ≤ 'f' then some (c.toNat - 'a'.toNat + 10)
  else if 'A' ≤ c ∧ c ≤ 'F' then some (c.toNat - 'A'.toNat + 10)
  else none

/-- The number that hexadecimal digits write. -/
def hexValue? (digits : List Char) : Option Nat :=
  digits.foldlM (fun n c => (hexDigit? c).map fun d => 16 * n + d) 0

/-- The escape whose letter is next. -/
def escape (c : Cursor) : Option (Char × Cursor) := do
  let letter ← c.peek
  match escapeLength? letter with
  | none => (escapes.lookup letter).map fun x => (x, c.next)
  | some length =>
    let digits := c.next.rest.take length
    if digits.length < length then none
    else
      let n ← hexValue? digits
      if n.isValidChar then some (Char.ofNat n, c.skip (length + 1)) else none

/-- Reads a quoted scalar behind its opening quote, in a text of at most `size` characters. -/
def quotedFrom (quote : Char) (size : Nat) : Nat → List Char → Cursor → Option (List Char × Cursor)
  | 0, _, _ => none
  | fuel + 1, read, c =>
    if c.atDocumentMark then none
    else match c.peek with
      | none => none
      | some x =>
        if x == quote then
          if quote == '\'' && c.peekSecond == some '\'' then
            quotedFrom quote size fuel ('\'' :: read) (c.skip 2)
          else some (read.reverse, c.next)
        else if quote == '"' && x == '\\' then
          if c.peekSecond.any isBreak then
            let (gap, after) := Gap.read 0 (size + 1) {} c.next
            quotedFrom quote size fuel (gap.breaks.tail.reverse ++ read) after
          else do
            let (y, after) ← escape c.next
            quotedFrom quote size fuel (y :: read) after
        else if isGap x || isBreak x then
          let (gap, after) := Gap.read 0 (size + 1) {} c
          quotedFrom quote size fuel (gap.text.reverse ++ read) after
        else quotedFrom quote size fuel (x :: read) c.next

/-- The quoted scalar at the cursor, in a text of at most `size` characters. -/
def quoted (quote : Char) (size : Nat) (c : Cursor) : Option (List Char × Cursor) :=
  quotedFrom quote size (size + 1) [] c.next

end BrailleScore.Yaml
