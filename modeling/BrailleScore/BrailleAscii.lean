import BrailleScore.Cell
import BrailleScore.Fault

/-!
Braille ASCII, the 64 characters that embossers write the six-dot cells with. Line breaks stay as
they are, so that a page is converted line by line.
-/

namespace BrailleScore.BrailleAscii

/-- Each six-dot cell, by its pattern, with its character. -/
def table : List (Nat × Char) :=
  [(0, ' '), (1, 'A'), (2, '1'), (3, '\''), (4, '@'), (5, '"'), (6, ','), (12, 'B'), (13, 'K'),
    (14, 'C'), (15, 'E'), (16, '*'), (23, '2'), (24, 'I'), (25, '3'), (26, '5'), (34, '/'),
    (35, '9'), (36, '-'), (45, '^'), (46, '.'), (56, ';'), (123, 'L'), (124, 'F'), (125, 'H'),
    (126, '<'), (134, 'M'), (135, 'O'), (136, 'U'), (145, 'D'), (146, '%'), (156, ':'),
    (234, 'S'), (235, '6'), (236, '8'), (245, 'J'), (246, '['), (256, '4'), (345, '>'),
    (346, '+'), (356, '0'), (456, '_'), (1234, 'P'), (1235, 'R'), (1236, 'V'), (1245, 'G'),
    (1246, '$'), (1256, '\\'), (1345, 'N'), (1346, 'X'), (1356, 'Z'), (1456, '?'), (2345, 'T'),
    (2346, '!'), (2356, '7'), (2456, 'W'), (3456, '#'), (12345, 'Q'), (12346, '&'), (12356, '('),
    (12456, ']'), (13456, 'Y'), (23456, ')'), (123456, '=')]

def isAscii (c : Char) : Bool := c.toNat < 128

/-- The character of a cell. -/
def ofCell? (cell : Char) : Option Char :=
  (table.find? fun row => (Cell.ofPattern row.1).char = cell).map Prod.snd

/-- The cell of a character; a small letter has the cell of the capital. -/
def toCell? (c : Char) : Option Char :=
  (table.find? fun row => row.2 = c.toUpper).map fun row => (Cell.ofPattern row.1).char

/-- One character at a place of the text. ASCII characters, such as page numbers and line breaks,
pass through. -/
def encodeChar (line column : Nat) (c : Char) : Except Fault Char :=
  if isAscii c then .ok c
  else match ofCell? c with
    | some a => .ok a
    | none =>
      if (Cell.ofChar? c).isSome then Fault.raise (.eightDotCell c)
      else Fault.raise (.notAscii line column c)

/-- Encodes a text that begins at the given line and column. -/
def encodeFrom (line column : Nat) : List Char → Except Fault (List Char)
  | [] => .ok []
  | c :: rest => do
    let a ← encodeChar line column c
    let as ← if c = '\n' then encodeFrom (line + 1) 1 rest else encodeFrom line (column + 1) rest
    pure (a :: as)

/-- The Braille ASCII of a text. Of the characters without a form in it, the first is at fault. -/
def encode (text : List Char) : Except Fault (List Char) := encodeFrom 1 1 text

def decodeChar (c : Char) : Except Fault Char :=
  if c = '\n' ∨ c = '\r' then .ok c
  else match toCell? c with
    | some cell => .ok cell
    | none => Fault.raise (.notBrailleAscii c)

/-- The cells that Braille ASCII stands for. -/
def decode (text : List Char) : Except Fault (List Char) := text.mapM decodeChar

end BrailleScore.BrailleAscii
