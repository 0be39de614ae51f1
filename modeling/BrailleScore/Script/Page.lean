import BrailleScore.Options
import BrailleScore.Text.Decimal

/-!
Pages. Text is written line by line; when a page has as many lines as it is high, its number is
written to the right on a line of its own, and the next page begins. Widths count characters.
-/

namespace BrailleScore

/-- What was written so far and where the next character goes. -/
structure Page where
  size : Options.PageSize
  /-- The characters written, the latest first. -/
  written : List Char := []
  /-- The characters on the current line. -/
  column : Nat := 0
  /-- The finished lines of the current page. -/
  line : Nat := 0
  /-- The number of the current page. -/
  number : Nat := 1
deriving DecidableEq, Repr

namespace Page

/-- An empty first page. -/
def blank (size : Options.PageSize) : Page := { size }

def text (p : Page) : List Char := p.written.reverse

/-- Writes text on the current line. -/
def write (s : List Char) (p : Page) : Page :=
  { p with written := s.reverseAux p.written, column := p.column + s.length }

/-- Pads the current line with spaces up to a column, unless it is that long already. -/
def indent (column : Nat) (p : Page) : Page := p.write (List.replicate (column - p.column) ' ')

/-- Writes the number of a full page and begins the next page. -/
def turn (p : Page) : Page :=
  let number := Decimal.text p.number
  let p := (p.indent (p.size.width - number.length)).write number
  { p with written := '\n' :: p.written, column := 0, line := 0, number := p.number + 1 }

/-- Ends the current line. -/
def newline (p : Page) : Page :=
  let p := { p with written := '\n' :: p.written, column := 0, line := p.line + 1 }
  if p.line = p.size.height then p.turn else p

def writeLine (s : List Char) (p : Page) : Page := (p.write s).newline

/-- The text has room on the current line. -/
def fits (s : List Char) (p : Page) : Bool := p.column + s.length ≤ p.size.width

/-- Ends the current line if there is anything on it. -/
def freshLine (p : Page) : Page := if 0 < p.column then p.newline else p

/-- Begins again with an empty first page. -/
def reset (p : Page) : Page := blank p.size

@[simp] theorem text_write (s : List Char) (p : Page) : (p.write s).text = p.text ++ s := by
  simp [write, text]

@[simp] theorem text_indent (column : Nat) (p : Page) :
    (p.indent column).text = p.text ++ List.replicate (column - p.column) ' ' :=
  text_write _ p

theorem text_turn (p : Page) :
    p.turn.text = (p.indent (p.size.width - (Decimal.text p.number).length)).text ++
      Decimal.text p.number ++ ['\n'] := by
  simp [turn, text, write, indent]

theorem text_newline_of_ne {p : Page} (h : p.line + 1 ≠ p.size.height) :
    p.newline.text = p.text ++ ['\n'] := by
  simp [newline, text, h]

end Page

end BrailleScore
