import BrailleScore.Sign.Basic

/-!
Streams of signs. A part sign would run into a cell with a dot on the left, so a cell with dot 3
is put between the two. The rule looks at neighbours in the whole stream and does not care how
the stream was put together.
-/

namespace BrailleScore

/-- A piece of a stream, and whether it must be kept apart from dots on the left. -/
structure Fragment where
  text : List Char
  separates : Bool := false
deriving DecidableEq, Repr

namespace Fragment

def ofSign (s : Sign) : Fragment := ⟨s.text, s.separates⟩

/-- The text begins with a cell that has a dot on the left. -/
def startsLeft (f : Fragment) : Bool :=
  match f.text with
  | [] => false
  | c :: _ => match Cell.ofChar? c with
    | some cell => cell.touchesLeft
    | none => false

/-- The cell between a fragment and the one after it, where one is needed. -/
def separator (f next : Fragment) : List Char :=
  if f.separates && next.startsLeft then Glyph.dot.text else []

/-- Joins fragments none of which is empty. -/
def joinSolid : List Fragment → List Char
  | [] => []
  | [f] => f.text
  | f :: next :: rest => f.text ++ separator f next ++ joinSolid (next :: rest)

/-- The text of a stream. Empty fragments do not count as neighbours. -/
def join (fs : List Fragment) : List Char := joinSolid (fs.filter fun f => !f.text.isEmpty)

end Fragment

namespace Sign

/-- The text of a row of signs. -/
def render (signs : List Sign) : List Char := Fragment.join (signs.map Fragment.ofSign)

end Sign

end BrailleScore
