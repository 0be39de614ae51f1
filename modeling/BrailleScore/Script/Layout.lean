import BrailleScore.Script.Basic
import BrailleScore.Script.Page
import BrailleScore.Sign.Repetition

/-!
The layout of a script. It is turned into a row of pieces, which does not depend on the size of
the page, and the pieces are placed one after the other.
-/

namespace BrailleScore

namespace Layout

/-- A piece of the text, by how it is placed. -/
inductive Piece where
  /-- The name of a part, on a line of its own. -/
  | heading (name : List Char)
  /-- The start of a staff, on a new line. -/
  | staff
  /-- A voice; it goes to the next line if it does not fit on the current one. -/
  | voice (text : List Char)
  /-- What follows a voice on its line, whether it fits or not. -/
  | glue (text : List Char)
deriving DecidableEq, Repr

/-- The column that staves begin at. -/
def staffIndent : Nat := 2

/-- Places a piece behind what was written so far. -/
def place (p : Page) : Piece → Page
  | .heading name => p.freshLine.writeLine name
  | .staff => p.freshLine.indent staffIndent
  | .voice text => if 0 < p.column && !p.fits text then p.newline.write text else p.write text
  | .glue text => p.write text

/-- The pages that pieces fill. -/
def pages (size : Options.PageSize) (pieces : List Piece) : Page :=
  pieces.foldl place (Page.blank size)

/-- The items of a voice as fragments of its text, with repeated items abbreviated on demand. -/
def fragments (style : Options.Style) (items : Script.Voice) : List Fragment :=
  if style.compressRepeats then
    (Run.group items).map fun r => { text := Repetition.write r.item.text r.length }
  else items.map fun i => { text := i.text }

/-- The text of a voice, behind a hand sign where one is due. -/
def voiceText (style : Options.Style) (hand : Option Hand) (items : Script.Voice) : List Char :=
  Fragment.join (hand.toList.map (fun h => Fragment.ofSign (.hand h)) ++ fragments style items)

/-- The sign between two voices in accord. -/
def inAccord : Piece := .glue Glyph.fullMeasureInAccord.text

/-- The voices of a measure; a space follows the measure. -/
def measurePieces (style : Options.Style) (hand : Option Hand) : Script.Measure → List Piece
  | [] => [.glue [' ']]
  | first :: others =>
    .voice (voiceText style hand first) ::
      (others.flatMap fun v => [inAccord, .voice (voiceText style none v)]) ++ [.glue [' ']]

/-- The measures of a staff. The hand sign stands at the first voice there is. -/
def measuresPieces (style : Options.Style) : Option Hand → Script.Staff → List Piece
  | _, [] => []
  | hand, m :: rest =>
    measurePieces style hand m ++ measuresPieces style (if m.isEmpty then hand else none) rest

def staffPieces (style : Options.Style) (hand : Option Hand) (s : Script.Staff) : List Piece :=
  .staff :: measuresPieces style hand s

/-- The staves of a segment. Two staves are those of the right and the left hand. -/
def segmentPieces (style : Options.Style) (staves : Script.Segment) : List Piece :=
  match staves with
  | [upper, lower] =>
    if style.handSigns then
      staffPieces style (some .right) upper ++ staffPieces style (some .left) lower
    else staffPieces style none upper ++ staffPieces style none lower
  | _ => staves.flatMap (staffPieces style none)

def partPieces (style : Options.Style) (p : Script.Part) : List Piece :=
  .heading p.name.toList :: p.segments.flatMap (segmentPieces style)

def pieces (style : Options.Style) (s : Script) : List Piece := s.flatMap (partPieces style)

end Layout

end BrailleScore
