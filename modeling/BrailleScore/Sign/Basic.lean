import BrailleScore.Music.Event
import BrailleScore.Music.Tuplet
import BrailleScore.Sign.Glyph

/-!
Braille music signs. A sign is one musical symbol, such as an octave mark, the cell of a quarter
C or a tuplet sign; its text follows from what it stands for. The signs that only part of a
domain has (octaves, digits, fingers, tuplet numbers) are made by functions that fail outside it.
-/

namespace BrailleScore

namespace Tuplet

/-- The numbers of notes for which there is a tuplet sign. -/
inductive Number where
  | two | three | five | six | seven
deriving DecidableEq, Repr

namespace Number

def ofNat? : Nat → Option Number
  | 2 => some two
  | 3 => some three
  | 5 => some five
  | 6 => some six
  | 7 => some seven
  | _ => none

def toNat : Number → Nat
  | two => 2
  | three => 3
  | five => 5
  | six => 6
  | seven => 7

/-- The pattern of the cell that gives the number. -/
def pattern : Number → Nat
  | two => 23
  | three => 25
  | five => 26
  | six => 235
  | seven => 2356

end Number

end Tuplet

inductive Sign where
  | grace
  | ornament (o : Ornament)
  | articulation (a : Articulation)
  | accidental (a : Accidental)
  | octave (number : Fin 9)
  | note (step : Step) (value : NoteValue)
  | rest (value : NoteValue)
  | dot
  | tie
  | slur
  | tuplet (number : Tuplet.Number) (nested : Bool)
  | digit (d : Fin 10)
  | lowerDigit (d : Fin 10)
  /-- The fingers of one note, the thumb being 0. -/
  | fingering (fingers : List (Fin 5))
  | hand (hand : Hand)
deriving DecidableEq, Repr

namespace Sign

def ornamentGlyph : Ornament → Glyph
  | .mordent => .mordent
  | .invertedMordent => .invertedMordent
  | .trill => .trill
  | .turn => .turn

def articulationGlyph : Articulation → Glyph
  | .accent => .accent
  | .strongAccent => .martellato
  | .breathMark => .breathMark
  | .staccato => .staccato
  | .mezzoStaccato => .mezzoStaccato
  | .staccatissimo => .staccatissimo
  | .tenuto => .tenuto

def accidentalGlyph : Accidental → Glyph
  | .sharp => .sharp
  | .doubleSharp => .doubleSharp
  | .flat => .flat
  | .doubleFlat => .doubleFlat
  | .natural => .natural

/-- The dot patterns of the cells. A triplet that lies in no other tuplet is a single cell; any
other tuplet is its number between an introducer and a closing dot. Fingers are joined by the
cell of the slur. -/
def patterns : Sign → List Nat
  | grace => Glyph.grace.patterns
  | ornament o => (ornamentGlyph o).patterns
  | articulation a => (articulationGlyph a).patterns
  | accidental a => (accidentalGlyph a).patterns
  | octave number => (Glyph.octave number).patterns
  | note step value => [value.valueClass.notePattern step]
  | rest value => [value.valueClass.restPattern]
  | dot => Glyph.dot.patterns
  | tie => Glyph.tie.patterns
  | slur => Glyph.slur.patterns
  | tuplet .three false => [23]
  | tuplet number _ =>
    Glyph.tupletIntroducer.patterns ++ [number.pattern] ++ Glyph.dot.patterns
  | digit d => (Glyph.digit d).patterns
  | lowerDigit d => (Glyph.lowerDigit d).patterns
  | fingering fingers =>
    Glyph.slur.patterns.intercalate (fingers.map fun f => (Glyph.finger f).patterns)
  | hand h => (Glyph.part h).patterns

def text (s : Sign) : List Char := Cell.row s.patterns

/-- The sign must be kept apart from a cell with a dot on the left. -/
def separates : Sign → Bool
  | hand h => (Glyph.part h).separates
  | _ => false

/-- The mark of an octave. -/
def octaveMark (octave : Int8) : Except Fault Sign :=
  let n := octave.toInt
  if h : 0 ≤ n ∧ n < 9 then .ok (.octave ⟨n.toNat, by omega⟩)
  else Fault.raise (.noOctaveMark n)

def digitOf (n : Nat) : Except Fault Sign :=
  if h : n < 10 then .ok (digit ⟨n, h⟩) else Fault.raise (.notADigit n)

def lowerDigitOf (n : Nat) : Except Fault Sign :=
  if h : n < 10 then .ok (lowerDigit ⟨n, h⟩) else Fault.raise (.notADigit n)

/-- A finger as it is counted in a score, the thumb being 1. -/
def fingerOf (n : Nat) : Except Fault (Fin 5) :=
  if h : 1 ≤ n ∧ n ≤ 5 then .ok ⟨n - 1, by omega⟩ else Fault.raise (.noFingerSign n)

/-- The sign for the fingers of one note; the first number that is no finger is at fault. -/
def fingeringOf (fingers : List Nat) : Except Fault Sign := do
  let fingers ← fingers.mapM fingerOf
  pure (fingering fingers)

/-- The sign at the start of a tuplet. -/
def tupletOf (t : Tuplet) : Except Fault Sign :=
  match Tuplet.Number.ofNat? t.arity with
  | some number => .ok (tuplet number t.parent.isSome)
  | none => Fault.raise (.noTupletSign t.arity)

end Sign

end BrailleScore
