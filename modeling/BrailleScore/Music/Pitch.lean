import BrailleScore.Music.Vocabulary

/-! Steps and pitches. Middle C is C4, the pitch number 60. -/

namespace BrailleScore

inductive Step where
  | c | d | e | f | g | a | b
deriving DecidableEq, Repr

namespace Step

/-- Semitones above C. -/
def semitone : Step → Nat
  | c => 0
  | d => 2
  | e => 4
  | f => 5
  | g => 7
  | a => 9
  | b => 11

def letter : Step → String
  | c => "C"
  | d => "D"
  | e => "E"
  | f => "F"
  | g => "G"
  | a => "A"
  | b => "B"

def vocabulary : Vocabulary Step where
  subject := "step"
  words := [("C", c), ("c", c), ("D", d), ("d", d), ("E", e), ("e", e), ("F", f), ("f", f),
    ("G", g), ("g", g), ("A", a), ("a", a), ("B", b), ("b", b)]

end Step

/-- A step in an octave, altered by a number of semitones (positive for sharp). -/
structure Pitch where
  step : Step
  alter : Int8 := 0
  octave : Int8
deriving DecidableEq, Repr

namespace Pitch

/-- The MIDI number, which may lie outside the range of the MIDI standard. -/
def midi (p : Pitch) : Int := (p.octave.toInt + 1) * 12 + p.step.semitone + p.alter.toInt

/-- Semitones between two pitches, in whichever direction. -/
def distance (p q : Pitch) : Nat := (p.midi - q.midi).natAbs

end Pitch

end BrailleScore
