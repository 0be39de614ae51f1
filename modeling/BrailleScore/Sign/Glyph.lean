import BrailleScore.Cell
import BrailleScore.Music.Pitch
import BrailleScore.Music.Value

/-!
The catalog of braille music glyphs. A glyph is a short row of cells, declared by dot patterns.
The cells of notes and rests are not in the catalog: they stand in two tables, by value class and
step.
-/

namespace BrailleScore

/-- Which hand a staff of keyboard music is for. -/
inductive Hand where
  | right | left | solo
deriving DecidableEq, Repr

inductive Glyph where
  | dot | wholeRest
  | doubleFlat | flat | natural | sharp | doubleSharp
  | valueDistinction | numberSign | simile | tie | slur
  | accent | martellato | breathMark | staccato | mezzoStaccato | staccatissimo | tenuto
  | grace | mordent | invertedMordent | trill | turn
  | fullMeasureInAccord | partMeasureInAccord | partMeasureInAccordDivision
  /-- The mark of an octave; octave 4 begins at middle C. -/
  | octave (number : Fin 9)
  | second | third | fourth | fifth | sixth | seventh | octaveInterval
  | part (hand : Hand)
  | hyphen | postDottedDoubleBar | dottedDoubleBar | doubleBar
  | fermata | fermataSquare | fermataTent
  | tupletIntroducer
  /-- A finger, the thumb being 0. -/
  | finger (number : Fin 5)
  | digit (d : Fin 10)
  | lowerDigit (d : Fin 10)
deriving DecidableEq, Repr

namespace Glyph

/-- The dot patterns of the cells. -/
def patterns : Glyph → List Nat
  | dot => [3]
  | wholeRest => [134]
  | doubleFlat => [126, 126]
  | flat => [126]
  | natural => [16]
  | sharp => [146]
  | doubleSharp => [146, 146]
  | valueDistinction => [126, 2]
  | numberSign => [3456]
  | simile => [2356]
  | tie => [4, 14]
  | slur => [14]
  | accent => [46, 236]
  | martellato => [56, 236]
  | breathMark => [6, 34]
  | staccato => [236]
  | mezzoStaccato => [5, 236]
  | staccatissimo => [6, 236]
  | tenuto => [456, 236]
  | grace => [5, 26]
  | mordent => [5, 235, 123]
  | invertedMordent => [6, 235, 123]
  | trill => [235]
  | turn => [6, 256]
  | fullMeasureInAccord => [126, 345]
  | partMeasureInAccord => [46, 13]
  | partMeasureInAccordDivision => [5, 2]
  | octave 0 => [4, 4]
  | octave 1 => [4]
  | octave 2 => [45]
  | octave 3 => [456]
  | octave 4 => [5]
  | octave 5 => [46]
  | octave 6 => [56]
  | octave 7 => [6]
  | octave 8 => [6, 6]
  | second => [34]
  | third => [346]
  | fourth => [3456]
  | fifth => [35]
  | sixth => [356]
  | seventh => [25]
  | octaveInterval => [36]
  | part .right => [46, 345]
  | part .solo => [5, 345]
  | part .left => [456, 345]
  | hyphen => [5]
  | postDottedDoubleBar => [126, 2356]
  | dottedDoubleBar => [126, 23]
  | doubleBar => [126, 13]
  | fermata => [126, 123]
  | fermataSquare => [56, 126, 123]
  | fermataTent => [45, 126, 123]
  | tupletIntroducer => [456]
  | finger 0 => [1]
  | finger 1 => [12]
  | finger 2 => [123]
  | finger 3 => [2]
  | finger 4 => [13]
  | digit 0 => [245]
  | digit 1 => [1]
  | digit 2 => [12]
  | digit 3 => [14]
  | digit 4 => [145]
  | digit 5 => [15]
  | digit 6 => [124]
  | digit 7 => [1245]
  | digit 8 => [125]
  | digit 9 => [24]
  | lowerDigit 0 => [356]
  | lowerDigit 1 => [2]
  | lowerDigit 2 => [23]
  | lowerDigit 3 => [25]
  | lowerDigit 4 => [256]
  | lowerDigit 5 => [26]
  | lowerDigit 6 => [235]
  | lowerDigit 7 => [2356]
  | lowerDigit 8 => [236]
  | lowerDigit 9 => [35]

def cells (g : Glyph) : List Cell := g.patterns.map Cell.ofPattern

def text (g : Glyph) : List Char := Cell.row g.patterns

/-- The first cell, which is without dots for a glyph without cells. -/
def firstCell (g : Glyph) : Cell := g.cells.headD ⟨0#8⟩

/-- A part sign would run into a cell with a dot on the left. -/
def separates : Glyph → Bool
  | part _ => true
  | _ => false

/-- The sign of an interval, from the second up to the octave. -/
def interval? : Nat → Option Glyph
  | 2 => some second
  | 3 => some third
  | 4 => some fourth
  | 5 => some fifth
  | 6 => some sixth
  | 7 => some seventh
  | 8 => some octaveInterval
  | _ => none

def digit? (n : Nat) : Option Glyph := if h : n < 10 then some (digit ⟨n, h⟩) else none

def lowerDigit? (n : Nat) : Option Glyph := if h : n < 10 then some (lowerDigit ⟨n, h⟩) else none

/-- All glyphs of the catalog, in its order. -/
def all : List Glyph :=
  [dot, wholeRest, doubleFlat, flat, natural, sharp, doubleSharp, valueDistinction, numberSign,
    simile, tie, slur, accent, martellato, breathMark, staccato, mezzoStaccato, staccatissimo,
    tenuto, grace, mordent, invertedMordent, trill, turn, fullMeasureInAccord,
    partMeasureInAccord, partMeasureInAccordDivision] ++
  (List.finRange 9).map octave ++
  [second, third, fourth, fifth, sixth, seventh, octaveInterval,
    part .right, part .solo, part .left, hyphen, postDottedDoubleBar, dottedDoubleBar, doubleBar,
    fermata, fermataSquare, fermataTent, tupletIntroducer] ++
  (List.finRange 5).map finger ++ (List.finRange 10).map digit ++
  (List.finRange 10).map lowerDigit

/-- A number in the digits of the upper cells. -/
def upperNumber (n : Nat) : List Char := (Decimal.digits n).flatMap fun d => (digit d).text

end Glyph

/-- The four shapes that note values are written with. Each stands for two values. -/
inductive ValueClass where
  | wholes | halves | quarters | eighths
deriving DecidableEq, Repr

def NoteValue.valueClass : NoteValue → ValueClass
  | whole | sixteenth => .wholes
  | half | thirtySecond => .halves
  | quarter | sixtyFourth => .quarters
  | eighth | hundredTwentyEighth => .eighths

namespace ValueClass

/-- The pattern of the cell that gives the step and the value of a note at once. -/
def notePattern : ValueClass → Step → Nat
  | wholes, .c => 13456
  | wholes, .d => 1356
  | wholes, .e => 12346
  | wholes, .f => 123456
  | wholes, .g => 12356
  | wholes, .a => 2346
  | wholes, .b => 23456
  | halves, .c => 1345
  | halves, .d => 135
  | halves, .e => 1234
  | halves, .f => 12345
  | halves, .g => 1235
  | halves, .a => 234
  | halves, .b => 2345
  | quarters, .c => 1456
  | quarters, .d => 156
  | quarters, .e => 1246
  | quarters, .f => 12456
  | quarters, .g => 1256
  | quarters, .a => 246
  | quarters, .b => 2456
  | eighths, .c => 145
  | eighths, .d => 15
  | eighths, .e => 124
  | eighths, .f => 1245
  | eighths, .g => 125
  | eighths, .a => 24
  | eighths, .b => 245

def restPattern : ValueClass → Nat
  | wholes => 134
  | halves => 136
  | quarters => 1236
  | eighths => 1346

def all : List ValueClass := [wholes, halves, quarters, eighths]

end ValueClass

def Step.all : List Step := [.c, .d, .e, .f, .g, .a, .b]

/-- Every dot pattern of the catalog and of the note and rest cells, once each, in ascending
order. -/
def Cell.alphabet : List Nat :=
  let notes := ValueClass.all.flatMap fun v => Step.all.map v.notePattern
  let rests := ValueClass.all.map ValueClass.restPattern
  ((Glyph.all.flatMap Glyph.patterns ++ notes ++ rests).mergeSort (· ≤ ·)).eraseDups

end BrailleScore
