import BrailleScore.Sign.Basic

/-! How viewers present a sign: a category with its colour, and a description in words. -/

namespace BrailleScore.Sign

inductive Category where
  | ornament | articulation | accidental | octave | note | rest | dot | connective | tuplet
  | number | fingering | part
deriving DecidableEq, Repr

/-- The colour as red, green and blue. -/
def Category.color : Category → Nat × Nat × Nat
  | ornament => (0, 255, 0)
  | articulation => (0, 250, 154)
  | accidental => (255, 140, 0)
  | octave => (0, 0, 255)
  | note | rest | dot => (0, 0, 0)
  | connective => (139, 69, 19)
  | tuplet | number => (128, 0, 128)
  | fingering => (255, 0, 255)
  | part => (255, 0, 0)

def category : Sign → Category
  | grace | ornament _ => .ornament
  | articulation _ => .articulation
  | accidental _ => .accidental
  | octave _ => .octave
  | note .. => .note
  | rest _ => .rest
  | dot => .dot
  | tie | slur => .connective
  | tuplet .. => .tuplet
  | digit _ | lowerDigit _ => .number
  | fingering _ => .fingering
  | hand _ => .part

def decimal (n : Nat) : String := String.ofList (Decimal.text n)

def description : Sign → String
  | grace => "Indicates that this is a grace note"
  | ornament .mordent => "A mordent sign"
  | ornament .invertedMordent => "An inverted mordent sign"
  | ornament .trill => "A trill sign"
  | ornament .turn => "A turn sign"
  | articulation .accent => "An accent sign"
  | articulation .strongAccent => "A martellato (strong accent) sign"
  | articulation .breathMark => "A breath mark"
  | articulation .staccato => "A staccato sign"
  | articulation .mezzoStaccato => "A mezzo staccato sign"
  | articulation .staccatissimo => "A staccatissimo sign"
  | articulation .tenuto => "A tenuto sign"
  | accidental a => "A " ++ a.name ++ " sign"
  | octave number => "Octave sign for octave " ++ decimal number.val
  | note step value => "The note " ++ step.letter ++ " with value " ++ value.name
  | rest value => "A " ++ value.name ++ " rest"
  | dot => "An augmentation dot"
  | tie => "A tie to the next note"
  | slur => "A slur to the next note"
  | tuplet number _ => "Indicates a tuplet of " ++ decimal number.toNat
  | digit d => "Upper digit " ++ decimal d.val
  | lowerDigit d => "Lower digit " ++ decimal d.val
  | fingering fingers =>
    "Fingering [" ++ ", ".intercalate (fingers.map fun f => decimal (f.val + 1)) ++ "]"
  | hand .right => "Right hand part"
  | hand .left => "Left hand part"
  | hand .solo => "Solo part"

end BrailleScore.Sign
