import BrailleScore.Music.Vocabulary

/-! What is attached to a note: accidentals, ornaments, articulations. -/

namespace BrailleScore

inductive Accidental where
  | sharp | doubleSharp | flat | doubleFlat | natural
deriving DecidableEq, Repr

namespace Accidental

def vocabulary : Vocabulary Accidental where
  subject := "accidental"
  words := [("sharp", sharp), ("double-sharp", doubleSharp), ("flat", flat),
    ("flat-flat", doubleFlat), ("double-flat", doubleFlat), ("natural", natural)]

def name : Accidental → String
  | sharp => "sharp"
  | doubleSharp => "double sharp"
  | flat => "flat"
  | doubleFlat => "double flat"
  | natural => "natural"

end Accidental

inductive Ornament where
  | mordent | invertedMordent | trill | turn
deriving DecidableEq, Repr

namespace Ornament

def vocabulary : Vocabulary Ornament where
  subject := "ornament"
  words := [("mordent", mordent), ("inverted-mordent", invertedMordent), ("trill", trill),
    ("trill-mark", trill), ("turn", turn)]

end Ornament

inductive Articulation where
  | accent | strongAccent | breathMark | staccato | mezzoStaccato | staccatissimo | tenuto
deriving DecidableEq, Repr

namespace Articulation

def vocabulary : Vocabulary Articulation where
  subject := "articulation"
  words := [("accent", accent), ("strong-accent", strongAccent), ("breath-mark", breathMark),
    ("staccato", staccato), ("mezzo-staccato", mezzoStaccato), ("detached-legato", mezzoStaccato),
    ("staccatissimo", staccatissimo), ("tenuto", tenuto)]

end Articulation

end BrailleScore
