import BrailleScore.Music.Event
import BrailleScore.Music.Tuplet

/-! A score: the timelines of its parts. -/

namespace BrailleScore

/-- One instrument with its events in the order of time. -/
structure Part where
  name : String := ""
  tuplets : Tuplet.Table := {}
  events : List Event := []
deriving DecidableEq, Repr

structure Score where
  title : Option String := none
  parts : List Part := []
deriving DecidableEq, Repr

end BrailleScore
