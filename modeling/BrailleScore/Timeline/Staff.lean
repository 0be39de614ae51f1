import BrailleScore.Timeline.Measure

/-! The events of one staff, its measures, and the clef and key in effect. -/

namespace BrailleScore

structure Staff where
  name : String
  events : List Event
deriving DecidableEq, Repr

namespace Staff

/-- The staff goes on with an event. -/
def push (e : Event) (s : Staff) : Staff := { s with events := s.events ++ [e] }

/-- The stretches before the end bars. What follows the last end bar belongs to none. -/
def cutAtEndBars : List Event → List Measure
  | [] => []
  | .endBar :: rest => ⟨[]⟩ :: cutAtEndBars rest
  | e :: rest => match cutAtEndBars rest with
    | [] => []
    | m :: ms => ⟨e :: m.events⟩ :: ms

def measures (s : Staff) : List Measure := cutAtEndBars s.events

def clefChanges (s : Staff) : List (Offset × Clef) :=
  s.events.filterMap fun
    | .clef offset clef _ => some (offset, clef)
    | _ => none

def keyChanges (s : Staff) : List (Offset × KeySignature) :=
  s.events.filterMap fun
    | .key offset key _ => some (offset, key)
    | _ => none

/-- Of the changes that do not come after `offset`, the one that stands last. -/
def lastChange {α : Type} (changes : List (Offset × α)) (offset : Offset) : Option α :=
  (changes.filter fun change => change.1.atMost offset).getLast?.map Prod.snd

/-- The treble clef is in effect before any change. -/
def clefAt (s : Staff) (offset : Offset) : Clef := (lastChange s.clefChanges offset).getD {}

/-- A key without accidentals is in effect before any change. -/
def keyAt (s : Staff) (offset : Offset) : KeySignature := (lastChange s.keyChanges offset).getD {}

def chordDirection (s : Staff) (offset : Offset) : Int := (s.clefAt offset).chordDirection

end Staff

end BrailleScore
