import BrailleScore.Music.Pitch
import BrailleScore.Music.Value
import BrailleScore.Music.Marking
import BrailleScore.Music.Offset

/-!
The events of a timeline: notes and rests, bar lines, changes of clef and key. An event without a
staff of its own concerns every staff at once.
-/

namespace BrailleScore

/-- One slur that a note lies under. -/
structure Slur where
  id : Nat
  /-- The slur ends on this note. -/
  last : Bool := false
deriving DecidableEq, Repr

structure Note where
  pitch : Option Pitch := none
  /-- Where a note of an unpitched instrument is written. -/
  display : Option Pitch := none
  duration : Duration
  accidental : Option Accidental := none
  ornaments : List Ornament := []
  articulations : List Articulation := []
  tieStart : Bool := false
  slurs : List Slur := []
  fingering : List Nat := []
  grace : Bool := false
  /-- The innermost tuplet around the note. -/
  tuplet : Option Nat := none
  /-- How many tuplets begin on the note, counted from the innermost. -/
  tupletStarts : Nat := 0
  staff : String := "1"
  voice : String := "1"
deriving DecidableEq, Repr

namespace Note

/-- The pitch that is written: the pitch itself, else the display pitch. -/
def sounding (n : Note) : Option Pitch := n.pitch.or n.display

/-- Some slur goes on after the note. -/
def continuesSlur (n : Note) : Bool := n.slurs.any fun s => !s.last

end Note

structure Rest where
  duration : Duration
  staff : String := "1"
  voice : String := "1"
deriving DecidableEq, Repr

/-- What stands in a voice. -/
inductive Entry where
  | note (n : Note)
  | rest (r : Rest)
deriving DecidableEq, Repr

namespace Entry

def staff : Entry → String
  | note n => n.staff
  | rest r => r.staff

def voice : Entry → String
  | note n => n.voice
  | rest r => r.voice

def withVoice (name : String) : Entry → Entry
  | note n => note { n with voice := name }
  | rest r => rest { r with voice := name }

def pitch : Entry → Option Pitch
  | note n => n.pitch
  | rest _ => none

def sounding : Entry → Option Pitch
  | note n => n.sounding
  | rest _ => none

/-- Nothing sounds: a rest, or a note without any pitch. -/
def isSilent (e : Entry) : Bool := e.sounding.isNone

end Entry

inductive ClefSign where
  | g | f | c
deriving DecidableEq, Repr

namespace ClefSign

def vocabulary : Vocabulary ClefSign where
  subject := "clef sign"
  words := [("G", g), ("F", f), ("C", c)]

end ClefSign

/-- A clef, by default the treble clef. -/
structure Clef where
  sign : ClefSign := .g
  line : Nat := 2
deriving DecidableEq, Repr

namespace Clef

def isTreble (c : Clef) : Bool := c.sign = .g && c.line = 2

def isBass (c : Clef) : Bool := c.sign = .f && c.line = 4

/-- The intervals of a chord are read upwards under the bass clef, downwards under any other. -/
def chordDirection (c : Clef) : Int := if c.isBass then 1 else -1

end Clef

/-- The number of sharps, or of flats when negative. -/
structure KeySignature where
  fifths : Int8 := 0
deriving DecidableEq, Repr

inductive Event where
  | entry (e : Entry)
  | startBar (staves : Nat)
  | endBar
  | clef (offset : Offset) (clef : Clef) (staff : String)
  | key (offset : Offset) (key : KeySignature) (staff : Option String)
deriving DecidableEq, Repr

namespace Event

/-- The staff that the event belongs to, none when it belongs to all. -/
def staff? : Event → Option String
  | entry e => some e.staff
  | startBar _ => none
  | endBar => none
  | clef _ _ staff => some staff
  | key _ _ staff => staff

/-- The event concerns every staff. -/
def isVertical (e : Event) : Bool := e.staff?.isNone

def entry? : Event → Option Entry
  | entry e => some e
  | _ => none

def isEndBar : Event → Bool
  | endBar => true
  | _ => false

/-- The events are equal when their offsets are compared as ratios, which may be written in other
terms. -/
def same : Event → Event → Bool
  | clef a c staff, clef b c' staff' => a.same b && c = c' && staff = staff'
  | key a k staff, key b k' staff' => a.same b && k = k' && staff = staff'
  | e, e' => e = e'

/-- The number of staves that a start bar declares. -/
def declared? : Event → Option Nat
  | startBar staves => some staves
  | _ => none

end Event

end BrailleScore
