import BrailleScore.Fault
import BrailleScore.Music.Event
import BrailleScore.Timeline.Binary64

/-! Measures of one staff and the voices that share them. -/

namespace BrailleScore

/-- Changes the first element that `p` holds of, if it holds of any. -/
def changeFirst? {α : Type} (p : α → Bool) (f : α → α) : List α → Option (List α)
  | [] => none
  | a :: rest => if p a then some (f a :: rest) else (changeFirst? p f rest).map (a :: ·)

/-- The notes and rests of one voice in one measure. -/
structure Voice where
  name : String
  entries : List Entry
deriving DecidableEq, Repr

namespace Voice

/-- The voice goes on with an entry. -/
def push (e : Entry) (v : Voice) : Voice := { v with entries := v.entries ++ [e] }

/-- The events that the voice consists of. -/
def events (v : Voice) : List Event := v.entries.map .entry

/-- The length of the longest common start of two lists, whose elements a test compares. -/
def commonStart {α : Type} (same : α → α → Bool) : List α → List α → Nat
  | a :: as, b :: bs => if same a b then commonStart same as bs + 1 else 0
  | _, _ => 0

/-- How many entries two voices share at their beginning. -/
def sharedStart (v w : Voice) : Nat := commonStart Event.same v.events w.events

/-- Voices are not compared from their ends: no entry counts as shared there. -/
def sharedEnd (_v _w : Voice) : Nat := 0

def isSilent (v : Voice) : Bool := v.entries.all Entry.isSilent

/-- The pitch numbers of the pitched notes. -/
def midis (v : Voice) : List Int := v.entries.filterMap fun e => e.pitch.map Pitch.midi

/-- The sum of the pitch numbers in 32 bits. -/
def midiSum (v : Voice) : Int32 := v.midis.foldl (fun sum midi => sum + .ofInt midi) 0

/-- The mean of the pitch numbers, rounded to a whole number. Zero without any pitched note. -/
def averagePitch (v : Voice) : Int :=
  if v.midis.isEmpty then 0
  else (Binary64.roundAway (Binary64.quotient v.midiSum v.midis.length)).toInt32.toInt

/-- The voice under another name, which all its entries take on. -/
def renamed (name : String) (v : Voice) : Voice := ⟨name, v.entries.map (Entry.withVoice name)⟩

/-- Each voice under the name of the other. -/
def swapNames (v w : Voice) : Voice × Voice := (v.renamed w.name, w.renamed v.name)

end Voice

/-- The events of one staff between two bar lines. -/
structure Measure where
  events : List Event
deriving DecidableEq, Repr

namespace Measure

def isEmpty (m : Measure) : Bool := m.events.isEmpty

def entries (m : Measure) : List Entry := m.events.filterMap Event.entry?

/-- The names of the voices, in the order of their first appearance. -/
def voiceNames (m : Measure) : List String := (m.entries.map Entry.voice).eraseDups

/-- What the voice `name` has in the measure. -/
def voice (m : Measure) (name : String) : Voice :=
  ⟨name, m.entries.filter fun e => e.voice = name⟩

/-- Gives an entry to the voice of its name; the first entry of a name begins a new voice. -/
def assign (voices : List Voice) (e : Entry) : List Voice :=
  match changeFirst? (fun v => v.name = e.voice) (Voice.push e) voices with
  | some voices => voices
  | none => voices ++ [⟨e.voice, [e]⟩]

/-- The voices that the entries are assigned to, one entry after the other. -/
def voices (m : Measure) : List Voice := m.entries.foldl assign []

/-- Several voices are written in accord. -/
def isInAccord (m : Measure) : Bool := 1 < m.voices.length

end Measure

end BrailleScore
