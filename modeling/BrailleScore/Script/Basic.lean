import BrailleScore.Options
import BrailleScore.Music.Score
import BrailleScore.Sign.Entry
import BrailleScore.Tally
import BrailleScore.Timeline.Segment

/-!
Scripts: what is to be written of a score, as signs, in the order of parts, segments, staves,
measures and voices. All that can go wrong in a transcription goes wrong here; the layout of a
script on pages cannot fail.
-/

namespace BrailleScore

namespace Script

/-- One element of a voice: the sign at the start of a tuplet, or a note or rest. -/
inductive Item where
  | tuplet (sign : Sign)
  | note (signs : List Sign)
deriving DecidableEq, Repr

namespace Item

def text : Item → List Char
  | tuplet sign => sign.text
  | note signs => Sign.render signs

def note? : Item → Option (List Sign)
  | tuplet _ => none
  | note signs => some signs

end Item

abbrev Voice := List Item

/-- The voices of one measure. -/
abbrev Measure := List Voice

/-- The measures of one staff of a segment. -/
abbrev Staff := List Measure

/-- The staves of one segment. -/
abbrev Segment := List Staff

structure Part where
  name : String
  segments : List Segment
deriving DecidableEq, Repr

end Script

/-- The parts of a score as they are to be written. -/
abbrev Script := List Script.Part

namespace Options.Content

/-- The value of a computation, or nothing where it meets notation that is to be left out. -/
def attempt {α : Type} (c : Content) : Except Fault α → Except Fault (Option α)
  | .ok a => .ok (some a)
  | .error f =>
    if f.kind = .unsupported ∧ c.unsupported = .lenient then .ok none else .error f

end Options.Content

namespace Note

/-- The tuplets that begin on a note, the innermost first. -/
def startingTuplets (table : Tuplet.Table) (n : Note) : Except Fault (List Tuplet) :=
  if n.tupletStarts = 0 then .ok []
  else match n.tuplet with
    | none => Fault.raise (.startsOutsideTuplet n.tupletStarts)
    | some id =>
      let chain := table.chain id
      if chain.length < n.tupletStarts then
        Fault.raise (.startsTooDeep n.tupletStarts chain.length)
      else .ok (chain.take n.tupletStarts)

/-- The signs of the tuplets that begin on a note, the outermost first. -/
def tupletSigns (content : Options.Content) (table : Tuplet.Table) (n : Note) :
    Except Fault (List Sign) := do
  let starting ← n.startingTuplets table
  let signs ← starting.reverse.mapM fun t => content.attempt (Sign.tupletOf t)
  pure (signs.filterMap id)

/-- The signs of a note. Where a finger has no sign and may be left out, no fingering is shown. -/
def scriptSigns (content : Options.Content) (n : Note) (last : Option Pitch) :
    Except Fault (List Sign) := do
  let shown ←
    if content.showFingering then
      (content.attempt (Sign.fingeringOf n.fingering)).map Option.isSome
    else pure false
  n.signs last shown

end Note

namespace Entry

/-- The items of one entry. `last` is the last pitch that sounded in the voice. -/
def script (content : Options.Content) (table : Tuplet.Table) (last : Option Pitch) :
    Entry → Except Fault (List Script.Item)
  | rest r => .ok [.note r.signs]
  | note n => do
    let tuplets ← n.tupletSigns content table
    let signs ← n.scriptSigns content last
    pure (tuplets.map .tuplet ++ [.note signs])

/-- The items of consecutive entries of one voice. -/
def scriptAll (content : Options.Content) (table : Tuplet.Table) :
    Option Pitch → List Entry → Except Fault Script.Voice
  | _, [] => .ok []
  | last, e :: later => do
    let items ← e.script content table last
    let more ← scriptAll content table (e.sounding.or last) later
    pure (items ++ more)

end Entry

/-- The pitches that sounded on a staff so far, with their voices, the latest first. -/
abbrev Memory := List (String × Pitch)

namespace Memory

/-- The last pitch of a voice. -/
def last (m : Memory) (voice : String) : Option Pitch := m.lookup voice

def remember (m : Memory) (e : Entry) : Memory :=
  match e.sounding with
  | some p => (e.voice, p) :: m
  | none => m

/-- Each measure with what is remembered when it begins. -/
def before (m : Memory) : List Measure → List (Memory × Measure)
  | [] => []
  | measure :: rest => (m, measure) :: before (measure.entries.foldl remember m) rest

end Memory

def Measure.script (content : Options.Content) (table : Tuplet.Table) (memory : Memory)
    (m : Measure) : Except Fault Script.Measure :=
  m.voices.mapM fun v => Entry.scriptAll content table (memory.last v.name) v.entries

/-- The measures of a staff. Nothing is remembered when the staff begins. -/
def Staff.script (content : Options.Content) (table : Tuplet.Table) (s : Staff) :
    Except Fault Script.Staff :=
  Fault.each (fun i => { measure := some i }) (fun m => m.2.script content table m.1)
    (Memory.before [] s.measures)

def Segment.script (content : Options.Content) (table : Tuplet.Table) (s : Segment) :
    Except Fault Script.Segment := do
  let staves ← s.staves
  staves.mapM (Staff.script content table)

def Part.script (content : Options.Content) (p : Part) : Except Fault Script.Part := do
  let segments ← Segment.cut p.events
  let scripts ← Fault.each (fun i => { segment := some i }) (Segment.script content p.tuplets)
    segments
  pure ⟨p.name, scripts⟩

/-- The script of a score, or the first fault that is met. -/
def Score.script (content : Options.Content) (s : Score) : Except Fault Script :=
  Fault.each (fun i => { part := some i }) (Part.script content) s.parts

namespace Script

/-- The notes and rests of a part, in the order in which they are written. -/
def Part.notes (p : Part) : List (List Sign) :=
  p.segments.flatten.flatten.flatten.flatten.filterMap Item.note?

/-- How often each note or rest is written. -/
def tally (s : Script) : Tally (List Sign) := Tally.ofList (s.flatMap Part.notes)

end Script

end BrailleScore
