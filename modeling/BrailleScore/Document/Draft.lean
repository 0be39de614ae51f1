import BrailleScore.Music.Score

/-!
Drafts: scores as documents write them, with words where the score has kinds and with gaps where
it has a default. Resolving a draft looks the words up, fills the gaps and checks that tuplets are
declared before they are used.
-/

namespace BrailleScore.Draft

/-- The name of a staff or of a voice, for which a document may write a number. -/
inductive Name where
  | text (s : String)
  | number (n : Int64)
deriving DecidableEq, Repr

namespace Name

/-- The staff of everything that is written without one. -/
def defaultStaff : String := "1"

/-- The voice of everything that is written without one. -/
def defaultVoice : String := "1"

def spelling : Name → String
  | text s => s
  | number n => String.ofList (Decimal.signed n.toInt)

/-- The name that is given, or else the default. -/
def resolve (default : String) : Option Name → String
  | some name => name.spelling
  | none => default

end Name

structure Pitch where
  step : String
  alter : Int8 := 0
  octave : Int8
deriving DecidableEq, Repr

structure Note where
  step : Option String := none
  alter : Option Int8 := none
  octave : Option Int8 := none
  display : Option Pitch := none
  value : String
  dots : Nat := 0
  accidental : Option String := none
  ornaments : List String := []
  articulations : List String := []
  fingering : List Nat := []
  tieStart : Bool := false
  slurs : List Slur := []
  grace : Bool := false
  tuplet : Option Nat := none
  tupletStarts : Nat := 0
  staff : Option Name := none
  voice : Option Name := none
deriving DecidableEq, Repr

inductive Event where
  | startBar (staves : Nat)
  | endBar
  | note (n : Note)
  | rest (value : String) (dots : Nat) (staff voice : Option Name)
  | clef (offset : Option Offset) (sign : String) (line : Nat) (staff : Option Name)
  | key (offset : Option Offset) (fifths : Int8) (staff : Option Name)
deriving DecidableEq, Repr

structure Part where
  name : String := ""
  tuplets : List Tuplet := []
  events : List Event := []
deriving DecidableEq, Repr

structure Score where
  title : Option String := none
  parts : List Part := []
deriving DecidableEq, Repr

def Pitch.resolve (p : Pitch) : Except Fault BrailleScore.Pitch := do
  let step ← Step.vocabulary.read p.step
  pure ⟨step, p.alter, p.octave⟩

namespace Note

/-- A pitch has a step and an octave; a note without a pitch has not even an alteration. -/
def resolvePitch (n : Note) : Except Fault (Option BrailleScore.Pitch) :=
  match n.step, n.octave, n.alter with
  | some step, some octave, alter => do
    let pitch ← Pitch.resolve ⟨step, alter.getD 0, octave⟩
    pure (some pitch)
  | none, none, none => .ok none
  | _, _, _ => Fault.raise .halfPitch

def resolveDisplay (n : Note) : Except Fault (Option BrailleScore.Pitch) :=
  match n.display with
  | none => .ok none
  | some p => do
    let pitch ← p.resolve
    pure (some pitch)

def resolveTuplet (table : Tuplet.Table) (n : Note) : Except Fault (Option Nat) :=
  match n.tuplet with
  | none => .ok none
  | some id =>
    if id < table.size then .ok (some id) else Fault.raise (.tupletNotDeclared id)

def resolveAccidental (n : Note) : Except Fault (Option Accidental) :=
  match n.accidental with
  | none => .ok none
  | some text => do
    let accidental ← Accidental.vocabulary.read text
    pure (some accidental)

def resolve (table : Tuplet.Table) (n : Note) : Except Fault BrailleScore.Note := do
  let pitch ← n.resolvePitch
  let display ← n.resolveDisplay
  let tuplet ← n.resolveTuplet table
  let value ← NoteValue.vocabulary.read n.value
  let accidental ← n.resolveAccidental
  let ornaments ← n.ornaments.mapM Ornament.vocabulary.read
  let articulations ← n.articulations.mapM Articulation.vocabulary.read
  pure {
    pitch, display, duration := ⟨value, n.dots⟩, accidental, ornaments, articulations
    tieStart := n.tieStart, slurs := n.slurs, fingering := n.fingering, grace := n.grace, tuplet
    tupletStarts := n.tupletStarts, staff := Name.resolve Name.defaultStaff n.staff
    voice := Name.resolve Name.defaultVoice n.voice }

end Note

namespace Event

def resolve (table : Tuplet.Table) : Event → Except Fault BrailleScore.Event
  | startBar staves => .ok (.startBar staves)
  | endBar => .ok .endBar
  | note n => do
    let n ← n.resolve table
    pure (.entry (.note n))
  | rest value dots staff voice => do
    let value ← NoteValue.vocabulary.read value
    pure (.entry (.rest ⟨⟨value, dots⟩, Name.resolve Name.defaultStaff staff,
      Name.resolve Name.defaultVoice voice⟩))
  | clef offset sign line staff => do
    let sign ← ClefSign.vocabulary.read sign
    pure (.clef (offset.getD {}) ⟨sign, line⟩ (Name.resolve Name.defaultStaff staff))
  | key offset fifths staff =>
    .ok (.key (offset.getD {}) ⟨fifths⟩ (staff.map Name.spelling))

/-- Resolves events the first of which stands in the given measure. An end bar is the last event
of its measure. -/
def resolveFrom (table : Tuplet.Table) : Nat → List Event → Except Fault (List BrailleScore.Event)
  | _, [] => .ok []
  | measure, e :: later => do
    let event ← Fault.locate { measure := some measure } (e.resolve table)
    let events ← resolveFrom table (if e = .endBar then measure + 1 else measure) later
    pure (event :: events)

end Event

/-- All tuplets are declared before the first event. -/
def Part.resolve (p : Part) : Except Fault BrailleScore.Part := do
  let table ← p.tuplets.foldlM Tuplet.Table.declare {}
  let events ← Event.resolveFrom table 0 p.events
  pure ⟨p.name, table, events⟩

def Score.resolve (s : Score) : Except Fault BrailleScore.Score := do
  let parts ← Fault.each (fun i => { part := some i }) Part.resolve s.parts
  pure ⟨s.title, parts⟩

end BrailleScore.Draft
