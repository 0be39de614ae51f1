import BrailleScore.Transcriber

/-!
Transcription in a single pass. A score is walked once: each note is counted and each voice is
written as soon as its items are known, on the page and in the tally that the last run left. A
fault stops the pass where it stands, maybe in the middle of a line.
-/

namespace BrailleScore

namespace Transcript

/-- Begins again with an empty first page and nothing counted. -/
def reset (t : Transcript) : Transcript := ⟨t.page.reset, t.tally.clear⟩

def place (piece : Layout.Piece) (t : Transcript) : Transcript :=
  { t with page := Layout.place t.page piece }

/-- Counts the notes and rests among items. -/
def count (items : List Script.Item) (t : Transcript) : Transcript :=
  { t with tally := (items.filterMap Script.Item.note?).foldl Tally.add t.tally }

end Transcript

/-- How a note or rest becomes items, behind the last pitch that sounded in its voice. -/
abbrev Scribe := Option Pitch → Entry → Except Fault (List Script.Item)

/-- A computation that writes and counts as it goes on. After a fault, what it wrote stays. -/
abbrev Pass := ExceptT Fault (StateM Transcript)

namespace Pass

variable {α σ : Type}

def place (piece : Layout.Piece) : Pass Unit := modify (Transcript.place piece)

def count (items : List Script.Item) : Pass Unit := modify (Transcript.count items)

/-- A computation that writes nothing. -/
def lift (x : Except Fault α) : Pass α := ExceptT.mk (pure x)

/-- Runs `f` on each element in turn, with what the one before handed on, and places a fault by
the index of the element. The first element has index `start`. -/
def eachFrom (position : Nat → Position) (f : σ → α → Pass σ) : Nat → σ → List α → Pass σ
  | _, handed, [] => pure handed
  | start, handed, a :: rest => do
    let handed ← ExceptT.adapt (Fault.within (position start)) (f handed a)
    eachFrom position f (start + 1) handed rest

/-- What a staff hands on from voice to voice. -/
structure Carry where
  /-- The hand sign that is still due. -/
  hand : Option Hand
  memory : Memory

variable (scribe : Scribe) (style : Options.Style)

/-- The items of a voice. Each entry is counted before the next one is looked at. -/
def items (name : String) : Memory → List Entry → Pass (Script.Voice × Memory)
  | memory, [] => pure ([], memory)
  | memory, e :: later => do
    let first ← lift (scribe (memory.last name) e)
    count first
    let (more, memory) ← items name (memory.remember e) later
    pure (first ++ more, memory)

def voice (carry : Carry) (v : Voice) : Pass Carry := do
  let (written, memory) ← items scribe v.name carry.memory v.entries
  place (.voice (Layout.voiceText style carry.hand written))
  pure ⟨none, memory⟩

/-- The voices of a measure, with the sign of accord between them. -/
def voices : Carry → List Voice → Pass Carry
  | carry, [] => pure carry
  | carry, [v] => voice scribe style carry v
  | carry, v :: next :: others => do
    let carry ← voice scribe style carry v
    place Layout.inAccord
    voices carry (next :: others)

def measure (carry : Carry) (m : Measure) : Pass Carry := do
  let carry ← voices scribe style carry m.voices
  place (.glue [' '])
  pure carry

/-- A staff. Nothing is remembered when it begins. -/
def staff (hand : Option Hand) (s : Staff) : Pass Unit := do
  place .staff
  let _ ← eachFrom (fun i => { measure := some i }) (measure scribe style) 0 ⟨hand, []⟩ s.measures

/-- The staves of a segment, the first of which has index `index`. -/
def staves (hands : Bool) : Nat → List Staff → Pass Unit
  | _, [] => pure ()
  | index, s :: rest => do
    staff scribe style (if hands then some (if index = 0 then .right else .left) else none) s
    staves hands (index + 1) rest

def segment (s : Segment) : Pass Unit := do
  let found ← lift s.staves
  staves scribe style (found.length = 2 && style.handSigns) 0 found

/-- A part. Its heading stands before its timeline is cut. -/
def part (scribe : Tuplet.Table → Scribe) (p : Part) : Pass Unit := do
  place (.heading p.name.toList)
  let segments ← lift (Segment.cut p.events)
  eachFrom (fun i => { segment := some i }) (fun _ => segment (scribe p.tuplets) style) 0 ()
    segments

def score (scribe : Tuplet.Table → Scribe) (s : Score) : Pass Unit :=
  eachFrom (fun i => { part := some i }) (fun _ => part style scribe) 0 () s.parts

end Pass

namespace Transcriber

/-- Transcribes one more score, each note as `scribe` writes it. What the last run left is erased
at first, and what a failed run wrote is erased at once. -/
def transcribeWith (scribe : Options.Content → Tuplet.Table → Scribe) (t : Transcriber)
    (s : Score) : Except Fault (List Char) × Transcriber :=
  match (Pass.score t.options.style (scribe t.options.content) s).run.run t.last.reset with
  | (.ok _, transcript) => (.ok transcript.text, { t with last := transcript })
  | (.error f, transcript) => (.error f, { t with last := transcript.reset })

def transcribe (t : Transcriber) (s : Score) : Except Fault (List Char) × Transcriber :=
  t.transcribeWith Entry.script s

end Transcriber

end BrailleScore
