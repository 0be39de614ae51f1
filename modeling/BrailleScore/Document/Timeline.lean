import BrailleScore.Document.Draft
import BrailleScore.Document.Fields

/-!
Timeline documents. A score is a mapping with the keys `title` and `parts`, a part one with
`name`, `tuplets` and `events`; unknown keys are left aside. An event has a `type`, and its
arguments depend on that.
-/

namespace BrailleScore

namespace Draft

open Yaml

/-- A numerator and a denominator of 32 bits each. -/
def offset? (v : Value) : Option Offset := do
  match ← v.list? (Value.int? (-Int.pow 2 31) (Int.pow 2 31)) with
  | [n, d] => if h : d = 0 then none else some ⟨n, d, h⟩
  | _ => none

/-- An argument that must be given. -/
def required? {α : Type} (read : Value → Option α) (argument : Option Value) : Option α :=
  argument.bind read

/-- An argument that may be missing, but not null. -/
def withDefault? {α : Type} (default : α) (read : Value → Option α) : Option Value → Option α
  | none => some default
  | some v => read v

/-- An argument that may be missing or null. -/
def optional? {α : Type} (read : Value → Option α) : Option Value → Option (Option α)
  | none => some none
  | some v => v.orNull? read

/-- A name is written as text or as an integer. -/
def Name.ofValue? : Value → Option Name
  | .text s => some (.text s)
  | v => (v.int? (-Int.pow 2 63) (Int.pow 2 63)).map fun n => .number (Int64.ofInt n)

def byteBound : Nat := Nat.pow 2 8

def indexBound : Nat := Nat.pow 2 64

def Pitch.ofValue? (v : Value) : Option Pitch := do
  match ← v.arguments? ["step", "alter", "octave"] 3 with
  | [step, alter, octave] =>
    let step ← required? Value.text? step
    let alter ← withDefault? 0 Value.int8? alter
    let octave ← required? Value.int8? octave
    some ⟨step, alter, octave⟩
  | _ => none

def slur? (v : Value) : Option Slur := do
  match ← v.arguments? ["id", "last"] 1 with
  | [id, last] =>
    let id ← required? (Value.nat? (Nat.pow 2 32)) id
    let last ← withDefault? false Value.bool? last
    some ⟨id, last⟩
  | _ => none

def Note.ofValue? (v : Value) : Option Note := do
  let names := ["step", "alter", "octave", "unpitched", "value", "dots", "accidental", "ornaments",
    "articulations", "fingering", "tie-start", "slurs", "grace", "tuplet", "tuplet-starts",
    "staff", "voice"]
  match ← v.arguments? names names.length with
  | [step, alter, octave, display, value, dots, accidental, ornaments, articulations, fingering,
      tieStart, slurs, grace, tuplet, tupletStarts, staff, voice] =>
    let step ← optional? Value.text? step
    let alter ← optional? Value.int8? alter
    let octave ← optional? Value.int8? octave
    let display ← optional? Pitch.ofValue? display
    let value ← required? Value.text? value
    let dots ← withDefault? 0 (Value.nat? byteBound) dots
    let accidental ← optional? Value.text? accidental
    let ornaments ← withDefault? [] (Value.list? Value.text?) ornaments
    let articulations ← withDefault? [] (Value.list? Value.text?) articulations
    let fingering ← withDefault? [] (Value.list? (Value.nat? byteBound)) fingering
    let tieStart ← withDefault? false Value.bool? tieStart
    let slurs ← withDefault? [] (Value.list? slur?) slurs
    let grace ← withDefault? false Value.bool? grace
    let tuplet ← optional? (Value.nat? indexBound) tuplet
    let tupletStarts ← withDefault? 0 (Value.nat? byteBound) tupletStarts
    let staff ← optional? Name.ofValue? staff
    let voice ← optional? Name.ofValue? voice
    some {
      step, alter, octave, display, value, dots, accidental, ornaments, articulations, fingering
      tieStart, slurs, grace, tuplet, tupletStarts, staff, voice }
  | _ => none

namespace Event

/-- The event of a type with the given arguments. -/
def ofArguments? (type : String) (arguments : Value) : Option Event :=
  match type with
  | "start-bar" => do
    match ← arguments.arguments? ["staves"] 1 with
    | [staves] => (required? (Value.nat? indexBound) staves).map startBar
    | _ => none
  | "end-bar" => match arguments with
    | .list (_ :: _) => none
    | _ => some endBar
  | "note" => (Note.ofValue? arguments).map note
  | "rest" => do
    match ← arguments.arguments? ["value", "dots", "staff", "voice"] 4 with
    | [value, dots, staff, voice] =>
      let value ← required? Value.text? value
      let dots ← withDefault? 0 (Value.nat? byteBound) dots
      let staff ← optional? Name.ofValue? staff
      let voice ← optional? Name.ofValue? voice
      some (rest value dots staff voice)
    | _ => none
  | "clef-change" => do
    match ← arguments.arguments? ["offset", "sign", "line", "staff"] 4 with
    | [offset, sign, line, staff] =>
      let offset ← optional? offset? offset
      let sign ← required? Value.text? sign
      let line ← required? (Value.nat? byteBound) line
      let staff ← optional? Name.ofValue? staff
      some (clef offset sign line staff)
    | _ => none
  | "key-change" => do
    match ← arguments.arguments? ["offset", "fifths", "staff"] 3 with
    | [offset, fifths, staff] =>
      let offset ← optional? offset? offset
      let fifths ← required? Value.int8? fifths
      let staff ← optional? Name.ofValue? staff
      some (key offset fifths staff)
    | _ => none
  | _ => none

def isType : Value → Bool
  | .text s => s = "type"
  | _ => false

/-- An event is a mapping in which one key is `type`, or a list that begins with the type. -/
def ofValue? : Value → Option Event
  | .map entries => do
    match entries.filter fun entry => isType entry.1 with
    | [(_, type)] =>
      ofArguments? (← type.text?) (.map (entries.filter fun entry => !isType entry.1))
    | _ => none
  | .list (type :: arguments) => do ofArguments? (← type.text?) (.list arguments)
  | _ => none

/-- How deep collections may be nested in a document, of which an event is inside of four: the
score, its parts, one of them and the events of that. -/
def deepest : Nat := 128

def ofNode? (n : Node) : Option Event := (Value.ofNode? (deepest - 4) n).bind ofValue?

end Event

def tuplet? (n : Node) : Option Tuplet := do
  let fields ← n.fields?
  let arity ← (← Node.field? fields "arity").bind (Node.nat? (Nat.pow 2 32))
  let parent ← Node.readUnlessNull? (Node.nat? indexBound) (← Node.field? fields "parent")
  some ⟨arity, parent⟩

/-- A list in which each item can be read. -/
def list? {α : Type} (read : Node → Option α) (n : Node) : Option (List α) := do
  (← n.items?).mapM read

def Part.ofNode? (n : Node) : Option Part := do
  let fields ← n.fields?
  let name ← Node.read? Node.spelling? (← Node.field? fields "name")
  let tuplets ← Node.read? (list? tuplet?) (← Node.field? fields "tuplets")
  let events ← Node.read? (list? Event.ofNode?) (← Node.field? fields "events")
  some ⟨name.getD "", tuplets.getD [], events.getD []⟩

def Score.ofNode? (n : Node) : Option Score := do
  let fields ← n.fields?
  let title ← Node.readUnlessNull? Node.spelling? (← Node.field? fields "title")
  let parts ← Node.read? (list? Part.ofNode?) (← Node.field? fields "parts")
  some ⟨title, parts.getD []⟩

def Score.ofText? (text : String) : Option Score := (Node.ofText? text).bind Score.ofNode?

end Draft

end BrailleScore
