import BrailleScore.Timeline.Staff

/-!
Segments. A part may change its number of staves; its timeline is cut into the longest stretches
of measures with one number, and each stretch is divided among its staves.
-/

namespace BrailleScore

/-- Consecutive measures that share a number of staves. -/
structure Segment where
  events : List Event := []
deriving DecidableEq, Repr

namespace Segment

/-- The number that the first start bar declares, zero where there is none. -/
def staffCount (s : Segment) : Nat := (s.events.findSome? Event.declared?).getD 0

/-- Puts an event in front of the first segment. -/
def prepend (e : Event) : List Segment → List Segment
  | [] => [⟨[e]⟩]
  | s :: rest => ⟨e :: s.events⟩ :: rest

/-- Cuts the events from index `index` on. The stretch that they continue has declared `declared`
staves so far; the first segment of the answer is the rest of that stretch. -/
def cutFrom (index : Nat) (declared : Option Nat) : List Event → Except Fault (List Segment)
  | [] => .ok [{}]
  | .endBar :: rest => match rest with
    | [] => .ok [⟨[.endBar]⟩]
    | .startBar staves :: _ =>
      if staves = declared.getD 0 then do
        let segments ← cutFrom (index + 1) declared rest
        pure (prepend .endBar segments)
      else do
        let segments ← cutFrom (index + 1) none rest
        pure (⟨[.endBar]⟩ :: segments)
    | _ => Fault.raise (.startBarMissing index)
  | e :: rest => do
    let segments ← cutFrom (index + 1) (declared.or e.declared?) rest
    pure (prepend e segments)

/-- The segments of a timeline. A start bar must follow every end bar but one at the very end. -/
def cut (events : List Event) : Except Fault (List Segment) := cutFrom 0 none events

/-- The names of the staves, in the order of their first appearance. -/
def staffNames (s : Segment) : List String := (s.events.filterMap Event.staff?).eraseDups

/-- What concerns the staff `name`: its own events and those of all staves. -/
def staffNamed (s : Segment) (name : String) : Staff :=
  ⟨name, s.events.filter fun e => e.isVertical || e.staff? = some name⟩

/-- The staves of a segment while its events are dealt out to them. -/
structure Division where
  /-- The staves that are bound to a name, in the order in which they were. -/
  bound : List Staff := []
  /-- What stands on each staff that is still free. -/
  free : List Event := []
deriving DecidableEq, Repr

/-- Deals an event to staves `count` in number. An event of all staves goes to each of them, any
other to the staff that is bound to its name; a new name is bound to the next free staff. -/
def Division.deal (count : Nat) (d : Division) (e : Event) : Except Fault Division :=
  match e.staff? with
  | none => .ok ⟨d.bound.map (Staff.push e), d.free ++ [e]⟩
  | some name => match changeFirst? (fun staff => staff.name = name) (Staff.push e) d.bound with
    | some bound => .ok { d with bound }
    | none =>
      if d.bound.length < count then .ok { d with bound := d.bound ++ [⟨name, d.free ++ [e]⟩] }
      else Fault.raise (.staffSurplus name count)

/-- The staves of a segment, as many as it declares. None are declared without a start bar. -/
def staves (s : Segment) : Except Fault (List Staff) :=
  let count := s.staffCount
  if count = 0 then .ok []
  else do
    let d ← s.events.foldlM (Division.deal count) {}
    if d.bound.length < count then Fault.raise (.staffShortage count d.bound.length)
    else pure d.bound

def staff (s : Segment) (index : Nat) : Except Fault Staff := do
  let staves ← s.staves
  match staves[index]? with
  | some staff => pure staff
  | none => Fault.raise (.staffOutOfRange index s.staffCount)

end Segment

end BrailleScore
