import BrailleScore.Fault

/-!
Tuplets and the table that declares them. A tuplet may lie in a parent tuplet, which is declared
before it, so that following the parents ends.
-/

namespace BrailleScore

/-- `arity` notes in the time of the enclosing value. -/
structure Tuplet where
  arity : Nat
  parent : Option Nat := none
deriving DecidableEq, Repr

namespace Tuplet

/-- The tuplets of one part. A tuplet is known by the number of tuplets declared before it. -/
structure Table where
  /-- The declared tuplets, the latest first. -/
  latestFirst : List Tuplet := []
deriving DecidableEq, Repr

namespace Table

def toList (t : Table) : List Tuplet := t.latestFirst.reverse

def size (t : Table) : Nat := t.latestFirst.length

def isEmpty (t : Table) : Bool := t.latestFirst.isEmpty

def get? (t : Table) (id : Nat) : Option Tuplet := t.toList[id]?

/-- Declares one more tuplet; its number is the former size. -/
def declare (t : Table) (tuplet : Tuplet) : Except Fault Table :=
  if tuplet.arity < 2 then Fault.raise (.arityTooSmall tuplet.arity)
  else match tuplet.parent with
    | none => .ok ⟨tuplet :: t.latestFirst⟩
    | some p =>
      if p < t.size then .ok ⟨tuplet :: t.latestFirst⟩
      else Fault.raise (.parentNotBefore t.size p)

/-- Declares one more tuplet in a table that stays in use, also behind a fault. The answer is the
number of the tuplet. -/
def enter (tuplet : Tuplet) : ExceptT Fault (StateM Table) Nat := do
  if tuplet.arity < 2 then throw { cause := .arityTooSmall tuplet.arity }
  if let some p := tuplet.parent then
    let t ← get
    if t.size ≤ p then throw { cause := .parentNotBefore t.size p }
  modify fun t => ⟨tuplet :: t.latestFirst⟩
  let t ← get
  pure (t.size - 1)

/-- A tuplet of the list, the latest first, then its parent, and so on outwards. A parent is looked
for among the earlier tuplets alone. -/
def chainIn : List Tuplet → Nat → List Tuplet
  | [], _ => []
  | tuplet :: earlier, id =>
    if id = earlier.length then
      tuplet :: match tuplet.parent with
        | none => []
        | some p => chainIn earlier p
    else chainIn earlier id

/-- The tuplet `id` and all that it lies in, the innermost first. -/
def chain (t : Table) (id : Nat) : List Tuplet := chainIn t.latestFirst id

end Table

end Tuplet

end BrailleScore
