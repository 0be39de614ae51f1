import BrailleScore.Text.Decimal

/-!
What can go wrong on the way from a timeline document to braille. A fault is a cause with a
place in the score; the wording is computed from the cause.
-/

namespace BrailleScore

/-- Indices into a score, counted from zero, as far as they are known. -/
structure Position where
  part : Option Nat := none
  segment : Option Nat := none
  measure : Option Nat := none
deriving DecidableEq, Repr

namespace Position

def isUnknown (p : Position) : Bool := p.part.isNone && p.segment.isNone && p.measure.isNone

/-- Every index that `inner` leaves open is taken from `outer`. -/
def fill (inner outer : Position) : Position :=
  ⟨inner.part.or outer.part, inner.segment.or outer.segment, inner.measure.or outer.measure⟩

def named (noun : String) : Option Nat → List String
  | none => []
  | some i => [noun ++ " " ++ String.ofList (Decimal.text (i + 1))]

/-- The known indices, counted from one. -/
def describe (p : Position) : String :=
  if p.isUnknown then "unknown position"
  else ", ".intercalate (named "part" p.part ++ named "segment" p.segment ++
    named "measure" p.measure)

end Position

namespace Fault

inductive Kind where
  /-- The events of a timeline do not stand in a permitted order or number. -/
  | malformed
  /-- A value that braille music has no sign for. -/
  | unsupported
  /-- A word outside a closed vocabulary. -/
  | invariant
  | options
  | document
  /-- Text without a form in Braille ASCII. -/
  | transfer
deriving DecidableEq, Repr

inductive Cause where
  | unknownWord (subject word : String)
  | arityTooSmall (arity : Nat)
  | parentNotBefore (tuplet parent : Nat)
  | tupletNotDeclared (tuplet : Nat)
  | halfPitch
  | startBarMissing (endBar : Nat)
  | staffSurplus (name : String) (count : Nat)
  | staffShortage (count named : Nat)
  | staffOutOfRange (index count : Nat)
  | startsOutsideTuplet (starts : Nat)
  | startsTooDeep (starts depth : Nat)
  | noOctaveMark (octave : Int)
  | noFingerSign (finger : Nat)
  | notADigit (n : Nat)
  | noTupletSign (arity : Nat)
  | eightDotCell (cell : Char)
  | notAscii (line column : Nat) (c : Char)
  | notBrailleAscii (c : Char)
  | pageTooNarrow (least width : Nat)
  | pageTooLow
  | unknownPolicy (word : String)
  /-- The options cannot be decoded, for the reason that the decoder gives. -/
  | unreadableOptions (reason : String)
  /-- The timeline cannot be decoded, for the reason that the decoder gives. -/
  | unreadableTimeline (reason : String)
  /-- A fault stated by the caller in words of its own. -/
  | stated (kind : Kind) (message : String)
deriving DecidableEq, Repr

namespace Cause

def kind : Cause → Kind
  | unknownWord .. => .invariant
  | arityTooSmall _ => .invariant
  | parentNotBefore .. => .malformed
  | tupletNotDeclared _ => .malformed
  | halfPitch => .document
  | startBarMissing _ => .malformed
  | staffSurplus .. => .malformed
  | staffShortage .. => .malformed
  | staffOutOfRange .. => .malformed
  | startsOutsideTuplet _ => .malformed
  | startsTooDeep .. => .malformed
  | noOctaveMark _ => .unsupported
  | noFingerSign _ => .unsupported
  | notADigit _ => .unsupported
  | noTupletSign _ => .unsupported
  | eightDotCell _ => .unsupported
  | notAscii .. => .transfer
  | notBrailleAscii _ => .transfer
  | pageTooNarrow .. => .options
  | pageTooLow => .options
  | unknownPolicy _ => .options
  | unreadableOptions _ => .options
  | unreadableTimeline _ => .document
  | stated kind _ => kind

def number (n : Nat) : String := String.ofList (Decimal.text n)

def message : Cause → String
  | unknownWord subject word => "unknown " ++ subject ++ " '" ++ word ++ "'"
  | arityTooSmall arity => "tuplet arity must be at least 2, got " ++ number arity
  | parentNotBefore tuplet parent =>
    "tuplet " ++ number tuplet ++ " refers to parent " ++ number parent ++
      " which is not declared before it"
  | tupletNotDeclared tuplet => "note refers to undeclared tuplet " ++ number tuplet
  | halfPitch => "a note pitch needs both step and octave"
  | startBarMissing endBar =>
    "expected a start bar after the end bar at event " ++ number endBar
  | staffSurplus name count =>
    "staff '" ++ name ++ "' does not fit into a segment of " ++ number count ++ " staves"
  | staffShortage count named =>
    "segment declares " ++ number count ++ " staves but names only " ++ number named
  | staffOutOfRange index count =>
    "staff " ++ number index ++ " requested from a segment of " ++ number count ++ " staves"
  | startsOutsideTuplet starts =>
    "note starts " ++ number starts ++ " tuplet(s) but belongs to none"
  | startsTooDeep starts depth =>
    "note starts " ++ number starts ++ " tuplet(s) but is nested in only " ++ number depth
  | noOctaveMark octave => "no octave sign for octave " ++ String.ofList (Decimal.signed octave)
  | noFingerSign finger => "no fingering sign for finger " ++ number finger
  | notADigit n => number n ++ " is not a digit"
  | noTupletSign arity => "no braille sign for a tuplet of " ++ number arity
  | eightDotCell cell =>
    "no BRF equivalent for the eight-dot cell '" ++ String.singleton cell ++ "'"
  | notAscii line column c =>
    "line " ++ number line ++ ", column " ++ number column ++ ": '" ++ String.singleton c ++
      "' has no BRF form"
  | notBrailleAscii c => "'" ++ String.singleton c ++ "' is not a BRF character"
  | pageTooNarrow least width =>
    "page-width must be at least " ++ number least ++ ", got " ++ number width
  | pageTooLow => "page-height must be at least 1"
  | unknownPolicy word => "unsupported must be 'strict' or 'omit', got '" ++ word ++ "'"
  | unreadableOptions reason => reason
  | unreadableTimeline reason => reason
  | stated _ message => message

end Cause

/-- Faults of these kinds belong to a place in a score. -/
def Kind.isLocated : Kind → Bool
  | malformed | unsupported | invariant => true
  | options | document | transfer => false

end Fault

/-- A cause together with the place it was found at. -/
structure Fault where
  cause : Fault.Cause
  position : Position := {}
deriving DecidableEq, Repr

namespace Fault

def kind (f : Fault) : Kind := f.cause.kind

def position? (f : Fault) : Option Position :=
  if f.kind.isLocated then some f.position else none

/-- Adds what an enclosing pass knows about the place. What is known already stays. -/
def within (outer : Position) (f : Fault) : Fault :=
  if f.kind.isLocated then { f with position := f.position.fill outer } else f

/-- The text shown to the user. -/
def describe (f : Fault) : String :=
  let heading := match f.kind with
    | .malformed => "Malformed timeline at " ++ f.position.describe ++ ": "
    | .unsupported => "Unsupported notation at " ++ f.position.describe ++ ": "
    | .invariant => "Invariant violation at " ++ f.position.describe ++ ": "
    | .options => "Invalid options: "
    | .document => "Invalid timeline document: "
    | .transfer => "Cannot export to BRF at "
  heading ++ f.cause.message

/-- The fault of a cause whose place is not known yet. -/
def raise (cause : Cause) : Except Fault α := .error { cause }

/-- Places the fault of a failed computation. -/
def locate (outer : Position) : Except Fault α → Except Fault α
  | .ok a => .ok a
  | .error f => .error (f.within outer)

/-- Runs `f` on each element in turn, up to the first fault, which is placed by the index of its
element. The first element has index `start`. -/
def eachFrom (place : Nat → Position) (f : α → Except Fault β) :
    Nat → List α → Except Fault (List β)
  | _, [] => .ok []
  | start, a :: rest => do
    let b ← locate (place start) (f a)
    let bs ← eachFrom place f (start + 1) rest
    pure (b :: bs)

/-- Runs `f` on each element in turn and places the first fault by its index. -/
def each (place : Nat → Position) (f : α → Except Fault β) (as : List α) :
    Except Fault (List β) :=
  eachFrom place f 0 as

end Fault

end BrailleScore
