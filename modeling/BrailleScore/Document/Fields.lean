import BrailleScore.Yaml.Value

/-!
Access to the fields of a mapping. A node is read by the spelling of its scalars; a value, whose
scalars are understood, is read by their types.
-/

namespace BrailleScore.Yaml

/-- The element of a list, if there is at most one: what a key that must not be repeated is bound
to. -/
def atMostOne? {α : Type} : List α → Option (Option α)
  | [] => some none
  | [a] => some (some a)
  | _ => none

namespace Node

/-- Keys, by their spelling, with what they are bound to. Nothing counts as an empty mapping. -/
def fields? : Node → Option (List (String × Node))
  | .scalar [] true => some []
  | .mapping entries => entries.mapM fun (key, node) => match key with
    | .scalar text _ => some (String.ofList text, node)
    | _ => none
  | _ => none

/-- What a key is bound to, which is an error if it occurs twice. -/
def field? (fields : List (String × Node)) (key : String) : Option (Option Node) :=
  atMostOne? ((fields.filter fun field => field.1 = key).map Prod.snd)

/-- Nothing counts as an empty sequence. -/
def items? : Node → Option (List Node)
  | .scalar [] true => some []
  | .sequence items => some items
  | _ => none

def spelling? : Node → Option String
  | .scalar text _ => some (String.ofList text)
  | _ => none

def bool? : Node → Option Bool
  | .scalar text true => match Scalar.ofPlain text with
    | .bool b => some b
    | _ => none
  | _ => none

/-- A number without a minus sign that is below `bound`. -/
def nat? (bound : Nat) : Node → Option Nat
  | .scalar text true => match Scalar.ofPlain text with
    | .whole n => if n < bound then some n else none
    | _ => none
  | _ => none

def isNull : Node → Bool
  | .scalar text true => Scalar.ofPlain text = .null
  | _ => false

/-- The field is read if it is there. -/
def read? {α : Type} (read : Node → Option α) : Option Node → Option (Option α)
  | none => some none
  | some node => (read node).map some

/-- The field is read if it is there and not null. -/
def readUnlessNull? {α : Type} (read : Node → Option α) : Option Node → Option (Option α)
  | none => some none
  | some node => if node.isNull then some none else (read node).map some

end Node

namespace Value

def text? : Value → Option String
  | text s => some s
  | _ => none

def bool? : Value → Option Bool
  | bool b => some b
  | _ => none

def integer? : Value → Option Int
  | whole n => some n
  | negated n => some (-n)
  | _ => none

def int? (least beyond : Int) (v : Value) : Option Int :=
  v.integer?.filter fun n => least ≤ n && n < beyond

def nat? (bound : Nat) (v : Value) : Option Nat := (v.int? 0 bound).map Int.toNat

def int8? (v : Value) : Option Int8 := (v.int? (-128) 128).map Int8.ofInt

def list? {α : Type} (read : Value → Option α) : Value → Option (List α)
  | list items => items.mapM read
  | _ => none

def orNull? {α : Type} (read : Value → Option α) : Value → Option (Option α)
  | null => some none
  | v => (read v).map some

/-- The position that a key denotes among the given names: the name itself, or its index, without
a minus sign. A key that is neither text nor an index is an error, one that denotes none is left
aside. -/
def position? (names : List String) : Value → Option (Option Nat)
  | text s => some (names.idxOf? s)
  | whole n => some (if n < names.length then some n else none)
  | _ => none

/-- The values of the named arguments, in the order of the names. They are bound by a mapping, or
listed in order; a list may stop early, but not before `least`. -/
def arguments? (names : List String) (least : Nat) : Value → Option (List (Option Value))
  | map entries => do
    let bound ← entries.mapM fun (key, value) =>
      (position? names key).map fun position => (position, value)
    (List.range names.length).mapM fun i =>
      atMostOne? ((bound.filter fun b => b.1 = some i).map Prod.snd)
  | list items =>
    if least ≤ items.length ∧ items.length ≤ names.length then
      some (items.map some ++ List.replicate (names.length - items.length) none)
    else none
  | _ => none

end Value

end BrailleScore.Yaml
