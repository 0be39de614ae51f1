import BrailleScore.Text.Decimal
import BrailleScore.Yaml.Node

/-!
The values that YAML nodes stand for. A plain scalar is null, a boolean or a number if it is
spelled like one; any other scalar is text.
-/

namespace BrailleScore.Yaml

/-- What the spelling of a plain scalar says. -/
inductive Scalar where
  | null
  | bool (b : Bool)
  | whole (n : Nat)
  /-- A number behind a minus sign; it may be zero. -/
  | negated (n : Nat)
  | float
  | text
  /-- An integer beyond 64 bits that is kept as one nevertheless. -/
  | wide
deriving DecidableEq, Repr

namespace Scalar

/-- The number that digits to a base write; there must be digits. -/
def natOfBase? (base : Nat) (digits : List Char) : Option Nat :=
  if digits.isEmpty then none
  else digits.foldlM (fun n c => do
    let d ← hexDigit? c
    if d < base then some (base * n + d) else none) 0

/-- The number that an unsigned spelling writes, in decimal or behind `0x`, `0o` or `0b`. -/
def magnitude? : List Char → Option Nat
  | '0' :: 'x' :: digits => natOfBase? 16 digits
  | '0' :: 'o' :: digits => natOfBase? 8 digits
  | '0' :: 'b' :: digits => natOfBase? 2 digits
  | digits => natOfBase? 10 digits

/-- A sequence of digits that begins with a zero without being one is no number. -/
def isPadded (spelling : List Char) : Bool :=
  let digits := match spelling with
    | '+' :: rest | '-' :: rest => rest
    | _ => spelling
  match digits with
  | '0' :: _ :: _ => digits.all Char.isDigit
  | _ => false

/-- The digits of a number, how many of them are behind the point, and its exponent. -/
structure Numeral where
  digits : List Char
  places : Nat
  exponent : Int

/-- A decimal number: digits with a point among or around them, then an exponent. -/
def decimal? (spelling : List Char) : Option Numeral :=
  let whole := spelling.takeWhile Char.isDigit
  let rest := spelling.dropWhile Char.isDigit
  let (fraction, rest) := match rest with
    | '.' :: more => (more.takeWhile Char.isDigit, more.dropWhile Char.isDigit)
    | _ => ([], rest)
  if whole.isEmpty && fraction.isEmpty then none
  else
    let exponent : Option Int := match rest with
      | [] => some 0
      | e :: more =>
        if e == 'e' || e == 'E' then match more with
          | '+' :: digits => (natOfBase? 10 digits).map Int.ofNat
          | '-' :: digits => (natOfBase? 10 digits).map fun n => -(n : Int)
          | digits => (natOfBase? 10 digits).map Int.ofNat
        else none
    exponent.map fun e => ⟨whole ++ fraction, fraction.length, e⟩

/-- The number lies below the least one that rounds to infinity in double precision. -/
def Numeral.isFinite (d : Numeral) : Bool :=
  let limit : Nat := Nat.pow 2 1024 - Nat.pow 2 970
  let digits := d.digits.dropWhile (· == '0')
  let scale := d.exponent - d.places
  if digits.isEmpty then true
  else if 400 < (digits.length : Int) + scale then false
  else if 0 ≤ scale then
    (natOfBase? 10 digits).any fun n => n * Nat.pow 10 scale.toNat < limit
  else
    (digits.length : Int) + scale < 300 ||
      (natOfBase? 10 digits).any fun n => n < limit * Nat.pow 10 scale.natAbs

def infinities : List String :=
  [".inf", ".Inf", ".INF", "+.inf", "+.Inf", "+.INF", "-.inf", "-.Inf", "-.INF",
    ".nan", ".NaN", ".NAN"]

/-- The spelling is that of a finite or infinite number with a fractional part. -/
def isFloat (spelling : List Char) : Bool :=
  infinities.contains (String.ofList spelling) ||
    let body := match spelling with
      | '+' :: '+' :: _ | '+' :: '-' :: _ => []
      | '+' :: rest | '-' :: rest => rest
      | _ => spelling
    (decimal? body).any Numeral.isFinite

/-- What a spelling says that is not the one of an integer. -/
def ofOther (spelling : List Char) : Scalar := if isFloat spelling then float else text

/-- Whole numbers have 64 bits, or else 128. -/
def ofWhole (n : Nat) (spelling : List Char) : Scalar :=
  if n < Nat.pow 2 64 then whole n else if n < Nat.pow 2 128 then wide else ofOther spelling

/-- Of a number behind a minus sign one bit is the sign. -/
def ofNegated (n : Nat) (spelling : List Char) : Scalar :=
  if n ≤ Nat.pow 2 63 then negated n else if n ≤ Nat.pow 2 127 then wide else ofOther spelling

/-- What a spelling says that may be the one of a number. -/
def ofNumber (spelling : List Char) : Scalar :=
  let whole (digits : List Char) :=
    (magnitude? digits).elim (ofOther spelling) fun n => ofWhole n spelling
  match spelling with
  | '-' :: digits => (magnitude? digits).elim (ofOther spelling) fun n => ofNegated n spelling
  | '+' :: digits => whole digits
  | digits => whole digits

def nulls : List String := ["null", "Null", "NULL", "~"]

def truths : List String := ["true", "True", "TRUE"]

def falsehoods : List String := ["false", "False", "FALSE"]

/-- What a plain scalar says. -/
def ofPlain (spelling : List Char) : Scalar :=
  let word := String.ofList spelling
  if spelling.isEmpty || nulls.contains word then null
  else if truths.contains word then bool true
  else if falsehoods.contains word then bool false
  else if isPadded spelling then text
  else ofNumber spelling

end Scalar

/-- A document with its scalars understood. -/
inductive Value where
  | null
  | bool (b : Bool)
  | whole (n : Nat)
  /-- A number behind a minus sign; it may be zero. -/
  | negated (n : Nat)
  | float
  | text (s : String)
  | list (items : List Value)
  | map (entries : List (Value × Value))

namespace Value

/-- The value of a scalar; integers beyond 64 bits have none. -/
def ofScalar? (spelling : List Char) (isPlain : Bool) : Option Value :=
  match if isPlain then Scalar.ofPlain spelling else .text with
  | .null => some null
  | .bool b => some (bool b)
  | .whole n => some (whole n)
  | .negated n => some (negated n)
  | .float => some float
  | .text => some (text (String.ofList spelling))
  | .wide => none

mutual

/-- The value of a node, if all scalars in it have one and collections are nested in it at most
`depth` deep. -/
def ofNode? (depth : Nat) : Node → Option Value
  | .scalar spelling isPlain => ofScalar? spelling isPlain
  | .sequence items => if depth = 0 then none else (ofNodes? (depth - 1) items).map list
  | .mapping entries => if depth = 0 then none else (ofEntries? (depth - 1) entries).map map

def ofNodes? (depth : Nat) : List Node → Option (List Value)
  | [] => some []
  | node :: rest => do
    let value ← ofNode? depth node
    let values ← ofNodes? depth rest
    some (value :: values)

def ofEntries? (depth : Nat) : List (Node × Node) → Option (List (Value × Value))
  | [] => some []
  | (key, node) :: rest => do
    let key ← ofNode? depth key
    let value ← ofNode? depth node
    let entries ← ofEntries? depth rest
    some ((key, value) :: entries)

end

end Value

end BrailleScore.Yaml
