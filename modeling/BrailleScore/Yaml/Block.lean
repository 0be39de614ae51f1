import BrailleScore.Yaml.Cursor

/-! Literal and folded block scalars. -/

namespace BrailleScore.Yaml.Block

/-- What happens to the line breaks at the end. -/
inductive Chomping where
  | strip | clip | keep
deriving DecidableEq, Repr

structure Header where
  chomping : Chomping := .clip
  /-- The indentation beyond that of the parent, where it is given. -/
  increment : Option Nat := none
deriving Repr

/-- One of the two indicators of a header; neither may stand twice. -/
def Header.accept (h : Header) (chomped : Bool) (c : Char) : Option Header :=
  if !chomped && c == '+' then some { h with chomping := .keep }
  else if !chomped && c == '-' then some { h with chomping := .strip }
  else if h.increment.isNone && '1' ≤ c && c ≤ '9' then
    some { h with increment := some (c.toNat - '0'.toNat) }
  else none

/-- The indicators behind the `|` or `>`. -/
def header (c : Cursor) : Header × Cursor :=
  let isChomp (x : Char) : Bool := x == '+' || x == '-'
  match c.peek with
  | none => ({}, c)
  | some x => match Header.accept {} false x with
    | none => ({}, c)
    | some h => match c.next.peek.bind (h.accept (isChomp x)) with
      | none => (h, c.next)
      | some h => (h, c.skip 2)

def skipWhile (p : Char → Bool) : Nat → Cursor → Cursor
  | 0, c => c
  | fuel + 1, c => if c.peek.any p then skipWhile p fuel c.next else c

/-- Reads indentation and empty lines. The indentation `indent` is zero as long as it is unknown;
`widest` is the longest seen so far. -/
def breaksFrom (indent : Nat) : Nat → Nat → List Char → Cursor → Option (Nat × List Char × Cursor)
  | 0, _, _, _ => none
  | fuel + 1, widest, breaks, c =>
    let inIndent := indent == 0 || c.column < indent
    let widest := max widest c.column
    match c.peek with
    | some x =>
      if inIndent && x == ' ' then breaksFrom indent fuel widest breaks c.next
      else if inIndent && x == '\t' then none
      else if isBreak x then breaksFrom indent fuel widest (breaks ++ [x]) c.next
      else some (widest, breaks, c)
    | none => some (widest, breaks, c)

/-- The text of the lines from here on. `lead` is the break before the line and `breaks` are those
of empty lines in between; `blankLead` tells whether the line before began with a blank. The text
has at most `size` characters. -/
def linesFrom (folded : Bool) (indent size : Nat) :
    Nat → List Char → List Char → List Char → Bool → Cursor →
      Option (List Char × List Char × List Char × Cursor)
  | 0, _, _, _, _, _ => none
  | fuel + 1, read, lead, breaks, blankLead, c =>
    if c.column == indent && c.peek.isSome then do
      let blank := c.peek.any isGap
      let joined :=
        if folded && lead.head? == some '\n' && !blankLead && !blank then
          if breaks.isEmpty then [' '] else breaks
        else lead ++ breaks
      let line := c.rest.takeWhile fun x => !isBreak x
      let after := c.skip line.length
      let lead := after.rest.take 1
      let (_, breaks, next) ← breaksFrom indent (size + 1) 0 [] after.next
      linesFrom folded indent size fuel (read ++ joined ++ line) lead breaks blank next
    else some (read, lead, breaks, c)

/-- The block scalar at the cursor, inside a parent that is indented by `parent`, in a text of at
most `size` characters. -/
def scalar (folded : Bool) (parent : Int) (size : Nat) (c : Cursor) :
    Option (List Char × Cursor) := do
  let fuel := size + 1
  let (h, c) := header c.next
  let c := skipWhile isGap fuel c
  let c := if c.peek == some '#' then skipWhile (fun x => !isBreak x) fuel c else c
  if c.peek.any (fun x => !isBreak x) then none
  else
    let c := c.next
    let given := match h.increment with
      | some n => if 0 ≤ parent then parent.toNat + n else n
      | none => 0
    let (widest, breaks, c) ← breaksFrom given fuel 0 [] c
    let indent := if given = 0 then max (max widest (parent + 1).toNat) 1 else given
    let (read, lead, breaks, c) ← linesFrom folded indent size fuel [] [] breaks false c
    let ending := match h.chomping with
      | .strip => []
      | .clip => lead
      | .keep => lead ++ breaks
    some (read ++ ending, c)

end BrailleScore.Yaml.Block
