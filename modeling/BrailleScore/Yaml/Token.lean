import BrailleScore.Yaml.Block
import BrailleScore.Yaml.Folding

/-!
The tokens of a YAML text. Indentation is made explicit by tokens of its own, and a key that is
only known as such when its colon comes is marked by a token put in front of it afterwards.
Anchors, aliases, tags and directives are not read.
-/

namespace BrailleScore.Yaml

inductive Token where
  | documentStart
  | documentEnd
  | blockSequenceStart
  | blockMappingStart
  | blockEnd
  | flowSequenceStart
  | flowSequenceEnd
  | flowMappingStart
  | flowMappingEnd
  | blockEntry
  | flowEntry
  | key
  | value
  | scalar (text : List Char) (isPlain : Bool)
deriving DecidableEq, Repr

/-- A place where a key may have begun. -/
structure Candidate where
  /-- The number of tokens in front of it. -/
  before : Nat
  bytes : Nat
  line : Nat
  column : Nat
  /-- Nothing but a key can stand there. -/
  required : Bool
deriving Repr

namespace Candidate

/-- How many bytes may lie between the start of a key and its colon. -/
def longest : Nat := 1024

/-- A key is short and does not go beyond its line. -/
def isStale (k : Candidate) (c : Cursor) : Bool := k.line < c.line || k.bytes + longest < c.bytes

end Candidate

/-- How far a text was read. -/
structure Scan where
  /-- The number of characters in the whole text. -/
  size : Nat
  cursor : Cursor
  /-- The tokens, the latest first. -/
  tokens : List Token := []
  count : Nat := 0
  /-- The column of the innermost block collection, -1 outside any. -/
  indent : Int := -1
  enclosing : List Int := []
  /-- A key may begin at the next token. -/
  keyAllowed : Bool := true
  /-- The candidate on the innermost level of flow collections. -/
  candidate : Option Candidate := none
  /-- The candidates on the levels around it. -/
  outer : List (Option Candidate) := []

namespace Scan

def inFlow (s : Scan) : Bool := !s.outer.isEmpty

def emit (t : Token) (s : Scan) : Scan := { s with tokens := t :: s.tokens, count := s.count + 1 }

/-- Steps over `n` characters. -/
def advance (n : Nat) (s : Scan) : Scan := { s with cursor := s.cursor.skip n }

/-- Puts a token in front of all but the first `before` tokens. -/
def insert (before : Nat) (t : Token) (s : Scan) : Scan :=
  let behind := s.count - before
  { s with
    tokens := s.tokens.take behind ++ t :: s.tokens.drop behind
    count := s.count + 1 }

/-- Opens a block collection at a column, if it is deeper than the current one. The token goes
behind the first `before` tokens. -/
def openBlock (column before : Nat) (t : Token) (s : Scan) : Scan :=
  if !s.inFlow && s.indent < column then
    { s.insert before t with indent := column, enclosing := s.indent :: s.enclosing }
  else s

/-- Closes the block collections that are deeper than `column`, of those in `enclosing`. -/
def closeTo (column : Int) : List Int → Scan → Scan
  | [], s => s
  | outer :: enclosing, s =>
    if column < s.indent then
      closeTo column enclosing { s.emit .blockEnd with indent := outer, enclosing }
    else s

def closeBlocks (column : Int) (s : Scan) : Scan :=
  if s.inFlow then s else closeTo column s.enclosing s

/-- A candidate that is given up must not have been required. -/
def dropCandidate (s : Scan) : Option Scan :=
  if s.candidate.any Candidate.required then none else some { s with candidate := none }

/-- A key may begin here. -/
def noteCandidate (s : Scan) : Option Scan :=
  if s.keyAllowed then do
    let s ← s.dropCandidate
    let c := s.cursor
    some { s with candidate := some {
      before := s.count, bytes := c.bytes, line := c.line, column := c.column
      required := !s.inFlow && s.indent = c.column } }
  else some s

/-- Gives up the candidates that have become stale, on all levels. -/
def dropStale (s : Scan) : Option Scan :=
  let stale := (s.candidate :: s.outer).any fun k => k.any fun k => k.isStale s.cursor
  let lost := (s.candidate :: s.outer).any fun k => k.any fun k => k.required && k.isStale s.cursor
  let fresh (k : Option Candidate) := k.filter fun k => !k.isStale s.cursor
  if lost then none
  else if stale then some { s with candidate := fresh s.candidate, outer := s.outer.map fresh }
  else some s

/-- Goes on to the next token, over blanks, comments, line breaks and byte order marks. -/
def skipToToken : Nat → Scan → Scan
  | 0, s => s
  | fuel + 1, s => match s.cursor.peek with
    | none => s
    | some x =>
      if x == byteOrderMark && s.cursor.column == 0 then skipToToken fuel (s.advance 1)
      else if x == ' ' || (x == '\t' && (s.inFlow || !s.keyAllowed)) then
        skipToToken fuel (s.advance 1)
      else if x == '#' then
        let comment := s.cursor.rest.takeWhile fun y => !isBreak y
        skipToToken fuel (s.advance comment.length)
      else if isBreak x then
        skipToToken fuel { s.advance 1 with keyAllowed := s.keyAllowed || !s.inFlow }
      else s

/-- A mark at the start or the end of a document. -/
def documentMark (t : Token) (s : Scan) : Option Scan := do
  let s ← (s.closeBlocks (-1)).dropCandidate
  some ({ s with keyAllowed := false }.advance 3 |>.emit t)

def openFlow (t : Token) (s : Scan) : Option Scan := do
  let s ← s.noteCandidate
  let s := { s with candidate := none, outer := s.candidate :: s.outer, keyAllowed := true }
  some (s.advance 1 |>.emit t)

def closeFlow (t : Token) (s : Scan) : Option Scan := do
  let s ← s.dropCandidate
  let s := match s.outer with
    | [] => s
    | candidate :: outer => { s with candidate, outer }
  some ({ s with keyAllowed := false }.advance 1 |>.emit t)

def flowEntry (s : Scan) : Option Scan := do
  let s ← s.dropCandidate
  some ({ s with keyAllowed := true }.advance 1 |>.emit .flowEntry)

/-- Opens a block collection for an indicator, which must stand where a key could. -/
def indicated (t : Token) (s : Scan) : Option Scan :=
  if s.inFlow then some s
  else if s.keyAllowed then some (s.openBlock s.cursor.column s.count t)
  else none

def blockEntry (s : Scan) : Option Scan := do
  let s ← s.indicated .blockSequenceStart
  let s ← s.dropCandidate
  some ({ s with keyAllowed := true }.advance 1 |>.emit .blockEntry)

def explicitKey (s : Scan) : Option Scan := do
  let s ← s.indicated .blockMappingStart
  let s ← s.dropCandidate
  some ({ s with keyAllowed := !s.inFlow }.advance 1 |>.emit .key)

def value (s : Scan) : Option Scan :=
  match s.candidate with
  | some k =>
    let s := s.insert k.before .key
    let s := s.openBlock k.column k.before .blockMappingStart
    some ({ s with candidate := none, keyAllowed := false }.advance 1 |>.emit .value)
  | none => do
    let s ← s.indicated .blockMappingStart
    some ({ s with keyAllowed := !s.inFlow }.advance 1 |>.emit .value)

def blockScalar (folded : Bool) (s : Scan) : Option Scan := do
  let s ← s.dropCandidate
  let (text, cursor) ← Block.scalar folded s.indent s.size s.cursor
  some ({ s with cursor, keyAllowed := true }.emit (.scalar text false))

def quotedScalar (quote : Char) (s : Scan) : Option Scan := do
  let s ← s.noteCandidate
  let (text, cursor) ← quoted quote s.size s.cursor
  some ({ s with cursor, keyAllowed := false }.emit (.scalar text false))

def plainScalar (s : Scan) : Option Scan := do
  let s ← s.noteCandidate
  let (text, broke, cursor) ← plain s.inFlow (s.indent + 1).toNat s.size s.cursor
  some ({ s with cursor, keyAllowed := broke }.emit (.scalar text true))

/-- A plain scalar may begin with `x`, which `after` follows. -/
def beginsPlain (inFlow : Bool) (x : Char) (after : Option Char) : Bool :=
  !(isGap x || isBreak x || "-?:,[]\x7b\x7d#&*!|>'\"%@`".toList.contains x) ||
    (x == '-' && !(after.any isGap)) || (!inFlow && (x == '?' || x == ':') && !endsWord after)

/-- Reads the token at the cursor, which begins with `x`. -/
def token (x : Char) (s : Scan) : Option Scan :=
  let after := s.cursor.peekSecond
  if s.cursor.column == 0 && x == '%' then none
  else if s.cursor.atMark '-' then s.documentMark .documentStart
  else if s.cursor.atMark '.' then s.documentMark .documentEnd
  else if x == '[' then s.openFlow .flowSequenceStart
  else if x == '\x7b' then s.openFlow .flowMappingStart
  else if x == ']' then s.closeFlow .flowSequenceEnd
  else if x == '\x7d' then s.closeFlow .flowMappingEnd
  else if x == ',' then s.flowEntry
  else if x == '-' && endsWord after then s.blockEntry
  else if x == '?' && (s.inFlow || endsWord after) then s.explicitKey
  else if x == ':' && (s.inFlow || endsWord after) then s.value
  else if x == '|' && !s.inFlow then s.blockScalar false
  else if x == '>' && !s.inFlow then s.blockScalar true
  else if x == '\'' || x == '"' then s.quotedScalar x
  else if beginsPlain s.inFlow x after then s.plainScalar
  else none

/-- At the end of the text all blocks end. -/
def finish (s : Scan) : Option (List Token) := do
  let s ← (s.closeBlocks (-1)).dropCandidate
  some s.tokens.reverse

/-- Reads tokens up to the end of the text. -/
def run : Nat → Scan → Option (List Token)
  | 0, _ => none
  | fuel + 1, s => do
    let s ← (skipToToken (s.size + 1) s).dropStale
    let s := s.closeBlocks s.cursor.column
    match s.cursor.peek with
    | none => s.finish
    | some x =>
      let s ← s.token x
      run fuel s

end Scan

/-- The tokens of a text, if it consists of tokens. -/
def tokens (text : String) : Option (List Token) := do
  let text ← clean text.toList
  Scan.run (text.length + 1) { size := text.length, cursor := { rest := text } }

end BrailleScore.Yaml
