import BrailleScore.Yaml.Token

/-! The tree that the tokens of a document stand for. -/

namespace BrailleScore.Yaml

inductive Node where
  | scalar (text : List Char) (isPlain : Bool)
  | sequence (items : List Node)
  | mapping (entries : List (Node × Node))

namespace Node

/-- What stands where nothing is written. -/
def nothing : Node := scalar [] true

/-- Where a node stands. -/
inductive Site where
  /-- In a flow collection, where block collections are not read. -/
  | flow
  | block
  /-- In a block mapping, whose sequences may do without an indentation of their own. -/
  | blockMapping
deriving DecidableEq, Repr

/-- What reads one node and returns the tokens behind it. -/
abbrev Reader := Site → List Token → Option (Node × List Token)

/-- A node that may be left out in front of the tokens that `ends` accepts. -/
def optional (read : Reader) (site : Site) (ends : Token → Bool) (tokens : List Token) :
    Option (Node × List Token) :=
  if tokens.head?.any ends then some (nothing, tokens) else read site tokens

def endsEntry : Token → Bool
  | .blockEntry | .blockEnd => true
  | _ => false

def endsBlockValue : Token → Bool
  | .key | .value | .blockEnd => true
  | _ => false

def endsIndentlessEntry (t : Token) : Bool := endsEntry t || endsBlockValue t

def endsFlowValue : Token → Bool
  | .flowEntry | .flowMappingEnd => true
  | _ => false

def endsFlowKey (t : Token) : Bool := t = .value || endsFlowValue t

def endsPairValue : Token → Bool
  | .flowEntry | .flowSequenceEnd => true
  | _ => false

def endsPairKey (t : Token) : Bool := t = .value || endsPairValue t

/-- The entries of a block sequence, up to its end. -/
def blockItems (read : Reader) : Nat → List Node → List Token → Option (Node × List Token)
  | 0, _, _ => none
  | fuel + 1, items, .blockEntry :: rest => do
    let (item, rest) ← optional read .block endsEntry rest
    blockItems read fuel (item :: items) rest
  | _, items, .blockEnd :: rest => some (sequence items.reverse, rest)
  | _, _, _ => none

/-- The entries of a sequence that stands at the indentation of its mapping. -/
def indentlessItems (read : Reader) : Nat → List Node → List Token → Option (Node × List Token)
  | 0, _, _ => none
  | fuel + 1, items, .blockEntry :: rest => do
    let (item, rest) ← optional read .block endsIndentlessEntry rest
    indentlessItems read fuel (item :: items) rest
  | _, items, rest => some (sequence items.reverse, rest)

/-- The value behind a key, if a value is written. -/
def valueAfter (read : Reader) (site : Site) (ends : Token → Bool) :
    List Token → Option (Node × List Token)
  | .value :: rest => optional read site ends rest
  | rest => some (nothing, rest)

/-- The entries of a block mapping, up to its end. -/
def blockEntries (read : Reader) :
    Nat → List (Node × Node) → List Token → Option (Node × List Token)
  | 0, _, _ => none
  | fuel + 1, entries, .key :: rest => do
    let (key, rest) ← optional read .blockMapping endsBlockValue rest
    let (value, rest) ← valueAfter read .blockMapping endsBlockValue rest
    blockEntries read fuel ((key, value) :: entries) rest
  | _, entries, .blockEnd :: rest => some (mapping entries.reverse, rest)
  | _, _, _ => none

/-- Between two entries of a flow collection stands a comma. -/
def comma (isFirst : Bool) : List Token → Option (List Token)
  | .flowEntry :: rest => if isFirst then none else some rest
  | rest => if isFirst then some rest else none

/-- A single pair among the items of a flow sequence. A value without a key is dropped. -/
def pair (read : Reader) (tokens : List Token) : Option (Node × List Token) := do
  let (key, rest) ←
    if tokens.head?.any endsPairKey then some (nothing, tokens.tail) else read .flow tokens
  let (value, rest) ← valueAfter read .flow endsPairValue rest
  some (mapping [(key, value)], rest)

/-- The items of a flow sequence, up to its end. -/
def flowItems (read : Reader) : Nat → List Node → List Token → Option (Node × List Token)
  | 0, _, _ => none
  | _, items, .flowSequenceEnd :: rest => some (sequence items.reverse, rest)
  | fuel + 1, items, tokens => do
    match ← comma items.isEmpty tokens with
    | .flowSequenceEnd :: rest => some (sequence items.reverse, rest)
    | .key :: rest => do
      let (item, rest) ← pair read rest
      flowItems read fuel (item :: items) rest
    | rest => do
      let (item, rest) ← read .flow rest
      flowItems read fuel (item :: items) rest

/-- The entries of a flow mapping, up to its end. -/
def flowEntries (read : Reader) :
    Nat → List (Node × Node) → List Token → Option (Node × List Token)
  | 0, _, _ => none
  | _, entries, .flowMappingEnd :: rest => some (mapping entries.reverse, rest)
  | fuel + 1, entries, tokens => do
    match ← comma entries.isEmpty tokens with
    | .flowMappingEnd :: rest => some (mapping entries.reverse, rest)
    | .key :: rest => do
      let (key, rest) ← optional read .flow endsFlowKey rest
      let (value, rest) ← valueAfter read .flow endsFlowValue rest
      flowEntries read fuel ((key, value) :: entries) rest
    | rest => do
      let (key, rest) ← read .flow rest
      flowEntries read fuel ((key, nothing) :: entries) rest

/-- Reads a node in front of fewer tokens than `bound`. Inside a collection its first token is
missing, so that the bound may be lower there. -/
def read : Nat → Reader
  | 0, _, _ => none
  | bound + 1, site, tokens =>
    match tokens with
    | .scalar text isPlain :: rest => some (scalar text isPlain, rest)
    | .flowSequenceStart :: rest => flowItems (read bound) (bound + 1) [] rest
    | .flowMappingStart :: rest => flowEntries (read bound) (bound + 1) [] rest
    | .blockSequenceStart :: rest =>
      if site = .flow then none else blockItems (read bound) (bound + 1) [] rest
    | .blockMappingStart :: rest =>
      if site = .flow then none else blockEntries (read bound) (bound + 1) [] rest
    | .blockEntry :: _ =>
      if site = .blockMapping then indentlessItems (read bound) (bound + 1) [] tokens else none
    | _ => none

/-- The root of the document whose tokens begin here. -/
def root (tokens : List Token) : Option (Node × List Token) :=
  let bound := tokens.length + 1
  match tokens with
  | [] => some (nothing, [])
  | .documentStart :: rest => match rest with
    | [] | .documentEnd :: _ => some (nothing, rest)
    | _ => read bound .block rest
  | _ => read bound .block tokens

/-- The tree of the single document in a text. -/
def ofText? (text : String) : Option Node := do
  let (node, rest) ← root (← tokens text)
  if rest.all (· = .documentEnd) then some node else none

end Node

end BrailleScore.Yaml
