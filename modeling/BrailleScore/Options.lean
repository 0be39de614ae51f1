import BrailleScore.Music.Vocabulary

/-! The options of a transcription: page size, what is written, and how it is laid out. -/

namespace BrailleScore

namespace Options

/-- What to do with notation that braille has no sign for. -/
inductive Policy where
  /-- Fail. -/
  | strict
  /-- Leave the sign out. -/
  | lenient
deriving DecidableEq, Repr

namespace Policy

def read (text : String) : Except Fault Policy :=
  match Text.trim text with
  | "strict" => .ok strict
  | "omit" => .ok lenient
  | word => Fault.raise (.unknownPolicy word)

end Policy

/-- What is written of a note. -/
structure Content where
  showFingering : Bool := false
  unsupported : Policy := .strict
deriving DecidableEq, Repr

/-- How the written notes are put together. -/
structure Style where
  /-- Abbreviate runs of equal notes. -/
  compressRepeats : Bool := false
  /-- Mark the staves of two-staff segments as right and left hand. -/
  handSigns : Bool := true
deriving DecidableEq, Repr

/-- The size of a page: characters in a line, lines above the page number. -/
structure PageSize where
  width : Nat := 40
  height : Nat := 25
deriving DecidableEq, Repr

/-- Options as a document gives them; what it leaves out has its default. -/
structure Choices where
  width : Option Nat := none
  height : Option Nat := none
  showFingering : Option Bool := none
  unsupported : Option String := none
  compressRepeats : Option Bool := none
  handSigns : Option Bool := none
deriving DecidableEq, Repr

def leastWidth : Nat := 8

end Options

structure Options where
  page : Options.PageSize := {}
  content : Options.Content := {}
  style : Options.Style := {}
deriving DecidableEq, Repr

namespace Options

def ofChoices (c : Choices) : Except Fault Options := do
  let width := c.width.getD 40
  let height := c.height.getD 25
  if width < leastWidth then Fault.raise (.pageTooNarrow leastWidth width)
  if height = 0 then Fault.raise .pageTooLow
  let unsupported ← match c.unsupported with
    | some text => Policy.read text
    | none => pure .strict
  pure {
    page := ⟨width, height⟩
    content := ⟨c.showFingering.getD false, unsupported⟩
    style := ⟨c.compressRepeats.getD false, c.handSigns.getD true⟩ }

end Options

end BrailleScore
