import BrailleScore.Document.Fields
import BrailleScore.Options

/-! Options documents: a mapping with known keys only, each of which may be left out. -/

namespace BrailleScore.Options

open Yaml

def Choices.keys : List String :=
  ["page-width", "page-height", "show-fingering", "unsupported", "compress-repeats",
    "part-indicators"]

def Choices.ofNode? (n : Node) : Option Choices := do
  let fields ← n.fields?
  if fields.all fun field => keys.contains field.1 then
    let number (key : String) := do
      Node.readUnlessNull? (Node.nat? (Nat.pow 2 64)) (← Node.field? fields key)
    let switch (key : String) := do Node.readUnlessNull? Node.bool? (← Node.field? fields key)
    let width ← number "page-width"
    let height ← number "page-height"
    let showFingering ← switch "show-fingering"
    let unsupported ← Node.readUnlessNull? Node.spelling? (← Node.field? fields "unsupported")
    let compressRepeats ← switch "compress-repeats"
    let handSigns ← switch "part-indicators"
    some { width, height, showFingering, unsupported, compressRepeats, handSigns }
  else none

def Choices.ofText? (text : String) : Option Choices := (Node.ofText? text).bind Choices.ofNode?

end BrailleScore.Options
