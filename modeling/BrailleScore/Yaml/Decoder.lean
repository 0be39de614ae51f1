import BrailleScore.Document.Decoder
import BrailleScore.Document.Settings
import BrailleScore.Document.Timeline

/-! Documents in YAML. -/

namespace BrailleScore.Yaml

/-- What is wrong with a document is not spelled out. -/
def unreadable : String := "<yaml>"

def decoder : Decoder where
  timeline text := (Draft.Score.ofText? text).elim (.error unreadable) .ok
  options text := (Options.Choices.ofText? text).elim (.error unreadable) .ok

end BrailleScore.Yaml
