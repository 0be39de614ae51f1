import BrailleScore.BrailleAscii
import BrailleScore.Script.Layout

/-! Transcription of scores to pages of braille. -/

namespace BrailleScore

/-- What a successful transcription leaves. -/
structure Transcript where
  page : Page
  /-- How often each note or rest was written. -/
  tally : Tally (List Sign)
deriving DecidableEq, Repr

namespace Transcript

def text (t : Transcript) : List Char := t.page.text

/-- Nothing was written. -/
def empty (options : Options) : Transcript := ⟨Page.blank options.page, {}⟩

def ofScript (options : Options) (s : Script) : Transcript :=
  ⟨Layout.pages options.page (Layout.pieces options.style s), s.tally⟩

end Transcript

namespace Score

def transcribe (options : Options) (s : Score) : Except Fault Transcript :=
  (s.script options.content).map (Transcript.ofScript options)

/-- The transcription in Braille ASCII. -/
def transcribeAscii (options : Options) (s : Score) : Except Fault (List Char) := do
  let t ← s.transcribe options
  BrailleAscii.encode t.text

end Score

/-- Options together with what the last run left. -/
structure Transcriber where
  options : Options
  last : Transcript
deriving DecidableEq, Repr

namespace Transcriber

def new (options : Options) : Transcriber := ⟨options, Transcript.empty options⟩

/-- Transcribes one more score. A run that fails leaves nothing. -/
def run (t : Transcriber) (s : Score) : Except Fault (List Char) × Transcriber :=
  match s.transcribe t.options with
  | .ok transcript => (.ok transcript.text, { t with last := transcript })
  | .error f => (.error f, { t with last := Transcript.empty t.options })

end Transcriber

end BrailleScore
