import BrailleScore.Document.Decoder
import BrailleScore.FileSystem
import BrailleScore.Transcriber

/-!
The command line: `[--brf] <timeline> [options] [output]`. What a call answers depends on the
files that it reads; all that it writes is its output file, in the end.
-/

namespace BrailleScore.Command

/-- A call with one to three file names. -/
structure Invocation where
  /-- The text is wanted in Braille ASCII. -/
  ascii : Bool
  timeline : String
  options : Option String := none
  output : Option String := none
deriving DecidableEq, Repr

def usage : String := "Usage: brlmusic [--brf] <timeline.yaml> [options.yaml] [output]"

def Invocation.ofNames? (ascii : Bool) : List String → Option Invocation
  | [timeline] => some { ascii, timeline }
  | [timeline, options] => some { ascii, timeline, options := some options }
  | [timeline, options, output] =>
    some { ascii, timeline, options := some options, output := some output }
  | _ => none

/-- The flag counts as one only in the first place. -/
def Invocation.ofArgs? : List String → Option Invocation
  | "--brf" :: names => ofNames? true names
  | names => ofNames? false names

def cannotRead (path reason : String) : String :=
  "Error reading file '" ++ path ++ "': " ++ reason

def cannotWrite (path reason : String) : String := "Error writing to '" ++ path ++ "': " ++ reason

def unusable (path : String) (f : Fault) : String := "Error in '" ++ path ++ "': " ++ f.describe

def transcriptionFailed (f : Fault) : String := "Transcription error: " ++ f.describe

def written (path : String) : String := "Wrote braille to " ++ path

/-- The content of a file, where `read` gives that or the reason why there is none. -/
def content (read : String → Except String String) (path : String) : Except String String :=
  (read path).mapError (cannotRead path)

/-- Both files are read before the options, and these are understood before the timeline. -/
def Invocation.inputs (decoder : Decoder) (read : String → Except String String)
    (i : Invocation) : Except String (Options × Score) := do
  let timeline ← content read i.timeline
  let options ← match i.options with
    | none => pure {}
    | some path => do
      let text ← content read path
      (Options.load decoder text).mapError (unusable path)
  let score ← (Score.load decoder timeline).mapError (unusable i.timeline)
  pure (options, score)

/-- The text that a call is to print or to write, or the message it fails with. -/
def Invocation.answer (decoder : Decoder) (read : String → Except String String)
    (i : Invocation) : Except String (List Char) := do
  let (options, score) ← i.inputs decoder read
  let text := if i.ascii then score.transcribeAscii options
    else (score.transcribe options).map Transcript.text
  text.mapError transcriptionFailed

/-- What a call leaves. -/
structure Outcome (State : Type) where
  exit : Nat
  output : String := ""
  messages : String := ""
  files : State
deriving DecidableEq, Repr

variable {State File : Type}

def Outcome.failure (files : State) (message : String) : Outcome State :=
  { exit := 1, messages := message ++ "\n", files }

/-- Prints a text, or writes it to the output file. -/
def deliver (fs : FileSystem State File) (files : State) (text : List Char) :
    Option String → Outcome State
  | none => { exit := 0, output := String.ofList text ++ "\n", files }
  | some path => match fs.write files path (String.ofList text) with
    | (.error reason, files) => .failure files (cannotWrite path reason)
    | (.ok _, files) => { exit := 0, messages := written path ++ "\n", files }

/-- Runs a call. -/
def run (decoder : Decoder) (fs : FileSystem State File) (args : List String) (files : State) :
    Outcome State :=
  match Invocation.ofArgs? args with
  | none => .failure files usage
  | some i =>
    match i.answer decoder (fs.read files) with
    | .error message => .failure files message
    | .ok text => deliver fs files text i.output

end BrailleScore.Command
