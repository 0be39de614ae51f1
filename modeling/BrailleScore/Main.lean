import BrailleScore.Command
import BrailleScore.Files
import BrailleScore.Yaml.Decoder

/-! The program, which reads and writes the files of a call. -/

namespace BrailleScore

open Command

def reason : IO.Error → String
  | .noFileOrDirectory .. => Obstacle.missing.message
  | .inappropriateType _ code _ =>
    if code = 21 then Obstacle.isFolder.message else Obstacle.notFolder.message
  | e => toString e

/-- The content of the files of a call, read in advance. -/
def contents (paths : List String) : IO (List (String × Except String String)) :=
  paths.mapM fun (path : String) => do
    try
      let text ← IO.FS.readFile path
      pure (path, .ok text)
    catch e => pure (path, .error (reason e))

def fail (message : String) : IO UInt32 := do
  IO.eprintln message
  pure 1

def answer (i : Invocation) : IO UInt32 := do
  let files ← contents (i.timeline :: i.options.toList)
  match i.answer Yaml.decoder fun path => (files.lookup path).getD (.error Obstacle.missing.message) with
  | .error message => fail message
  | .ok text => match i.output with
    | none =>
      IO.println (String.ofList text)
      pure 0
    | some path =>
      try
        IO.FS.writeFile path (String.ofList text)
        IO.eprintln (written path)
        pure 0
      catch e => fail (cannotWrite path (reason e))

end BrailleScore

def main (args : List String) : IO UInt32 :=
  match BrailleScore.Command.Invocation.ofArgs? args with
  | none => BrailleScore.fail BrailleScore.Command.usage
  | some i => BrailleScore.answer i
