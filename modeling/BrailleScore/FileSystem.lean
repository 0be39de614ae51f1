/-!
What a program can do with files, whatever system it runs on: a path leads to a file, which has a
content. Paths are not files, several of them may lead to the same one.
-/

namespace BrailleScore

/-- A file system with states of its own. What cannot be done fails with a reason. -/
structure FileSystem (State File : Type) where
  /-- The file that a path leads to. -/
  locate? : State → String → Option File
  /-- The bytes of a file, if there is such a file. -/
  content? : State → File → Option ByteArray
  /-- The text that a file holds. -/
  read : State → String → Except String String
  /-- Opens a file for writing, which empties it. A file that is missing is added. -/
  create : State → String → Except String File × State
  /-- Writes a text to an empty file that has been opened. This may stop half-way. -/
  fill : State → File → String → Except String Unit × State

/-- Gives a file a new content. -/
def FileSystem.write {State File : Type} (fs : FileSystem State File) (state : State)
    (path text : String) : Except String Unit × State :=
  match fs.create state path with
  | (.error reason, state) => (.error reason, state)
  | (.ok file, state) => fs.fill state file text

end BrailleScore
