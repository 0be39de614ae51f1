import BrailleScore.FileSystem

/-!
A tree of folders and files. A path is followed name by name, so that every name but the last must
be that of a folder.
-/

namespace BrailleScore

/-- Why a file cannot be used. -/
inductive Obstacle where
  | missing
  | notFolder
  | isFolder
  | longName
deriving DecidableEq, Repr

namespace Obstacle

def message : Obstacle → String
  | missing => "No such file or directory (os error 2)"
  | notFolder => "Not a directory (os error 20)"
  | isFolder => "Is a directory (os error 21)"
  | longName => "File name too long (os error 36)"

end Obstacle

/-- The names of the folders around a file, the outermost first, and its own. -/
abbrev Location := List (List Char)

/-- A path, by the names that it passes. -/
structure Path where
  /-- It begins at the folder around all others. -/
  fromRoot : Bool
  names : List (List Char)
  /-- A slash follows the last name, which is then that of a folder. -/
  ofFolder : Bool
deriving DecidableEq, Repr

namespace Path

/-- What stands between the slashes. -/
def splitAtSlashes : List Char → List (List Char)
  | [] => [[]]
  | '/' :: rest => [] :: splitAtSlashes rest
  | c :: rest => match splitAtSlashes rest with
    | [] => [[c]]
    | name :: names => (c :: name) :: names

/-- The most bytes that a name may have. -/
def longestName : Nat := 255

/-- A whole path has fewer bytes than this. -/
def pathBound : Nat := 4096

/-- The bytes that a name takes up in UTF-8. -/
def bytes (name : List Char) : Nat := (name.map Char.utf8Size).foldr (· + ·) 0

def ofChars : List Char → Except Obstacle Path
  | [] => .error .missing
  | text =>
    if pathBound ≤ bytes text then .error .longName
    else .ok {
      fromRoot := text.head? = some '/'
      names := (splitAtSlashes text).filter fun name => name ≠ []
      ofFolder := text.getLast? = some '/' }

end Path

/-- Files and folders, each known by its whole location. -/
structure Files where
  /-- The folder that a path begins in if it does not begin at the root. -/
  home : Location := []
  /-- Folders that there are even without a file in them. -/
  folders : List Location := []
  entries : List (Location × String) := []
deriving DecidableEq, Repr

namespace Files

/-- Files in a folder of the root, given by paths from that folder downwards. -/
def ofList (entries : List (String × String)) : Files :=
  let home : Location := ["home".toList]
  { home, entries := entries.map fun (path, text) =>
      (home ++ (Path.splitAtSlashes path.toList).filter fun name => name ≠ [] ∧ name ≠ ['.'],
        text) }

/-- Where a path has led so far. -/
inductive Place where
  | folder (location : Location)
  | file (location : Location) (text : String)
  /-- Nothing, in a folder that exists. -/
  | vacant (location : Location)
deriving DecidableEq, Repr

/-- All folders around a folder or a file are there with it. -/
def isFolder (files : Files) (location : Location) : Bool :=
  (files.home :: files.folders ++ files.entries.map Prod.fst).any location.isPrefixOf

/-- What there is at a location whose folder exists. -/
def lookAt (files : Files) (location : Location) : Place :=
  match files.entries.lookup location with
  | some text => .file location text
  | none => if files.isFolder location then .folder location else .vacant location

/-- Follows one more name. The root is its own parent. -/
def step (files : Files) : Place → List Char → Except Obstacle Place
  | .file _ _, _ => .error .notFolder
  | .vacant _, _ => .error .missing
  | .folder location, name =>
    if name = ['.'] then .ok (.folder location)
    else if name = ['.', '.'] then .ok (.folder location.dropLast)
    else if Path.longestName < Path.bytes name then .error .longName
    else .ok (files.lookAt (location ++ [name]))

/-- Where a path leads. -/
def follow (files : Files) (path : Path) : Except Obstacle Place :=
  path.names.foldlM files.step (.folder (if path.fromRoot then [] else files.home))

/-- The content of the file that a path leads to. -/
def read (files : Files) (path : String) : Except Obstacle String := do
  let path ← Path.ofChars path.toList
  match ← files.follow path with
  | .file _ text => if path.ofFolder then .error .notFolder else .ok text
  | .vacant _ => .error .missing
  | .folder _ => .error .isFolder

/-- The location of the file that a path leads to, or of one that could be added there. -/
def target (files : Files) (path : String) : Except Obstacle Location := do
  let path ← Path.ofChars path.toList
  match ← files.follow path with
  | .file location _ | .vacant location =>
    if path.ofFolder then .error .isFolder else .ok location
  | .folder _ => .error .isFolder

/-- Replaces the file at a location, or adds one there. -/
def put (files : Files) (location : Location) (text : String) : Files :=
  if (files.entries.lookup location).isSome then
    { files with entries :=
        files.entries.map fun entry => if entry.1 = location then (location, text) else entry }
  else { files with entries := files.entries ++ [(location, text)] }

/-- The content of the file at a location, if there is one. -/
def content? (files : Files) (location : Location) : Option String := files.entries.lookup location

/-- The file that a path leads to. -/
def locate? (files : Files) (path : String) : Option Location :=
  (files.target path).toOption.filter fun location => (files.content? location).isSome

/-- Trees as a file system. There is room for every text. -/
def system : FileSystem Files Location where
  locate? := locate?
  content? files location := (files.content? location).map String.toUTF8
  read files path := (files.read path).mapError Obstacle.message
  create files path := match files.target path with
    | .error obstacle => (.error obstacle.message, files)
    | .ok location => (.ok location, files.put location "")
  fill files location text := (.ok (), files.put location text)

end Files

end BrailleScore
