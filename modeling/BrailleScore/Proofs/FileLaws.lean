import Mathlib.Tactic.Lemma
import BrailleScore.FileSystem

/-!
# Writing a file

What is relied on in a file system: a file is opened, which empties it, and then filled. Then the
text that is written is the whole content of one file, and no other file changes. Where writing
fails, that file alone can be spoilt, and it is only if there was no room for the text.
-/

namespace BrailleScore.FileSystem

variable {State File : Type}

/-- All files are as they were. -/
def Unchanged (fs : FileSystem State File) (before after : State) : Prop :=
  ∀ file, fs.content? after file = fs.content? before file

/-- All other files are as they were. -/
def UnchangedBut (fs : FileSystem State File) (file : File) (before after : State) : Prop :=
  ∀ other, other ≠ file → fs.content? after other = fs.content? before other

/-- The file that the path leads to has nothing in it and is, if there was none before, a new one.
All other files are as they were. -/
structure Opened (fs : FileSystem State File) (before : State) (path : String) (file : File)
    (after : State) : Prop where
  located : fs.locate? after path = some file
  kept : ∀ old, fs.locate? before path = some old → old = file
  added : fs.locate? before path = none → fs.content? before file = none
  empty : fs.content? after file = some "".toUTF8
  others : fs.UnchangedBut file before after

/-- What the operations of a file system answer and change. -/
structure Lawful (fs : FileSystem State File) : Prop where
  /-- What is read is the content of the file that the path leads to. -/
  read_ok {state : State} {path text : String} (h : fs.read state path = .ok text) :
    ∃ file, fs.locate? state path = some file ∧ fs.content? state file = some text.toUTF8
  /-- A file that cannot be opened is left as it is. -/
  create_error {before after : State} {path reason : String}
    (h : fs.create before path = (.error reason, after)) : fs.Unchanged before after
  create_ok {before after : State} {path : String} {file : File}
    (h : fs.create before path = (.ok file, after)) : fs.Opened before path file after
  /-- Filling a file changes no other one, nor does the file move. -/
  fill {before after : State} {file : File} {text : String} {result : Except String Unit}
    (h : fs.fill before file text = (result, after)) : fs.UnchangedBut file before after ∧
      ∀ path, fs.locate? before path = some file → fs.locate? after path = some file
  /-- An empty file is filled with the whole text. -/
  fill_ok {before after : State} {file : File} {text : String}
    (h : fs.fill before file text = (.ok (), after))
    (hempty : fs.content? before file = some "".toUTF8) :
    fs.content? after file = some text.toUTF8

/-- What is written to an open file finds room. -/
def HasRoom (fs : FileSystem State File) : Prop :=
  ∀ state file text, (fs.fill state file text).1 = .ok ()

/-- The path leads to a file that can be opened and that the text can be written to. -/
def Takes (fs : FileSystem State File) (state : State) (path text : String) : Prop :=
  ∃ file opened, fs.create state path = (.ok file, opened) ∧
    (fs.fill opened file text).1 = .ok ()

/-- The text is the whole content of the file, which the path leads to as far as it led anywhere,
and all other files are as they were. Nothing but the text is read from the file, under any path. -/
structure Replaced (fs : FileSystem State File) (before : State) (path text : String)
    (file : File) (after : State) : Prop where
  located : fs.locate? after path = some file
  kept : ∀ old, fs.locate? before path = some old → old = file
  added : fs.locate? before path = none → fs.content? before file = none
  content : fs.content? after file = some text.toUTF8
  others : fs.UnchangedBut file before after
  read : ∀ other old, fs.locate? after other = some file → fs.read after other = .ok old →
    old = text

variable {fs : FileSystem State File} {before after : State} {path text reason : String}

lemma write_cases (fs : FileSystem State File) (before : State) (path text : String) :
    (∃ reason after, fs.create before path = (.error reason, after) ∧
      fs.write before path text = (.error reason, after)) ∨
    ∃ file opened, fs.create before path = (.ok file, opened) ∧
      fs.write before path text = fs.fill opened file text := by
  unfold write
  obtain ⟨reason | file, opened⟩ := fs.create before path
  · exact .inl ⟨reason, opened, rfl, rfl⟩
  · exact .inr ⟨file, opened, rfl, rfl⟩

lemma write_eq_ok : (fs.write before path text).1 = .ok () ↔ fs.Takes before path text := by
  obtain ⟨reason, after, hcreate, hwrite⟩ | ⟨file, opened, hcreate, hwrite⟩ :=
    fs.write_cases before path text
  · simp [Takes, hcreate, hwrite]
  · simp [Takes, hcreate, hwrite, and_assoc]

lemma UnchangedBut.trans {file : File} {between : State} (h : fs.UnchangedBut file before between)
    (h' : fs.UnchangedBut file between after) : fs.UnchangedBut file before after :=
  fun other hother => (h' other hother).trans (h other hother)

namespace Lawful

/-- A text that has been written takes the place of what the file held. -/
theorem replaced (hfs : fs.Lawful) (h : fs.write before path text = (.ok (), after)) :
    ∃ file, fs.Replaced before path text file after := by
  obtain ⟨reason, s, -, hwrite⟩ | ⟨file, opened, hcreate, hwrite⟩ := fs.write_cases before path text
  · cases hwrite.symm.trans h
  · have hopened := hfs.create_ok hcreate
    have hfill := hwrite.symm.trans h
    obtain ⟨hothers, hlocated⟩ := hfs.fill hfill
    have hcontent := hfs.fill_ok hfill hopened.empty
    refine ⟨file, hlocated path hopened.located, hopened.kept, hopened.added, hcontent,
      hopened.others.trans hothers, fun other old hother hread => ?_⟩
    obtain ⟨file', hlocated', hcontent'⟩ := hfs.read_ok hread
    obtain rfl := Option.some.inj (hother.symm.trans hlocated')
    exact String.toByteArray_inj.mp (Option.some.inj (hcontent'.symm.trans hcontent))

/-- Only the file that was to be written can have changed when writing fails. -/
theorem spoilt (hfs : fs.Lawful) (h : fs.write before path text = (.error reason, after))
    {file : File} (hfile : fs.content? after file ≠ fs.content? before file) :
    fs.locate? after path = some file := by
  obtain ⟨reason, s, hcreate, hwrite⟩ | ⟨file', opened, hcreate, hwrite⟩ :=
    fs.write_cases before path text
  · cases hwrite.symm.trans h
    exact absurd (hfs.create_error hcreate file) hfile
  · have hopened := hfs.create_ok hcreate
    obtain ⟨hothers, hlocated⟩ := hfs.fill (hwrite.symm.trans h)
    by_cases hne : file = file'
    · rw [hne]
      exact hlocated path hopened.located
    · exact absurd (hopened.others.trans hothers file hne) hfile

theorem unchanged (hfs : fs.Lawful) (hroom : fs.HasRoom)
    (h : fs.write before path text = (.error reason, after)) : fs.Unchanged before after := by
  obtain ⟨reason, s, hcreate, hwrite⟩ | ⟨file, opened, -, hwrite⟩ :=
    fs.write_cases before path text
  · cases hwrite.symm.trans h
    exact hfs.create_error hcreate
  · have hfill := hroom opened file text
    rw [hwrite.symm.trans h] at hfill
    cases hfill

end Lawful

end BrailleScore.FileSystem
