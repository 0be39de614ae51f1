import BrailleScore.Proofs.Sessions

/-!
# Lines and pages

A page counts columns, lines and pages while it is written. What stands on it is a row of lines:
those that the pieces make on an endless scroll, and behind every so many of them a line with the
number of the page that they fill. So the height of the pages never changes a line of the music.
-/

namespace BrailleScore

/-- The line with the number of a page, which stands on the right. -/
def Page.numberLine (width n : Nat) : List Char :=
  List.replicate (width - (Decimal.text n).length) ' ' ++ Decimal.text n

/-- A line of the text by what stands on it. -/
inductive Line where
  | heading (name : List Char)
  | music (text : List Char)
  | number (n : Nat)
deriving DecidableEq, Repr

namespace Line

def text (width : Nat) : Line → List Char
  | heading name => name
  | music text => text
  | number n => Page.numberLine width n

/-- The number of the page that is full with `count` lines. -/
def pageEnd (height count : Nat) : List Line :=
  if count % height = 0 then [number (count / height)] else []

/-- Lines behind `count` others, each page that is full with its number. -/
def paged (height : Nat) : Nat → List Line → List Line
  | _, [] => []
  | count, line :: rest => line :: (pageEnd height (count + 1) ++ paged height (count + 1) rest)

def finish (width : Nat) (lines : List Line) : List Char :=
  lines.flatMap fun line => line.text width ++ ['\n']

lemma paged_append (height count : Nat) (ls ms : List Line) : paged height count (ls ++ ms) =
    paged height count ls ++ paged height (count + ls.length) ms := by
  induction ls generalizing count with
  | nil => rfl
  | cons l ls ih =>
    have hcount : count + (l :: ls).length = count + 1 + ls.length := by
      rw [List.length_cons]
      omega
    rw [List.cons_append, paged, paged, ih, hcount, List.cons_append, List.append_assoc]

lemma paged_singleton (height count : Nat) (l : Line) :
    paged height count [l] = l :: pageEnd height (count + 1) := by
  simp [paged]

@[simp] lemma finish_append (width : Nat) (ls ms : List Line) :
    finish width (ls ++ ms) = finish width ls ++ finish width ms := by
  simp [finish]

/-- Finished lines with an unfinished one behind them are joined by line ends. -/
lemma finish_append_eq_intercalate (width : Nat) (ls : List Line) (last : List Char) :
    finish width ls ++ last = ['\n'].intercalate (ls.map (text width) ++ [last]) := by
  induction ls with
  | nil => simp [finish]
  | cons l ls ih =>
    have hne : ls.map (text width) ++ [last] ≠ [] := by simp
    have hcons : finish width (l :: ls) ++ last =
        l.text width ++ ['\n'] ++ (finish width ls ++ last) := by
      simp [finish]
    rw [hcons, ih, List.map_cons, List.cons_append]
    obtain ⟨m, ms, hms⟩ := List.exists_cons_of_ne_nil hne
    rw [hms]
    simp [List.intercalate]

end Line

/-- Lines on a scroll: those that are finished and the one that is being written. -/
structure Scroll where
  finished : List Line := []
  current : List Char := []

namespace Scroll

def write (t : List Char) (s : Scroll) : Scroll := { s with current := s.current ++ t }

def endLine (s : Scroll) : Scroll := ⟨s.finished ++ [.music s.current], []⟩

def freshLine (s : Scroll) : Scroll := if s.current = [] then s else s.endLine

/-- Places a piece as on a page, on a scroll that may be endlessly wide. -/
def place (width : Option Nat) (s : Scroll) : Layout.Piece → Scroll
  | .heading name => ⟨s.freshLine.finished ++ [.heading name], []⟩
  | .staff => s.freshLine.write (List.replicate Layout.staffIndent ' ')
  | .voice text =>
    if s.current ≠ [] ∧ ¬ width.all (s.current.length + text.length ≤ ·) then s.endLine.write text
    else s.write text
  | .glue text => s.write text

def ofPieces (width : Option Nat) (pieces : List Layout.Piece) : Scroll :=
  pieces.foldl (place width) {}

lemma place_voice_of_fits {width : Nat} {s : Scroll} {t : List Char}
    (h : s.current = [] ∨ s.current.length + t.length ≤ width) :
    s.place (some width) (.voice t) = s.write t := by
  have hfits : ¬ (s.current ≠ [] ∧
      ¬ (some width).all (s.current.length + t.length ≤ ·) = true) := by
    rintro ⟨hne, hlong⟩
    obtain hempty | hle := h
    · exact hne hempty
    · exact hlong (decide_eq_true hle)
  exact if_neg hfits

lemma place_voice_of_lt {width : Nat} {s : Scroll} {t : List Char} (hne : s.current ≠ [])
    (hlt : width < s.current.length + t.length) :
    s.place (some width) (.voice t) = s.endLine.write t := by
  have hlong : ¬ (some width).all (s.current.length + t.length ≤ ·) = true := by
    intro hle
    exact absurd (of_decide_eq_true hle) (by omega)
  exact if_pos ⟨hne, hlong⟩

lemma place_voice_none (s : Scroll) (t : List Char) : s.place none (.voice t) = s.write t := by
  have hfits : ¬ (s.current ≠ [] ∧ ¬ none.all (s.current.length + t.length ≤ ·) = true) :=
    fun h => h.2 rfl
  exact if_neg hfits

/-- The text of the scroll on pages. -/
def text (size : Options.PageSize) (s : Scroll) : List Char :=
  Line.finish size.width (Line.paged size.height 0 s.finished) ++ s.current

/-- The lines of that text, the unfinished one among them. -/
def pageLines (height : Nat) (s : Scroll) : List Line :=
  Line.paged height 0 s.finished ++ [.music s.current]

lemma text_eq_intercalate (size : Options.PageSize) (s : Scroll) : s.text size =
    ['\n'].intercalate ((s.pageLines size.height).map (Line.text size.width)) := by
  rw [text, Line.finish_append_eq_intercalate, pageLines, List.map_append]
  rfl

lemma text_write (size : Options.PageSize) (t : List Char) (s : Scroll) :
    (s.write t).text size = s.text size ++ t := by
  simp [text, write]

/-- A line that ends takes the number of its page with it if the page is full. -/
lemma text_finish (size : Options.PageSize) (s : Scroll) {line : Line}
    (h : line.text size.width = s.current) :
    (⟨s.finished ++ [line], []⟩ : Scroll).text size = s.text size ++ '\n' ::
      Line.finish size.width (Line.pageEnd size.height (s.finished.length + 1)) := by
  have hpaged : Line.paged size.height 0 (s.finished ++ [line]) =
      Line.paged size.height 0 s.finished ++
        line :: Line.pageEnd size.height (s.finished.length + 1) := by
    rw [Line.paged_append, Line.paged_singleton, Nat.zero_add]
  have hline : Line.finish size.width [line] = s.current ++ ['\n'] := by
    simp [Line.finish, h]
  rw [text, hpaged, text, ← List.singleton_append, Line.finish_append, Line.finish_append, hline]
  simp

end Scroll

/-! ### What a page shows -/

/-- The page shows the lines of the scroll, and its counters tell where the scroll ends. -/
structure Page.Shows (p : Page) (s : Scroll) : Prop where
  text : p.text = s.text p.size
  column : p.column = s.current.length
  line : p.line = s.finished.length % p.size.height
  number : p.number = s.finished.length / p.size.height + 1

lemma succ_mod (n height : Nat) :
    (n + 1) % height = if n % height + 1 = height then 0 else n % height + 1 := by
  obtain rfl | hpos := Nat.eq_zero_or_pos height
  · simp
  · have hlt := Nat.mod_lt n hpos
    have hsucc : (n + 1) % height = (n % height + 1) % height := by rw [Nat.mod_add_mod]
    rw [hsucc]
    by_cases hfull : n % height + 1 = height
    · rw [if_pos hfull, hfull, Nat.mod_self]
    · rw [if_neg hfull, Nat.mod_eq_of_lt (by omega)]

namespace Page.Shows

variable {p : Page} {s : Scroll}

lemma blank (size : Options.PageSize) : (Page.blank size).Shows {} := by
  constructor
  · rfl
  · rfl
  · exact (Nat.zero_mod size.height).symm
  · simp [Page.blank]

lemma write (h : p.Shows s) (t : List Char) : (p.write t).Shows (s.write t) := by
  constructor
  · rw [Page.text_write, h.text, ← Scroll.text_write]
    rfl
  · have hlength : (s.current ++ t).length = s.current.length + t.length := List.length_append
    change p.column + t.length = (s.current ++ t).length
    rw [h.column, hlength]
  · exact h.line
  · exact h.number

/-- Where a page ends a line, the scroll has one more finished line. -/
theorem newline (h : p.Shows s) {line : Line} (hline : line.text p.size.width = s.current) :
    p.newline.Shows ⟨s.finished ++ [line], []⟩ := by
  let ended : Page := { p with written := '\n' :: p.written, column := 0, line := p.line + 1 }
  have htext := Scroll.text_finish p.size s hline
  have hlength : (s.finished ++ [line]).length = s.finished.length + 1 := by simp
  have hmod := succ_mod s.finished.length p.size.height
  rw [← h.line] at hmod
  by_cases hturn : p.line + 1 = p.size.height
  · -- The page is full: its number stands on a line of its own.
    rw [if_pos hturn] at hmod
    have hdiv : (s.finished.length + 1) / p.size.height = p.number := by
      rw [Nat.succ_div_of_mod_eq_zero hmod, h.number]
    have hnewline : p.newline = ended.turn := if_pos hturn
    have hended : ended.text = p.text ++ ['\n'] := by simp [Page.text, ended]
    constructor
    · rw [Pass.size_newline, htext, Line.pageEnd, if_pos hmod, hdiv, ← h.text, hnewline,
        Page.text_turn, Page.text_indent, hended]
      simp [Line.finish, Line.text, Page.numberLine, ended]
    · rw [hnewline]
      rfl
    · rw [hnewline, hlength]
      exact hmod.symm
    · rw [hnewline, hlength]
      change p.number + 1 = (s.finished.length + 1) / p.size.height + 1
      rw [hdiv]
  · rw [if_neg hturn] at hmod
    have hne : (s.finished.length + 1) % p.size.height ≠ 0 := by omega
    have hnewline : p.newline = ended := if_neg hturn
    constructor
    · rw [Page.text_newline_of_ne hturn, h.text, Pass.size_newline, htext, Line.pageEnd,
        if_neg hne]
      rfl
    · rw [hnewline]
      rfl
    · rw [hnewline, hlength]
      exact hmod.symm
    · rw [hnewline, hlength]
      change p.number = (s.finished.length + 1) / p.size.height + 1
      rw [Nat.succ_div_of_mod_ne_zero hne, h.number]

lemma freshLine (h : p.Shows s) : p.freshLine.Shows s.freshLine := by
  have hcolumn := h.column
  unfold Page.freshLine Scroll.freshLine
  by_cases hempty : s.current = []
  · have hzero : p.column = 0 := by rw [hcolumn, hempty, List.length_nil]
    rw [if_neg (by omega), if_pos hempty]
    exact h
  · have hpos := List.length_pos_of_ne_nil hempty
    rw [if_pos (by omega), if_neg hempty]
    exact h.newline rfl

lemma current_freshLine (s : Scroll) : s.freshLine.current = [] := by
  unfold Scroll.freshLine
  split
  · assumption
  · rfl

/-- Each piece takes a page on as it takes the scroll on. -/
theorem place (h : p.Shows s) (piece : Layout.Piece) :
    (Layout.place p piece).Shows (s.place (some p.size.width) piece) := by
  have hfresh := h.freshLine
  have hcurrent := current_freshLine s
  cases piece with
  | heading name =>
    have hline : Line.text p.freshLine.size.width (.heading name) =
        (s.freshLine.write name).current := by
      rw [Scroll.write, hcurrent, List.nil_append]
      rfl
    exact (hfresh.write name).newline hline
  | staff =>
    have hcolumn : p.freshLine.column = 0 := by rw [hfresh.column, hcurrent, List.length_nil]
    have hindent := hfresh.write (List.replicate Layout.staffIndent ' ')
    rw [Layout.place, Page.indent, hcolumn]
    exact hindent
  | voice text =>
    have hcolumn := h.column
    have hbusy : 0 < p.column ↔ s.current ≠ [] := by rw [hcolumn, List.length_pos_iff]
    have hfits : p.fits text = (some p.size.width).all (s.current.length + text.length ≤ ·) := by
      rw [Page.fits, hcolumn]
      rfl
    rw [Layout.place, Scroll.place, hfits]
    simp only [Bool.and_eq_true, decide_eq_true_eq, Bool.not_eq_true', hbusy, Bool.not_eq_true]
    split
    · have hline : Line.text p.size.width (.music s.current) = s.current := rfl
      exact (h.newline hline).write text
    · exact h.write text
  | glue text => exact h.write text

end Page.Shows

theorem Layout.shows_pages (size : Options.PageSize) (pieces : List Piece) :
    (pages size pieces).Shows (Scroll.ofPieces (some size.width) pieces) := by
  have hplaces (p : Page) (s : Scroll) (h : p.Shows s) :
      (pieces.foldl place p).Shows (pieces.foldl (Scroll.place (some p.size.width)) s) := by
    induction pieces generalizing p s with
    | nil => exact h
    | cons piece pieces ih =>
      have hstep := ih _ _ (h.place piece)
      rw [Pass.size_place] at hstep
      exact hstep
  exact hplaces (Page.blank size) {} (Page.Shows.blank size)

/-- The text of pages is that of the scroll, with the numbers of the full pages. -/
theorem Layout.text_pages (size : Options.PageSize) (pieces : List Piece) :
    (pages size pieces).text = (Scroll.ofPieces (some size.width) pieces).text size := by
  have hsize : (pages size pieces).size = size := Transcriber.size_pages size pieces
  have htext := (shows_pages size pieces).text
  rw [hsize] at htext
  exact htext

lemma Transcriber.transcribe_new_of_script {options : Options} {s : Score} {script : Script}
    (h : s.script options.content = .ok script) : (new options).transcribe s =
      (.ok (Transcript.ofScript options script).text,
        ⟨options, Transcript.ofScript options script⟩) := by
  have htranscribe : s.transcribe (new options).options =
      .ok (Transcript.ofScript options script) := by
    rw [Score.transcribe]
    exact congrArg (Except.map (Transcript.ofScript options)) h
  rw [transcribe_eq_run (fits_new options), run, htranscribe]
  rfl

lemma Transcriber.exists_script_of_transcribe_new {options : Options} {s : Score}
    {text : List Char} (h : ((new options).transcribe s).1 = .ok text) :
    ∃ script, s.script options.content = .ok script ∧
      (Transcript.ofScript options script).text = text := by
  cases hscript : s.script options.content with
  | error f =>
    have hfault : s.transcribe (new options).options = .error f :=
      congrArg (Except.map (Transcript.ofScript options)) hscript
    rw [transcribe_eq_run (fits_new options), run, hfault] at h
    cases h
  | ok script =>
    rw [transcribe_new_of_script hscript] at h
    exact ⟨script, rfl, Except.ok.inj h⟩

/-- The text that a transcriber gives is that of a scroll for the script of the score. -/
theorem Transcriber.answer_transcribe_new (options : Options) (s : Score) :
    ((new options).transcribe s).1 = (s.script options.content).map fun script =>
      (Scroll.ofPieces (some options.page.width)
        (Layout.pieces options.style script)).text options.page := by
  have hscript : s.transcribe (new options).options =
      (s.script options.content).map (Transcript.ofScript options) := rfl
  rw [transcribe_eq_run (fits_new options), run, hscript]
  cases s.script options.content with
  | error f => rfl
  | ok script => exact congrArg Except.ok (Layout.text_pages options.page _)

lemma Transcriber.tally_transcribe_new (options : Options) (s : Score) :
    ((new options).transcribe s).2.last.tally =
      match s.script options.content with
      | .ok script => script.tally
      | .error _ => {} := by
  have hscript : s.transcribe (new options).options =
      (s.script options.content).map (Transcript.ofScript options) := rfl
  rw [transcribe_eq_run (fits_new options), run, hscript]
  cases s.script options.content <;> rfl

end BrailleScore
