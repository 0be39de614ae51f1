import BrailleScore.Proofs.NoteCount
import BrailleScore.Proofs.Reflow

/-!
# Parts one after the other

The parts of one score behind those of another are written as on pages of their own: only the line
that the others left unfinished is ended first. So neither a last pitch nor a hand sign nor a
column is carried from one part to the next. This file compares the run that begins behind other
parts with the one that begins on an empty page; both make the same lines.
-/

namespace BrailleScore

open Fault

/-- The parts of a second score behind those of the first. -/
def Score.append (s s' : Score) : Score := { s with parts := s.parts ++ s'.parts }

/-- The end of the line that stands unfinished behind a text, if there is such a line. -/
def Layout.lineEnd (t : List Char) : List Char :=
  if t = [] ∨ t.getLast? = some '\n' then [] else ['\n']

/-! ### What was written stays -/

namespace Page

/-- The lines that were ended, apart from the numbers of the pages. -/
def endedLines (p : Page) : Nat := (p.number - 1) * p.size.height + p.line

lemma Shows.endedLines {p : Page} {s : Scroll} (h : p.Shows s) :
    p.endedLines = s.finished.length := by
  have hsum := Nat.div_add_mod s.finished.length p.size.height
  rw [Page.endedLines, h.number, h.line, Nat.add_sub_cancel, Nat.mul_comm]
  exact hsum

lemma prefix_newline (p : Page) : p.text <+: p.newline.text := by
  by_cases hturn : p.line + 1 = p.size.height
  · have hnewline : p.newline =
        Page.turn { p with written := '\n' :: p.written, column := 0, line := p.line + 1 } :=
      if_pos hturn
    rw [hnewline, text_turn, text_indent, List.append_assoc, List.append_assoc]
    simp [text, List.append_assoc]
  · rw [text_newline_of_ne hturn]
    exact List.prefix_append _ _

lemma prefix_freshLine (p : Page) : p.text <+: p.freshLine.text := by
  unfold freshLine
  split
  · exact p.prefix_newline
  · exact List.prefix_rfl

lemma prefix_write (p : Page) (t : List Char) : p.text <+: (p.write t).text := by
  rw [text_write]
  exact List.prefix_append _ _

theorem prefix_place (p : Page) (piece : Layout.Piece) :
    p.text <+: (Layout.place p piece).text := by
  cases piece with
  | heading name =>
    exact p.prefix_freshLine.trans ((prefix_write _ _).trans (prefix_newline _))
  | staff => exact p.prefix_freshLine.trans (prefix_write _ _)
  | voice text =>
    rw [Layout.place]
    split
    · exact p.prefix_newline.trans (prefix_write _ _)
    · exact p.prefix_write text
  | glue text => exact p.prefix_write text

end Page

lemma Layout.prefix_pages (size : Options.PageSize) (ps qs : List Piece) :
    (pages size ps).text <+: (pages size (ps ++ qs)).text := by
  have hplaces (p : Page) : p.text <+: (qs.foldl place p).text := by
    induction qs generalizing p with
    | nil => exact List.prefix_rfl
    | cons q qs ih => exact (p.prefix_place q).trans (ih _)
  rw [pages, pages, List.foldl_append]
  exact hplaces _

/-! ### Scrolls behind other lines -/

namespace Scroll

variable {width : Option Nat} {size : Options.PageSize} {ls : List Line} {s : Scroll}

/-- The scroll behind other finished lines. -/
def behind (ls : List Line) (s : Scroll) : Scroll := { s with finished := ls ++ s.finished }

lemma endLine_behind : (s.behind ls).endLine = s.endLine.behind ls := by
  simp [endLine, behind]

lemma freshLine_behind : (s.behind ls).freshLine = s.freshLine.behind ls := by
  unfold freshLine
  by_cases hempty : s.current = []
  · rw [if_pos hempty, if_pos (by exact hempty)]
  · rw [if_neg hempty, if_neg (by exact hempty), endLine_behind]

/-- What is written on a scroll does not depend on its finished lines. -/
lemma place_behind (p : Layout.Piece) :
    (s.behind ls).place width p = (s.place width p).behind ls := by
  cases p with
  | heading name =>
    rw [place, freshLine_behind, place]
    simp [behind]
  | staff =>
    rw [place, freshLine_behind, place]
    rfl
  | voice text =>
    unfold place
    dsimp only
    by_cases hbusy : s.current ≠ [] ∧ ¬ width.all (s.current.length + text.length ≤ ·)
    · rw [if_pos hbusy, if_pos (by exact hbusy), endLine_behind]
      rfl
    · rw [if_neg hbusy, if_neg (by exact hbusy)]
      rfl
  | glue text => rfl

theorem foldl_place_behind (ps : List Layout.Piece) :
    ps.foldl (place width) (s.behind ls) = (ps.foldl (place width) s).behind ls := by
  induction ps generalizing s with
  | nil => rfl
  | cons p ps ih => rw [List.foldl_cons, place_behind, ih, List.foldl_cons]

/-- Pieces that begin with a heading are placed behind others as on an empty scroll. -/
theorem ofPieces_append_heading (ps : List Layout.Piece) (name : List Char)
    (qs : List Layout.Piece) : ofPieces width (ps ++ .heading name :: qs) =
      (ofPieces width (.heading name :: qs)).behind (ofPieces width ps).freshLine.finished := by
  have hheading (s : Scroll) : s.place width (.heading name) =
      (place width {} (.heading name)).behind s.freshLine.finished := rfl
  rw [ofPieces, List.foldl_append, List.foldl_cons, hheading, foldl_place_behind]
  rfl

lemma length_finished_le_freshLine (s : Scroll) :
    s.finished.length ≤ s.freshLine.finished.length := by
  unfold freshLine
  split
  · exact le_rfl
  · rw [endLine, List.length_append]
    exact Nat.le_add_right _ _

lemma text_behind_of_low (h : (s.behind ls).finished.length < size.height) :
    (s.behind ls).text size = Line.finish size.width ls ++ s.text size := by
  have hlength : (s.behind ls).finished.length = ls.length + s.finished.length :=
    List.length_append
  rw [text_of_low h, text_of_low (by omega)]
  simp [behind]

/-- The last line of a text is unfinished unless the text is empty or ends with a line end. -/
lemma Plain.current_eq_nil_iff (h : s.Plain) (hlow : s.finished.length < size.height) :
    s.current = [] ↔ s.text size = [] ∨ (s.text size).getLast? = some '\n' := by
  rw [text_of_low hlow]
  constructor
  · intro hempty
    rw [hempty, List.append_nil]
    obtain hnone | ⟨ls, l, hls⟩ := List.eq_nil_or_concat s.finished
    · left
      rw [hnone]
      rfl
    · right
      rw [hls, List.concat_eq_append, Line.finish_append]
      simp [Line.finish]
  · intro hend
    by_contra hne
    obtain ⟨t, c, hcurrent⟩ := List.eq_nil_or_concat s.current |>.resolve_left hne
    have hc : c ≠ '\n' := by
      rintro rfl
      exact h.current.not_mem (by simp [hcurrent])
    rw [hcurrent, List.concat_eq_append] at hend
    simp [hc, List.getLast?_append] at hend

lemma Plain.finish_freshLine (h : s.Plain) (hlow : s.finished.length < size.height) :
    Line.finish size.width s.freshLine.finished = s.text size ++ Layout.lineEnd (s.text size) := by
  unfold Scroll.freshLine Layout.lineEnd
  by_cases hempty : s.current = []
  · rw [if_pos hempty, if_pos ((h.current_eq_nil_iff hlow).mp hempty), text_of_low hlow, hempty]
    simp
  · rw [if_neg hempty, if_neg fun hend => hempty ((h.current_eq_nil_iff hlow).mpr hend),
      text_of_low hlow]
    simp [Scroll.endLine, Line.finish, Line.text]

end Scroll

/-! ### Transcriptions -/

namespace Layout

lemma pieces_append (style : Options.Style) (w w' : Script) :
    pieces style (w ++ w') = pieces style w ++ pieces style w' :=
  List.flatMap_append

/-- On a page that is not full, a script behind another one makes the text that it makes alone. -/
theorem text_pages_append {size : Options.PageSize} {style : Options.Style} {w w' : Script}
    (hlow : (pages size (pieces style (w ++ w'))).endedLines < size.height) :
    (pages size (pieces style (w ++ w'))).text =
      if w' = [] then (pages size (pieces style w)).text
      else (pages size (pieces style w)).text ++ lineEnd (pages size (pieces style w)).text ++
        (pages size (pieces style w')).text := by
  cases w' with
  | nil => rw [List.append_nil, if_pos rfl]
  | cons part rest =>
    let first := Scroll.ofPieces (some size.width) (pieces style w)
    let second := Scroll.ofPieces (some size.width) (pieces style (part :: rest))
    have hscroll : Scroll.ofPieces (some size.width) (pieces style (w ++ part :: rest)) =
        second.behind first.freshLine.finished := by
      rw [pieces_append]
      exact Scroll.ofPieces_append_heading _ part.name.toList _
    have hended := (shows_pages size (pieces style (w ++ part :: rest))).endedLines
    rw [hended, hscroll] at hlow
    have hfirst : first.finished.length < size.height := by
      have hfresh := first.length_finished_le_freshLine
      have hlength : (second.behind first.freshLine.finished).finished.length =
          first.freshLine.finished.length + second.finished.length := List.length_append
      omega
    have hplain : first.Plain := Scroll.plain_ofPieces _ style w
    rw [if_neg (List.cons_ne_nil part rest), text_pages, text_pages, text_pages, hscroll,
      Scroll.text_behind_of_low hlow, hplain.finish_freshLine hfirst]

end Layout

lemma Score.script_append {content : Options.Content} {s s' : Score} {w w' : Script}
    (h : s.script content = .ok w) (h' : s'.script content = .ok w') :
    (s.append s').script content = .ok (w ++ w') := by
  have hparts := mapM_eq_ok.mp (each_eq_ok.mp h)
  have hparts' := mapM_eq_ok.mp (each_eq_ok.mp h')
  exact each_eq_ok.mpr (mapM_eq_ok.mpr (List.rel_append hparts hparts'))

/-- The parts of two scores that can be transcribed can be transcribed together. What they count
adds up, and the text of the first ones stands in front. On a page that is not full by then, the
text of the second ones follows on a new line. -/
theorem Transcriber.transcribe_append {options : Options} {s s' : Score} {text text' : List Char}
    (h : ((new options).transcribe s).1 = .ok text)
    (h' : ((new options).transcribe s').1 = .ok text') :
    ∃ whole, ((new options).transcribe (s.append s')).1 = .ok whole ∧
      (∀ b, ((new options).transcribe (s.append s')).2.last.tally.count b =
        ((new options).transcribe s).2.last.tally.count b +
          ((new options).transcribe s').2.last.tally.count b) ∧
      text <+: whole ∧
      (((new options).transcribe (s.append s')).2.last.page.endedLines < options.page.height →
        whole = if s'.parts = [] then text else text ++ Layout.lineEnd text ++ text') := by
  obtain ⟨w, hw, rfl⟩ := exists_script_of_transcribe_new h
  obtain ⟨w', hw', rfl⟩ := exists_script_of_transcribe_new h'
  have hwhole := Score.script_append hw hw'
  rw [transcribe_new_of_script hw, transcribe_new_of_script hw', transcribe_new_of_script hwhole]
  refine ⟨_, rfl, fun b => ?_, ?_, fun hlow => ?_⟩
  · have hcount (w : Script) := (Tally.ofList_spec (w.flatMap Script.Part.notes)).2.1 b
    change (w ++ w').tally.count b = w.tally.count b + w'.tally.count b
    rw [Script.tally, Script.tally, Script.tally, hcount, hcount, hcount, List.flatMap_append,
      List.count_append]
  · change (Layout.pages _ _).text <+: (Layout.pages _ _).text
    rw [Layout.pieces_append]
    exact Layout.prefix_pages _ _ _
  · have hparts : w' = [] ↔ s'.parts = [] := by
      have hlength := (mapM_eq_ok.mp (each_eq_ok.mp hw')).length_eq
      rw [← List.length_eq_zero_iff, ← List.length_eq_zero_iff, hlength]
    simp only [← hparts]
    exact Layout.text_pages_append hlow

/-- A part with a quarter rest, behind another one. -/
theorem Transcriber.transcribe_append_two :
    let score (name : String) : Score := { parts := [{ name, events :=
      [.startBar 1, .entry (.rest { duration := { base := .quarter } }), .endBar] }] }
    let whole := (new {}).transcribe ((score "P").append (score "Q"))
    whole.1 = .ok "P\n  ⠧ \nQ\n  ⠧ ".toList ∧
      whole.2.last.tally.count [.rest .quarter] = 1 + 1 := by
  intro score whole
  have hone (name : String) (h : name = "P" ∨ name = "Q") :
      ((new {}).transcribe (score name)).1 = .ok (name.toList ++ "\n  ⠧ ".toList) ∧
        ((new {}).transcribe (score name)).2.last.tally.count [.rest .quarter] = 1 := by
    obtain rfl | rfl := h <;> decide +kernel
  obtain ⟨hp, hpcount⟩ := hone "P" (.inl rfl)
  obtain ⟨hq, hqcount⟩ := hone "Q" (.inr rfl)
  obtain ⟨text, htext, hcount, -, hlow⟩ := transcribe_append hp hq
  have hpage : whole.2.last.page.endedLines < 25 := by decide +kernel
  constructor
  · rw [htext, hlow hpage]
    decide +kernel
  · rw [hcount, hpcount, hqcount]

/-- Behind a staff whose line is unfinished, a score without parts does not begin a new line. -/
theorem Transcriber.transcribe_append_no_parts :
    let s : Score := { parts := [{ name := "P", events :=
      [.startBar 1, .entry (.rest { duration := { base := .quarter } }), .endBar] }] }
    let s' : Score := {}
    ∃ text text' whole, ((new {}).transcribe s).1 = .ok text ∧
      ((new {}).transcribe s').1 = .ok text' ∧
      ((new {}).transcribe (s.append s')).1 = .ok whole ∧
      ((new {}).transcribe (s.append s')).2.last.page.endedLines < 25 ∧
      Layout.lineEnd text = ['\n'] ∧ whole ≠ text ++ Layout.lineEnd text ++ text' := by
  refine ⟨"P\n  ⠧ ".toList, [], "P\n  ⠧ ".toList, ?_⟩
  decide +kernel

end BrailleScore
