import BrailleScore.Proofs.PageHeight
import Mathlib.Data.List.DropRight

/-!
# The width of lines

A voice goes to the next line where it does not fit, but a sign of accord stays behind its voice.
So a line of music may be longer than the page is wide: by the spaces at its end, and by one sign
of accord if the voice that follows has gone to the next line.
-/

namespace BrailleScore

/-- The text of a voice, with its hand sign. -/
def Layout.Piece.voice? : Layout.Piece → Option (List Char)
  | voice text => some text
  | _ => none

/-- The texts of the voices, in the order of writing. -/
def Layout.voiceTexts (style : Options.Style) (script : Script) : List (List Char) :=
  (pieces style script).filterMap Piece.voice?

namespace Line

/-- Without the spaces at its end and one sign of accord before them, the line has room. -/
def Held (width : Nat) (t : List Char) : Prop :=
  ∃ body rest, t.rdropWhile (· = ' ') = body ++ rest ∧ body.length ≤ width ∧
    (rest = [] ∨ rest = Glyph.fullMeasureInAccord.text)

lemma rdropWhile_append_replicate (t : List Char) (n : Nat) :
    (t ++ List.replicate n ' ').rdropWhile (· = ' ') = t.rdropWhile (· = ' ') := by
  induction n with
  | zero => simp
  | succ n ih =>
    rw [List.replicate_succ', ← List.append_assoc, List.rdropWhile_concat_pos _ _ _ (by simp), ih]

lemma held_append_replicate {width : Nat} {t : List Char} (h : t.length ≤ width) (n : Nat) :
    Held width (t ++ List.replicate n ' ') := by
  have hle := (List.rdropWhile_prefix (· = ' ') t).length_le
  refine ⟨t.rdropWhile (· = ' '), [], ?_, ?_, .inl rfl⟩
  · rw [rdropWhile_append_replicate, List.append_nil]
  · omega

lemma held_of_length_le {width : Nat} {t : List Char} (h : t.length ≤ width) : Held width t := by
  have hheld := held_append_replicate h 0
  rw [List.replicate_zero, List.append_nil] at hheld
  exact hheld

lemma held_append_accord {width : Nat} {t : List Char} (h : t.length ≤ width) :
    Held width (t ++ Glyph.fullMeasureInAccord.text) := by
  have haccord : Glyph.fullMeasureInAccord.text = ['⠣'] ++ ['⠜'] := rfl
  refine ⟨t, Glyph.fullMeasureInAccord.text, ?_, h, .inr rfl⟩
  rw [haccord, ← List.append_assoc, List.rdropWhile_concat_neg _ _ _ (by decide)]

end Line

/-! ### Along the pieces -/

/-- How far the line that is being written may reach. -/
def Layout.Stage.Reaches (width : Nat) (t : List Char) : Stage → Prop
  | margin => t = []
  | bar => ∃ body n, t = body ++ List.replicate n ' ' ∧ body.length ≤ width
  | voice => t.length ≤ width
  | accord => ∃ body, t = body ++ Glyph.fullMeasureInAccord.text ∧ body.length ≤ width

lemma Layout.Stage.Reaches.held {width : Nat} {t : List Char} {a : Stage}
    (h : a.Reaches width t) : Line.Held width t := by
  cases a with
  | margin =>
    rw [h]
    exact Line.held_of_length_le (Nat.zero_le _)
  | bar =>
    obtain ⟨body, n, rfl, hbody⟩ := h
    exact Line.held_append_replicate hbody n
  | voice => exact Line.held_of_length_le h
  | accord =>
    obtain ⟨body, rfl, hbody⟩ := h
    exact Line.held_append_accord hbody

/-- All lines of music on the scroll are held. -/
structure Scroll.Held (width : Nat) (a : Layout.Stage) (s : Scroll) : Prop where
  finished : ∀ t, .music t ∈ s.finished → Line.Held width t
  current : a.Reaches width s.current

namespace Scroll.Held

variable {width : Nat} {a : Layout.Stage} {s : Scroll}

lemma endLine (h : s.Held width a) : s.endLine.Held width .margin := by
  constructor
  · intro t ht
    obtain ht | ht := List.mem_append.mp ht
    · exact h.finished t ht
    · rw [Line.music.inj (List.mem_singleton.mp ht)]
      exact h.current.held
  · rfl

lemma freshLine (h : s.Held width a) : s.freshLine.Held width .margin := by
  unfold Scroll.freshLine
  by_cases hempty : s.current = []
  · rw [if_pos hempty]
    exact ⟨h.finished, hempty⟩
  · rw [if_neg hempty]
    exact h.endLine

end Scroll.Held

theorem Layout.Follows.held {width : Nat} {a b : Stage} {p : Piece} {s : Scroll}
    (h : Follows a p b) (hp : ∀ t, p.voice? = some t → t.length ≤ width) (hs : s.Held width a) :
    (s.place (some width) p).Held width b := by
  have hfresh := hs.freshLine
  cases h with
  | heading _ name =>
    constructor
    · intro t ht
      obtain ht | ht := List.mem_append.mp ht
      · exact hfresh.finished t ht
      · cases List.mem_singleton.mp ht
    · rfl
  | staff =>
    have hempty : s.freshLine.current = [] := hfresh.current
    refine ⟨hfresh.finished, [], staffIndent, ?_, Nat.zero_le _⟩
    change s.freshLine.current ++ _ = _
    rw [hempty]
  | @voice _ _ text _ =>
    have htext : text.length ≤ width := hp text rfl
    by_cases hempty : s.current = []
    · rw [Scroll.place_voice_of_fits (.inl hempty)]
      refine ⟨hs.finished, ?_⟩
      change (s.current ++ text).length ≤ width
      rw [hempty]
      exact htext
    · obtain hlong | hfits := Nat.lt_or_ge width (s.current.length + text.length)
      · rw [Scroll.place_voice_of_lt hempty hlong]
        exact ⟨hs.endLine.finished, htext⟩
      · rw [Scroll.place_voice_of_fits (.inr hfits)]
        refine ⟨hs.finished, ?_⟩
        change (s.current ++ text).length ≤ width
        rw [List.length_append]
        exact hfits
  | accord => exact ⟨hs.finished, s.current, rfl, hs.current⟩
  | space h =>
    obtain rfl | rfl := h
    · obtain ⟨body, n, hcurrent, hbody⟩ := hs.current
      refine ⟨hs.finished, body, n + 1, ?_, hbody⟩
      change s.current ++ [' '] = _
      rw [hcurrent, List.replicate_succ', List.append_assoc]
    · exact ⟨hs.finished, s.current, 1, rfl, hs.current⟩

theorem Scroll.exists_held_ofPieces {width : Nat} (style : Options.Style) {script : Script}
    (h : ∀ t ∈ Layout.voiceTexts style script, t.length ≤ width) :
    ∃ a, (ofPieces (some width) (Layout.pieces style script)).Held width a := by
  obtain ⟨b, horderly⟩ := Layout.exists_orderly_pieces style script
  have hempty : Held width .margin {} := ⟨fun t ht => absurd ht List.not_mem_nil, rfl⟩
  refine ⟨b, horderly.foldl ?_ hempty⟩
  intro c d p s hmem hp hs
  apply hp.held _ hs
  intro t ht
  exact h t (List.mem_filterMap.mpr ⟨p, hmem, ht⟩)

/-! ### The width -/

/-- If no voice is wider than the page, the lines other than the names of the parts and the numbers
of the pages are no wider, without the spaces at their ends and a sign of accord before them. -/
theorem Transcriber.held_of_voices_fit {options : Options} {s : Score} {text : List Char}
    {script : Script} (hheight : 1 ≤ options.page.height)
    (h : ((new options).transcribe s).1 = .ok text)
    (hscript : s.script options.content = .ok script)
    (hvoices : ∀ t ∈ Layout.voiceTexts options.style script, t.length ≤ options.page.width) :
    ∃ lines : List Line, text = ['\n'].intercalate (lines.map (Line.text options.page.width)) ∧
      lines.filterMap Line.heading? = s.parts.map (fun p => p.name.toList) ∧
      (∀ i k, lines[i]? = some (.number k) ↔
        i + 1 = k * (options.page.height + 1) ∧ i + 1 < lines.length) ∧
      ∀ t, .music t ∈ lines → Line.Held options.page.width t := by
  let scroll := Scroll.ofPieces (some options.page.width) (Layout.pieces options.style script)
  have hplain : scroll.Plain := Scroll.plain_ofPieces _ options.style script
  obtain ⟨a, hheld⟩ := Scroll.exists_held_ofPieces options.style hvoices
  rw [answer_transcribe_new, hscript] at h
  have htext : scroll.text options.page = text := Except.ok.inj h
  refine ⟨scroll.pageLines options.page.height, ?_, ?_, ?_, ?_⟩
  · rw [← htext, Scroll.text_eq_intercalate]
  · rw [Scroll.headings_pageLines, Scroll.headings_of_script _ _ hscript]
  · exact hplain.getElem?_pageLines_eq_number hheight
  · intro t ht
    obtain ht | rfl := Scroll.music_mem_pageLines ht
    · exact hheld.finished t ht
    · exact hheld.current.held

/-- Two voices that both have room on a line of eight characters, though not together. -/
def Score.crowded : Score :=
  let note (step : Step) : Event :=
    .entry (.note { pitch := some ⟨step, 0, 4⟩, duration := { base := .quarter } })
  { parts := [{ name := "P", events := [.startBar 1, note .c, note .d, note .e, note .f, note .g,
    .entry (.rest { duration := { base := .whole }, voice := "2" }), .endBar] }] }

lemma Score.exists_script_crowded : ∃ script, crowded.script {} = .ok script ∧
    Layout.voiceTexts {} script = ["⠐⠹⠱⠫⠻⠳".toList, "⠍".toList] := by
  have hvoices : (crowded.script {}).map (Layout.voiceTexts {}) =
      .ok ["⠐⠹⠱⠫⠻⠳".toList, "⠍".toList] := by decide +kernel
  rw [Fault.map_eq_bind] at hvoices
  obtain ⟨script, hscript, htexts⟩ := Fault.bind_eq_ok.mp hvoices
  exact ⟨script, hscript, Fault.pure_eq_ok.mp htexts⟩

theorem Transcriber.held_of_crowded :
    let options : Options := { page := ⟨8, 25⟩ }
    let text := "P\n  ⠐⠹⠱⠫⠻⠳⠣⠜\n⠍ ".toList
    1 ≤ options.page.height ∧ ((new options).transcribe Score.crowded).1 = .ok text ∧
      ∃ script, Score.crowded.script options.content = .ok script ∧
        (∀ t ∈ Layout.voiceTexts options.style script, t.length ≤ options.page.width) ∧
        ∃ lines : List Line, text = ['\n'].intercalate (lines.map (Line.text 8)) ∧
          lines.filterMap Line.heading? = ["P".toList] ∧
          ∀ t, .music t ∈ lines → Line.Held 8 t := by
  intro options text
  have hheight : 1 ≤ options.page.height := by decide
  have htext : ((new options).transcribe Score.crowded).1 = .ok text := by decide +kernel
  obtain ⟨script, hscript, hvoices⟩ := Score.exists_script_crowded
  have hfit : ∀ t ∈ Layout.voiceTexts options.style script, t.length ≤ options.page.width := by
    change ∀ t ∈ Layout.voiceTexts {} script, t.length ≤ 8
    rw [hvoices]
    decide
  obtain ⟨lines, hlines, hnames, -, hheld⟩ := held_of_voices_fit hheight htext hscript hfit
  exact ⟨hheight, htext, script, hscript, hfit, lines, hlines, hnames, hheld⟩

/-- With two columns to spare for each voice, a line of music is still wider than the page. -/
theorem Transcriber.accord_beyond_width :
    let options : Options := { page := ⟨8, 25⟩ }
    ∃ script text line, Score.crowded.script options.content = .ok script ∧
      (∀ t ∈ Layout.voiceTexts options.style script, t.length + 2 ≤ options.page.width) ∧
      ((new options).transcribe Score.crowded).1 = .ok text ∧
      (text.splitOn '\n')[1]? = some line ∧ (∀ p ∈ Score.crowded.parts, line ≠ p.name.toList) ∧
      (∀ n, line ≠ Page.numberLine 8 n) ∧ 8 < (line.rdropWhile (· = ' ')).length := by
  intro options
  obtain ⟨script, hscript, hvoices⟩ := Score.exists_script_crowded
  refine ⟨script, "P\n  ⠐⠹⠱⠫⠻⠳⠣⠜\n⠍ ".toList, "  ⠐⠹⠱⠫⠻⠳⠣⠜".toList, hscript, ?_, ?_, ?_, ?_, ?_, ?_⟩
  · change ∀ t ∈ Layout.voiceTexts {} script, t.length + 2 ≤ 8
    rw [hvoices]
    decide
  · decide +kernel
  · decide +kernel
  · decide +kernel
  · intro n h
    have hcell : '⠐' ∉ Page.numberLine 8 n := Page.not_mem_numberLine (by decide) (by decide) 8 n
    rw [← h] at hcell
    exact hcell (by decide)
  · decide +kernel

end BrailleScore
