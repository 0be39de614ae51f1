import BrailleScore.Proofs.PageHeight

/-!
# Export to Braille ASCII

Outside the names of the parts, a text has only spaces, line ends, the digits of page numbers and
the cells of the alphabet. All these cells have six dots, and all six-dot cells have a character in
Braille ASCII. So the export can only fail at a name.
-/

namespace BrailleScore

open Fault

/-! ### Six-dot cells -/

lemma Cell.isSixDot_ofPattern (p : Nat) : (ofPattern p).isSixDot := by
  have hdot : ∀ d, (dotMask d)[6] = false ∧ (dotMask d)[7] = false := by decide
  unfold isSixDot hasDot ofPattern
  induction Decimal.places p with
  | nil => rfl
  | cons d ds ih => simpa [hdot d] using ih

lemma Cell.IsLetter.exists_sixDot {c : Char} (h : Cell.IsLetter c) :
    ∃ cell : Cell, cell.isSixDot ∧ c = cell.char := by
  obtain ⟨p, -, rfl⟩ := h
  exact ⟨_, Cell.isSixDot_ofPattern p, rfl⟩

namespace BrailleAscii

/-- The character has a form in Braille ASCII: it is an ASCII character or a six-dot cell. -/
def HasForm (c : Char) : Prop := isAscii c ∨ ∃ cell : Cell, cell.isSixDot ∧ c = cell.char

/-- The table lists the 64 cells that have six dots. -/
lemma exists_row_of_isSixDot : ∀ mask : Fin 256, (Cell.mk (BitVec.ofFin mask)).isSixDot →
    ∃ row ∈ table, Cell.ofPattern row.1 = ⟨BitVec.ofFin mask⟩ := by
  decide +kernel

lemma isSome_ofCell? {c : Char} :
    (ofCell? c).isSome ↔ ∃ cell : Cell, cell.isSixDot ∧ c = cell.char := by
  unfold ofCell?
  rw [Option.isSome_map, List.find?_isSome]
  simp only [decide_eq_true_eq]
  constructor
  · rintro ⟨row, -, rfl⟩
    exact ⟨_, Cell.isSixDot_ofPattern row.1, rfl⟩
  · rintro ⟨⟨⟨mask⟩⟩, hsix, rfl⟩
    obtain ⟨row, hrow, hcell⟩ := exists_row_of_isSixDot mask hsix
    exact ⟨row, hrow, congrArg Cell.char hcell⟩

lemma succeeds_encodeChar {line column : Nat} {c : Char} :
    Succeeds (encodeChar line column c) ↔ HasForm c := by
  unfold encodeChar HasForm
  rw [← isSome_ofCell?]
  by_cases hascii : isAscii c
  · simp [hascii]
  · cases hcell : ofCell? c with
    | some a => simp [hascii]
    | none => by_cases height : (Cell.ofChar? c).isSome <;> simp [hascii, height]

/-- A text can be exported exactly when each of its characters has a form. -/
theorem succeeds_encode {text : List Char} : Succeeds (encode text) ↔ ∀ c ∈ text, HasForm c := by
  have h (line column : Nat) : Succeeds (encodeFrom line column text) ↔ ∀ c ∈ text, HasForm c := by
    induction text generalizing line column with
    | nil => simp [encodeFrom]
    | cons c rest ih =>
      rw [encodeFrom, succeeds_bind, List.forall_mem_cons, ← @succeeds_encodeChar line column]
      split
      · simp only [succeeds_bind_pure, ih, exists_and_right]
        rfl
      · simp only [succeeds_bind_pure, ih, exists_and_right]
        rfl
  exact h 1 1

end BrailleAscii

/-! ### The characters of a text -/

lemma Decimal.isAscii_of_mem_text {n : Nat} {c : Char} (h : c ∈ text n) :
    c.isDigit ∧ BrailleAscii.isAscii c := by
  have hdigit : ∀ d, (digitChar d).isDigit ∧ BrailleAscii.isAscii (digitChar d) := by decide
  obtain ⟨d, -, rfl⟩ := List.mem_map.mp h
  exact hdigit d

namespace Scroll

variable {size : Options.PageSize} {s : Scroll} {c : Char}

/-- A character of the text stands in one of its lines or ends a line. -/
lemma mem_text : c ∈ s.text size → c = '\n' ∨
    ∃ line ∈ s.pageLines size.height, c ∈ line.text size.width := by
  unfold text pageLines Line.finish
  simp only [List.mem_append, List.mem_flatMap, List.mem_singleton]
  rintro (⟨line, hline, hc | hc⟩ | hc)
  · exact .inr ⟨line, .inl hline, hc⟩
  · exact .inl hc
  · exact .inr ⟨.music s.current, .inr rfl, hc⟩

lemma mem_text_of_mem_line {line : Line} (hline : line ∈ s.pageLines size.height)
    (hc : c ∈ line.text size.width) : c ∈ s.text size := by
  unfold text Line.finish
  obtain hline | hline := List.mem_append.mp hline
  · apply List.mem_append_left
    exact List.mem_flatMap.mpr ⟨line, hline, List.mem_append_left _ hc⟩
  · rw [List.mem_singleton.mp hline] at hc
    exact List.mem_append_right _ hc

end Scroll

lemma Line.heading?_eq_some {line : Line} {name : List Char} :
    line.heading? = some name ↔ line = .heading name := by
  cases line <;> simp [heading?]

/-- In a line that is no heading there are spaces, letters and the digits of a page number. -/
lemma Scroll.Plain.spelled {s : Scroll} (h : s.Plain) {size : Options.PageSize} {line : Line}
    (hline : line ∈ s.pageLines size.height) (hheading : line.heading? = none) {c : Char}
    (hc : c ∈ line.text size.width) :
    c = ' ' ∨ Cell.IsLetter c ∨ ∃ n, line = .number n ∧ c ∈ Decimal.text n ∧ c.isDigit := by
  cases line with
  | heading name => cases hheading
  | music t =>
    obtain hspace | hletter := h.isMusic_of_mem hline c hc
    · exact .inl hspace
    · exact .inr (.inl hletter)
  | number n =>
    obtain hspace | hdigit := List.mem_append.mp hc
    · exact .inl (List.eq_of_mem_replicate hspace)
    · exact .inr (.inr ⟨n, rfl, hdigit, (Decimal.isAscii_of_mem_text hdigit).1⟩)

namespace BrailleAscii

lemma hasForm_of_spelled {line : Line} {c : Char} (h : c = ' ' ∨ Cell.IsLetter c ∨
    ∃ n, line = .number n ∧ c ∈ Decimal.text n ∧ c.isDigit) : HasForm c := by
  obtain rfl | hletter | ⟨n, -, hdigit, -⟩ := h
  · exact .inl rfl
  · exact .inr hletter.exists_sixDot
  · exact .inl (Decimal.isAscii_of_mem_text hdigit).2

/-- The text of a plain scroll can be exported if the names on it can. -/
theorem succeeds_encode_text {s : Scroll} (h : s.Plain) (size : Options.PageSize) :
    Succeeds (encode (s.text size)) ↔
      ∀ name ∈ s.finished.filterMap Line.heading?, ∀ c ∈ name, HasForm c := by
  rw [succeeds_encode, ← Scroll.headings_pageLines size.height]
  constructor
  · intro htext name hname c hc
    obtain ⟨line, hline, hheading⟩ := List.mem_filterMap.mp hname
    obtain rfl := Line.heading?_eq_some.mp hheading
    exact htext c (Scroll.mem_text_of_mem_line hline hc)
  · intro hnames c hc
    obtain rfl | ⟨line, hline, hc⟩ := Scroll.mem_text hc
    · exact .inl rfl
    · cases hheading : line.heading? with
      | none => exact hasForm_of_spelled (h.spelled hline hheading hc)
      | some name =>
        obtain rfl := Line.heading?_eq_some.mp hheading
        exact hnames name (List.mem_filterMap.mpr ⟨_, hline, rfl⟩) c hc

end BrailleAscii

/-- Every character of a text that is in no name of a part is a space, a line end, a digit of a page
number or a letter of the alphabet. So a score can be exported exactly when it can be transcribed
and its names consist of ASCII characters and six-dot cells. -/
theorem Score.succeeds_transcribeAscii (options : Options) (s : Score) :
    (∀ text, ((Transcriber.new options).transcribe s).1 = .ok text → ∃ lines : List Line,
      text = ['\n'].intercalate (lines.map (Line.text options.page.width)) ∧
        lines.filterMap Line.heading? = s.parts.map (fun p => p.name.toList) ∧
        ∀ line ∈ lines, line.heading? = none → ∀ c ∈ line.text options.page.width,
          c = ' ' ∨ Cell.IsLetter c ∨ ∃ n, line = .number n ∧ c ∈ Decimal.text n ∧ c.isDigit) ∧
    (Succeeds (s.transcribeAscii options) ↔
      (∃ text, ((Transcriber.new options).transcribe s).1 = .ok text) ∧
        ∀ p ∈ s.parts, ∀ c ∈ p.name.toList, BrailleAscii.HasForm c) := by
  rw [Transcriber.answer_transcribe_new]
  cases hscript : s.script options.content with
  | error f =>
    have hfault : s.transcribe options = .error f :=
      congrArg (Except.map (Transcript.ofScript options)) hscript
    refine ⟨nofun, ?_⟩
    rw [transcribeAscii, hfault]
    exact iff_of_false (not_succeeds_error f) nofun
  | ok script =>
    let scroll := Scroll.ofPieces (some options.page.width) (Layout.pieces options.style script)
    have hplain : scroll.Plain := Scroll.plain_ofPieces _ options.style script
    have hnames : scroll.finished.filterMap Line.heading? =
        s.parts.map fun p => p.name.toList := Scroll.headings_of_script _ options.style hscript
    constructor
    · intro text htext
      refine ⟨scroll.pageLines options.page.height, ?_, ?_, fun line hline hheading c hc => ?_⟩
      · rw [← Scroll.text_eq_intercalate]
        exact (Except.ok.inj htext).symm
      · rw [Scroll.headings_pageLines, hnames]
      · exact hplain.spelled hline hheading hc
    · have htranscript : s.transcribe options = .ok (Transcript.ofScript options script) :=
        congrArg (Except.map (Transcript.ofScript options)) hscript
      have htext : (Transcript.ofScript options script).text = scroll.text options.page :=
        Layout.text_pages options.page _
      have hencode := BrailleAscii.succeeds_encode_text hplain options.page
      rw [hnames, List.forall_mem_map] at hencode
      rw [transcribeAscii, htranscript]
      change Succeeds (BrailleAscii.encode (Transcript.ofScript options script).text) ↔ _
      rw [htext, hencode]
      exact (and_iff_right ⟨_, rfl⟩).symm

end BrailleScore
