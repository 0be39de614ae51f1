import BrailleScore.Proofs.LineWidth

/-!
# What the size of the page changes

The same pieces on two pages of different size make two texts. They are walked side by side, the
one on the page and the other on an endless scroll. The counters of the two drift apart, but a part
or a staff begins a new line on both or on neither. So the text on the page is the text of the
scroll with line breaks before voices and the numbers of the pages put in.
-/

namespace BrailleScore

namespace Layout

/-- The line that stands unfinished at the end of a text. -/
def lastLine (t : List Char) : List Char := t.rtakeWhile (· ≠ '\n')

/-- The end of a line, with the number of the page if the page has `count` lines or a multiple. -/
def lineBreak (size : Options.PageSize) (count : Nat) : List Char :=
  '\n' :: if count % size.height = 0 then
    Page.numberLine size.width (count / size.height) ++ ['\n'] else []

/-- What is written besides names and voices: the indentation of a staff, the sign of accord and the
space behind a measure. -/
def fillers : List (List Char) :=
  [List.replicate staffIndent ' ', Glyph.fullMeasureInAccord.text, [' ']]

/-- The narrow text has what the wide one has, in the same order, and besides only what a page of
that size asks for: line breaks directly before the voices that do not fit, and the numbers of the
pages directly behind line breaks. `count` is the number of lines so far. -/
inductive Reflowed (size : Options.PageSize) (names : List (List Char)) :
    Nat → List (List Char) → List Char → List Char → Prop
  | start : Reflowed size names 0 [] [] []
  | copy {count : Nat} {voices : List (List Char)} {wide narrow t : List Char}
      (h : Reflowed size names count voices wide narrow) (ht : t ∈ fillers ∨ t ∈ names) :
      Reflowed size names count voices (wide ++ t) (narrow ++ t)
  | lineEnd {count : Nat} {voices : List (List Char)} {wide narrow : List Char}
      (h : Reflowed size names count voices wide narrow) :
      Reflowed size names (count + 1) voices (wide ++ ['\n']) (narrow ++ lineBreak size (count + 1))
  | voice {count : Nat} {voices : List (List Char)} {wide narrow t : List Char}
      (h : Reflowed size names count voices wide narrow)
      (hfits : lastLine narrow = [] ∨ (lastLine narrow).length + t.length ≤ size.width) :
      Reflowed size names count (voices ++ [t]) (wide ++ t) (narrow ++ t)
  | wrap {count : Nat} {voices : List (List Char)} {wide narrow t : List Char}
      (h : Reflowed size names count voices wide narrow) (hbusy : lastLine narrow ≠ [])
      (hlong : size.width < (lastLine narrow).length + t.length) :
      Reflowed size names (count + 1) (voices ++ [t]) (wide ++ t)
        (narrow ++ lineBreak size (count + 1) ++ t)

lemma isMusic_of_mem_fillers {t : List Char} (h : t ∈ fillers) : Line.IsMusic t := by
  rw [fillers, List.mem_cons, List.mem_cons, List.mem_singleton] at h
  obtain rfl | rfl | rfl := h
  · exact Line.isMusic_replicate staffIndent
  · exact Line.isMusic_of_allLetters (Cell.AllLetters.glyph .fullMeasureInAccord)
  · exact Line.isMusic_replicate 1

lemma rtakeWhile_append {p : Char → Bool} (t : List Char) {u : List Char} (hu : ∀ c ∈ u, p c) :
    (t ++ u).rtakeWhile p = t.rtakeWhile p ++ u := by
  induction u using List.reverseRecOn with
  | nil => rw [List.append_nil, List.append_nil]
  | append_singleton u c ih =>
    have hc : p c := hu c (by simp)
    have hu : ∀ c ∈ u, p c := fun c hc => hu c (List.mem_append_left _ hc)
    rw [← List.append_assoc, List.rtakeWhile_concat_pos _ _ _ hc, ih hu, List.append_assoc]

end Layout

namespace Scroll

variable {size : Options.PageSize} {s : Scroll}

/-- The text on an endless scroll, where nothing is numbered. -/
def endless (s : Scroll) : List Char := s.text ⟨0, 0⟩

lemma finish_pageEnd (size : Options.PageSize) (count : Nat) :
    '\n' :: Line.finish size.width (Line.pageEnd size.height count) =
      Layout.lineBreak size count := by
  unfold Line.pageEnd Layout.lineBreak
  split
  · simp [Line.finish, Line.text]
  · rfl

lemma text_endLine (size : Options.PageSize) (s : Scroll) :
    s.endLine.text size = s.text size ++ Layout.lineBreak size (s.finished.length + 1) := by
  rw [← finish_pageEnd]
  exact text_finish size s rfl

lemma text_heading (size : Options.PageSize) (h : s.current = []) (name : List Char) :
    (⟨s.finished ++ [.heading name], []⟩ : Scroll).text size =
      s.text size ++ name ++ Layout.lineBreak size (s.finished.length + 1) := by
  have hline : Line.text size.width (.heading name) = (s.write name).current := by
    rw [write, h]
    rfl
  rw [← finish_pageEnd, ← text_write]
  exact text_finish size (s.write name) hline

lemma lineBreak_zero (count : Nat) : Layout.lineBreak ⟨0, 0⟩ (count + 1) = ['\n'] := by
  have hne : (count + 1) % 0 ≠ 0 := by
    rw [Nat.mod_zero]
    exact Nat.succ_ne_zero count
  exact congrArg (List.cons '\n') (if_neg hne)

lemma endless_endLine (s : Scroll) : s.endLine.endless = s.endless ++ ['\n'] := by
  rw [endless, text_endLine, lineBreak_zero]
  rfl

lemma endless_heading (h : s.current = []) (name : List Char) :
    (⟨s.finished ++ [.heading name], []⟩ : Scroll).endless = s.endless ++ name ++ ['\n'] := by
  rw [endless, text_heading _ h, lineBreak_zero]
  rfl

lemma endless_write (t : List Char) (s : Scroll) : (s.write t).endless = s.endless ++ t :=
  text_write ⟨0, 0⟩ t s

/-- The last line of the text is the one that is being written. -/
lemma lastLine_text (size : Options.PageSize) (h : '\n' ∉ s.current) :
    Layout.lastLine (s.text size) = s.current := by
  have hfinished (ls : List Line) : (Line.finish size.width ls).rtakeWhile (· ≠ '\n') = [] := by
    obtain rfl | ⟨ls, l, rfl⟩ := List.eq_nil_or_concat ls
    · rfl
    · have hlast : Line.finish size.width [l] = l.text size.width ++ ['\n'] := by
        simp [Line.finish]
      rw [List.concat_eq_append, Line.finish_append, hlast, ← List.append_assoc,
        List.rtakeWhile_concat_neg _ _ _ (by simp)]
  have hcurrent : ∀ c ∈ s.current, decide (c ≠ '\n') = true := by
    intro c hc
    apply decide_eq_true
    rintro rfl
    exact h hc
  rw [Layout.lastLine, text, Layout.rtakeWhile_append _ hcurrent, hfinished, List.nil_append]

end Scroll

/-! ### The two walks -/

/-- Whether the current line has something on it, as far as new lines depend on it. -/
def Layout.Stage.Agrees : Stage → List Char → List Char → Prop
  | margin, narrow, wide => narrow = [] ∧ wide = []
  | bar, narrow, wide => narrow ≠ [] ∧ wide ≠ []
  | voice, _, _ => True
  | accord, _, _ => True

lemma Layout.Stage.agrees_bar_append {narrow wide t : List Char} (ht : t ≠ []) :
    bar.Agrees (narrow ++ t) (wide ++ t) :=
  ⟨List.append_ne_nil_of_right_ne_nil _ ht, List.append_ne_nil_of_right_ne_nil _ ht⟩

/-- The walk on pages and the walk on the endless scroll, after the same pieces. -/
structure Scroll.Walks (size : Options.PageSize) (names voices : List (List Char))
    (a : Layout.Stage) (narrow wide : Scroll) : Prop where
  plain : narrow.Plain
  agrees : a.Agrees narrow.current wide.current
  reflowed : Layout.Reflowed size names narrow.finished.length voices wide.endless
    (narrow.text size)

namespace Scroll.Walks

variable {size : Options.PageSize} {names voices : List (List Char)} {a b : Layout.Stage}
  {narrow wide : Scroll}

lemma copy (h : Walks size names voices a narrow wide) {t : List Char} (ht : t ∈ Layout.fillers)
    (hb : b.Agrees (narrow.current ++ t) (wide.current ++ t)) :
    Walks size names voices b (narrow.write t) (wide.write t) := by
  refine ⟨h.plain.write (Layout.isMusic_of_mem_fillers ht), hb, ?_⟩
  rw [text_write, endless_write]
  exact h.reflowed.copy (.inl ht)

lemma endLine (h : Walks size names voices a narrow wide) :
    Walks size names voices .margin narrow.endLine wide.endLine := by
  refine ⟨h.plain.endLine, ⟨rfl, rfl⟩, ?_⟩
  have hlength : narrow.endLine.finished.length = narrow.finished.length + 1 :=
    List.length_append
  rw [text_endLine, endless_endLine, hlength]
  exact h.reflowed.lineEnd

lemma freshLine (h : Walks size names voices a narrow wide) (ha : a.Rests) :
    Walks size names voices .margin narrow.freshLine wide.freshLine := by
  unfold Scroll.freshLine
  obtain rfl | rfl := ha
  · rw [if_pos h.agrees.1, if_pos h.agrees.2]
    exact h
  · rw [if_neg h.agrees.1, if_neg h.agrees.2]
    exact h.endLine

lemma heading (h : Walks size names voices .margin narrow wide) {name : List Char}
    (hname : name ∈ names) : Walks size names voices .margin
      ⟨narrow.finished ++ [.heading name], []⟩ ⟨wide.finished ++ [.heading name], []⟩ := by
  have hlength : (narrow.finished ++ [Line.heading name]).length = narrow.finished.length + 1 :=
    List.length_append
  refine ⟨h.plain.finish trivial, ⟨rfl, rfl⟩, ?_⟩
  rw [text_heading size h.agrees.1, endless_heading h.agrees.2, hlength]
  exact (h.reflowed.copy (.inr hname)).lineEnd

lemma voice (h : Walks size names voices a narrow wide) {t : List Char} (ht : Line.IsMusic t) :
    Walks size names (voices ++ [t]) .voice (narrow.place (some size.width) (.voice t))
      (wide.place none (.voice t)) := by
  have hlast := lastLine_text size h.plain.current.not_mem
  rw [place_voice_none]
  by_cases hfits : narrow.current = [] ∨ narrow.current.length + t.length ≤ size.width
  · rw [place_voice_of_fits hfits]
    refine ⟨h.plain.write ht, trivial, ?_⟩
    rw [text_write, endless_write]
    apply h.reflowed.voice
    rw [hlast]
    exact hfits
  · obtain ⟨hbusy, hlong⟩ := not_or.mp hfits
    have hlength : narrow.endLine.finished.length = narrow.finished.length + 1 :=
      List.length_append
    rw [place_voice_of_lt hbusy (by omega)]
    refine ⟨h.plain.endLine.write ht, trivial, ?_⟩
    rw [text_write, endless_write, text_endLine, write, hlength]
    apply h.reflowed.wrap
    · rw [hlast]
      exact hbusy
    · rw [hlast]
      omega

/-- Each piece takes both walks on. -/
theorem place (h : Walks size names voices a narrow wide) {p : Layout.Piece}
    (hp : Layout.Follows a p b) (hname : ∀ name, p.heading? = some name → name ∈ names) :
    Walks size names (voices ++ p.voice?.toList) b (narrow.place (some size.width) p)
      (wide.place none p) := by
  cases hp with
  | heading ha name =>
    have hheading := (h.freshLine ha).heading (hname name rfl)
    rw [← List.append_nil voices] at hheading
    exact hheading
  | staff ha =>
    have hfresh := h.freshLine ha
    have hindent : List.replicate Layout.staffIndent ' ' ≠ [] := by decide
    have hstaff := hfresh.copy List.mem_cons_self (Layout.Stage.agrees_bar_append hindent)
    rw [← List.append_nil voices] at hstaff
    exact hstaff
  | voice _ htext => exact h.voice (Line.isMusic_of_allLetters htext)
  | accord =>
    have hmem : Glyph.fullMeasureInAccord.text ∈ Layout.fillers :=
      List.mem_cons_of_mem _ List.mem_cons_self
    have haccord := @copy _ _ _ _ .accord _ _ h _ hmem trivial
    rw [← List.append_nil voices] at haccord
    exact haccord
  | space _ =>
    have hmem : [' '] ∈ Layout.fillers :=
      List.mem_cons_of_mem _ (List.mem_cons_of_mem _ List.mem_cons_self)
    have hspace := h.copy hmem (Layout.Stage.agrees_bar_append (List.cons_ne_nil _ _))
    rw [← List.append_nil voices] at hspace
    exact hspace

/-- So do all pieces in order. -/
theorem places {ps : List Layout.Piece} (hps : Layout.Orderly a ps b)
    (hnames : ∀ p ∈ ps, ∀ name, p.heading? = some name → name ∈ names)
    (h : Walks size names voices a narrow wide) :
    Walks size names (voices ++ ps.filterMap Layout.Piece.voice?) b
      (ps.foldl (Scroll.place (some size.width)) narrow) (ps.foldl (Scroll.place none) wide) := by
  induction hps generalizing voices narrow wide with
  | nil =>
    rw [List.filterMap_nil, List.append_nil]
    exact h
  | @cons _ _ _ p ps hp _ ih =>
    have hfirst := h.place hp (hnames p List.mem_cons_self)
    have hrest := ih (fun q hq => hnames q (List.mem_cons_of_mem p hq)) hfirst
    have hvoices : (p :: ps).filterMap Layout.Piece.voice? =
        p.voice?.toList ++ ps.filterMap Layout.Piece.voice? := by
      rw [List.filterMap_cons]
      cases p.voice? <;> rfl
    rw [hvoices, ← List.append_assoc]
    exact hrest

end Scroll.Walks

/-! ### Pages that are large enough -/

namespace Layout

/-- The characters that a piece writes on the current line. -/
def Piece.width : Piece → Nat
  | heading _ => 0
  | staff => staffIndent
  | voice text => text.length
  | glue text => text.length

/-- A width that all pieces have room in together. -/
def room (ps : List Piece) : Nat := ps.foldr (fun p sum => p.width + sum) 0

end Layout

namespace Scroll

variable {s : Scroll} {width : Nat}

lemma length_place_none_le (s : Scroll) (p : Layout.Piece) :
    (s.place none p).current.length ≤ s.current.length + p.width := by
  have hfresh : s.freshLine.current = [] := Page.Shows.current_freshLine s
  cases p with
  | heading name => exact Nat.zero_le _
  | staff =>
    have hcurrent : (s.place none .staff).current =
        s.freshLine.current ++ List.replicate Layout.staffIndent ' ' := rfl
    rw [hcurrent, hfresh, List.nil_append, List.length_replicate]
    exact Nat.le_add_left _ _
  | voice text =>
    rw [place_voice_none]
    exact (List.length_append).le
  | glue text => exact (List.length_append).le

lemma place_some_eq_none {p : Layout.Piece} (h : s.current.length + p.width ≤ width) :
    s.place (some width) p = s.place none p := by
  cases p with
  | voice text =>
    rw [place_voice_none]
    exact place_voice_of_fits (.inr h)
  | heading name => rfl
  | staff => rfl
  | glue text => rfl

/-- A page that is wide enough for all pieces is as good as an endless one. -/
theorem ofPieces_some_eq_none {ps : List Layout.Piece} (h : Layout.room ps ≤ width) :
    ofPieces (some width) ps = ofPieces none ps := by
  have hplaces (s : Scroll) (hs : s.current.length + Layout.room ps ≤ width) :
      ps.foldl (place (some width)) s = ps.foldl (place none) s := by
    induction ps generalizing s with
    | nil => rfl
    | cons p ps ih =>
      have hroom : Layout.room (p :: ps) = p.width + Layout.room ps := rfl
      have hle := length_place_none_le s p
      rw [List.foldl_cons, List.foldl_cons, place_some_eq_none (by omega)]
      exact ih (by omega) _ (by omega)
  exact hplaces {} (by simpa using h)

end Scroll

lemma Line.paged_eq_self {height : Nat} {count : Nat} {ls : List Line}
    (h : ∀ k, count < k → k ≤ count + ls.length → k % height ≠ 0) : paged height count ls = ls := by
  induction ls generalizing count with
  | nil => rfl
  | cons l ls ih =>
    have hlength : (l :: ls).length = ls.length + 1 := List.length_cons
    have hend : pageEnd height (count + 1) = [] := if_neg (h _ (by omega) (by omega))
    have hrest : paged height (count + 1) ls = ls := by
      apply ih
      intro k hlt hle
      exact h k (by omega) (by omega)
    rw [paged, hend, hrest, List.nil_append]

lemma Line.paged_height_zero (ls : List Line) : paged 0 0 ls = ls := by
  apply paged_eq_self
  intro k hpos _
  rw [Nat.mod_zero]
  omega

/-- On a page that is higher than there are lines nothing is numbered. -/
lemma Scroll.text_of_low {s : Scroll} {size : Options.PageSize}
    (h : s.finished.length < size.height) :
    s.text size = Line.finish size.width s.finished ++ s.current := by
  have hhigh : Line.paged size.height 0 s.finished = s.finished := by
    apply Line.paged_eq_self
    intro k hpos hle
    rw [Nat.mod_eq_of_lt (by omega)]
    omega
  rw [text, hhigh]

theorem Scroll.Plain.text_eq_endless {s : Scroll} (h : s.Plain) {size : Options.PageSize}
    (hheight : s.finished.length < size.height) : s.text size = s.endless := by
  have hlines : s.finished.map (Line.text size.width) = s.finished.map (Line.text 0) := by
    apply List.map_congr_left
    intro l hl
    have hplain := h.finished l hl
    cases l with
    | heading name => rfl
    | music t => rfl
    | number n => exact hplain.elim
  rw [text_of_low hheight, endless, text, Line.paged_height_zero, Line.finish_append_eq_intercalate,
    Line.finish_append_eq_intercalate, hlines]

/-! ### Transcriptions -/

namespace Layout

/-- The text on a page of any size is that of the endless scroll, reflowed. -/
theorem reflowed_ofPieces (size : Options.PageSize) (style : Options.Style) (script : Script) :
    ∃ count, Reflowed size (script.map fun p => p.name.toList) count (voiceTexts style script)
      (Scroll.ofPieces none (pieces style script)).endless
      ((Scroll.ofPieces (some size.width) (pieces style script)).text size) := by
  obtain ⟨b, hb⟩ := exists_orderly_pieces style script
  have hstart : Scroll.Walks size (script.map fun p => p.name.toList) [] .margin {} {} :=
    ⟨Scroll.plain_empty, ⟨rfl, rfl⟩, .start⟩
  have hnames : ∀ p ∈ pieces style script, ∀ name, p.heading? = some name →
      name ∈ script.map fun p => p.name.toList := by
    intro p hp name hname
    rw [← headings_pieces style script]
    exact List.mem_filterMap.mpr ⟨p, hp, hname⟩
  exact ⟨_, (hstart.places hb hnames).reflowed⟩

end Layout

namespace Transcriber

/-- The size of the page and the style make no difference to what fails and to what is counted, and
the size of the page makes no other difference to the text than that it is reflowed: there is a
text that all pages give which are large enough, and the text on any page comes from it. -/
theorem transcribe_reflows (content : Options.Content) (s : Score) :
    let run (page : Options.PageSize) (style : Options.Style) :=
      (new ⟨page, content, style⟩).transcribe s
    (∀ page page' style style', (run page style).2.last.tally = (run page' style').2.last.tally) ∧
      ((∃ f, ∀ page style, (run page style).1 = .error f) ∨
        ∃ script, s.script content = .ok script ∧ ∀ style, ∃ wide,
          (∃ least : Options.PageSize, ∀ page : Options.PageSize, least.width ≤ page.width →
            least.height ≤ page.height → (run page style).1 = .ok wide) ∧
          ∀ page, ∃ narrow count, (run page style).1 = .ok narrow ∧
            Layout.Reflowed page (s.parts.map fun p => p.name.toList) count
              (Layout.voiceTexts style script) wide narrow) := by
  intro run
  have hanswer (page : Options.PageSize) (style : Options.Style) : (run page style).1 =
      (s.script content).map fun script =>
        (Scroll.ofPieces (some page.width) (Layout.pieces style script)).text page :=
    answer_transcribe_new ⟨page, content, style⟩ s
  constructor
  · intro page page' style style'
    have htally := tally_transcribe_new ⟨page, content, style⟩ s
    have htally' := tally_transcribe_new ⟨page', content, style'⟩ s
    exact htally.trans htally'.symm
  · cases hscript : s.script content with
    | error f =>
      left
      refine ⟨f, fun page style => ?_⟩
      rw [hanswer, hscript]
      rfl
    | ok script =>
      right
      have hok (page : Options.PageSize) (style : Options.Style) : (run page style).1 =
          .ok ((Scroll.ofPieces (some page.width) (Layout.pieces style script)).text page) := by
        rw [hanswer, hscript]
        rfl
      refine ⟨script, rfl, fun style => ?_⟩
      let scroll := Scroll.ofPieces none (Layout.pieces style script)
      have hplain : scroll.Plain := Scroll.plain_ofPieces none style script
      refine ⟨scroll.endless, ?_, ?_⟩
      · -- Wide enough that no voice is wrapped, and too high to be full.
        let least : Options.PageSize :=
          ⟨Layout.room (Layout.pieces style script), scroll.finished.length + 1⟩
        refine ⟨least, fun page hwidth hheight => ?_⟩
        rw [hok, Scroll.ofPieces_some_eq_none hwidth, hplain.text_eq_endless hheight]
      · intro page
        obtain ⟨count, hreflowed⟩ := Layout.reflowed_ofPieces page style script
        rw [Score.names_script hscript] at hreflowed
        exact ⟨_, count, hok page style, hreflowed⟩

end Transcriber

end BrailleScore
