import BrailleScore.Proofs.PageLines
import BrailleScore.Proofs.PieceOrder

/-!
# The height of pages

Of the lines of a text, the numbers of the pages are those behind every `height` others, and they
are counted from one. All other lines are the names of the parts and lines of music, in which
there are only cells and spaces.
-/

namespace BrailleScore

namespace Line

def heading? : Line → Option (List Char)
  | heading name => some name
  | _ => none

/-- Only cells and spaces. -/
def IsMusic (t : List Char) : Prop := ∀ c ∈ t, c = ' ' ∨ Cell.IsLetter c

/-- A line as it stands on a scroll, where pages are not numbered. -/
def IsPlain : Line → Prop
  | heading _ => True
  | music t => IsMusic t
  | number _ => False

lemma IsMusic.append {t u : List Char} (ht : IsMusic t) (hu : IsMusic u) : IsMusic (t ++ u) := by
  intro c hc
  obtain hc | hc := List.mem_append.mp hc
  · exact ht c hc
  · exact hu c hc

lemma isMusic_of_allLetters {t : List Char} (h : Cell.AllLetters t) : IsMusic t :=
  fun c hc => .inr (h c hc)

lemma isMusic_replicate (n : Nat) : IsMusic (List.replicate n ' ') :=
  fun _ hc => .inl (List.eq_of_mem_replicate hc)

lemma IsMusic.not_mem {t : List Char} (h : IsMusic t) : '\n' ∉ t := by
  intro hc
  obtain hspace | hletter := h _ hc
  · exact absurd hspace (by decide)
  · have hle := hletter.base_le_toNat
    exact absurd hle (by decide)

lemma number_not_mem {ls : List Line} (h : ∀ l ∈ ls, IsPlain l) (k : Nat) : number k ∉ ls :=
  fun hk => h _ hk

/-! ### Where the numbers stand -/

lemma filterMap_heading?_paged (height count : Nat) (ls : List Line) :
    (paged height count ls).filterMap heading? = ls.filterMap heading? := by
  have hend (count : Nat) : (pageEnd height count).filterMap heading? = [] := by
    unfold pageEnd
    split
    · rfl
    · rfl
  induction ls generalizing count with
  | nil => rfl
  | cons l ls ih =>
    rw [paged, ← List.singleton_append, List.filterMap_append, List.filterMap_append, hend,
      List.nil_append, ih, ← List.filterMap_append, List.singleton_append]

lemma music_mem_paged {height count : Nat} {ls : List Line} {t : List Char}
    (h : music t ∈ paged height count ls) : music t ∈ ls := by
  have hend (count : Nat) : music t ∉ pageEnd height count := by
    unfold pageEnd
    split
    · simp
    · exact List.not_mem_nil
  induction ls generalizing count with
  | nil => exact h
  | cons l ls ih =>
    rw [paged, List.mem_cons, List.mem_append] at h
    obtain h | h | h := h
    · exact List.mem_cons.mpr (.inl h)
    · exact absurd h (hend _)
    · exact List.mem_cons_of_mem l (ih h)

/-- Lines are counted with the numbers of the full pages among them. -/
lemma add_div_eq (height count : Nat) :
    count + count / height = count / height * (height + 1) + count % height := by
  have hcount := Nat.div_add_mod count height
  have hexpand : count / height * (height + 1) =
      height * (count / height) + count / height := by
    rw [Nat.mul_succ, Nat.mul_comm]
  rw [hexpand]
  omega

lemma ne_multiple {q k m n : Nat} (hpos : 0 < m) (hlt : m < n) : q * n + m ≠ k * n := by
  intro h
  have hmod := congrArg (· % n) h
  simp only [Nat.mul_add_mod_self_right, Nat.mul_mod_left, Nat.mod_eq_of_lt hlt] at hmod
  omega

theorem getElem?_paged_eq_number {height count : Nat} (hheight : 1 ≤ height) {ls : List Line}
    (hls : ∀ k, number k ∉ ls) (i k : Nat) : (paged height count ls)[i]? = some (number k) ↔
      i < (paged height count ls).length ∧ i + 1 + (count + count / height) = k * (height + 1) := by
  induction ls generalizing count i with
  | nil => simp [paged]
  | cons l ls ih =>
    have hl : l ≠ number k := fun heq => hls k (heq ▸ List.mem_cons_self)
    have ih := @ih (count + 1) fun k hk => hls k (List.mem_cons_of_mem l hk)
    have hlt := Nat.mod_lt count hheight
    have hcount := add_div_eq height count
    have hfull := succ_mod count height
    cases i with
    | zero =>
      -- The first line is no number, and its index is no multiple.
      have hne := @ne_multiple (count / height) k (count % height + 1) (height + 1)
        (by omega) (by omega)
      constructor
      · intro h
        exact absurd (Option.some.inj h) hl
      · rintro ⟨-, h⟩
        omega
    | succ i =>
      rw [paged, List.getElem?_cons_succ, List.length_cons, pageEnd]
      by_cases hturn : count % height + 1 = height
      · rw [if_pos hturn] at hfull
        have hdiv := Nat.succ_div_of_mod_eq_zero hfull
        rw [if_pos hfull, List.singleton_append]
        cases i with
        | zero =>
          rw [List.getElem?_cons_zero, hdiv]
          have hsum : 0 + 1 + 1 + (count + count / height) =
              (count / height + 1) * (height + 1) := by
            rw [Nat.succ_mul]
            omega
          have hcancel : (count / height + 1) * (height + 1) = k * (height + 1) ↔
              count / height + 1 = k := Nat.mul_left_inj (Nat.succ_ne_zero height)
          rw [hsum, hcancel]
          simp
        | succ i =>
          rw [List.getElem?_cons_succ, ih, List.length_cons, hdiv]
          omega
      · rw [if_neg hturn] at hfull
        have hne : (count + 1) % height ≠ 0 := by omega
        rw [if_neg hne, List.nil_append, ih, Nat.succ_div_of_mod_ne_zero hne]
        omega

end Line

/-- In the number of a page there are only spaces and digits. -/
lemma Page.not_mem_numberLine {c : Char} (hspace : c ≠ ' ')
    (hdigit : ∀ d, Decimal.digitChar d ≠ c) (width n : Nat) : c ∉ numberLine width n := by
  intro h
  obtain h | h := List.mem_append.mp h
  · exact hspace (List.eq_of_mem_replicate h)
  · obtain ⟨d, -, hd⟩ := List.mem_map.mp h
    exact hdigit d hd

/-! ### The lines of a scroll -/

/-- The name of a part that a piece writes. -/
def Layout.Piece.heading? : Layout.Piece → Option (List Char)
  | heading name => some name
  | _ => none

namespace Scroll

/-- On the scroll there are names and music. -/
structure Plain (s : Scroll) : Prop where
  finished : ∀ l ∈ s.finished, l.IsPlain
  current : Line.IsMusic s.current

variable {s : Scroll}

lemma plain_empty : Plain {} :=
  ⟨fun _ hl => absurd hl List.not_mem_nil, fun _ hc => absurd hc List.not_mem_nil⟩

lemma Plain.finish (h : s.Plain) {l : Line} (hl : l.IsPlain) : Plain ⟨s.finished ++ [l], []⟩ :=
  ⟨List.forall_mem_append.mpr ⟨h.finished, List.forall_mem_singleton.mpr hl⟩, plain_empty.current⟩

lemma Plain.write (h : s.Plain) {t : List Char} (ht : Line.IsMusic t) : (s.write t).Plain :=
  ⟨h.finished, h.current.append ht⟩

lemma Plain.endLine (h : s.Plain) : s.endLine.Plain := h.finish h.current

lemma Plain.freshLine (h : s.Plain) : s.freshLine.Plain := by
  unfold Scroll.freshLine
  split
  · exact h
  · exact h.endLine

lemma headings_freshLine (s : Scroll) :
    s.freshLine.finished.filterMap Line.heading? = s.finished.filterMap Line.heading? := by
  unfold freshLine
  split
  · rfl
  · simp [endLine, Line.heading?]

end Scroll

theorem Layout.Follows.plain {a b : Stage} {p : Piece} (h : Follows a p b) {width : Option Nat}
    {s : Scroll} (hs : s.Plain) : (s.place width p).Plain := by
  cases h with
  | heading _ name => exact hs.freshLine.finish trivial
  | staff => exact hs.freshLine.write (Line.isMusic_replicate _)
  | voice _ htext =>
    have hmusic := Line.isMusic_of_allLetters htext
    unfold Scroll.place
    dsimp only
    split
    · exact hs.endLine.write hmusic
    · exact hs.write hmusic
  | accord => exact hs.write (Line.isMusic_of_allLetters (Cell.AllLetters.glyph _))
  | space => exact hs.write (Line.isMusic_replicate 1)

lemma Scroll.headings_place (width : Option Nat) (s : Scroll) (p : Layout.Piece) :
    (s.place width p).finished.filterMap Line.heading? =
      s.finished.filterMap Line.heading? ++ p.heading?.toList := by
  cases p with
  | heading name =>
    have hname : [Line.heading name].filterMap Line.heading? = [name] := rfl
    rw [place, List.filterMap_append, headings_freshLine, hname]
    rfl
  | staff =>
    have hnone : Layout.Piece.staff.heading?.toList = [] := rfl
    rw [hnone, List.append_nil]
    exact headings_freshLine s
  | voice text =>
    unfold place
    dsimp only
    split
    · simp [endLine, write, Line.heading?, Layout.Piece.heading?]
    · simp [write, Layout.Piece.heading?]
  | glue text => exact (List.append_nil _).symm

lemma Scroll.headings_ofPieces (width : Option Nat) (ps : List Layout.Piece) :
    (ofPieces width ps).finished.filterMap Line.heading? =
      ps.filterMap Layout.Piece.heading? := by
  have hplaces (s : Scroll) : (ps.foldl (place width) s).finished.filterMap Line.heading? =
      s.finished.filterMap Line.heading? ++ ps.filterMap Layout.Piece.heading? := by
    induction ps generalizing s with
    | nil => exact (List.append_nil _).symm
    | cons p ps ih =>
      rw [List.foldl_cons, ih, headings_place, List.filterMap_cons]
      cases p.heading? <;> simp
  exact hplaces {}

theorem Scroll.plain_ofPieces (width : Option Nat) (style : Options.Style) (script : Script) :
    (ofPieces width (Layout.pieces style script)).Plain := by
  obtain ⟨b, h⟩ := Layout.exists_orderly_pieces style script
  exact h.foldl (fun _ _ _ _ _ hp hs => hp.plain hs) plain_empty

/-! ### The lines of a plain scroll on pages -/

namespace Scroll

variable {s : Scroll} {height : Nat}

lemma headings_pageLines (height : Nat) (s : Scroll) :
    (s.pageLines height).filterMap Line.heading? = s.finished.filterMap Line.heading? := by
  have hcurrent : [Line.music s.current].filterMap Line.heading? = [] := rfl
  rw [pageLines, List.filterMap_append, hcurrent, List.append_nil, Line.filterMap_heading?_paged]

lemma music_mem_pageLines {t : List Char} (ht : .music t ∈ s.pageLines height) :
    .music t ∈ s.finished ∨ t = s.current := by
  obtain ht | ht := List.mem_append.mp ht
  · exact .inl (Line.music_mem_paged ht)
  · exact .inr (Line.music.inj (List.mem_singleton.mp ht))

lemma Plain.isMusic_of_mem (h : s.Plain) {t : List Char} (ht : .music t ∈ s.pageLines height) :
    Line.IsMusic t := by
  obtain ht | rfl := music_mem_pageLines ht
  · exact h.finished _ ht
  · exact h.current

lemma Plain.getElem?_pageLines_eq_number (h : s.Plain) (hheight : 1 ≤ height) (i k : Nat) :
    (s.pageLines height)[i]? = some (.number k) ↔
      i + 1 = k * (height + 1) ∧ i + 1 < (s.pageLines height).length := by
  have hpaged := @Line.getElem?_paged_eq_number height 0 hheight s.finished
    (Line.number_not_mem h.finished) i k
  have hlength : (s.pageLines height).length = (Line.paged height 0 s.finished).length + 1 :=
    List.length_append
  have hlast : (s.pageLines height)[i]? = some (.number k) ↔
      (Line.paged height 0 s.finished)[i]? = some (.number k) := by
    unfold pageLines
    obtain hlt | rfl | hgt := Nat.lt_trichotomy i (Line.paged height 0 s.finished).length
    · rw [List.getElem?_append_left hlt]
    · simp
    · rw [List.getElem?_eq_none hgt.le, List.getElem?_eq_none]
      rw [List.length_append]
      exact hgt
  rw [hlast, hpaged, Nat.zero_div, hlength]
  omega

lemma splitOn_text_of_not_mem (size : Options.PageSize)
    (h : ∀ t ∈ (s.pageLines size.height).map (Line.text size.width), '\n' ∉ t) :
    (s.text size).splitOn '\n' = (s.pageLines size.height).map (Line.text size.width) := by
  rw [text_eq_intercalate]
  exact List.splitOn_intercalate '\n' h (by simp [pageLines])

/-- If the names have no line ends in them, the text falls apart into these lines. -/
theorem Plain.splitOn_text (h : s.Plain) (size : Options.PageSize)
    (hnames : ∀ name ∈ s.finished.filterMap Line.heading?, '\n' ∉ name) :
    (s.text size).splitOn '\n' = (s.pageLines size.height).map (Line.text size.width) := by
  apply splitOn_text_of_not_mem
  rw [List.forall_mem_map]
  intro line hline
  cases line with
  | heading name =>
    apply hnames name
    rw [← headings_pageLines size.height]
    exact List.mem_filterMap.mpr ⟨_, hline, rfl⟩
  | music t => exact (h.isMusic_of_mem hline).not_mem
  | number n => exact Page.not_mem_numberLine (by decide) (by decide) _ n

end Scroll

/-! ### The names of the parts -/

namespace Layout

lemma heading?_measuresPieces (style : Options.Style) (hand : Option Hand) (s : Script.Staff) :
    ∀ p ∈ measuresPieces style hand s, p.heading? = none := by
  have hmeasure (hand : Option Hand) (m : Script.Measure) :
      ∀ p ∈ measurePieces style hand m, p.heading? = none := by
    have hspace : ∀ p ∈ [Piece.glue [' ']], p.heading? = none := List.forall_mem_singleton.mpr rfl
    cases m with
    | nil => exact hspace
    | cons first others =>
      have hothers : ∀ p ∈ others.flatMap fun v => [inAccord, .voice (voiceText style none v)],
          p.heading? = none := by
        intro p hp
        obtain ⟨v, -, hp⟩ := List.mem_flatMap.mp hp
        obtain rfl | hp := List.mem_cons.mp hp
        · rfl
        · rw [List.mem_singleton.mp hp]
          rfl
      exact List.forall_mem_append.mpr ⟨List.forall_mem_cons.mpr ⟨rfl, hothers⟩, hspace⟩
  induction s generalizing hand with
  | nil => exact fun p hp => absurd hp List.not_mem_nil
  | cons m rest ih => exact List.forall_mem_append.mpr ⟨hmeasure hand m, ih _⟩

lemma heading?_segmentPieces (style : Options.Style) (staves : Script.Segment) :
    ∀ p ∈ segmentPieces style staves, p.heading? = none := by
  have hstaff (hand : Option Hand) (s : Script.Staff) :
      ∀ p ∈ staffPieces style hand s, p.heading? = none :=
    List.forall_mem_cons.mpr ⟨rfl, heading?_measuresPieces style hand s⟩
  unfold segmentPieces
  split
  · split
    · exact List.forall_mem_append.mpr ⟨hstaff _ _, hstaff _ _⟩
    · exact List.forall_mem_append.mpr ⟨hstaff _ _, hstaff _ _⟩
  · intro p hp
    obtain ⟨s, -, hp⟩ := List.mem_flatMap.mp hp
    exact hstaff none s p hp

lemma headings_pieces (style : Options.Style) (script : Script) :
    (pieces style script).filterMap Piece.heading? = script.map fun p => p.name.toList := by
  induction script with
  | nil => rfl
  | cons part script ih =>
    have hsegments :
        (part.segments.flatMap (segmentPieces style)).filterMap Piece.heading? = [] := by
      apply List.filterMap_eq_nil_iff.mpr
      intro p hp
      obtain ⟨staves, -, hp⟩ := List.mem_flatMap.mp hp
      exact heading?_segmentPieces style staves p hp
    have hcons : pieces style (part :: script) = .heading part.name.toList ::
        part.segments.flatMap (segmentPieces style) ++ pieces style script := rfl
    have hname : (Piece.heading part.name.toList).heading? = some part.name.toList := rfl
    rw [hcons, List.filterMap_append, List.filterMap_cons_some hname, hsegments, ih]
    rfl

end Layout

lemma Score.names_script {content : Options.Content} {s : Score} {script : Script}
    (h : s.script content = .ok script) :
    (script.map fun p => p.name.toList) = s.parts.map fun p => p.name.toList := by
  have hname {p : Part} {w : Script.Part} (h : p.script content = .ok w) : w.name = p.name := by
    obtain ⟨segments, -, h⟩ := Fault.bind_eq_ok.mp h
    obtain ⟨scripts, -, h⟩ := Fault.bind_eq_ok.mp h
    rw [← Fault.pure_eq_ok.mp h]
  have hparts := Fault.mapM_eq_ok.mp (Fault.each_eq_ok.mp h)
  clear h
  generalize s.parts = parts at hparts
  induction hparts with
  | nil => rfl
  | cons hp _ ih => rw [List.map_cons, List.map_cons, hname hp, ih]

/-- The names on the scroll are those of the parts of the score. -/
lemma Scroll.headings_of_script (width : Option Nat) (style : Options.Style)
    {content : Options.Content} {s : Score} {script : Script} (h : s.script content = .ok script) :
    (ofPieces width (Layout.pieces style script)).finished.filterMap Line.heading? =
      s.parts.map fun p => p.name.toList := by
  rw [headings_ofPieces, Layout.headings_pieces, Score.names_script h]

/-! ### The height -/

/-- If no name of a part has a line end in it, the lines of the text are those of the music and the
names, and every page is as high as the options say: behind every `height` lines, and nowhere
else, stands the number of the page. -/
theorem Transcriber.number_iff_height {options : Options} {s : Score} {text : List Char}
    (hheight : 1 ≤ options.page.height) (hnames : ∀ p ∈ s.parts, '\n' ∉ p.name.toList)
    (h : ((new options).transcribe s).1 = .ok text) :
    ∃ lines : List Line, text.splitOn '\n' = lines.map (Line.text options.page.width) ∧
      (∀ i k, lines[i]? = some (.number k) ↔
        i + 1 = k * (options.page.height + 1) ∧ i + 1 < lines.length) ∧
      lines.filterMap Line.heading? = s.parts.map (fun p => p.name.toList) ∧
      ∀ t, .music t ∈ lines → Line.IsMusic t := by
  rw [answer_transcribe_new, Fault.map_eq_bind] at h
  obtain ⟨script, hscript, h⟩ := Fault.bind_eq_ok.mp h
  have htext := (Fault.pure_eq_ok.mp h).symm
  let scroll := Scroll.ofPieces (some options.page.width) (Layout.pieces options.style script)
  have hplain : scroll.Plain := Scroll.plain_ofPieces _ options.style script
  have hheadings : scroll.finished.filterMap Line.heading? = s.parts.map fun p => p.name.toList :=
    Scroll.headings_of_script _ options.style hscript
  refine ⟨scroll.pageLines options.page.height, ?_, ?_, ?_, ?_⟩
  · rw [htext]
    apply hplain.splitOn_text
    rw [hheadings]
    exact List.forall_mem_map.mpr hnames
  · exact hplain.getElem?_pageLines_eq_number hheight
  · rw [Scroll.headings_pageLines, hheadings]
  · exact fun t ht => hplain.isMusic_of_mem ht

/-- A part of one measure on pages of one line. -/
theorem Transcriber.number_iff_height_one :
    let options : Options := { page := ⟨8, 1⟩ }
    let s : Score := { parts := [{ name := "P", events := [.startBar 1,
      .entry (.rest { duration := { base := .quarter } }), .endBar] }] }
    let text := "P\n       1\n  ⠧ ".toList
    1 ≤ options.page.height ∧ (∀ p ∈ s.parts, '\n' ∉ p.name.toList) ∧
      ((new options).transcribe s).1 = .ok text ∧
      ∃ lines : List Line, text.splitOn '\n' = lines.map (Line.text 8) ∧
        ∀ i k, lines[i]? = some (.number k) ↔ i + 1 = k * 2 ∧ i + 1 < lines.length := by
  intro options s text
  have hheight : 1 ≤ options.page.height := by decide
  have hnames : ∀ p ∈ s.parts, '\n' ∉ p.name.toList := by decide +kernel
  have htext : ((new options).transcribe s).1 = .ok text := by decide +kernel
  obtain ⟨lines, hsplit, hnumber, -, -⟩ := number_iff_height hheight hnames htext
  exact ⟨hheight, hnames, htext, lines, hsplit, hnumber⟩

/-- A name with a line end in it makes its page a line higher: the second line is no number. -/
theorem Transcriber.number_not_at_height :
    let options : Options := { page := ⟨8, 1⟩ }
    let s : Score := { parts := [{ name := "a\nb", events := [.startBar 1,
      .entry (.rest { duration := { base := .quarter } }), .endBar] }] }
    ∃ text, ((new options).transcribe s).1 = .ok text ∧ 2 ≤ text.count '\n' ∧
      (text.splitOn '\n')[1]? ≠ some (Page.numberLine 8 1) := by
  intro options s
  refine ⟨"a\nb\n       1\n  ⠧ ".toList, ?_, ?_, ?_⟩
  · decide +kernel
  · decide +kernel
  · decide +kernel

end BrailleScore
