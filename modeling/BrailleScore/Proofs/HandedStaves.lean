import BrailleScore.Proofs.HandSigns
import BrailleScore.Proofs.LineWidth

/-!
# Staves of two hands

Where a segment has two staves, each of them carries the sign of its hand once, in front of the
first voice that is written on it. The sign waits in measures without voices until a voice takes
it. Staves without notes and rests, and segments with another number of staves, carry none.
-/

namespace BrailleScore

open Fault

namespace Layout

variable {style : Options.Style}

/-! ### Staves -/

/-- The texts of the voices of a staff. -/
def staffTexts (style : Options.Style) (hand : Option Hand) (s : Script.Staff) :
    List (List Char) :=
  (staffPieces style hand s).filterMap Piece.voice?

/-- Of the texts of a staff the first one carries the hand sign: that of the first voice in the
first measure that has a voice. No other one contains a hand sign. -/
def CarriesOnce (style : Options.Style) (hand : Hand) (s : Script.Staff)
    (texts : List (List Char)) : Prop :=
  ∃ (silent : List Script.Measure) (first : Script.Voice) (others : Script.Measure)
    (later : List Script.Measure) (t : List Char),
    s = silent ++ (first :: others) :: later ∧ (∀ m ∈ silent, m = []) ∧
    Handed hand (voiceText style none first) t ∧
    texts = t :: (others ++ later.flatten).map (voiceText style none) ∧
    ∀ u ∈ (others ++ later.flatten).map (voiceText style none), Hand.signsIn u = []

lemma voiceTexts_measurePieces (hand : Option Hand) (m : Script.Measure) :
    (measurePieces style hand m).filterMap Piece.voice? = match m with
      | [] => []
      | first :: others =>
        voiceText style hand first :: others.map (voiceText style none) := by
  cases m with
  | nil => rfl
  | cons first others =>
    have hothers : (others.flatMap fun v => [inAccord, .voice (voiceText style none v)]).filterMap
        Piece.voice? = others.map (voiceText style none) := by
      induction others with
      | nil => rfl
      | cons v others ih =>
        rw [List.flatMap_cons, List.filterMap_append, ih]
        rfl
    have hfirst : (Piece.voice (voiceText style hand first)).voice? =
        some (voiceText style hand first) := rfl
    rw [measurePieces, List.filterMap_append, List.filterMap_cons_some hfirst, hothers]
    exact List.append_nil _

lemma staffTexts_cons (hand : Option Hand) (m : Script.Measure) (rest : Script.Staff) :
    staffTexts style hand (m :: rest) = (measurePieces style hand m).filterMap Piece.voice? ++
      staffTexts style (if m.isEmpty then hand else none) rest := by
  exact List.filterMap_append

lemma staffTexts_none (s : Script.Staff) :
    staffTexts style none s = s.flatten.map (voiceText style none) := by
  induction s with
  | nil => rfl
  | cons m rest ih =>
    rw [staffTexts_cons, ite_self, ih, voiceTexts_measurePieces, List.flatten_cons,
      List.map_append]
    cases m <;> rfl

/-- The hand sign waits until there is a voice. -/
lemma staffTexts_silent (hand : Option Hand) {silent : List Script.Measure}
    (h : ∀ m ∈ silent, m = []) (s : Script.Staff) :
    staffTexts style hand (silent ++ s) = staffTexts style hand s := by
  induction silent with
  | nil => rfl
  | cons m silent ih =>
    obtain ⟨rfl, hsilent⟩ := List.forall_mem_cons.mp h
    rw [List.cons_append, staffTexts_cons, voiceTexts_measurePieces]
    exact ih hsilent

lemma exists_first_voice {s : Script.Staff} (h : s.flatten ≠ []) :
    ∃ silent first others later, s = silent ++ (first :: others) :: later ∧
      ∀ m ∈ silent, m = [] := by
  induction s with
  | nil => exact absurd rfl h
  | cons m rest ih =>
    cases m with
    | nil =>
      obtain ⟨silent, first, others, later, rfl, hsilent⟩ := ih h
      exact ⟨[] :: silent, first, others, later, rfl, List.forall_mem_cons.mpr ⟨rfl, hsilent⟩⟩
    | cons first others => exact ⟨[], first, others, rest, rfl, by simp⟩

theorem carriesOnce_staffTexts {s : Script.Staff} (hs : ∀ v ∈ s.flatten, v.IsWritten)
    (h : s.flatten ≠ []) (style : Options.Style) (hand : Hand) :
    CarriesOnce style hand s (staffTexts style (some hand) s) := by
  obtain ⟨silent, first, others, later, rfl, hsilent⟩ := exists_first_voice h
  have hvoice (v : Script.Voice) (hv : v ∈ first :: others ++ later.flatten) : v.IsWritten := by
    apply hs
    rw [List.flatten_append, List.flatten_cons]
    exact List.mem_append_right _ hv
  refine ⟨silent, first, others, later, _, rfl, hsilent,
    handed (hvoice first List.mem_cons_self) style hand, ?_, ?_⟩
  · have hnext : (if (first :: others).isEmpty then some hand else none) = none := rfl
    rw [staffTexts_silent _ hsilent, staffTexts_cons, voiceTexts_measurePieces, hnext,
      staffTexts_none, List.map_append]
    rfl
  · intro u hu
    obtain ⟨v, hv, rfl⟩ := List.mem_map.mp hu
    exact Hand.signsIn_eq_nil
      (closing_not_mem_voiceText (hvoice v (List.mem_cons_of_mem first hv)) style)

lemma staffTexts_eq_nil {s : Script.Staff} (h : s.flatten = []) (hand : Option Hand) :
    staffTexts style hand s = [] := by
  have hsilent : ∀ m ∈ s, m = [] := List.flatten_eq_nil_iff.mp h
  have htexts : staffTexts style hand (s ++ []) = [] := staffTexts_silent hand hsilent []
  rw [List.append_nil] at htexts
  exact htexts

/-- The texts of the voices of a segment. -/
def segmentTexts (style : Options.Style) (staves : Script.Segment) : List (List Char) :=
  (segmentPieces style staves).filterMap Piece.voice?

lemma segmentTexts_of_handSigns (h : style.handSigns) (upper lower : Script.Staff) :
    segmentTexts style [upper, lower] =
      staffTexts style (some .right) upper ++ staffTexts style (some .left) lower := by
  have hpieces : segmentPieces style [upper, lower] =
      staffPieces style (some .right) upper ++ staffPieces style (some .left) lower := if_pos h
  rw [segmentTexts, hpieces, List.filterMap_append]
  rfl

lemma segmentTexts_of_not {staves : Script.Segment}
    (h : ¬ (staves.length = 2 ∧ style.handSigns)) :
    segmentTexts style staves = staves.flatMap (staffTexts style none) := by
  have hhands : (decide (staves.length = 2) && style.handSigns) = false := by
    simpa using h
  have hpieces := Pass.stavesPieces_eq_segmentPieces style staves
  rw [hhands, Pass.stavesPieces_false] at hpieces
  rw [segmentTexts, ← hpieces, List.filterMap_flatMap]
  rfl

lemma signsIn_of_mem_segmentTexts {staves : Script.Segment}
    (hstaves : ∀ v ∈ staves.flatten.flatten, v.IsWritten)
    (h : ¬ (staves.length = 2 ∧ style.handSigns)) {t : List Char}
    (ht : t ∈ segmentTexts style staves) : Hand.signsIn t = [] := by
  rw [segmentTexts_of_not h] at ht
  obtain ⟨staff, hstaff, ht⟩ := List.mem_flatMap.mp ht
  rw [staffTexts_none] at ht
  obtain ⟨v, hv, rfl⟩ := List.mem_map.mp ht
  have hmem : v ∈ staves.flatten.flatten := by
    rw [List.mem_flatten] at hv ⊢
    obtain ⟨m, hm, hv⟩ := hv
    exact ⟨m, List.mem_flatten.mpr ⟨staff, hstaff, hm⟩, hv⟩
  exact Hand.signsIn_eq_nil (closing_not_mem_voiceText (hstaves v hmem) style)

end Layout

/-! ### Segments -/

/-- The texts of a staff with notes or rests carry the sign of a hand once. A staff without any has
no texts. -/
structure Segment.StaffHanded (style : Options.Style) (s : Segment) (name : String) (hand : Hand)
    (w : Script.Staff) (texts : List (List Char)) : Prop where
  sounding : (∃ p ∈ s.places, p.entry.staff = name) → Layout.CarriesOnce style hand w texts
  silent : (∀ p ∈ s.places, p.entry.staff ≠ name) → texts = []

/-- The segment is written as `w`, with the signs of both hands if it has two staves and hand signs
are asked for, else without any hand sign. -/
structure Segment.HandedAs (content : Options.Content) (style : Options.Style) (s : Segment)
    (w : Script.Segment) : Prop where
  written : s.WrittenAs content w
  hands : style.handSigns → s.staffCount = 2 → ∃ upper lower right left texts texts',
    s.staffNames = [upper, lower] ∧ w = [right, left] ∧
    Layout.segmentTexts style w = texts ++ texts' ∧
    s.StaffHanded style upper .right right texts ∧ s.StaffHanded style lower .left left texts'
  bare : ¬ (style.handSigns ∧ s.staffCount = 2) →
    ∀ t ∈ Layout.segmentTexts style w, Hand.signsIn t = []

structure Part.HandedAs (content : Options.Content) (style : Options.Style) (p : Part)
    (w : Script.Part) : Prop where
  name : w.name = p.name
  segments : ∃ segments, Segment.cut p.events = .ok segments ∧
    List.Forall₂ (Segment.HandedAs content style) segments w.segments

variable {content : Options.Content} {table : Tuplet.Table} {style : Options.Style}

namespace Segment

variable {s : Segment}

lemma isWritten_of_script {w : Script.Segment} (h : s.script content table = .ok w) :
    ∀ v ∈ w.flatten.flatten, v.IsWritten := by
  intro v hv
  obtain ⟨m, hm, hv⟩ := List.mem_flatten.mp hv
  obtain ⟨staff, hstaff, hm⟩ := List.mem_flatten.mp hm
  obtain ⟨staves, -, hw⟩ := bind_eq_ok.mp h
  obtain ⟨_, -, hstaff⟩ := exists_of_mem_mapM hw hstaff
  obtain ⟨measure, -, hm⟩ := exists_of_mem_mapM (each_eq_ok.mp hstaff) hm
  obtain ⟨voice, hvoice, hv⟩ := exists_of_mem_mapM hm hv
  -- A measure has voices only for the notes and rests in it.
  rw [Measure.voices_eq] at hvoice
  obtain ⟨name, hname, rfl⟩ := List.mem_map.mp hvoice
  rw [Measure.voiceNames, List.mem_eraseDups] at hname
  obtain ⟨e, he, rfl⟩ := List.mem_map.mp hname
  have hentries : e ∈ (measure.2.voice e.voice).entries := List.mem_filter.mpr ⟨he, by simp⟩
  exact ⟨content, table, _, _, List.ne_nil_of_mem hentries, hv⟩

/-- No voice of a staff has places exactly if the staff has none. -/
lemma flatten_places_eq_nil {name : String} : ((List.range s.measureCount).map fun k =>
    placesByVoice (s.placesIn name k)).flatten = [] ↔ ∀ p ∈ s.places, p.entry.staff ≠ name := by
  rw [List.flatten_eq_nil_iff, List.forall_mem_map]
  constructor
  · rintro h p hp rfl
    have hnone := h p.measure (List.mem_range.mpr (measure_lt_measureCount hp))
    have hperm := flatten_placesByVoice_perm (s.placesIn p.entry.staff p.measure)
    rw [hnone] at hperm
    have hin : p ∈ s.placesIn p.entry.staff p.measure := List.mem_filter.mpr ⟨hp, by simp⟩
    exact List.not_mem_nil (hperm.symm.subset hin)
  · intro h k _
    have hnone : s.placesIn name k = [] := by
      rw [placesIn, List.filter_eq_nil_iff]
      intro p hp hin
      exact h p hp (of_decide_eq_true hin).1
    rw [hnone]
    rfl

lemma staffHanded {name : String} {w : Script.Staff}
    (h : List.Forall₂ (List.Forall₂ (ItemsHold content)) ((List.range s.measureCount).map fun k =>
      placesByVoice (s.placesIn name k)) w) (hw : ∀ v ∈ w.flatten, v.IsWritten) (hand : Hand) :
    s.StaffHanded style name hand w (Layout.staffTexts style (some hand) w) := by
  have hflatten := (List.rel_flatten h).length_eq
  have hnil : w.flatten = [] ↔ ∀ p ∈ s.places, p.entry.staff ≠ name := by
    rw [← flatten_places_eq_nil, ← List.length_eq_zero_iff, ← List.length_eq_zero_iff, hflatten]
  constructor
  · rintro ⟨p, hp, hname⟩
    exact Layout.carriesOnce_staffTexts hw (fun hempty => hnil.mp hempty p hp hname) style hand
  · intro hsilent
    exact Layout.staffTexts_eq_nil (hnil.mpr hsilent) (some hand)

theorem handedAs {w : Script.Segment}
    (h : s.placedScript (Entry.script content table) = .ok w) (style : Options.Style) :
    s.HandedAs content style w := by
  have hwritten := writtenAs h
  have hvoices : ∀ v ∈ w.flatten.flatten, v.IsWritten := by
    rw [← script_eq_placedScript] at h
    exact isWritten_of_script h
  obtain ⟨staves, hstaves, -⟩ := bind_eq_ok.mp h
  have hcount : w.length = s.staffCount := by
    have hlength := hwritten.voices.length_eq
    rw [arrangement, List.length_map, List.length_take] at hlength
    obtain ⟨hnone, -⟩ | ⟨-, hnames, -⟩ := staves_eq_ok.mp hstaves <;> omega
  refine ⟨hwritten, fun hsigns htwo => ?_, fun hnot t ht => ?_⟩
  · obtain ⟨hnone, -⟩ | ⟨-, hnames, -⟩ := staves_eq_ok.mp hstaves
    · omega
    · rw [htwo] at hnames hcount
      obtain ⟨upper, lower, hnames⟩ := List.length_eq_two.mp hnames
      obtain ⟨right, left, rfl⟩ := List.length_eq_two.mp hcount
      have harrangement := hwritten.voices
      rw [arrangement, htwo, hnames] at harrangement
      obtain ⟨hright, hrest⟩ := List.forall₂_cons.mp harrangement
      obtain ⟨hleft, -⟩ := List.forall₂_cons.mp hrest
      refine ⟨upper, lower, right, left, _, _, hnames, rfl,
        Layout.segmentTexts_of_handSigns hsigns right left, staffHanded hright ?_ .right,
        staffHanded hleft ?_ .left⟩
      · intro v hv
        exact hvoices v (by simp [hv])
      · intro v hv
        exact hvoices v (by simp [hv])
  · exact Layout.signsIn_of_mem_segmentTexts hvoices
      (fun hhands => hnot ⟨hhands.2, hcount ▸ hhands.1⟩) ht

end Segment

lemma Part.handedAs {p : Part} {w : Script.Part}
    (h : p.placedScript (Entry.script content) = .ok w) (style : Options.Style) :
    p.HandedAs content style w := by
  simp only [placedScript, bind_eq_ok, pure_eq_ok] at h
  obtain ⟨segments, hcut, scripts, hscripts, rfl⟩ := h
  exact ⟨rfl, segments, hcut, (mapM_eq_ok.mp (each_eq_ok.mp hscripts)).imp fun _ _ hw =>
    Segment.handedAs hw style⟩

lemma Layout.voiceTexts_eq (style : Options.Style) (script : Script) :
    voiceTexts style script =
      script.flatMap fun p => p.segments.flatMap (segmentTexts style) := by
  unfold voiceTexts pieces
  rw [List.filterMap_flatMap]
  refine List.flatMap_congr fun p _ => ?_
  rw [partPieces, List.filterMap_cons_none rfl, List.filterMap_flatMap]
  rfl

/-- A successful transcription with hand signs writes the sign of the right hand on the upper and
that of the left hand on the lower staff of each segment with two staves, once in front of the
first voice of the staff. No other voice contains a hand sign. -/
theorem Transcriber.transcribe_hand_signs {t : Transcriber} {s : Score} {text : List Char}
    (h : (t.transcribe s).1 = .ok text) :
    ∃ script : Script,
      text = (Layout.pages t.last.page.size (Layout.pieces t.options.style script)).text ∧
      Layout.voiceTexts t.options.style script =
        script.flatMap (fun p => p.segments.flatMap (Layout.segmentTexts t.options.style)) ∧
      List.Forall₂ (Part.HandedAs t.options.content t.options.style) s.parts script := by
  rw [transcribe, transcribeWith_eq] at h
  cases hscript : s.placedScript (Entry.script t.options.content) with
  | error f =>
    rw [hscript] at h
    cases h
  | ok script =>
    rw [hscript] at h
    refine ⟨script, (Except.ok.inj h).symm, Layout.voiceTexts_eq _ _, ?_⟩
    exact (mapM_eq_ok.mp (each_eq_ok.mp hscript)).imp fun _ _ hw => Part.handedAs hw _

/-- The upper staff is silent in the first measure, and the lower one begins with a run of four
rests that is abbreviated: the number sign has a dot on the left. -/
theorem Transcriber.transcribe_hand_signs_piano :
    let rest : Event := .entry (.rest { duration := { base := .eighth }, staff := "2" })
    let note : Event :=
      .entry (.note { pitch := some ⟨.d, 0, 4⟩, duration := { base := .eighth }, staff := "1" })
    let s : Score := { parts := [{ name := "P", events := [.startBar 2, .clef {} {} "1",
      rest, rest, rest, rest, .endBar, .startBar 2, note, rest, .endBar] }] }
    let options : Options := { style := { compressRepeats := true } }
    let text := "P\n   ⠨⠜⠐⠑ \n  ⠸⠜⠄⠼⠙⠭ ⠭ ".toList
    ((new options).transcribe s).1 = .ok text ∧ ∃ script : Script,
      text = (Layout.pages options.page (Layout.pieces options.style script)).text ∧
        List.Forall₂ (Part.HandedAs options.content options.style) s.parts script := by
  intro rest note s options text
  have htext : ((new options).transcribe s).1 = .ok text := by decide +kernel
  obtain ⟨script, hpages, -, hparts⟩ := transcribe_hand_signs htext
  exact ⟨htext, script, hpages, hparts⟩

end BrailleScore
