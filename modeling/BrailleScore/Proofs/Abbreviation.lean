import BrailleScore.Proofs.HandSigns
import BrailleScore.Proofs.PageLines

/-!
# What abbreviation leaves alone

Abbreviation counts equal items of a voice, be they notes or the signs of tuplets, and writes four
or more of them as one behind their number. So it changes nothing in a score where no four equal
items follow each other in a voice, and looking at the notes alone is not enough for that.
-/

namespace BrailleScore

/-- All voices of a script, measure by measure. -/
def Script.voices (s : Script) : List Script.Voice :=
  s.flatMap fun p => p.segments.flatten.flatten.flatten

/-- The same options with abbreviation switched on or off. -/
def Options.abbreviating (options : Options) (on : Bool) : Options :=
  { options with style := { options.style with compressRepeats := on } }

namespace Run

variable {α : Type} {items : List α}

/-- Only items that occur can be repeated. -/
lemma not_infix_of_forall_mem (h : ∀ a ∈ items, ¬ List.replicate 4 a <:+: items) (a : α) :
    ¬ List.replicate 4 a <:+: items := by
  intro hfour
  have ha : a ∈ List.replicate 4 a := List.mem_replicate.mpr ⟨by decide, rfl⟩
  exact h a (hfour.subset ha) hfour

variable [DecidableEq α]

/-- The items of a run stand side by side. -/
lemma replicate_infix_of_mem_group {r : Run α} (h : r ∈ group items) :
    List.replicate r.length r.item <:+: items := by
  obtain ⟨before, after, hsplit⟩ := List.append_of_mem h
  have hitems := expand_group items
  rw [hsplit, expand, List.flatMap_append, List.flatMap_cons, ← List.append_assoc] at hitems
  exact ⟨_, _, hitems⟩

lemma length_lt_of_mem_group (h : ∀ a, ¬ List.replicate 4 a <:+: items) {r : Run α}
    (hr : r ∈ group items) : r.length < 4 := by
  by_contra hlong
  have hfour : List.replicate 4 r.item <:+: List.replicate r.length r.item := by
    refine ⟨[], List.replicate (r.length - 4) r.item, ?_⟩
    rw [List.nil_append, List.replicate_append_replicate]
    congr 1
    omega
  exact h r.item (hfour.trans (replicate_infix_of_mem_group hr))

/-- Runs of less than four items are written out. -/
theorem compress_eq_flatMap (h : ∀ r ∈ group items, r.length < 4) (atom : α → List Char) :
    compress atom items = items.flatMap atom := by
  rw [compress, flatMap_write_eq h, expand_group]

end Run

/-! ### Pieces with the same texts -/

namespace Layout

variable {style style' : Options.Style}

/-- The text behind a hand sign only depends on the text of the voice. -/
lemma voiceText_congr {v : Script.Voice} (h : voiceText style none v = voiceText style' none v)
    (hand : Option Hand) : voiceText style hand v = voiceText style' hand v := by
  cases hand with
  | none => exact h
  | some hand =>
    have hsign : (Fragment.ofSign (.hand hand)).text ≠ [] := by
      rw [Fragment.ofSign, Hand.text_hand]
      exact List.cons_ne_nil _ _
    have hjoin (style : Options.Style) := Fragment.join_cons hsign (fragments style v)
    change Fragment.join (fragments style v) = Fragment.join (fragments style' v) at h
    change Fragment.join (Fragment.ofSign (.hand hand) :: fragments style v) =
      Fragment.join (Fragment.ofSign (.hand hand) :: fragments style' v)
    rw [hjoin, hjoin, h]

lemma measurePieces_congr {m : Script.Measure}
    (h : ∀ v ∈ m, voiceText style none v = voiceText style' none v) (hand : Option Hand) :
    measurePieces style hand m = measurePieces style' hand m := by
  cases m with
  | nil => rfl
  | cons first others =>
    obtain ⟨hfirst, hothers⟩ := List.forall_mem_cons.mp h
    have hpieces : (others.flatMap fun v => [inAccord, .voice (voiceText style none v)]) =
        others.flatMap fun v => [inAccord, .voice (voiceText style' none v)] :=
      List.flatMap_congr fun v hv => by rw [hothers v hv]
    rw [measurePieces, measurePieces, voiceText_congr hfirst, hpieces]

lemma measuresPieces_congr {s : Script.Staff}
    (h : ∀ v ∈ s.flatten, voiceText style none v = voiceText style' none v) (hand : Option Hand) :
    measuresPieces style hand s = measuresPieces style' hand s := by
  induction s generalizing hand with
  | nil => rfl
  | cons m rest ih =>
    rw [List.flatten_cons, List.forall_mem_append] at h
    rw [measuresPieces, measuresPieces, measurePieces_congr h.1, ih h.2]

lemma segmentPieces_congr (hhands : style.handSigns = style'.handSigns) {staves : Script.Segment}
    (h : ∀ v ∈ staves.flatten.flatten, voiceText style none v = voiceText style' none v) :
    segmentPieces style staves = segmentPieces style' staves := by
  have hstaff : ∀ s ∈ staves, ∀ hand, staffPieces style hand s = staffPieces style' hand s := by
    intro s hs hand
    rw [staffPieces, staffPieces, measuresPieces_congr fun v hv => h v ?_]
    obtain ⟨m, hm, hv⟩ := List.mem_flatten.mp hv
    exact List.mem_flatten_of_mem (List.mem_flatten_of_mem hs hm) hv
  unfold segmentPieces
  split
  · rename_i upper lower
    have hupper := hstaff upper List.mem_cons_self
    have hlower := hstaff lower (List.mem_cons_of_mem _ List.mem_cons_self)
    simp only [hupper, hlower, hhands]
  · exact List.flatMap_congr fun s hs => hstaff s hs none

/-- Styles that give the voices the same texts give the same pieces. -/
theorem pieces_congr (hhands : style.handSigns = style'.handSigns) {script : Script}
    (h : ∀ v ∈ script.voices, voiceText style none v = voiceText style' none v) :
    pieces style script = pieces style' script := by
  refine List.flatMap_congr fun p hp => ?_
  have hsegments : p.segments.flatMap (segmentPieces style) =
      p.segments.flatMap (segmentPieces style') := by
    refine List.flatMap_congr fun staves hstaves => segmentPieces_congr hhands fun v hv => h v ?_
    refine List.mem_flatMap.mpr ⟨p, hp, ?_⟩
    obtain ⟨m, hm, hv⟩ := List.mem_flatten.mp hv
    obtain ⟨s, hs, hm⟩ := List.mem_flatten.mp hm
    have hstaff := List.mem_flatten_of_mem hstaves hs
    exact List.mem_flatten_of_mem (List.mem_flatten_of_mem hstaff hm) hv
  rw [partPieces, partPieces, hsegments]

/-- A voice without four equal items in a row has the same text in every style. -/
theorem voiceText_eq_of_short_runs {v : Script.Voice}
    (h : ∀ i, ¬ List.replicate 4 i <:+: v) (style : Options.Style) :
    voiceText style none v = v.flatMap Script.Item.text := by
  cases hstyle : style.compressRepeats with
  | false => exact Script.Voice.voiceText_eq_flatMap hstyle v
  | true =>
    have hcompress : (fragments style v).flatMap Fragment.text =
        Run.compress Script.Item.text v := by
      rw [fragments, if_pos hstyle, List.flatMap_map]
      rfl
    rw [voiceText_none, hcompress]
    exact Run.compress_eq_flatMap (fun r hr => Run.length_lt_of_mem_group h hr) _

end Layout

namespace Transcriber

/-- Abbreviation changes nothing in a score if in no voice of a measure four equal notes follow each
other, nor four equal signs of tuplets. -/
theorem transcribe_eq_of_short_runs {options : Options} {s : Score}
    (hnotes : ∀ script, s.script options.content = .ok script → ∀ v ∈ script.voices,
      ∀ signs, ¬ List.replicate 4 (Script.Item.note signs) <:+: v)
    (htuplets : ∀ script, s.script options.content = .ok script → ∀ v ∈ script.voices,
      ∀ sign, ¬ List.replicate 4 (Script.Item.tuplet sign) <:+: v) :
    ((new (options.abbreviating true)).transcribe s).1 =
      ((new (options.abbreviating false)).transcribe s).1 := by
  have hanswer (on : Bool) : ((new (options.abbreviating on)).transcribe s).1 =
      (s.script options.content).map fun script =>
        (Scroll.ofPieces (some options.page.width)
          (Layout.pieces (options.abbreviating on).style script)).text options.page := by
    have hcontent : (options.abbreviating on).content = options.content := rfl
    have hpage : (options.abbreviating on).page = options.page := rfl
    rw [answer_transcribe_new, hcontent, hpage]
  rw [hanswer, hanswer]
  cases hscript : s.script options.content with
  | error f => rw [Except.map, Except.map]
  | ok script =>
    have hshort : ∀ v ∈ script.voices, ∀ i, ¬ List.replicate 4 i <:+: v := by
      intro v hv i
      cases i with
      | note signs => exact hnotes script hscript v hv signs
      | tuplet sign => exact htuplets script hscript v hv sign
    have hpieces : Layout.pieces (options.abbreviating true).style script =
        Layout.pieces (options.abbreviating false).style script := by
      refine Layout.pieces_congr (by rfl) fun v hv => ?_
      rw [Layout.voiceText_eq_of_short_runs (hshort v hv),
        Layout.voiceText_eq_of_short_runs (hshort v hv)]
    rw [Except.map, Except.map, hpieces]

/-- A triplet within a triplet, then twice three equal notes. -/
theorem transcribe_eq_of_three_and_three :
    let note (step : Step) : Event :=
      .entry (.note { pitch := some ⟨step, 0, 4⟩, duration := { base := .eighth } })
    let first : Event := .entry (.note {
      pitch := some ⟨.c, 0, 4⟩, duration := { base := .eighth }, tuplet := some 1
      tupletStarts := 2 })
    let s : Score := { parts := [{
      tuplets := ⟨[⟨3, some 0⟩, ⟨3, none⟩]⟩
      events := [.startBar 1, first, note .d, note .d, note .d, note .e, note .e, note .e,
        .endBar] }] }
    (∃ script, s.script {} = .ok script ∧ ∀ v ∈ script.voices, ∀ i, ¬ List.replicate 4 i <:+: v) ∧
      ((new (Options.abbreviating {} true)).transcribe s).1 =
        ((new (Options.abbreviating {} false)).transcribe s).1 := by
  intro note first s
  have hshort : ∃ script, s.script {} = .ok script ∧
      ∀ v ∈ script.voices, ∀ i ∈ v, ¬ List.replicate 4 i <:+: v := ⟨_, rfl, by decide +kernel⟩
  obtain ⟨script, hscript, hshort⟩ := hshort
  have hall : ∀ v ∈ script.voices, ∀ i, ¬ List.replicate 4 i <:+: v := fun v hv =>
    Run.not_infix_of_forall_mem (hshort v hv)
  refine ⟨⟨script, hscript, hall⟩, transcribe_eq_of_short_runs ?_ ?_⟩
  · intro script' hscript' v hv signs
    obtain rfl := Except.ok.inj (hscript.symm.trans hscript')
    exact hall v hv (.note signs)
  · intro script' hscript' v hv sign
    obtain rfl := Except.ok.inj (hscript.symm.trans hscript')
    exact hall v hv (.tuplet sign)

/-- Four equal signs of tuplets in front of a single note are abbreviated. -/
theorem abbreviated_tuplets_ne :
    let note : Event := .entry (.note {
      pitch := some ⟨.c, 0, 4⟩, duration := { base := .quarter }, tuplet := some 4
      tupletStarts := 4 })
    let s : Score := { parts := [{
      name := "P"
      tuplets := ⟨[⟨5, some 3⟩, ⟨5, some 2⟩, ⟨5, some 1⟩, ⟨5, some 0⟩, ⟨5, none⟩]⟩
      events := [.startBar 1, note, .endBar] }] }
    (∀ script, s.script {} = .ok script → ∀ v ∈ script.voices,
      ∀ signs, ¬ List.replicate 4 (Script.Item.note signs) <:+: v) ∧
      ((new (Options.abbreviating {} true)).transcribe s).1 ≠
        ((new (Options.abbreviating {} false)).transcribe s).1 := by
  intro note s
  have hone : ∃ script, s.script {} = .ok script ∧
      ∀ v ∈ script.voices, v.countP (fun i => i.note?.isSome) = 1 := ⟨_, rfl, by decide +kernel⟩
  refine ⟨fun script hscript v hv signs hfour => ?_, by decide +kernel⟩
  obtain ⟨script', hscript', hone⟩ := hone
  obtain rfl := Except.ok.inj (hscript.symm.trans hscript')
  have hcount := hfour.sublist.countP_le (p := fun i => i.note?.isSome)
  rw [hone v hv] at hcount
  exact absurd hcount (by simp [Script.Item.note?])

end Transcriber

end BrailleScore
