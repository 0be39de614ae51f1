import BrailleScore.Proofs.FaultPlace
import BrailleScore.Proofs.TimelineEdits
import BrailleScore.Proofs.WrittenPlaces

/-!
# The lenient policy refines the strict one

What is written under the strict policy is written under the lenient one as well. The lenient
policy writes more scores: a tuplet that no sign tells is left out, and so is the fingering of a
note one of whose fingers has no sign. What remains to go wrong is a malformed timeline, or an
octave that has no mark.
-/

namespace BrailleScore

open Fault

/-- The transcriber with another policy for notation that braille has no sign for. -/
def Transcriber.under (policy : Options.Policy) (t : Transcriber) : Transcriber :=
  { t with options.content.unsupported := policy }

/-! ### What the lenient policy writes -/

/-- The sign at the start of a tuplet, where there is one. -/
def Sign.tuplet? (t : Tuplet) : Option Sign :=
  (Tuplet.Number.ofNat? t.arity).map fun number => tuplet number t.parent.isSome

/-- All fingers of the note are among those that have a sign. -/
def Note.hasFingerSigns (n : Note) : Bool := n.fingering.all fun f => 1 ≤ f && f ≤ 5

/-- The cause is that the note sounds in an octave without a mark. -/
def Note.OctaveFault (n : Note) (c : Fault.Cause) : Prop :=
  ∃ q, n.sounding = some q ∧ ¬ (0 ≤ q.octave.toInt ∧ q.octave.toInt ≤ 8) ∧
    c = .noOctaveMark q.octave.toInt

namespace Entry

/-- The items of an entry without what has no sign: the tuplets that begin on a note, the outermost
first, and the note behind them. -/
def lenientScript (showFingering : Bool) (table : Tuplet.Table) (last : Option Pitch) :
    Entry → Except Fault (List Script.Item)
  | rest r => .ok [.note r.signs]
  | note n => do
    let starting ← n.startingTuplets table
    let signs ← n.signs last (showFingering && n.hasFingerSigns)
    pure ((starting.reverse.filterMap Sign.tuplet?).map .tuplet ++ [.note signs])

/-- Each tuplet that begins on the entry and each finger that is shown has a sign. -/
def IsSupported (showFingering : Bool) (table : Tuplet.Table) : Entry → Prop
  | rest _ => True
  | note n => (∀ starting, n.startingTuplets table = .ok starting →
      ∀ t ∈ starting, (Sign.tuplet? t).isSome) ∧ (showFingering → n.hasFingerSigns)

end Entry

variable {content : Options.Content} {table : Tuplet.Table} {last : Option Pitch}

lemma Sign.attempt_tupletOf_eq_ok {t : Tuplet} {found : Option Sign} :
    content.attempt (tupletOf t) = .ok found ↔
      (content.unsupported = .strict → (tuplet? t).isSome) ∧ tuplet? t = found := by
  unfold tupletOf tuplet?
  cases Tuplet.Number.ofNat? t.arity with
  | some number => simp [Options.Content.attempt]
  | none => cases h : content.unsupported <;>
      simp [raise, Options.Content.attempt, h, Fault.kind, Cause.kind]

namespace Note

variable {n : Note}

lemma hasFingerSigns_iff : n.hasFingerSigns ↔ Succeeds (Sign.fingeringOf n.fingering) := by
  simp [hasFingerSigns, Sign.succeeds_fingeringOf]

lemma attempt_fingeringOf_eq_ok {shown : Bool} :
    (content.attempt (Sign.fingeringOf n.fingering)).map Option.isSome = .ok shown ↔
      (content.unsupported = .strict → n.hasFingerSigns) ∧ n.hasFingerSigns = shown := by
  cases hfingering : Sign.fingeringOf n.fingering with
  | ok sign =>
    have hsigns : n.hasFingerSigns = true := hasFingerSigns_iff.mpr ⟨sign, hfingering⟩
    simp [hsigns, Options.Content.attempt, Except.map]
  | error f =>
    have hsigns : n.hasFingerSigns = false := by
      rw [← Bool.not_eq_true, hasFingerSigns_iff, hfingering]
      exact not_succeeds_error f
    have hkind := Sign.kind_of_fingeringOf hfingering
    cases hpolicy : content.unsupported <;>
      simp [hsigns, hkind, hpolicy, Options.Content.attempt, Except.map]

lemma tupletSigns_lenient (h : content.unsupported = .lenient) : n.tupletSigns content table =
    (n.startingTuplets table).map fun starting => starting.reverse.filterMap Sign.tuplet? := by
  have hattempt (t : Tuplet) : content.attempt (Sign.tupletOf t) = pure (Sign.tuplet? t) :=
    Sign.attempt_tupletOf_eq_ok.mpr ⟨by simp [h], rfl⟩
  unfold tupletSigns
  simp only [hattempt, List.mapM_pure, pure_bind, List.filterMap_map, map_eq_bind]
  rfl

lemma tupletSigns_strict (h : content.unsupported = .strict) {signs : List Sign} :
    n.tupletSigns content table = .ok signs ↔ ∃ starting, n.startingTuplets table = .ok starting ∧
      (∀ t ∈ starting, (Sign.tuplet? t).isSome) ∧
        starting.reverse.filterMap Sign.tuplet? = signs := by
  unfold tupletSigns
  simp only [bind_eq_ok, pure_eq_ok, mapM_eq_ok, Sign.attempt_tupletOf_eq_ok, h,
    true_implies, List.forall₂_and_left, List.mem_reverse]
  refine exists_congr fun starting => and_congr_right fun _ => ?_
  have hfound (found : List (Option Sign)) : List.Forall₂ (fun t found => Sign.tuplet? t = found)
      starting.reverse found ↔ starting.reverse.map Sign.tuplet? = found := by
    rw [← List.forall₂_map_left_iff (R := Eq), List.forall₂_eq_eq_eq]
  simp only [hfound, and_assoc, exists_and_left, exists_eq_left', List.filterMap_map,
    Function.id_comp]

lemma scriptSigns_lenient (h : content.unsupported = .lenient) :
    n.scriptSigns content last = n.signs last (content.showFingering && n.hasFingerSigns) := by
  have hshown : (content.attempt (Sign.fingeringOf n.fingering)).map Option.isSome =
      .ok n.hasFingerSigns := attempt_fingeringOf_eq_ok.mpr ⟨by simp [h], rfl⟩
  unfold scriptSigns
  rw [hshown]
  cases content.showFingering <;> rfl

lemma scriptSigns_strict (h : content.unsupported = .strict) {signs : List Sign} :
    n.scriptSigns content last = .ok signs ↔ (content.showFingering → n.hasFingerSigns) ∧
      n.signs last (content.showFingering && n.hasFingerSigns) = .ok signs := by
  unfold scriptSigns
  cases content.showFingering with
  | false => simp
  | true =>
    simp only [if_true, bind_eq_ok, attempt_fingeringOf_eq_ok, h, true_implies, Bool.true_and,
      and_assoc, exists_and_left, exists_eq_left']

end Note

namespace Entry

theorem script_lenient (h : content.unsupported = .lenient) (e : Entry) :
    e.script content table last = e.lenientScript content.showFingering table last := by
  cases e with
  | rest r => rfl
  | note n =>
    rw [script, lenientScript, Note.tupletSigns_lenient h, Note.scriptSigns_lenient h]
    cases n.startingTuplets table <;> rfl

/-- The strict policy writes what the lenient one does, where nothing has to be left out. -/
theorem script_strict (h : content.unsupported = .strict) {e : Entry} {items : List Script.Item} :
    e.script content table last = .ok items ↔ e.IsSupported content.showFingering table ∧
      e.lenientScript content.showFingering table last = .ok items := by
  cases e with
  | rest r => simp [script, IsSupported, lenientScript]
  | note n =>
    simp only [script, lenientScript, IsSupported, bind_eq_ok, pure_eq_ok,
      Note.tupletSigns_strict h, Note.scriptSigns_strict h]
    constructor
    · rintro ⟨_, ⟨starting, hstarting, hsome, rfl⟩, signs, ⟨hfingers, hsigns⟩, rfl⟩
      refine ⟨⟨fun starting' hstarting' => ?_, hfingers⟩, starting, hstarting, signs, hsigns, rfl⟩
      obtain rfl := Except.ok.inj (hstarting.symm.trans hstarting')
      exact hsome
    · rintro ⟨⟨hsome, hfingers⟩, starting, hstarting, signs, hsigns, rfl⟩
      exact ⟨_, ⟨starting, hstarting, hsome starting hstarting, rfl⟩, signs,
        ⟨hfingers, hsigns⟩, rfl⟩

end Entry

/-! ### Refinement of whole passes -/

/-- What the first scribe writes, the second one writes as well. -/
def Scribe.Refines (scribe scribe' : Scribe) : Prop :=
  ∀ last e items, scribe last e = .ok items → scribe' last e = .ok items

section Refinement

variable {scribe scribe' : Scribe}

lemma mapM_refines {α β : Type} {f g : α → Except Fault β}
    (h : ∀ a b, f a = .ok b → g a = .ok b) {as : List α} {bs : List β}
    (has : as.mapM f = .ok bs) : as.mapM g = .ok bs :=
  mapM_eq_ok.mpr ((mapM_eq_ok.mp has).imp h)

lemma each_refines {α β : Type} {position : Nat → Position} {f g : α → Except Fault β}
    (h : ∀ a b, f a = .ok b → g a = .ok b) {as : List α} {bs : List β}
    (has : each position f as = .ok bs) : each position g as = .ok bs :=
  each_eq_ok.mpr (mapM_refines h (each_eq_ok.mp has))

lemma voiceScript_refines (h : Scribe.Refines scribe scribe') {ps : List Place}
    {v : Script.Voice} (hv : voiceScript scribe ps = .ok v) : voiceScript scribe' ps = .ok v := by
  rw [voiceScript, map_eq_bind] at hv ⊢
  obtain ⟨items, hitems, hv⟩ := bind_eq_ok.mp hv
  exact bind_eq_ok.mpr ⟨items, mapM_refines (fun p : Place => h p.last p.entry) hitems, hv⟩

lemma Segment.placedScript_refines (h : Scribe.Refines scribe scribe') (s : Segment)
    (w : Script.Segment) (hw : s.placedScript scribe = .ok w) : s.placedScript scribe' = .ok w := by
  obtain ⟨staves, hstaves, hw⟩ := bind_eq_ok.mp hw
  refine bind_eq_ok.mpr ⟨staves, hstaves, mapM_refines (fun measures written => ?_) hw⟩
  exact each_refines fun voices written => mapM_refines fun _ _ => voiceScript_refines h

end Refinement

lemma Part.placedScript_refines {scribe scribe' : Tuplet.Table → Scribe}
    (h : ∀ table, Scribe.Refines (scribe table) (scribe' table)) (p : Part) (w : Script.Part)
    (hw : p.placedScript scribe = .ok w) : p.placedScript scribe' = .ok w := by
  simp only [placedScript, bind_eq_ok] at hw ⊢
  obtain ⟨segments, hcut, scripts, hscripts, hw⟩ := hw
  exact ⟨segments, hcut, scripts,
    each_refines (Segment.placedScript_refines (h p.tuplets)) hscripts, hw⟩

/-- A score that is written by one scribe is written alike by any scribe that it refines to. -/
theorem Score.placedScript_refines {scribe scribe' : Tuplet.Table → Scribe}
    (h : ∀ table, Scribe.Refines (scribe table) (scribe' table)) {s : Score} {script : Script}
    (hscript : s.placedScript scribe = .ok script) : s.placedScript scribe' = .ok script :=
  each_refines (Part.placedScript_refines h) hscript

lemma Entry.script_refines {strict lenient : Options.Content}
    (hstrict : strict.unsupported = .strict) (hlenient : lenient.unsupported = .lenient)
    (hshow : lenient.showFingering = strict.showFingering) (table : Tuplet.Table) :
    Scribe.Refines (Entry.script strict table) (Entry.script lenient table) := by
  intro last e items h
  rw [script_lenient hlenient, hshow]
  exact ((script_strict hstrict).mp h).2

/-! ### What still goes wrong -/

lemma Note.kind_of_startingTuplets {n : Note} {f : Fault}
    (h : n.startingTuplets table = .error f) : f.kind = .malformed := by
  unfold startingTuplets at h
  split at h
  · cases h
  · split at h
    · cases h
      rfl
    · dsimp only at h
      split at h <;> cases h
      rfl

lemma Segment.kind_of_staves {s : Segment} {f : Fault} (h : s.staves = .error f) :
    f.kind = .malformed := by
  rw [staves_eq] at h
  split at h
  · cases h
  · split at h
    · cases h
      rfl
    · split at h <;> cases h
      rfl

lemma Segment.kind_of_cutFrom (index : Nat) (declared : Option Nat) (events : List Event) :
    ∀ f, cutFrom index declared events = .error f → f.kind = .malformed := by
  refine cutFrom_induction (motive := fun _ x => ∀ f, x = .error f → f.kind = .malformed)
    nofun nofun (fun _ _ _ ih f h => ih f (map_eq_error.mp h))
    (fun _ _ ih f h => ih f (map_eq_error.mp h)) ?fault index declared events
  case fault =>
    rintro events index f ⟨⟩
    rfl

namespace Note

variable {n : Note}

lemma octaveFault_of_bodySigns {f : Fault} (h : n.bodySigns last = .error f) :
    n.OctaveFault f.cause := by
  unfold bodySigns at h
  cases hq : n.sounding with
  | none =>
    rw [hq] at h
    cases h
  | some q =>
    simp only [hq, bind_eq_error, Pitch.octaveMarks, Sign.octaveMark] at h
    obtain hmarks | ⟨_, -, ⟨⟩⟩ := h
    split at hmarks
    · obtain hmark | ⟨_, -, ⟨⟩⟩ := bind_eq_error.mp hmarks
      split at hmark
      · cases hmark
      · next hoctave =>
        cases hmark
        exact ⟨q, hq, by omega, rfl⟩
    · cases hmarks

lemma signs_eq_error {shown : Bool} (hshown : shown = true → n.hasFingerSigns) {f : Fault} :
    n.signs last shown = .error f ↔ n.bodySigns last = .error f := by
  obtain ⟨fingering, hfingering⟩ : Succeeds (n.fingeringSigns shown) :=
    succeeds_fingeringSigns.mpr fun h => hasFingerSigns_iff.mp (hshown h)
  simp only [signs, bind_eq_error, hfingering]
  simp [pure, Except.pure]

end Note

lemma Entry.fault_of_lenientScript {showFingering : Bool} {e : Entry} {f : Fault}
    (h : e.lenientScript showFingering table last = .error f) :
    f.kind = .malformed ∨ ∃ n, e = .note n ∧ n.OctaveFault f.cause := by
  cases e with
  | rest r => cases h
  | note n =>
    simp only [lenientScript, bind_eq_error] at h
    obtain hstarting | ⟨_, -, hsigns | ⟨_, -, ⟨⟩⟩⟩ := h
    · exact .inl (Note.kind_of_startingTuplets hstarting)
    · have hshown : (showFingering && n.hasFingerSigns) = true → n.hasFingerSigns :=
        fun h => (Bool.and_eq_true_iff.mp h).2
      exact .inr ⟨n, rfl, Note.octaveFault_of_bodySigns ((Note.signs_eq_error hshown).mp hsigns)⟩

lemma Segment.FailsWith.cause {s : Segment} {c : Cause} {measure : Option Nat}
    (hpolicy : content.unsupported = .lenient) (h : s.FailsWith content table c measure) :
    c.kind = .malformed ∨ ∃ n, .entry (.note n) ∈ s.events ∧ n.OctaveFault c := by
  cases h with
  | staves hstaves => exact .inl (kind_of_staves hstaves)
  | @note before after p _ hwritten _ hp =>
    rw [Entry.script_lenient hpolicy] at hp
    obtain hkind | ⟨n, hn, hoctave⟩ := Entry.fault_of_lenientScript hp
    · exact .inl hkind
    · have hmem : p ∈ s.written := by simp [hwritten]
      obtain ⟨after, hsplit, -⟩ := mem_places.mp (mem_places_of_mem_written hmem)
      exact .inr ⟨n, by simp [hsplit, hn], hoctave⟩

lemma Part.FailsWith.cause {p : Part} {c : Cause} {segment measure : Option Nat}
    (hpolicy : content.unsupported = .lenient) (h : p.FailsWith content c segment measure) :
    c.kind = .malformed ∨ ∃ n, .entry (.note n) ∈ p.events ∧ n.OctaveFault c := by
  cases h with
  | bars hcut => exact .inl (Segment.kind_of_cutFrom _ _ _ _ hcut)
  | @segment before after s _ hcut _ hs =>
    obtain hkind | ⟨n, hn, hoctave⟩ := hs.cause hpolicy
    · exact .inl hkind
    · refine .inr ⟨n, ?_, hoctave⟩
      rw [← Segment.flatMap_events_cutFrom _ _ _ _ hcut, List.mem_flatMap]
      exact ⟨s, by simp, hn⟩

/-- A score that is transcribed under the strict policy is transcribed alike under the lenient
one. There each note, at its one place of one voice, is written behind the signs of its tuplets, as
far as there are any, and with its fingering if all its fingers have signs; only an octave can be
beyond braille. -/
theorem Transcriber.lenient_refines_strict (t : Transcriber) (s : Score) :
    (∀ text, ((t.under .strict).transcribe s).1 = .ok text →
      ((t.under .lenient).transcribe s).1 = .ok text ∧
        ((t.under .lenient).transcribe s).2.last = ((t.under .strict).transcribe s).2.last) ∧
    (t.under .lenient).transcribe s = (t.under .lenient).transcribeWith
      (fun content => Entry.lenientScript content.showFingering) s ∧
    (∀ text, ((t.under .lenient).transcribe s).1 = .ok text → ∃ script : Script,
      text = (Layout.pages t.last.page.size (Layout.pieces t.options.style script)).text ∧
        List.Forall₂ (Part.WrittenBy (Entry.lenientScript t.options.content.showFingering))
          s.parts script) ∧
    (∀ table last e items, Entry.script (t.under .strict).options.content table last e = .ok items ↔
      e.IsSupported t.options.content.showFingering table ∧
        e.lenientScript t.options.content.showFingering table last = .ok items) ∧
    ∀ f, ((t.under .lenient).transcribe s).1 = .error f → f.kind = .malformed ∨
      ∃ p ∈ s.parts, ∃ n, .entry (.note n) ∈ p.events ∧ n.OctaveFault f.cause := by
  have hscribe : Entry.script (t.under .lenient).options.content =
      Entry.lenientScript (t.under .lenient).options.content.showFingering := by
    funext table last e
    exact Entry.script_lenient rfl e
  refine ⟨fun text h => ?_, ?_, fun text h => ?_, fun table last e items => Entry.script_strict rfl,
    fun f h => ?_⟩
  · rw [transcribe, transcribeWith_eq] at h
    rw [transcribe, transcribe, transcribeWith_eq, transcribeWith_eq]
    cases hscript : s.placedScript (Entry.script (t.under .strict).options.content) with
    | error f =>
      rw [hscript] at h
      cases h
    | ok script =>
      have hrefines (table : Tuplet.Table) :
          Scribe.Refines (Entry.script (t.under .strict).options.content table)
            (Entry.script (t.under .lenient).options.content table) := by
        apply Entry.script_refines <;> rfl
      have hlenient := Score.placedScript_refines hrefines hscript
      rw [hscript] at h
      rw [hlenient]
      exact ⟨h, rfl⟩
  · rw [transcribe, transcribeWith_eq, transcribeWith_eq, hscribe]
  · rw [transcribe, transcribeWith_eq, hscribe] at h
    cases hscript : s.placedScript
        (Entry.lenientScript (t.under .lenient).options.content.showFingering) with
    | error f =>
      rw [hscript] at h
      cases h
    | ok script =>
      rw [hscript] at h
      exact ⟨script, (Except.ok.inj h).symm, Score.writtenBy hscript⟩
  · obtain ⟨hparts, -, hp⟩ := transcribe_eq_error.mp h
    obtain hkind | hoctave := hp.cause rfl
    · exact .inl hkind
    · exact .inr ⟨_, by simp [hparts], hoctave⟩

/-- Of a group of four in a triplet only the triplet has a sign, and of the fingers 1 and 6 only the
thumb: the note is written without any fingering. -/
example :
    let n : Note := {
      pitch := some ⟨.c, 0, 4⟩, duration := { base := .quarter }
      fingering := [1, 6], tuplet := some 1, tupletStarts := 2 }
    let table : Tuplet.Table := ⟨[⟨4, some 0⟩, ⟨3, none⟩]⟩
    Entry.script ⟨true, .lenient⟩ table none (.note n) =
      .ok [.tuplet (.tuplet .three false), .note [.octave 4, .note .c .quarter]] := by
  decide

end BrailleScore
