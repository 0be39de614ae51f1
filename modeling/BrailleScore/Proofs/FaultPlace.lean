import BrailleScore.Proofs.PassOutcome
import BrailleScore.Proofs.RaisedFaults

/-!
# Where a fault is found

A transcription that fails answers the first fault in the order of writing: part by part, segment
by segment, and within a segment all measures of one staff before the next staff. The place that
it is given is the part, the segment and the measure of the note that cannot be written, as far
as the part was cut into these.
-/

namespace BrailleScore

open Fault

variable {content : Options.Content} {table : Tuplet.Table}

/-! ### The order of writing -/

namespace Segment

variable {s : Segment}

lemma measure_of_mem_placesByVoice {staff : String} {k : Nat} {voice : List Place} {p : Place}
    (hvoice : voice ∈ placesByVoice (s.placesIn staff k)) (hp : p ∈ voice) : p.measure = k := by
  have hmem := (sublist_of_mem_placesByVoice hvoice).subset hp
  exact (of_decide_eq_true (List.mem_filter.mp hmem).2).2

lemma check_voiceScript (scribe : Scribe) (ps : List Place) :
    check (voiceScript scribe ps) = ps.forM fun p => check (scribe p.last p.entry) := by
  rw [voiceScript, check_map, check_mapM]

lemma check_staffScript (scribe : Scribe) (staff : String) :
    check (staffScript scribe ((List.range s.measureCount).map fun k =>
        placesByVoice (s.placesIn staff k))) =
      ((List.range s.measureCount).map fun k =>
        placesByVoice (s.placesIn staff k)).flatten.flatten.forM fun p =>
          locate { measure := some p.measure } (check (scribe p.last p.entry)) := by
  rw [staffScript, check_each_range, forM_flatten, forM_flatten, forM_map]
  refine forM_congr fun k _ => ?_
  rw [check_mapM, locate_forM]
  refine forM_congr fun voice hvoice => ?_
  rw [check_voiceScript, locate_forM]
  refine forM_congr fun p hp => ?_
  rw [measure_of_mem_placesByVoice hvoice hp]

/-- The fault of a segment is that of the first place that fails in the order of writing. -/
theorem check_arrangement (scribe : Scribe) :
    check (s.arrangement.mapM (staffScript scribe)) = s.written.forM fun p =>
      locate { measure := some p.measure } (check (scribe p.last p.entry)) := by
  rw [check_mapM, written, forM_flatten, forM_flatten, forM_flatten]
  refine forM_congr fun staff hstaff => ?_
  obtain ⟨name, -, rfl⟩ := List.mem_map.mp hstaff
  rw [check_staffScript, forM_flatten, forM_flatten]

end Segment

/-! ### The first fault -/

/-- The note or rest can be written behind the last pitch of its place. -/
def Place.Writable (content : Options.Content) (table : Tuplet.Table) (p : Place) : Prop :=
  ∀ n, p.entry = .note n → n.Transcribable content table p.last

/-- The segment fails for a cause, in a measure unless it does not divide into staves. -/
inductive Segment.FailsWith (content : Options.Content) (table : Tuplet.Table) (s : Segment) :
    Cause → Option Nat → Prop
  | staves {c : Cause} : s.staves = .error ⟨c, {}⟩ → FailsWith content table s c none
  | note {c : Cause} {before after : List Place} {p : Place} : Succeeds s.staves →
      s.written = before ++ p :: after → (∀ q ∈ before, q.Writable content table) →
      p.entry.script content table p.last = .error ⟨c, {}⟩ →
      FailsWith content table s c (some p.measure)

/-- The part fails for a cause, in a segment unless it cannot be cut into segments. -/
inductive Part.FailsWith (content : Options.Content) (p : Part) :
    Cause → Option Nat → Option Nat → Prop
  | bars {c : Cause} : Segment.cut p.events = .error ⟨c, {}⟩ → FailsWith content p c none none
  | segment {c : Cause} {before after : List Segment} {s : Segment} {measure : Option Nat} :
      Segment.cut p.events = .ok (before ++ s :: after) →
      (∀ r ∈ before, 1 ≤ r.staffCount → r.Transcribable content p.tuplets) →
      s.FailsWith content p.tuplets c measure →
      FailsWith content p c (some before.length) measure

/-- The score fails with a fault that is placed in the first part that fails. -/
inductive Score.FailsWith (content : Options.Content) (s : Score) : Fault → Prop
  | part {c : Cause} {before after : List Part} {p : Part} {segment measure : Option Nat} :
      s.parts = before ++ p :: after → (∀ q ∈ before, q.Transcribable content) →
      p.FailsWith content c segment measure →
      FailsWith content s ⟨c, ⟨some before.length, segment, measure⟩⟩

lemma Place.writable_iff {p : Place} :
    p.Writable content table ↔ Succeeds (p.entry.script content table p.last) :=
  Entry.succeeds_script.symm

lemma Segment.FailsWith.ofScore {s : Segment} {c : Cause} {measure : Option Nat}
    (h : s.FailsWith content table c measure) : c.OfScore := by
  cases h with
  | staves hstaves => exact (s.raises_staves _ hstaves).2
  | note _ _ _ hp => exact (Entry.raises_script _ _ _ hp).2

lemma Part.FailsWith.ofScore {p : Part} {c : Cause} {segment measure : Option Nat}
    (h : p.FailsWith content c segment measure) : c.OfScore := by
  cases h with
  | bars hcut => exact (Segment.raises_cut p.events _ hcut).2
  | segment _ _ hs => exact hs.ofScore

lemma Score.FailsWith.ofScore {s : Score} {f : Fault} (h : s.FailsWith content f) :
    f.cause.OfScore := by
  cases h with
  | part _ _ hp => exact hp.ofScore

theorem Segment.placedScript_eq_error {s : Segment} {f : Fault} :
    s.placedScript (Entry.script content table) = .error f ↔
      ∃ c measure, s.FailsWith content table c measure ∧ f = ⟨c, { measure }⟩ := by
  have hnote (p : Place) : Raises (p.entry.script content table p.last) :=
    Entry.raises_script _ _
  have harrangement : s.arrangement.mapM (staffScript (Entry.script content table)) = .error f ↔
      ∃ before p after, s.written = before ++ p :: after ∧
        (∀ q ∈ before, q.Writable content table) ∧
        ∃ c, p.entry.script content table p.last = .error ⟨c, {}⟩ ∧
          f = ⟨c, { measure := p.measure }⟩ := by
    -- For the fault alone it does not matter how the places are nested.
    rw [← check_eq_error, check_arrangement, forM_eq_error]
    simp only [locate_eq_ok, check_eq_ok, locate_eq_error, check_eq_error, ← Place.writable_iff]
    refine exists₃_congr fun before p after => and_congr_right fun _ => and_congr_right fun _ => ?_
    constructor
    · rintro ⟨g, hp, rfl⟩
      obtain ⟨c, rfl, hp⟩ := (hnote p).eq_error.mp hp
      exact ⟨c, hp, within_of_ofScore (hnote p _ hp).2 _ _⟩
    · rintro ⟨c, hp, rfl⟩
      exact ⟨_, hp, (within_of_ofScore (hnote p _ hp).2 {} { measure := some p.measure }).symm⟩
  rw [placedScript, bind_eq_error, s.raises_staves.eq_error, harrangement]
  constructor
  · rintro (⟨c, rfl, hstaves⟩ | ⟨_, hstaves, before, p, after, hwritten, hbefore, c, hp, rfl⟩)
    · exact ⟨c, none, .staves hstaves, rfl⟩
    · exact ⟨c, _, .note ⟨_, hstaves⟩ hwritten hbefore hp, rfl⟩
  · rintro ⟨c, measure, hstaves | ⟨⟨_, hstaves⟩, hwritten, hbefore, hp⟩, rfl⟩
    · exact .inl ⟨c, rfl, hstaves⟩
    · exact .inr ⟨_, hstaves, _, _, _, hwritten, hbefore, c, hp, rfl⟩

theorem Part.placedScript_eq_error {p : Part} {f : Fault} :
    p.placedScript (Entry.script content) = .error f ↔
      ∃ c segment measure, p.FailsWith content c segment measure ∧
        f = ⟨c, { segment, measure }⟩ := by
  have hsegment (s : Segment) : Succeeds (s.placedScript (Entry.script content p.tuplets)) ↔
      (1 ≤ s.staffCount → s.Transcribable content p.tuplets) := by
    rw [← s.script_eq_placedScript, s.succeeds_script]
  have hwithin {c : Cause} (hc : c.OfScore) (k : Nat) (measure : Option Nat) :
      within { segment := some k } ⟨c, { measure }⟩ = ⟨c, { segment := some k, measure }⟩ := by
    simp [within_of_ofScore hc, Position.fill]
  rw [placedScript, bind_eq_error, (Segment.raises_cut p.events).eq_error]
  simp only [bind_eq_error, each_eq_error, hsegment, Segment.placedScript_eq_error]
  constructor
  · rintro (⟨c, rfl, hcut⟩ | ⟨_, hcut, ⟨before, s, after, _, rfl, hbefore,
      ⟨c, measure, hs, rfl⟩, rfl⟩ | ⟨_, _, ⟨⟩⟩⟩)
    · exact ⟨c, none, none, .bars hcut, rfl⟩
    · exact ⟨c, _, measure, .segment hcut hbefore hs, hwithin hs.ofScore _ _⟩
  · rintro ⟨c, segment, measure, hcut | ⟨hcut, hbefore, hs⟩, rfl⟩
    · exact .inl ⟨c, rfl, hcut⟩
    · exact .inr ⟨_, hcut, .inl ⟨_, _, _, _, rfl, hbefore, ⟨c, measure, hs, rfl⟩,
        (hwithin hs.ofScore _ _).symm⟩⟩

theorem Score.placedScript_eq_error {s : Score} {f : Fault} :
    s.placedScript (Entry.script content) = .error f ↔ s.FailsWith content f := by
  have hpart (p : Part) : Succeeds (p.placedScript (Entry.script content)) ↔
      p.Transcribable content := by
    rw [← p.script_eq_placedScript, p.succeeds_script]
  have hwithin {c : Cause} (hc : c.OfScore) (k : Nat) (segment measure : Option Nat) :
      within { part := some k } ⟨c, { segment, measure }⟩ = ⟨c, ⟨some k, segment, measure⟩⟩ := by
    simp [within_of_ofScore hc, Position.fill]
  simp only [placedScript, each_eq_error, hpart, Part.placedScript_eq_error]
  constructor
  · rintro ⟨before, p, after, _, hparts, hbefore, ⟨c, segment, measure, hp, rfl⟩, rfl⟩
    rw [hwithin hp.ofScore]
    exact .part hparts hbefore hp
  · rintro ⟨hparts, hbefore, hp⟩
    exact ⟨_, _, _, _, hparts, hbefore, ⟨_, _, _, hp, rfl⟩, (hwithin hp.ofScore _ _ _).symm⟩

/-! ### Placed from the inside out -/

/-- What the position `p` tells, `q` tells as well. -/
structure Position.Keeps (p q : Position) : Prop where
  part : ∀ i, p.part = some i → q.part = some i
  segment : ∀ i, p.segment = some i → q.segment = some i
  measure : ∀ i, p.measure = some i → q.measure = some i

lemma Position.keeps_refl (p : Position) : p.Keeps p :=
  ⟨fun _ => id, fun _ => id, fun _ => id⟩

lemma Position.keeps_fill (p outer : Position) : p.Keeps (p.fill outer) := by
  constructor <;> intro i h <;> simp [fill, h]

lemma Position.Keeps.trans {p q r : Position} (hpq : p.Keeps q) (hqr : q.Keeps r) : p.Keeps r :=
  ⟨fun i h => hqr.part i (hpq.part i h), fun i h => hqr.segment i (hpq.segment i h),
    fun i h => hqr.measure i (hpq.measure i h)⟩

lemma Fault.within_keeps (f : Fault) (outer : Position) :
    (f.within outer).cause = f.cause ∧ f.position.Keeps (f.within outer).position := by
  unfold within
  split
  · exact ⟨rfl, f.position.keeps_fill outer⟩
  · exact ⟨rfl, f.position.keeps_refl⟩

lemma Fault.foldl_within_keeps (f : Fault) (outers : List Position) :
    (outers.foldl (fun g outer => g.within outer) f).cause = f.cause ∧
      f.position.Keeps (outers.foldl (fun g outer => g.within outer) f).position := by
  induction outers generalizing f with
  | nil => exact ⟨rfl, f.position.keeps_refl⟩
  | cons outer outers ih =>
    obtain ⟨hcause, hposition⟩ := f.within_keeps outer
    obtain ⟨hcauses, hpositions⟩ := ih (f.within outer)
    exact ⟨hcauses.trans hcause, hposition.trans hpositions⟩

lemma Transcriber.transcribe_eq_error {t : Transcriber} {s : Score} {f : Fault} :
    (t.transcribe s).1 = .error f ↔ s.FailsWith t.options.content f := by
  rw [← Score.placedScript_eq_error, transcribe, transcribeWith_eq]
  cases s.placedScript (Entry.script t.options.content) <;> simp

/-- A transcription fails with the first fault in the order of writing, which is placed as far as
the score was cut up when it was found; enclosing passes change nothing that is known of it. -/
theorem Transcriber.transcribe_fails_iff (t : Transcriber) (s : Score) (f : Fault) :
    ((t.transcribe s).1 = .error f ↔ s.FailsWith t.options.content f) ∧
      ((t.transcribe s).1 = .error f → f.kind = .malformed ∨ f.kind = .unsupported) ∧
      ∀ outers : List Position, let placed := outers.foldl (fun g outer => g.within outer) f
        placed.kind = f.kind ∧ placed.cause.message = f.cause.message ∧
          f.position.Keeps placed.position := by
  refine ⟨transcribe_eq_error, fun h => (transcribe_eq_error.mp h).ofScore, fun outers => ?_⟩
  obtain ⟨hcause, hposition⟩ := f.foldl_within_keeps outers
  exact ⟨congrArg Cause.kind hcause, congrArg Cause.message hcause, hposition⟩

/-- The second measure of the first staff is written before the first measure of the second. -/
example :
    let note (octave : Int8) (staff : String) : Event :=
      .entry (.note { pitch := some ⟨.c, 0, octave⟩, duration := { base := .whole }, staff })
    let part : Part := { events := [.startBar 2, note 4 "1", note 10 "2", .endBar,
      .startBar 2, note 9 "1", note 4 "2", .endBar] }
    ((Transcriber.new {}).transcribe { parts := [part] }).1 =
      .error ⟨.noOctaveMark 9, ⟨some 0, some 0, some 1⟩⟩ := by
  decide +kernel

end BrailleScore
