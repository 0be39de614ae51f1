import BrailleScore.Pass
import BrailleScore.Proofs.TimelinePlaces

/-!
# Scripts read off the timeline

A script can be read off the places of a timeline without any memory: each note is built behind
the pitch that a search backwards through the flat timeline finds. This file shows that a staff,
which remembers last pitches from measure to measure, is written like that.
-/

namespace BrailleScore

open Fault

/-- The items of places that share a voice. -/
def voiceScript (scribe : Scribe) (ps : List Place) : Except Fault Script.Voice :=
  (ps.mapM fun p => scribe p.last p.entry).map List.flatten

/-- The measures of a staff, given the places in each voice of each measure. -/
def staffScript (scribe : Scribe) : List (List (List Place)) → Except Fault Script.Staff :=
  each (fun i => { measure := some i }) (List.mapM (voiceScript scribe))

/-- The staves of a segment, each note built behind the last pitch of its place. -/
def Segment.placedScript (scribe : Scribe) (s : Segment) : Except Fault Script.Segment := do
  let _ ← s.staves
  s.arrangement.mapM (staffScript scribe)

def Part.placedScript (scribe : Tuplet.Table → Scribe) (p : Part) : Except Fault Script.Part := do
  let segments ← Segment.cut p.events
  let scripts ← each (fun i => { segment := some i })
    (Segment.placedScript (scribe p.tuplets)) segments
  pure ⟨p.name, scripts⟩

def Score.placedScript (scribe : Tuplet.Table → Scribe) (s : Score) : Except Fault Script :=
  each (fun i => { part := some i }) (Part.placedScript scribe) s.parts

/-! ### The last pitch of a place -/

/-- Places of one voice, the first of which stands behind the last pitch `last`. -/
inductive Linked : Option Pitch → List Place → Prop
  | nil (last : Option Pitch) : Linked last []
  | cons {p : Place} {ps : List Place} :
      Linked (p.entry.sounding.or p.last) ps → Linked p.last (p :: ps)

/-- Places of one staff, the first of which stands behind the entries `earlier` of the staff. -/
inductive Follows : List Entry → List Place → Prop
  | nil (earlier : List Entry) : Follows earlier []
  | cons {earlier : List Entry} {p : Place} {ps : List Place} :
      p.last = Entry.lastSounding (earlier.filter fun e => e.voice = p.entry.voice) →
      Follows (earlier ++ [p.entry]) ps → Follows earlier (p :: ps)

lemma follows_append {earlier : List Entry} {ps qs : List Place} :
    Follows earlier (ps ++ qs) ↔
      Follows earlier ps ∧ Follows (earlier ++ ps.map Place.entry) qs := by
  induction ps generalizing earlier with
  | nil => simp [Follows.nil]
  | cons p ps ih =>
    constructor
    · rintro (_ | ⟨hlast, h⟩)
      obtain ⟨hps, hqs⟩ := ih.mp h
      exact ⟨.cons hlast hps, by simpa using hqs⟩
    · rintro ⟨_ | ⟨hlast, hps⟩, hqs⟩
      exact .cons hlast (ih.mpr ⟨hps, by simpa using hqs⟩)

theorem Follows.linked {earlier : List Entry} {ps : List Place} (h : Follows earlier ps)
    (voice : String) : Linked (Entry.lastSounding (earlier.filter fun e => e.voice = voice))
      (placesOf ps voice) := by
  unfold placesOf
  induction h with
  | nil earlier => exact .nil _
  | @cons earlier p ps hlast _ ih =>
    -- A place of another voice drops out of both sides.
    by_cases hvoice : p.entry.voice = voice
    · subst hvoice
      rw [List.filter_cons_of_pos (by simp), ← hlast]
      refine .cons ?_
      rw [List.filter_append, List.filter_cons_of_pos (by simp), List.filter_nil,
        Entry.lastSounding_append, Entry.lastSounding_singleton, ← hlast] at ih
      exact ih
    · rw [List.filter_append, List.filter_cons_of_neg (by simpa using hvoice), List.filter_nil,
        List.append_nil] at ih
      rwa [List.filter_cons_of_neg (by simpa using hvoice)]

lemma follows_placesFrom (before events : List Event) (staff : String) :
    Follows ((before.filterMap Event.entry?).filter fun e => e.staff = staff)
      ((placesFrom before events).filter fun p => p.entry.staff = staff) := by
  induction events generalizing before with
  | nil => exact .nil _
  | cons x events ih =>
    have ih := ih (before ++ [x])
    rw [List.filterMap_append, List.filter_append] at ih
    by_cases hbar : .endBar ∈ events
    · rw [placesFrom, if_pos hbar, List.filter_append]
      cases hx : x.entry? with
      | none => simpa [List.filterMap_cons_none hx] using ih
      | some e =>
        rw [List.filterMap_cons_some hx, List.filterMap_nil] at ih
        by_cases hstaff : e.staff = staff
        · subst hstaff
          simp only [Option.toList_some, List.map_cons, List.map_nil, List.filter_cons,
            decide_true, if_true, List.filter_nil, List.singleton_append] at ih ⊢
          refine .cons ?_ ih
          rw [List.filter_filter]
          simp only [Place.last, lastPitch, Bool.decide_and, Bool.and_comm]
        · simpa [hstaff] using ih
    · rw [placesFrom, if_neg hbar, placesFrom_eq_nil hbar]
      exact .nil _

lemma Segment.follows_places (s : Segment) (staff : String) :
    Follows [] (s.places.filter fun p => p.entry.staff = staff) :=
  follows_placesFrom [] s.events staff

/-! ### The measures of a staff -/

lemma entries_cutAtEndBars_cons {e : Event} {events : List Event} (he : e ≠ .endBar) :
    (Staff.cutAtEndBars (e :: events)).map Measure.entries =
      match (Staff.cutAtEndBars events).map Measure.entries with
      | [] => []
      | es :: ess => (e.entry?.toList ++ es) :: ess := by
  cases hcut : Staff.cutAtEndBars events <;> cases e <;>
    simp_all [Staff.cutAtEndBars, Measure.entries, Event.entry?, List.filterMap_cons]

lemma filter_placesFrom_cons {before events : List Event} (e : Event) (staff : String)
    (hbar : .endBar ∈ events) (k : Nat) :
    ((placesFrom before (e :: events)).filter fun p => p.entry.staff = staff ∧
        p.measure = before.countP Event.isEndBar + k).map Place.entry =
      (if k = 0 then e.entry?.toList.filter fun x => x.staff = staff else []) ++
        ((placesFrom (before ++ [e]) events).filter fun p => p.entry.staff = staff ∧
          p.measure = before.countP Event.isEndBar + k).map Place.entry := by
  rw [placesFrom, if_pos hbar, List.filter_append, List.map_append]
  congr 1
  cases e.entry? with
  | none => simp
  | some x => by_cases hk : k = 0 <;> by_cases hstaff : x.staff = staff <;>
      simp [hk, hstaff, Place.measure]

lemma toList_filter_staff (e : Event) (staff : String) :
    (e.entry?.toList.filter fun x => x.staff = staff) =
      if e.isVertical || e.staff? = some staff then e.entry?.toList else [] := by
  cases e with
  | entry x => by_cases h : x.staff = staff <;>
      simp [Event.entry?, Event.isVertical, Event.staff?, h]
  | _ => simp [Event.entry?]

/-- The measures that are cut out of a staff hold the places of the staff by measure. -/
theorem map_entries_cutAtEndBars (before events : List Event) (staff : String) :
    (Staff.cutAtEndBars (events.filter fun e => e.isVertical || e.staff? = some staff)).map
        Measure.entries =
      (List.range (events.countP Event.isEndBar)).map fun k =>
        ((placesFrom before events).filter fun p => p.entry.staff = staff ∧
          p.measure = before.countP Event.isEndBar + k).map Place.entry := by
  induction events generalizing before with
  | nil => rfl
  | cons e events ih =>
    have ih := ih (before ++ [e])
    by_cases he : e = .endBar
    · subst he
      -- The places behind the bar line belong to later measures than the one that it ends.
      have hnone : ((placesFrom before (.endBar :: events)).filter fun p => p.entry.staff = staff ∧
          p.measure = before.countP Event.isEndBar + 0) = [] := by
        rw [List.filter_eq_nil_iff]
        intro p hp hfirst
        obtain ⟨-, hmeasure⟩ := of_decide_eq_true hfirst
        have hprefix : before ++ [.endBar] <+: p.before :=
          prefix_of_mem_placesFrom (by simpa [placesFrom, Event.entry?] using hp)
        have hle := hprefix.sublist.countP_le (p := Event.isEndBar)
        rw [List.countP_append] at hle
        have hone : List.countP Event.isEndBar [.endBar] = 1 := rfl
        unfold Place.measure at hmeasure
        omega
      have hkeep : (Event.endBar.isVertical || Event.endBar.staff? = some staff) = true := rfl
      rw [List.filter_cons_of_pos (by simpa using hkeep), List.countP_cons_of_pos rfl,
        List.range_succ_eq_map, List.map_cons, List.map_map, hnone, Staff.cutAtEndBars,
        List.map_cons, ih]
      congr 1
      refine List.map_congr_left fun k _ => ?_
      simp [placesFrom, Event.entry?, List.countP_append, Event.isEndBar, Nat.add_assoc,
        Nat.add_comm 1]
    · have hbefore : (before ++ [e]).countP Event.isEndBar = before.countP Event.isEndBar := by
        cases e <;> simp_all [Event.isEndBar]
      have hevents : (e :: events).countP Event.isEndBar = events.countP Event.isEndBar := by
        cases e <;> simp_all [Event.isEndBar]
      rw [hbefore] at ih
      rw [hevents]
      -- Without an end bar in the rest there are neither measures nor places.
      by_cases hbar : .endBar ∈ events
      · have hpos : 0 < events.countP Event.isEndBar := List.countP_pos_iff.mpr ⟨_, hbar, rfl⟩
        obtain ⟨n, hn⟩ := Nat.exists_eq_add_of_lt hpos
        rw [hn, Nat.zero_add, List.range_succ_eq_map, List.map_cons, List.map_map] at ih ⊢
        simp only [Function.comp_def, filter_placesFrom_cons e staff hbar, toList_filter_staff,
          Nat.succ_ne_zero, if_true, if_false, List.nil_append] at ih ⊢
        by_cases hkeep : (e.isVertical || e.staff? = some staff) = true
        · rw [List.filter_cons, if_pos hkeep, if_pos hkeep, entries_cutAtEndBars_cons he, ih]
        · rw [List.filter_cons, if_neg hkeep, if_neg hkeep, List.nil_append, ih]
      · have hzero : events.countP Event.isEndBar = 0 := by
          rw [List.countP_eq_zero]
          rintro (_ | _ | _ | _ | _) hx <;> simp_all [Event.isEndBar]
        have hnot : .endBar ∉ (e :: events).filter fun e => e.isVertical || e.staff? = some staff :=
          fun hmem =>
            hbar ((List.mem_cons.mp (List.mem_of_mem_filter hmem)).resolve_left (Ne.symm he))
        rw [Staff.cutAtEndBars_eq_nil.mpr hnot, hzero]
        rfl

/-- The measures hold the notes and rests of the places, measure by measure. -/
def Hold (ms : List Measure) (pss : List (List Place)) : Prop :=
  List.Forall₂ (fun m ps => m.entries = ps.map Place.entry) ms pss

lemma Segment.hold_measures (s : Segment) (staff : String) :
    Hold (s.staffNamed staff).measures ((List.range s.measureCount).map (s.placesIn staff)) := by
  have h := map_entries_cutAtEndBars [] s.events staff
  rw [← List.forall₂_eq_eq_eq, List.forall₂_map_left_iff, List.forall₂_map_right_iff] at h
  rw [Hold, List.forall₂_map_right_iff]
  simpa [Staff.measures, staffNamed, placesIn, places, measureCount] using h

/-! ### Written from memory, written from the timeline -/

/-- A memory of what sounded last in the voices of a staff among the entries `earlier`. -/
def Memory.Recalls (memory : Memory) (earlier : List Entry) : Prop :=
  ∀ voice, memory.last voice = Entry.lastSounding (earlier.filter fun e => e.voice = voice)

lemma Memory.recalls_nil : Memory.Recalls [] [] := fun _ => rfl

lemma Memory.Recalls.foldl {memory : Memory} {earlier : List Entry} (h : memory.Recalls earlier)
    (es : List Entry) : (es.foldl remember memory).Recalls (earlier ++ es) := by
  intro voice
  rw [last_foldl_remember, h voice, List.filter_append, Entry.lastSounding_append]

lemma voiceScript_cons (scribe : Scribe) (p : Place) (ps : List Place) :
    voiceScript scribe (p :: ps) = (do
      let first ← scribe p.last p.entry
      let more ← voiceScript scribe ps
      pure (first ++ more)) := by
  simp only [voiceScript, List.mapM_cons, map_eq_bind, bind_assoc, pure_bind, List.flatten_cons]

lemma each_map {α β γ : Type} (position : Nat → Position) (f : β → Except Fault γ) (g : α → β)
    (as : List α) : each position f (as.map g) = each position (fun a => f (g a)) as := by
  have h (start : Nat) : eachFrom position f start (as.map g) =
      eachFrom position (fun a => f (g a)) start as := by
    induction as generalizing start with
    | nil => rfl
    | cons a as ih => rw [List.map_cons, eachFrom, eachFrom, ih]
  exact h 0

variable {content : Options.Content} {table : Tuplet.Table}

lemma scriptAll_of_linked {last : Option Pitch} {ps : List Place} (h : Linked last ps) :
    Entry.scriptAll content table last (ps.map Place.entry) =
      voiceScript (Entry.script content table) ps := by
  induction h with
  | nil last => rfl
  | cons _ ih => rw [List.map_cons, Entry.scriptAll, ih, voiceScript_cons]

lemma voices_of_entries {m : Measure} {ps : List Place} (hm : m.entries = ps.map Place.entry) :
    m.voices = (voiceNames ps).map fun voice => ⟨voice, (placesOf ps voice).map Place.entry⟩ := by
  rw [Measure.voices_eq]
  unfold Measure.voiceNames Measure.voice placesOf
  rw [hm, List.map_map]
  refine List.map_congr_left fun voice _ => ?_
  rw [List.filter_map]
  rfl

lemma script_of_follows {memory : Memory} {m : Measure} {earlier : List Entry} {ps : List Place}
    (hm : m.entries = ps.map Place.entry) (hmemory : memory.Recalls earlier)
    (h : Follows earlier ps) : m.script content table memory =
      (placesByVoice ps).mapM (voiceScript (Entry.script content table)) := by
  unfold Measure.script placesByVoice
  rw [voices_of_entries hm, List.mapM_map, List.mapM_map]
  congr 1
  funext voice
  simp only [Function.comp_apply]
  rw [hmemory voice, scriptAll_of_linked (h.linked voice)]

/-- A staff that begins with a memory of its earlier entries is written as its places tell. -/
theorem eachFrom_before_of_follows {position : Nat → Position} {memory : Memory}
    {ms : List Measure} {earlier : List Entry} {pss : List (List Place)} (hms : Hold ms pss)
    (hmemory : memory.Recalls earlier) (h : Follows earlier pss.flatten) (start : Nat) :
    eachFrom position (fun m => m.2.script content table m.1) start (memory.before ms) =
      eachFrom position (fun ps => (placesByVoice ps).mapM
        (voiceScript (Entry.script content table))) start pss := by
  -- What is carried along: the memory recalls the entries of the staff so far.
  induction hms generalizing memory earlier start with
  | nil => rfl
  | @cons m ps ms pss hm _ ih =>
    obtain ⟨hps, hpss⟩ := follows_append.mp h
    rw [Memory.before, eachFrom, eachFrom, script_of_follows hm hmemory hps,
      ih (hmemory.foldl m.entries) (hm ▸ hpss)]

namespace Segment

lemma script_staffNamed (s : Segment) (staff : String) :
    (s.staffNamed staff).script content table = staffScript (Entry.script content table)
      ((List.range s.measureCount).map fun measure =>
        placesByVoice (s.placesIn staff measure)) := by
  have hfollows : Follows [] ((List.range s.measureCount).map (s.placesIn staff)).flatten := by
    rw [← List.flatMap_def, flatMap_placesIn]
    exact s.follows_places staff
  rw [Staff.script, each, eachFrom_before_of_follows (s.hold_measures staff) Memory.recalls_nil
    hfollows]
  change each _ _ _ = _
  rw [staffScript, each_map, each_map]

theorem script_eq_placedScript (s : Segment) :
    s.script content table = s.placedScript (Entry.script content table) := by
  unfold script placedScript
  cases hstaves : s.staves with
  | error f => rfl
  | ok staves =>
    change staves.mapM _ = _
    obtain ⟨hcount, rfl⟩ | ⟨-, hlength, rfl⟩ := staves_eq_ok.mp hstaves
    · simp [arrangement, hcount]
      rfl
    · unfold arrangement
      rw [← hlength, List.take_length, List.mapM_map, List.mapM_map]
      simp only [Function.comp_def, script_staffNamed]
      rfl

end Segment

theorem Part.script_eq_placedScript (p : Part) :
    p.script content = p.placedScript (Entry.script content) := by
  have hsegments : Segment.script content p.tuplets =
      Segment.placedScript (Entry.script content p.tuplets) :=
    funext Segment.script_eq_placedScript
  rw [script, placedScript, hsegments]

theorem Score.script_eq_placedScript (s : Score) :
    s.script content = s.placedScript (Entry.script content) := by
  have hparts : Part.script content = Part.placedScript (Entry.script content) :=
    funext Part.script_eq_placedScript
  rw [script, placedScript, hparts]

end BrailleScore
