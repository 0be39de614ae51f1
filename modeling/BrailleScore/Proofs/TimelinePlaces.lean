import BrailleScore.Proofs.Transcribable

/-!
# Places in a timeline

A note or rest is known by its place in the flat timeline of a segment: by the events in front of
it. `Segment.arrangement` regroups the places that are written by staff, measure and voice. It is
defined by filters on the timeline; the staves, measures and voices that are cut out of it hold
the same notes and rests.
-/

namespace BrailleScore

/-! ### Lists regrouped by a key -/

section Regrouping

variable {α κ : Type} (key : α → κ) {l : List α}

lemma flatMap_filter_cons [DecidableEq κ] {k : κ} {ks : List κ} (hk : k ∉ ks) :
    ((k :: ks).flatMap fun k' => l.filter fun a => key a = k') =
      (l.filter fun a => key a = k) ++
        ks.flatMap fun k' =>
          (l.filter fun a => !decide (key a = k)).filter fun a => key a = k' := by
  rw [List.flatMap_cons]
  congr 1
  refine List.flatMap_congr fun k' hk' => ?_
  rw [List.filter_filter]
  refine List.filter_congr fun a _ => ?_
  have hne : k' ≠ k := fun h => hk (h ▸ hk')
  by_cases h : key a = k' <;> simp [h, hne]

lemma mem_of_mem_filter_not [DecidableEq κ] {k : κ} {ks : List κ} (hl : ∀ a ∈ l, key a ∈ k :: ks) :
    ∀ a ∈ l.filter fun a => !decide (key a = k), key a ∈ ks := by
  intro a ha
  obtain ⟨ha, hne⟩ := List.mem_filter.mp ha
  exact (List.mem_cons.mp (hl a ha)).resolve_left (by simpa using hne)

/-- Regrouping a list by a key loses and doubles nothing. -/
theorem perm_flatMap_filter [DecidableEq κ] {keys : List κ} (hkeys : keys.Nodup)
    (hl : ∀ a ∈ l, key a ∈ keys) : (keys.flatMap fun k => l.filter fun a => key a = k).Perm l := by
  induction keys generalizing l with
  | nil => simpa [List.eq_nil_iff_forall_not_mem] using hl
  | cons k ks ih =>
    obtain ⟨hk, hks⟩ := List.nodup_cons.mp hkeys
    rw [flatMap_filter_cons key hk]
    have hrest := ih hks (mem_of_mem_filter_not key hl)
    exact (hrest.append_left _).trans (List.filter_append_perm _ l)

/-- Regrouping keeps the order of what shares a key. -/
lemma filter_flatMap_filter [DecidableEq κ] {keys : List κ} (hkeys : keys.Nodup)
    (hl : ∀ a ∈ l, key a ∈ keys) (shared : κ) :
    ((keys.flatMap fun k => l.filter fun a => key a = k).filter fun a => key a = shared) =
      l.filter fun a => key a = shared := by
  induction keys generalizing l with
  | nil =>
    obtain rfl : l = [] := by simpa [List.eq_nil_iff_forall_not_mem] using hl
    rfl
  | cons k ks ih =>
    obtain ⟨hk, hks⟩ := List.nodup_cons.mp hkeys
    rw [flatMap_filter_cons key hk, List.filter_append, ih hks (mem_of_mem_filter_not key hl),
      List.filter_filter, List.filter_filter]
    -- What shares a key stands either in the first block alone or in the others alone.
    by_cases hshared : shared = k
    · have hnone : (l.filter fun a => decide (key a = shared) && !decide (key a = k)) = [] := by
        simp [hshared]
      rw [hnone, List.append_nil]
      simp [hshared]
    · have hnone : (l.filter fun a => decide (key a = shared) && decide (key a = k)) = [] := by
        rw [List.filter_eq_nil_iff]
        rintro a - h
        simp only [Bool.and_eq_true, decide_eq_true_eq] at h
        exact hshared (h.1.symm.trans h.2)
      rw [hnone, List.nil_append]
      refine List.filter_congr fun a _ => ?_
      by_cases h : key a = shared <;> simp [h, hshared]

lemma filter_append_filter_not {p : α → Bool} (h : l.Pairwise fun a b => p b → p a) :
    l.filter p ++ l.filter (fun a => !p a) = l := by
  induction l with
  | nil => rfl
  | cons a l ih =>
    obtain ⟨hfirst, hrest⟩ := List.pairwise_cons.mp h
    -- Where the first element is not kept, no later one is.
    by_cases ha : p a
    · simp [ha, ih hrest]
    · have hnone : l.filter p = [] :=
        List.filter_eq_nil_iff.mpr fun b hb hpb => ha (hfirst b hb hpb)
      have hall := ih hrest
      rw [hnone, List.nil_append] at hall
      simp [ha, hnone, hall]

/-- Regrouping a list by a key that ascends in it leaves the list as it is. -/
theorem flatMap_filter_of_ascending {key : α → Nat} {keys : List Nat}
    (hkeys : keys.Pairwise (· < ·)) (hl : ∀ a ∈ l, key a ∈ keys)
    (hascending : l.Pairwise fun a b => key a ≤ key b) :
    (keys.flatMap fun k => l.filter fun a => key a = k) = l := by
  induction keys generalizing l with
  | nil => simpa [List.eq_nil_iff_forall_not_mem] using hl
  | cons k ks ih =>
    obtain ⟨hk, hks⟩ := List.pairwise_cons.mp hkeys
    have hfirst : ∀ a ∈ l, k ≤ key a := fun a ha =>
      (List.mem_cons.mp (hl a ha)).elim Eq.ge fun h => (hk _ h).le
    rw [flatMap_filter_cons key fun h => (hk k h).false,
      ih hks (mem_of_mem_filter_not key hl) (hascending.filter _)]
    refine filter_append_filter_not (hascending.imp_of_mem fun ha _ hle hb => ?_)
    have := hfirst _ ha
    simp only [decide_eq_true_eq] at hb ⊢
    omega

end Regrouping

/-! ### Places -/

/-- A note or rest at its place in the timeline of a segment. -/
structure Place where
  /-- The events of the segment in front of it. -/
  before : List Event
  entry : Entry

namespace Place

/-- The index of its measure, which is the number of the end bars in front. -/
def measure (p : Place) : Nat := p.before.countP Event.isEndBar

/-- The last pitch that sounded in its voice of its staff. -/
def last (p : Place) : Option Pitch := lastPitch p.before p.entry.staff p.entry.voice

end Place

/-- The places of notes and rests in front of the last of some end bars, behind other events. -/
def placesFrom (before : List Event) : List Event → List Place
  | [] => []
  | e :: rest =>
    (if .endBar ∈ rest then e.entry?.toList.map (Place.mk before) else []) ++
      placesFrom (before ++ [e]) rest

namespace Segment

/-- The notes and rests in front of the last end bar, in the order of time. -/
def places (s : Segment) : List Place := placesFrom [] s.events

def measureCount (s : Segment) : Nat := s.events.countP Event.isEndBar

def placesIn (s : Segment) (staff : String) (measure : Nat) : List Place :=
  s.places.filter fun p => p.entry.staff = staff ∧ p.measure = measure

end Segment

def placesOf (ps : List Place) (voice : String) : List Place :=
  ps.filter fun p => p.entry.voice = voice

/-- The names of the voices, in the order of their first appearance. -/
def voiceNames (ps : List Place) : List String := (ps.map fun p => p.entry.voice).eraseDups

def placesByVoice (ps : List Place) : List (List Place) := (voiceNames ps).map (placesOf ps)

/-- The places of a segment by staff, measure and voice. As many staves are written as the
segment declares. -/
def Segment.arrangement (s : Segment) : List (List (List (List Place))) :=
  (s.staffNames.take s.staffCount).map fun staff =>
    (List.range s.measureCount).map fun measure => placesByVoice (s.placesIn staff measure)

/-- The places in the order of writing: all measures of one staff before the next staff, and in a
measure one voice after the other. -/
def Segment.written (s : Segment) : List Place := s.arrangement.flatten.flatten.flatten

/-! ### The order of the places -/

lemma placesFrom_eq_nil {before events : List Event} (h : .endBar ∉ events) :
    placesFrom before events = [] := by
  induction events generalizing before with
  | nil => rfl
  | cons e events ih =>
    have hrest : .endBar ∉ events := fun hmem => h (List.mem_cons_of_mem e hmem)
    rw [placesFrom, if_neg hrest, ih hrest, List.nil_append]

theorem mem_placesFrom {before events : List Event} {p : Place} : p ∈ placesFrom before events ↔
    ∃ between after, events = between ++ .entry p.entry :: after ∧ .endBar ∈ after ∧
      p.before = before ++ between := by
  induction events generalizing before with
  | nil => simp [placesFrom]
  | cons e events ih =>
    have hhead : p ∈ (if .endBar ∈ events then e.entry?.toList.map (Place.mk before) else []) ↔
        .endBar ∈ events ∧ e = .entry p.entry ∧ p.before = before := by
      obtain ⟨pbefore, entry⟩ := p
      cases e <;> simp [Event.entry?, and_comm, eq_comm]
    rw [placesFrom, List.mem_append, hhead, ih]
    constructor
    · rintro (⟨hbar, rfl, hbefore⟩ | ⟨between, after, rfl, hbar, hbefore⟩)
      · exact ⟨[], events, rfl, hbar, by simpa using hbefore⟩
      · exact ⟨e :: between, after, rfl, hbar, by simpa using hbefore⟩
    · rintro ⟨between, after, hsplit, hbar, hbefore⟩
      obtain ⟨rfl, hcons⟩ | ⟨between, rfl, hcons⟩ := List.cons_eq_append_iff.mp hsplit
      · obtain ⟨rfl, rfl⟩ := List.cons.inj hcons
        exact .inl ⟨hbar, rfl, by simpa using hbefore⟩
      · exact .inr ⟨between, after, hcons, hbar, by simpa using hbefore⟩

lemma prefix_of_mem_placesFrom {before events : List Event} {p : Place}
    (h : p ∈ placesFrom before events) : before <+: p.before := by
  obtain ⟨between, -, -, -, hbefore⟩ := mem_placesFrom.mp h
  exact ⟨between, hbefore.symm⟩

/-- Places stand in the order of time. -/
lemma pairwise_placesFrom (before events : List Event) :
    (placesFrom before events).Pairwise fun p q => ∃ e, p.before ++ [e] <+: q.before := by
  induction events generalizing before with
  | nil => exact List.Pairwise.nil
  | cons e events ih =>
    rw [placesFrom, List.pairwise_append]
    refine ⟨?_, ih _, ?_⟩
    · split <;> cases e <;> simp [Event.entry?]
    · intro p hp q hq
      have hbefore : p.before = before := by
        split at hp <;> cases e <;> simp_all [Event.entry?]
      exact ⟨e, hbefore ▸ prefix_of_mem_placesFrom hq⟩

namespace Segment

variable {s : Segment}

/-- The places are the notes and rests that an end bar follows. -/
theorem mem_places {p : Place} : p ∈ s.places ↔
    ∃ after, s.events = p.before ++ .entry p.entry :: after ∧ .endBar ∈ after := by
  simp [places, mem_placesFrom]

lemma nodup_places : s.places.Nodup := by
  refine (pairwise_placesFrom [] s.events).imp ?_
  rintro p _ ⟨e, he⟩ rfl
  have hlength := he.length_le
  rw [List.length_append, List.length_singleton] at hlength
  omega

lemma pairwise_measure_places : s.places.Pairwise fun p q => p.measure ≤ q.measure := by
  refine (pairwise_placesFrom [] s.events).imp ?_
  rintro p q ⟨e, he⟩
  exact ((List.prefix_append _ _).trans he).sublist.countP_le

lemma measure_lt_measureCount {p : Place} (h : p ∈ s.places) : p.measure < s.measureCount := by
  obtain ⟨after, hsplit, hbar⟩ := mem_places.mp h
  have hpos : 0 < after.countP Event.isEndBar := List.countP_pos_iff.mpr ⟨_, hbar, rfl⟩
  rw [measureCount, hsplit, List.countP_append, List.countP_cons]
  unfold Place.measure
  omega

lemma staff_mem_staffNames {p : Place} (h : p ∈ s.places) : p.entry.staff ∈ s.staffNames := by
  obtain ⟨after, hsplit, -⟩ := mem_places.mp h
  rw [staffNames, List.mem_eraseDups, List.mem_filterMap]
  exact ⟨.entry p.entry, by simp [hsplit], rfl⟩

lemma flatMap_placesIn (staff : String) :
    ((List.range s.measureCount).flatMap fun measure => s.placesIn staff measure) =
      s.places.filter fun p => p.entry.staff = staff := by
  have hfilter (measure : Nat) : s.placesIn staff measure =
      (s.places.filter fun p => p.entry.staff = staff).filter fun p => p.measure = measure := by
    rw [placesIn, List.filter_filter]
    refine List.filter_congr fun p _ => ?_
    rw [Bool.decide_and, Bool.and_comm]
  simp only [hfilter]
  refine flatMap_filter_of_ascending List.pairwise_lt_range (fun p hp => ?_)
    (pairwise_measure_places.filter _)
  exact List.mem_range.mpr (measure_lt_measureCount (List.mem_of_mem_filter hp))

end Segment

lemma nodup_voiceNames (ps : List Place) : (voiceNames ps).Nodup := nodup_eraseDups _

lemma voice_mem_voiceNames {p : Place} {ps : List Place} (h : p ∈ ps) :
    p.entry.voice ∈ voiceNames ps := by
  rw [voiceNames, List.mem_eraseDups]
  exact List.mem_map_of_mem h

lemma flatten_placesByVoice_perm (ps : List Place) : (placesByVoice ps).flatten.Perm ps := by
  rw [placesByVoice, ← List.flatMap_def]
  exact perm_flatMap_filter _ (nodup_voiceNames ps) fun p hp => voice_mem_voiceNames hp

lemma sublist_of_mem_placesByVoice {ps voice : List Place} (h : voice ∈ placesByVoice ps) :
    voice.Sublist ps := by
  obtain ⟨name, -, rfl⟩ := List.mem_map.mp h
  exact List.filter_sublist

namespace Segment

variable {s : Segment}

/-- Each place stands in one voice of one measure of one staff. -/
theorem written_perm_places (h : s.staffNames.length = s.staffCount) :
    s.written.Perm s.places := by
  have hmeasures (staff : String) : ((List.range s.measureCount).flatMap fun measure =>
      (placesByVoice (s.placesIn staff measure)).flatten).Perm
        (s.places.filter fun p => p.entry.staff = staff) := by
    rw [← flatMap_placesIn]
    exact List.Perm.flatMap_left _ fun measure _ => flatten_placesByVoice_perm _
  have hwritten : s.written = s.staffNames.flatMap fun staff =>
      (List.range s.measureCount).flatMap fun measure =>
        (placesByVoice (s.placesIn staff measure)).flatten := by
    rw [written, arrangement, ← h, List.take_length]
    simp only [List.flatten_eq_flatMap, List.flatMap_map, List.flatMap_assoc, id]
  -- Regrouped by voice in each measure, then by staff; the measures stand in order as they are.
  rw [hwritten]
  exact (List.Perm.flatMap_left _ fun staff _ => hmeasures staff).trans
    (perm_flatMap_filter _ (nodup_eraseDups _) fun p hp => staff_mem_staffNames hp)

/-- The voices of an arrangement keep the order of time. -/
theorem sublist_of_mem_arrangement {voice : List Place}
    (h : voice ∈ s.arrangement.flatten.flatten) : voice.Sublist s.places := by
  simp only [arrangement, List.mem_flatten, List.mem_map] at h
  obtain ⟨_, ⟨_, ⟨staff, -, rfl⟩, hmeasure⟩, hvoice⟩ := h
  obtain ⟨measure, -, rfl⟩ := List.mem_map.mp hmeasure
  exact (sublist_of_mem_placesByVoice hvoice).trans List.filter_sublist

lemma mem_places_of_mem_written {p : Place} (h : p ∈ s.written) : p ∈ s.places := by
  obtain ⟨voice, hvoice, hp⟩ := List.mem_flatten.mp h
  exact (sublist_of_mem_arrangement hvoice).subset hp

end Segment

end BrailleScore
