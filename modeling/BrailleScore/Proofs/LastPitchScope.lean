import BrailleScore.Proofs.PassOutcome

/-!
# The last pitch of a note

A note is built behind the pitch that sounded last in its voice of its staff. A pass carries these
pitches from voice to voice and from measure to measure; they are what a search backwards through
the timeline of the segment finds, whatever stands in between.
-/

namespace BrailleScore

def Event.soundingIn (staff voice : String) : Event → Option Pitch
  | .entry e => if e.staff = staff ∧ e.voice = voice then e.sounding else none
  | _ => none

/-- The nearest note in front of the place that sounds in its voice of its staff sounds `q`. -/
def Place.Nearest (p : Place) (q : Pitch) : Prop :=
  ∃ earlier n between, p.before = earlier ++ .entry (.note n) :: between ∧
    n.staff = p.entry.staff ∧ n.voice = p.entry.voice ∧ n.sounding = some q ∧
    ∀ m, .entry (.note m) ∈ between → m.staff = p.entry.staff → m.voice = p.entry.voice →
      m.sounding = none

lemma Event.soundingIn_eq_some {staff voice : String} {x : Event} {q : Pitch} :
    x.soundingIn staff voice = some q ↔
      ∃ n, x = .entry (.note n) ∧ n.staff = staff ∧ n.voice = voice ∧ n.sounding = some q := by
  constructor
  · intro h
    cases x with
    | entry e =>
      obtain ⟨⟨hstaff, hvoice⟩, hq⟩ := Option.ite_none_right_eq_some.mp h
      cases e with
      | note n => exact ⟨n, rfl, hstaff, hvoice, hq⟩
      | rest r => cases hq
    | _ => cases h
  · rintro ⟨n, rfl, rfl, rfl, hq⟩
    exact (if_pos ⟨rfl, rfl⟩).trans hq

lemma Event.forall_soundingIn_eq_none {staff voice : String} {events : List Event} :
    (∀ x ∈ events, x.soundingIn staff voice = none) ↔
      ∀ m, .entry (.note m) ∈ events → m.staff = staff → m.voice = voice → m.sounding = none := by
  constructor
  · intro h m hm hstaff hvoice
    have hnone := h _ hm
    rwa [soundingIn, Entry.staff, Entry.voice, if_pos ⟨hstaff, hvoice⟩] at hnone
  · intro h x hx
    by_contra hsome
    obtain ⟨q, hq⟩ := Option.ne_none_iff_exists'.mp hsome
    obtain ⟨n, rfl, hstaff, hvoice, hn⟩ := soundingIn_eq_some.mp hq
    rw [h n hx hstaff hvoice] at hn
    cases hn

lemma lastPitch_eq_findSome? (events : List Event) (staff voice : String) :
    lastPitch events staff voice = events.reverse.findSome? (Event.soundingIn staff voice) := by
  rw [lastPitch, Entry.lastSounding, List.filterMap_filter, List.filterMap_filterMap,
    List.getLast?_filterMap]
  congr 1
  funext x
  cases x <;> simp [Event.entry?, Event.soundingIn]

/-- The last pitch is that of the nearest note in front that sounds in the voice. -/
theorem Place.last_eq_some {p : Place} {q : Pitch} : p.last = some q ↔ p.Nearest q := by
  rw [last, lastPitch_eq_findSome?, List.findSome?_eq_some_iff]
  -- The search runs backwards: what it has passed is what lies between.
  constructor
  · rintro ⟨between, x, earlier, hsplit, hx, hbetween⟩
    obtain ⟨n, rfl, hstaff, hvoice, hn⟩ := Event.soundingIn_eq_some.mp hx
    refine ⟨earlier.reverse, n, between.reverse, ?_, hstaff, hvoice, hn,
      Event.forall_soundingIn_eq_none.mp fun x hx => hbetween x (List.mem_reverse.mp hx)⟩
    have hreversed := congrArg List.reverse hsplit
    simpa using hreversed
  · rintro ⟨earlier, n, between, hsplit, hstaff, hvoice, hn, hbetween⟩
    refine ⟨between.reverse, .entry (.note n), earlier.reverse, by simp [hsplit],
      Event.soundingIn_eq_some.mpr ⟨n, rfl, hstaff, hvoice, hn⟩, fun x hx => ?_⟩
    exact Event.forall_soundingIn_eq_none.mpr hbetween x (List.mem_reverse.mp hx)

theorem Place.last_eq_none {p : Place} : p.last = none ↔
    ∀ n, .entry (.note n) ∈ p.before → n.staff = p.entry.staff → n.voice = p.entry.voice →
      n.sounding = none := by
  rw [last, lastPitch_eq_findSome?, List.findSome?_eq_none_iff, ← Event.forall_soundingIn_eq_none]
  simp only [List.mem_reverse]

/-- Whatever is made of the last pitch, each note is built behind that of the nearest note in front
of it that sounds in the same voice, staff and segment. -/
theorem Transcriber.transcribeWith_nearest (scribe : Options.Content → Tuplet.Table → Scribe)
    (t : Transcriber) (s : Score) :
    (t.transcribeWith scribe s = match s.placedScript (scribe t.options.content) with
      | .ok script =>
        let pages := Layout.pages t.last.page.size (Layout.pieces t.options.style script)
        (.ok pages.text, { t with last := ⟨pages, script.tally⟩ })
      | .error f => (.error f, { t with last := ⟨Page.blank t.last.page.size, {}⟩ })) ∧
    (∀ g : Segment, ∀ p ∈ g.written, ∃ after, g.events = p.before ++ .entry p.entry :: after) ∧
    ∀ p : Place, (∀ q, p.last = some q ↔ p.Nearest q) ∧
      (p.last = none ↔ ∀ n, .entry (.note n) ∈ p.before → n.staff = p.entry.staff →
        n.voice = p.entry.voice → n.sounding = none) := by
  refine ⟨transcribeWith_eq scribe t s, fun g p hp => ?_, fun p =>
    ⟨fun q => Place.last_eq_some, Place.last_eq_none⟩⟩
  obtain ⟨after, hsplit, -⟩ := Segment.mem_places.mp (Segment.mem_places_of_mem_written hp)
  exact ⟨after, hsplit⟩

end BrailleScore
