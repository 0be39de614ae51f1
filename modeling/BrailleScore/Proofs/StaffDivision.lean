import BrailleScore.Proofs.MeasureVoices

/-!
# The staves of a segment

A segment that declares staves is divided among them if its events name just as many. An event
goes to the staff that it names, or to all of them, and an end bar goes to all, so that the
measures of the staves end together. A name too many is noticed at the first event that bears it,
a name too few behind the last event.
-/

namespace BrailleScore

open Fault

/-- The event stands on the staff `name`. -/
def Event.concerns (name : String) (e : Event) : Bool := e.isVertical || e.staff? = some name

/-- The staves that events name. -/
def Event.namedStaves (events : List Event) : Finset String :=
  (events.filterMap Event.staff?).toFinset

/-! ### The measure that an end bar ends -/

namespace Staff

/-- What stands behind the last end bar, all of it where there is none. -/
def openMeasure (events : List Event) : List Event := events.rtakeWhile fun e => !e.isEndBar

lemma openMeasure_concat_endBar (events : List Event) :
    openMeasure (events ++ [.endBar]) = [] :=
  List.rtakeWhile_concat_neg (fun e => !Event.isEndBar e) _ _ (by simp [Event.isEndBar])

lemma openMeasure_concat {e : Event} (he : e ≠ .endBar) (events : List Event) :
    openMeasure (events ++ [e]) = openMeasure events ++ [e] := by
  refine List.rtakeWhile_concat_pos (fun e => !Event.isEndBar e) _ _ ?_
  cases e with
  | endBar => exact absurd rfl he
  | _ => rfl

lemma openMeasure_cons (e : Event) (events : List Event) : openMeasure (e :: events) =
    if e = .endBar ∨ .endBar ∈ events then openMeasure events else e :: openMeasure events := by
  induction events using List.reverseRecOn with
  | nil =>
    by_cases he : e = .endBar
    · subst he
      rfl
    · rw [if_neg (by simp [he])]
      exact openMeasure_concat he []
  | append_singleton events last ih =>
    rw [← List.cons_append]
    by_cases hlast : last = .endBar
    · subst hlast
      rw [openMeasure_concat_endBar, openMeasure_concat_endBar, if_pos (by simp)]
    · rw [openMeasure_concat hlast, openMeasure_concat hlast, ih]
      simp only [List.mem_append, List.mem_singleton, Ne.symm hlast, or_false]
      split <;> rfl

lemma cutAtEndBars_concat_endBar (events : List Event) :
    cutAtEndBars (events ++ [.endBar]) = cutAtEndBars events ++ [⟨openMeasure events⟩] := by
  induction events with
  | nil => rfl
  | cons e events ih =>
    rw [List.cons_append, openMeasure_cons]
    by_cases he : e = .endBar
    · subst he
      rw [cutAtEndBars, ih, cutAtEndBars, if_pos (.inl rfl)]
      rfl
    · rw [cutAtEndBars_cons he, ih, cutAtEndBars_cons he]
      cases hcut : cutAtEndBars events with
      | nil =>
        have hbar : .endBar ∉ events := cutAtEndBars_eq_nil.mp hcut
        rw [if_neg (by simp [he, hbar])]
        rfl
      | cons m ms =>
        have hbar : .endBar ∈ events := by
          by_contra hbar
          rw [cutAtEndBars_eq_nil.mpr hbar] at hcut
          cases hcut
        rw [if_pos (.inr hbar)]
        rfl

lemma cutAtEndBars_append_endBar (before after : List Event) :
    cutAtEndBars (before ++ .endBar :: after) =
      cutAtEndBars (before ++ [.endBar]) ++ cutAtEndBars after := by
  induction before with
  | nil => rfl
  | cons e before ih =>
    rw [List.cons_append, List.cons_append]
    by_cases he : e = .endBar
    · subst he
      rw [cutAtEndBars, ih, cutAtEndBars]
      rfl
    · rw [cutAtEndBars_cons he, ih, cutAtEndBars_cons he, cutAtEndBars_concat_endBar]
      cases cutAtEndBars before <;> rfl

/-- Each end bar ends the measure that stands open in front of it. -/
theorem getElem?_cutAtEndBars (before after : List Event) :
    (cutAtEndBars (before ++ .endBar :: after))[before.count .endBar]? =
      some ⟨openMeasure before⟩ := by
  rw [cutAtEndBars_append_endBar, cutAtEndBars_concat_endBar, ← length_cutAtEndBars,
    List.append_assoc, List.getElem?_append_right (Nat.le_refl _), Nat.sub_self]
  rfl

end Staff

/-! ### Staves in full number -/

namespace Segment

variable {s : Segment} {staves : List Staff} {name : String}

/-- The staves are those that the events name, and each has the events that concern it. -/
structure IsDivided (s : Segment) (staves : List Staff) : Prop where
  length_eq : staves.length = s.staffCount
  names : FirstAppearances (staves.map Staff.name) (s.events.filterMap Event.staff?)
  events_eq : ∀ staff ∈ staves, staff.events = s.events.filter (Event.concerns staff.name)
  shared : ∀ e ∈ s.events, e.isVertical → ∀ staff ∈ staves, e ∈ staff.events
  unique : ∀ e ∈ s.events, ¬ e.isVertical →
    ∃! i : Nat, ∃ staff, staves[i]? = some staff ∧ e ∈ staff.events
  measures : ∀ staff ∈ staves, staff.measures.length = s.events.count .endBar
  /-- An end bar ends the same measure of each staff. -/
  bars : ∀ before after, s.events = before ++ .endBar :: after → ∀ staff ∈ staves,
    staff.measures[before.count .endBar]? =
      some ⟨(Staff.openMeasure before).filter (Event.concerns staff.name)⟩

lemma measures_staffNamed (s : Segment) (name : String) : (s.staffNamed name).measures =
    (Staff.cutAtEndBars s.events).map fun m => ⟨m.events.filter (Event.concerns name)⟩ :=
  Staff.cutAtEndBars_filter rfl s.events

lemma existsUnique_staffNamed {e : Event} (he : e ∈ s.events) (hvertical : ¬ e.isVertical) :
    ∃! i : Nat, ∃ staff, (s.staffNames.map s.staffNamed)[i]? = some staff ∧ e ∈ staff.events := by
  have hnames := s.firstAppearances_staffNames
  obtain ⟨name, hname⟩ : ∃ name, e.staff? = some name := by
    apply Option.ne_none_iff_exists'.mp
    simpa [Event.isVertical] using hvertical
  have hmem : name ∈ s.staffNames :=
    (hnames.mem_iff name).mpr (List.mem_filterMap.mpr ⟨e, he, hname⟩)
  refine existsUnique_index hnames.nodup hmem fun other => ?_
  simp [staffNamed, he, hvertical, hname, eq_comm]

lemma isDivided_staffNames (h : s.staffNames.length = s.staffCount) :
    s.IsDivided (s.staffNames.map s.staffNamed) where
  length_eq := by rw [List.length_map, h]
  names := by
    have hmap : (s.staffNames.map s.staffNamed).map Staff.name = s.staffNames := by
      rw [List.map_map]
      exact List.map_id _
    rw [hmap]
    exact s.firstAppearances_staffNames
  events_eq := List.forall_mem_map.mpr fun _ _ => rfl
  shared e he hvertical := by
    rw [List.forall_mem_map]
    intro name _
    exact List.mem_filter.mpr ⟨he, by simp [hvertical]⟩
  unique _ he hvertical := existsUnique_staffNamed he hvertical
  measures := by
    rw [List.forall_mem_map]
    intro name _
    rw [measures_staffNamed, List.length_map, Staff.length_cutAtEndBars]
  bars before after hsplit := by
    rw [List.forall_mem_map]
    intro name _
    rw [measures_staffNamed, List.getElem?_map, hsplit, Staff.getElem?_cutAtEndBars]
    rfl

/-! ### Staves in another number -/

lemma card_namedStaves (events : List Event) :
    (Event.namedStaves events).card = (Segment.mk events).staffNames.length :=
  length_staffNames.symm

/-- Why the segment cannot be divided. -/
structure IsRefused (s : Segment) (f : Fault) : Prop where
  kind : f.kind = .malformed
  position : f.position.isUnknown
  shortage : (Event.namedStaves s.events).card < s.staffCount →
    f.cause = .staffShortage s.staffCount (Event.namedStaves s.events).card
  /-- An event bears a name that is new although all staves are named already. -/
  surplus : s.staffCount < (Event.namedStaves s.events).card →
    ∃ before e after name, s.events = before ++ e :: after ∧ e.staff? = some name ∧
      (Event.namedStaves before).card = s.staffCount ∧ name ∉ Event.namedStaves before ∧
      f.cause = .staffSurplus name s.staffCount

/-- The staff of index `i` comes in with an event in front of which `i` others are named. -/
lemma exists_of_getElem?_staffNames {events : List Event} {i : Nat}
    (h : (Segment.mk events).staffNames[i]? = some name) : ∃ before e after,
      events = before ++ e :: after ∧ e.staff? = some name ∧
        (Event.namedStaves before).card = i ∧ name ∉ Event.namedStaves before := by
  induction events using List.reverseRecOn with
  | nil => cases h
  | append_singleton events last ih =>
    have hearlier (h : (Segment.mk events).staffNames[i]? = some name) :
        ∃ before e after, events ++ [last] = before ++ e :: after ∧ e.staff? = some name ∧
          (Event.namedStaves before).card = i ∧ name ∉ Event.namedStaves before := by
      obtain ⟨before, e, after, rfl, hrest⟩ := ih h
      exact ⟨before, e, after ++ [last], by simp, hrest⟩
    -- Only an event with a new name adds to the names, and it adds its own at their end.
    cases hstaff : last.staff? with
    | none =>
      rw [staffNames_concat_of_vertical hstaff] at h
      exact hearlier h
    | some new =>
      rw [staffNames_concat hstaff] at h
      by_cases hnew : new ∈ (Segment.mk events).staffNames
      · rw [if_pos hnew] at h
        exact hearlier h
      · rw [if_neg hnew] at h
        by_cases hi : i < (Segment.mk events).staffNames.length
        · rw [List.getElem?_append_left hi] at h
          exact hearlier h
        · rw [List.getElem?_append_right (Nat.le_of_not_lt hi), List.getElem?_singleton] at h
          obtain ⟨hzero, hname⟩ := Option.ite_none_right_eq_some.mp h
          obtain rfl := Option.some.inj hname
          refine ⟨events, last, [], rfl, hstaff, ?_, ?_⟩
          · rw [card_namedStaves]
            omega
          · intro hmem
            rw [Event.namedStaves, List.mem_toFinset] at hmem
            exact hnew ((firstAppearances_staffNames ⟨events⟩).mem_iff new |>.mpr hmem)

lemma isRefused_of_error (hcount : s.staffCount ≠ 0) {f : Fault} (h : s.staves = .error f) :
    s.IsRefused f := by
  have hcard : (Event.namedStaves s.events).card = s.staffNames.length :=
    card_namedStaves s.events
  rw [staves_eq, if_neg hcount] at h
  cases hsurplus : s.staffNames[s.staffCount]? with
  | some name =>
    rw [hsurplus] at h
    obtain rfl := Except.error.inj h
    obtain ⟨hlong, -⟩ := List.getElem?_eq_some_iff.mp hsurplus
    refine ⟨rfl, rfl, fun hshort => ?_, fun _ => ?_⟩
    · omega
    · obtain ⟨before, e, after, hsplit, hstaff, hbefore, hnew⟩ :=
        exists_of_getElem?_staffNames hsurplus
      exact ⟨before, e, after, name, hsplit, hstaff, hbefore, hnew, rfl⟩
  | none =>
    rw [hsurplus] at h
    have hlong := List.getElem?_eq_none_iff.mp hsurplus
    by_cases hshort : s.staffNames.length < s.staffCount
    · simp only [hshort, if_true] at h
      obtain rfl := Except.error.inj h
      refine ⟨rfl, rfl, fun _ => ?_, fun hsurplus => ?_⟩
      · rw [hcard]
      · omega
    · simp only [hshort, if_false] at h
      cases h

/-- A segment that declares staves is divided among them exactly when its events name as many; if
they do not, the timeline is malformed. A single staff is told by its index among them. -/
theorem staves_complete (s : Segment) (h : 1 ≤ s.staffCount) :
    (Succeeds s.staves ↔ (Event.namedStaves s.events).card = s.staffCount) ∧
    (∀ f, s.staves = .error f → s.IsRefused f ∧ ∀ i, s.staff i = .error f) ∧
    ∀ staves, s.staves = .ok staves → s.IsDivided staves ∧
      (∀ i < s.staffCount, ∃ staff, staves[i]? = some staff ∧ s.staff i = .ok staff) ∧
      ∀ i, s.staffCount ≤ i → s.staff i = raise (.staffOutOfRange i s.staffCount) := by
  have hcount : s.staffCount ≠ 0 := by omega
  have hok {staves : List Staff} : s.staves = .ok staves ↔
      s.staffNames.length = s.staffCount ∧ staves = s.staffNames.map s.staffNamed := by
    simp [staves_eq_ok, hcount]
  refine ⟨?_, fun f hf => ⟨isRefused_of_error hcount hf, fun i => ?_⟩, fun staves hstaves => ?_⟩
  · rw [card_namedStaves]
    constructor
    · rintro ⟨staves, hstaves⟩
      exact (hok.mp hstaves).1
    · intro hlength
      exact ⟨_, hok.mpr ⟨hlength, rfl⟩⟩
  · rw [staff, hf]
    rfl
  · obtain ⟨hlength, rfl⟩ := hok.mp hstaves
    have hdivided := isDivided_staffNames hlength
    refine ⟨hdivided, fun i hi => ?_, fun i hi => ?_⟩
    · obtain ⟨staff, hstaff⟩ : ∃ staff, (s.staffNames.map s.staffNamed)[i]? = some staff :=
        ⟨_, List.getElem?_eq_getElem (hdivided.length_eq ▸ hi)⟩
      refine ⟨staff, hstaff, ?_⟩
      rw [Segment.staff, hstaves]
      simp only [bind, Except.bind, hstaff]
      rfl
    · have hnone : (s.staffNames.map s.staffNamed)[i]? = none :=
        List.getElem?_eq_none (hdivided.length_eq ▸ hi)
      rw [Segment.staff, hstaves]
      simp only [bind, Except.bind, hnone]

/-- Of three staves that are named one by one, all are staves of a segment of three, and the last
does not fit into a segment of two. -/
theorem staves_of_three :
    let rest (staff : String) : Event := .entry (.rest { duration := { base := .half }, staff })
    let s (count : Nat) : Segment := ⟨[.startBar count, rest "2", rest "1", rest "2", .endBar,
      .startBar count, rest "3", .endBar]⟩
    let bars (count : Nat) (first last : List Event) : List Event :=
      [.startBar count] ++ first ++ [.endBar, .startBar count] ++ last ++ [.endBar]
    1 ≤ (s 3).staffCount ∧
      (s 3).IsDivided [⟨"2", bars 3 [rest "2", rest "2"] []⟩, ⟨"1", bars 3 [rest "1"] []⟩,
        ⟨"3", bars 3 [] [rest "3"]⟩] ∧
      1 ≤ (s 2).staffCount ∧ (s 2).IsRefused { cause := .staffSurplus "3" 2 } := by
  intro rest s bars
  have hthree : 1 ≤ (s 3).staffCount := by decide
  have htwo : 1 ≤ (s 2).staffCount := by decide
  exact ⟨hthree, (((s 3).staves_complete hthree).2.2 _ (by decide)).1,
    htwo, (((s 2).staves_complete htwo).2.1 _ (by decide)).1⟩

end Segment

end BrailleScore
