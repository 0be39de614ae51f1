import Mathlib.Data.List.Chain
import Mathlib.Data.Nat.Find
import BrailleScore.Proofs.TimelineEdits

/-!
# The cut of a timeline

A timeline is cut where an end bar is followed by a start bar that declares another number of
staves. This is possible exactly when a start bar follows every end bar but one at the very end,
and the segments that come about are the only ones that share their number of staves as far as
they can.
-/

namespace BrailleScore

namespace Segment

/-- An end bar stands at index `i` and something other than a start bar follows it. -/
def Broken (events : List Event) (i : Nat) : Prop :=
  events[i]? = some .endBar ∧ i + 1 < events.length ∧
    ∀ staves, events[i + 1]? ≠ some (.startBar staves)

/-- Start bars directly behind an end bar of the segment declare the number of staves that the
events before them have. -/
def IsUniform (s : Segment) : Prop :=
  ∀ before staves after, s.events = before ++ .endBar :: .startBar staves :: after →
    staves = (Segment.mk (before ++ [.endBar])).staffCount

/-- The segments are a cut of the timeline into measures that share their number of staves, as long
as possible. -/
structure IsCut (events : List Event) (segments : List Segment) : Prop where
  ne_nil : segments ≠ []
  /-- No event is lost, and none changes its place. -/
  events_eq : segments.flatMap Segment.events = events
  filled : events ≠ [] → ∀ s ∈ segments, s.events ≠ []
  /-- All segments but the first begin with a start bar, directly behind an end bar. -/
  opens : ∀ before s after, segments = before ++ s :: after → before ≠ [] →
    (∃ staves rest, s.events = .startBar staves :: rest) ∧
      (before.flatMap Segment.events).getLast? = some .endBar
  uniform : ∀ s ∈ segments, s.IsUniform
  /-- Neighbours differ in their number of staves. -/
  maximal : segments.IsChain fun s next => s.staffCount ≠ next.staffCount

/-! ### Numbers of staves -/

/-- One more event goes on with a segment, unless it is a start bar behind an end bar that declares
another number of staves. -/
lemma isUniform_append_singleton {events : List Event} {e : Event} :
    (Segment.mk (events ++ [e])).IsUniform ↔ (Segment.mk events).IsUniform ∧
      ∀ staves, e = .startBar staves → events.getLast? = some .endBar →
        staves = (Segment.mk events).staffCount := by
  constructor
  · intro h
    constructor
    · intro before staves after hevents
      apply h before staves (after ++ [e])
      change events ++ [e] = _
      rw [show events = _ from hevents, List.append_assoc, List.cons_append, List.cons_append]
    · rintro staves rfl hlast
      obtain ⟨before, rfl⟩ := List.getLast?_eq_some_iff.mp hlast
      exact h before staves [] (List.append_assoc _ _ _)
  · rintro ⟨huniform, hlast⟩ before staves after hevents
    obtain rfl | ⟨after, last, rfl⟩ := List.eq_nil_or_concat after
    · have hsplit : events ++ [e] = (before ++ [.endBar]) ++ [.startBar staves] := by
        rw [List.append_assoc]
        exact hevents
      obtain ⟨rfl, he⟩ := List.append_inj' hsplit rfl
      obtain ⟨rfl, -⟩ := List.cons.inj he
      exact hlast staves rfl List.getLast?_concat
    · have hsplit : events ++ [e] = (before ++ .endBar :: .startBar staves :: after) ++ [last] := by
        simpa using hevents
      exact huniform before staves after (List.append_inj' hsplit rfl).1

lemma isUniform_empty : (Segment.mk []).IsUniform := by
  intro before staves after h
  simp at h

/-! ### Cuts, segment by segment -/

/-- The segment `next` cannot go on with the segment `s` before it. -/
structure Borders (s next : Segment) : Prop where
  ends : s.events.getLast? = some .endBar
  starts : ∃ staves rest, next.events = .startBar staves :: rest
  staffCount_ne : s.staffCount ≠ next.staffCount

lemma Borders.ne_nil {s next : Segment} (h : Borders s next) : s.events ≠ [] := by
  intro hnil
  have hends := h.ends
  rw [hnil] at hends
  cases hends

lemma isCut_singleton {events : List Event} {s : Segment} :
    IsCut events [s] ↔ s.events = events ∧ s.IsUniform := by
  constructor
  · intro h
    exact ⟨by simpa using h.events_eq, h.uniform s List.mem_cons_self⟩
  · rintro ⟨rfl, huniform⟩
    refine ⟨by simp, by simp, by simp, ?_, by simpa using huniform, .singleton s⟩
    intro before t after hsplit hbefore
    obtain ⟨u, before, rfl⟩ := List.exists_cons_of_ne_nil hbefore
    simp at hsplit

lemma IsCut.ne_nil_of_borders {later : List Event} {s next : Segment} {rest : List Segment}
    (h : IsCut later (next :: rest)) (hborders : Borders s next) : later ≠ [] := by
  obtain ⟨staves, events, hnext⟩ := hborders.starts
  rw [← h.events_eq, List.flatMap_cons, hnext]
  simp

/-- A segment in front of one that cannot go on with it makes a longer cut. -/
theorem IsCut.cons {later : List Event} {s next : Segment} {rest : List Segment}
    (h : IsCut later (next :: rest)) (hborders : Borders s next) (huniform : s.IsUniform) :
    IsCut (s.events ++ later) (s :: next :: rest) := by
  have hfilled := h.filled (h.ne_nil_of_borders hborders)
  refine ⟨by simp, ?_, fun _ => List.forall_mem_cons.mpr ⟨hborders.ne_nil, hfilled⟩, ?_,
    List.forall_mem_cons.mpr ⟨huniform, h.uniform⟩,
    List.isChain_cons_cons.mpr ⟨hborders.staffCount_ne, h.maximal⟩⟩
  · rw [List.flatMap_cons, h.events_eq]
  · intro before t after hsplit hbefore
    obtain ⟨u, before, rfl⟩ := List.exists_cons_of_ne_nil hbefore
    rw [List.cons_append] at hsplit
    obtain ⟨rfl, htail⟩ := List.cons.inj hsplit
    cases before with
    | nil =>
      rw [List.nil_append] at htail
      obtain ⟨rfl, -⟩ := List.cons.inj htail
      exact ⟨hborders.starts, by simpa using hborders.ends⟩
    | cons u before =>
      obtain ⟨hstart, hlast⟩ := h.opens (u :: before) t after htail (by simp)
      exact ⟨hstart, by rw [List.flatMap_cons, List.getLast?_append, hlast]; rfl⟩

/-- Behind its first segment a cut is a cut of the remaining events. -/
theorem IsCut.uncons {events : List Event} {s next : Segment} {rest : List Segment}
    (h : IsCut events (s :: next :: rest)) : ∃ later, events = s.events ++ later ∧
      Borders s next ∧ s.IsUniform ∧ IsCut later (next :: rest) := by
  obtain ⟨hnext, hlast⟩ := h.opens [s] next rest rfl (by simp)
  obtain ⟨hne, hmaximal⟩ := List.isChain_cons_cons.mp h.maximal
  have hborders : Borders s next := ⟨by simpa using hlast, hnext, hne⟩
  obtain ⟨huniform, hrest⟩ := List.forall_mem_cons.mp h.uniform
  have hevents : events ≠ [] := by
    rw [← h.events_eq, List.flatMap_cons]
    exact List.append_ne_nil_of_left_ne_nil hborders.ne_nil _
  obtain ⟨-, hfilled⟩ := List.forall_mem_cons.mp (h.filled hevents)
  refine ⟨(next :: rest).flatMap Segment.events, h.events_eq.symm, hborders, huniform,
    by simp, rfl, fun _ => hfilled, ?_, hrest, hmaximal⟩
  intro before t after hsplit hbefore
  obtain ⟨hstart, hlast⟩ := h.opens (s :: before) t after (congrArg (List.cons s) hsplit) (by simp)
  refine ⟨hstart, ?_⟩
  -- The last event before `t` is one of `before`, whose segments have events.
  obtain ⟨u, before, rfl⟩ := List.exists_cons_of_ne_nil hbefore
  have hu : u.events ≠ [] := hfilled u (hsplit ▸ List.mem_append_left _ List.mem_cons_self)
  have hne : (u :: before).flatMap Segment.events ≠ [] := by
    rw [List.flatMap_cons]
    exact List.append_ne_nil_of_left_ne_nil hu _
  rwa [List.flatMap_cons, List.getLast?_append_of_ne_nil _ hne] at hlast

lemma not_isCut_singleton {events : List Event} {s next : Segment} {rest : List Segment}
    (h : IsCut events (s :: next :: rest)) : ¬ IsCut events [s] := by
  intro hsingle
  obtain ⟨later, rfl, hborders, -, hcut⟩ := h.uncons
  apply hcut.ne_nil_of_borders hborders
  simpa using (isCut_singleton.mp hsingle).1

/-! ### The cut that is made -/

lemma IsCut.exists_first {e : Event} {events : List Event} {s : Segment} {rest : List Segment}
    (h : IsCut (e :: events) (s :: rest)) : ∃ later, s.events = e :: later := by
  have hs : s.events ≠ [] := h.filled (List.cons_ne_nil _ _) s List.mem_cons_self
  obtain ⟨first, later, hs⟩ := List.exists_cons_of_ne_nil hs
  have hevents : s.events ++ rest.flatMap Segment.events = e :: events := h.events_eq
  rw [hs] at hevents
  obtain ⟨rfl, -⟩ := List.cons.inj hevents
  exact ⟨later, hs⟩

/-- A start bar that declares another number of staves ends the segment before it. -/
lemma IsCut.behind_endBar {past events : List Event} {staves : Nat} {s : Segment}
    {rest : List Segment} (h : IsCut (.startBar staves :: events) (s :: rest))
    (huniform : (Segment.mk (past ++ [.endBar])).IsUniform)
    (hother : staves ≠ (Segment.mk (past ++ [.endBar])).staffCount) :
    IsCut (past ++ .endBar :: .startBar staves :: events)
      (⟨past ++ [.endBar]⟩ :: s :: rest) := by
  obtain ⟨later, hs⟩ := h.exists_first
  have hcount : s.staffCount = staves := congrArg (fun l => staffCount ⟨l⟩) hs
  have hborders : Borders ⟨past ++ [.endBar]⟩ s :=
    ⟨List.getLast?_concat, ⟨staves, later, hs⟩, hcount ▸ hother.symm⟩
  have hcut := h.cons hborders huniform
  rwa [List.append_assoc] at hcut

/-- The segments of a timeline from some place on, behind the events `past` of the segment that
they continue. -/
theorem isCut_cutFrom {index : Nat} {past events : List Event}
    (huniform : (Segment.mk (past ++ events.head?.toList)).IsUniform) {segments : List Segment}
    (h : cutFrom index (past.findSome? Event.declared?) events = .ok segments) :
    ∃ s rest, segments = s :: rest ∧ IsCut (past ++ events) (⟨past ++ s.events⟩ :: rest) := by
  induction events generalizing index past segments with
  | nil =>
    cases h
    exact ⟨{}, [], rfl, isCut_singleton.mpr ⟨rfl, huniform⟩⟩
  | cons e events ih =>
    change (Segment.mk (past ++ [e])).IsUniform at huniform
    have hdeclared : (past.findSome? Event.declared?).or e.declared? =
        (past ++ [e]).findSome? Event.declared? := by
      rw [List.findSome?_append, List.findSome?_singleton]
    by_cases he : e = .endBar
    · subst he
      rw [show Event.declared? .endBar = none from rfl, Option.or_none] at hdeclared
      rw [hdeclared] at h
      cases events with
      | nil =>
        cases h
        exact ⟨⟨[.endBar]⟩, [], rfl, isCut_singleton.mpr ⟨rfl, huniform⟩⟩
      | cons next events =>
        by_cases hnext : ∃ staves, next = .startBar staves
        · obtain ⟨staves, rfl⟩ := hnext
          rw [cutFrom_endBar_startBar] at h
          split at h
          case isTrue hsame =>
            obtain ⟨later, hlater, rfl⟩ := Fault.map_eq_ok.mp h
            have hstart : (Segment.mk ((past ++ [.endBar]) ++ [.startBar staves])).IsUniform := by
              refine isUniform_append_singleton.mpr ⟨huniform, ?_⟩
              rintro _ ⟨⟩ -
              exact hsame
            obtain ⟨s, rest, rfl, hcut⟩ := ih hstart hlater
            refine ⟨⟨.endBar :: s.events⟩, rest, rfl, ?_⟩
            rwa [List.append_assoc, List.append_assoc] at hcut
          case isFalse hother =>
            obtain ⟨later, hlater, rfl⟩ := Fault.map_eq_ok.mp h
            have hstart : (Segment.mk ([] ++ [.startBar staves])).IsUniform :=
              isUniform_append_singleton.mpr ⟨isUniform_empty, nofun⟩
            obtain ⟨s, rest, rfl, hcut⟩ := ih hstart hlater
            exact ⟨⟨[.endBar]⟩, s :: rest, rfl, hcut.behind_endBar huniform hother⟩
        · rw [cutFrom_endBar_fault fun staves hstaves => hnext ⟨staves, hstaves⟩] at h
          cases h
    · rw [cutFrom_cons he, hdeclared] at h
      obtain ⟨later, hlater, rfl⟩ := Fault.map_eq_ok.mp h
      have hnext : (Segment.mk ((past ++ [e]) ++ events.head?.toList)).IsUniform := by
        cases events with
        | nil => simpa using huniform
        | cons next events =>
          refine isUniform_append_singleton.mpr ⟨huniform, ?_⟩
          intro _ _ hlast
          exact absurd (Option.some.inj (List.getLast?_concat.symm.trans hlast)) he
      obtain ⟨s, rest, rfl, hcut⟩ := ih hnext hlater
      refine ⟨⟨e :: s.events⟩, rest, rfl, ?_⟩
      rwa [List.append_assoc, List.append_assoc] at hcut

theorem isCut_of_cut {events : List Event} {segments : List Segment}
    (h : cut events = .ok segments) : IsCut events segments := by
  have huniform : (Segment.mk ([] ++ events.head?.toList)).IsUniform := by
    cases events with
    | nil => exact isUniform_empty
    | cons e events => exact isUniform_append_singleton.mpr ⟨isUniform_empty, nofun⟩
  obtain ⟨s, rest, rfl, hcut⟩ := @isCut_cutFrom 0 [] events huniform segments h
  exact hcut

/-! ### There is no other cut -/

/-- A segment cannot end sooner than in a cut where what follows it begins a segment. -/
lemma Borders.not_isUniform {s next : Segment} (h : Borders s next) {staves : Nat}
    {rest : List Event} (hnext : next.events = .startBar staves :: rest) (more : List Event) :
    ¬ (Segment.mk (s.events ++ .startBar staves :: more)).IsUniform := by
  intro huniform
  obtain ⟨before, hbefore⟩ := List.getLast?_eq_some_iff.mp h.ends
  have hstaves : staves = (Segment.mk (before ++ [.endBar])).staffCount := by
    apply huniform before staves more
    rw [hbefore, List.append_assoc]
    rfl
  have hcount : next.staffCount = staves := congrArg (fun l => staffCount ⟨l⟩) hnext
  apply h.staffCount_ne
  rw [hcount, hstaves, ← hbefore]

lemma IsCut.events_eq_of_prefix {events : List Event} {s t : Segment} {rest rest' : List Segment}
    (h : IsCut events (s :: rest)) (h' : IsCut events (t :: rest'))
    (hshort : s.events <+: t.events) : s.events = t.events := by
  have hevents : t.events ++ rest'.flatMap Segment.events = events := h'.events_eq
  obtain ⟨mid, hmid⟩ := hshort
  cases rest with
  | nil =>
    rw [← (isCut_singleton.mp h).1, ← hmid, List.append_assoc] at hevents
    obtain ⟨hnil, -⟩ : mid = [] ∧ ∀ u ∈ rest', u.events = [] := by simpa using hevents
    rw [← hmid, hnil, List.append_nil]
  | cons next rest =>
    obtain ⟨later, rfl, hborders, -, hcut⟩ := h.uncons
    obtain ⟨staves, first, hfirst⟩ := hborders.starts
    cases mid with
    | nil => rw [← hmid, List.append_nil]
    | cons e mid =>
      rw [← hmid, List.append_assoc, ← hcut.events_eq, List.flatMap_cons, hfirst] at hevents
      obtain ⟨rfl, -⟩ := List.cons.inj (List.append_cancel_left hevents)
      have huniform : (Segment.mk t.events).IsUniform := h'.uniform t List.mem_cons_self
      rw [← hmid] at huniform
      exact absurd huniform (hborders.not_isUniform hfirst mid)

lemma IsCut.first_eq {events : List Event} {s t : Segment} {rest rest' : List Segment}
    (h : IsCut events (s :: rest)) (h' : IsCut events (t :: rest')) : s = t := by
  have hs : s.events <+: events := ⟨_, h.events_eq⟩
  have ht : t.events <+: events := ⟨_, h'.events_eq⟩
  have hevents : s.events = t.events := by
    obtain hshort | hshort := List.prefix_or_prefix_of_prefix hs ht
    · exact h.events_eq_of_prefix h' hshort
    · exact (h'.events_eq_of_prefix h hshort).symm
  exact congrArg Segment.mk hevents

theorem IsCut.unique {events : List Event} {segments others : List Segment}
    (h : IsCut events segments) (hothers : IsCut events others) : others = segments := by
  induction segments generalizing events others with
  | nil => exact absurd rfl h.ne_nil
  | cons s rest ih =>
    obtain ⟨t, rest', rfl⟩ := List.exists_cons_of_ne_nil hothers.ne_nil
    obtain rfl := h.first_eq hothers
    cases rest with
    | nil =>
      cases rest' with
      | nil => rfl
      | cons next' rest' => exact absurd h (not_isCut_singleton hothers)
    | cons next rest =>
      cases rest' with
      | nil => exact absurd hothers (not_isCut_singleton h)
      | cons next' rest' =>
        obtain ⟨later, rfl, -, -, hcut⟩ := h.uncons
        obtain ⟨later', hlater, -, -, hcut'⟩ := hothers.uncons
        obtain rfl := List.append_cancel_left hlater
        rw [ih hcut hcut']

/-! ### End bars without a start bar behind them -/

lemma not_broken_nil (i : Nat) : ¬ Broken [] i := by
  rintro ⟨-, hlength, -⟩
  exact absurd hlength (Nat.not_lt_zero _)

lemma broken_cons_succ {e : Event} {events : List Event} {i : Nat} :
    Broken (e :: events) (i + 1) ↔ Broken events i := by
  simp [Broken]

/-- The first end bar that something other than a start bar follows. -/
def FirstBroken (events : List Event) (i : Nat) : Prop :=
  Broken events i ∧ ∀ j < i, ¬ Broken events j

lemma firstBroken_cons {e : Event} {events : List Event} (h : ¬ Broken (e :: events) 0) {i : Nat} :
    FirstBroken (e :: events) i ↔ ∃ k, i = k + 1 ∧ FirstBroken events k := by
  cases i with
  | zero => simp [FirstBroken, h]
  | succ i =>
    simp only [FirstBroken, broken_cons_succ, Nat.forall_lt_succ_left, h, not_false_eq_true,
      true_and, Nat.add_right_cancel_iff, exists_eq_left']

lemma firstBroken_zero {events : List Event} (h : Broken events 0) {i : Nat} :
    FirstBroken events i ↔ i = 0 := by
  constructor
  · rintro ⟨-, hfirst⟩
    by_contra hi
    exact hfirst 0 (Nat.pos_of_ne_zero hi) h
  · rintro rfl
    exact ⟨h, fun j hj => absurd hj (Nat.not_lt_zero j)⟩

theorem cutFrom_eq_error {index : Nat} {declared : Option Nat} {events : List Event} {f : Fault} :
    cutFrom index declared events = .error f ↔
      ∃ i, FirstBroken events i ∧ f = { cause := .startBarMissing (index + i) } := by
  induction events generalizing index declared with
  | nil => simp [cutFrom, FirstBroken, not_broken_nil]
  | cons e events ih =>
    have hstep (hkept : ¬ Broken (e :: events) 0) (declared : Option Nat)
        (g : List Segment → List Segment) :
        (cutFrom (index + 1) declared events).map g = .error f ↔
          ∃ i, FirstBroken (e :: events) i ∧ f = { cause := .startBarMissing (index + i) } := by
      rw [Fault.map_eq_error, ih]
      simp only [firstBroken_cons hkept]
      constructor
      · rintro ⟨i, hi, rfl⟩
        exact ⟨i + 1, ⟨i, rfl, hi⟩, by rw [Nat.add_assoc, Nat.add_comm 1]⟩
      · rintro ⟨_, ⟨i, rfl, hi⟩, rfl⟩
        exact ⟨i, hi, by rw [Nat.add_assoc, Nat.add_comm 1]⟩
    by_cases he : e = .endBar
    · subst he
      cases events with
      | nil => simp [cutFrom, FirstBroken, Broken]
      | cons next events =>
        by_cases hnext : ∃ staves, next = .startBar staves
        · obtain ⟨staves, rfl⟩ := hnext
          have hkept : ¬ Broken (.endBar :: .startBar staves :: events) 0 := by
            rintro ⟨-, -, hnot⟩
            exact hnot staves rfl
          rw [cutFrom_endBar_startBar]
          split
          · exact hstep hkept _ _
          · exact hstep hkept _ _
        · have hbroken : Broken (.endBar :: next :: events) 0 :=
            ⟨rfl, by simp, fun staves h => hnext ⟨staves, Option.some.inj h⟩⟩
          rw [cutFrom_endBar_fault fun staves hstaves => hnext ⟨staves, hstaves⟩]
          simp [Fault.raise, firstBroken_zero hbroken, eq_comm]
    · have hkept : ¬ Broken (e :: events) 0 := by
        rintro ⟨hbar, -⟩
        exact he (Option.some.inj hbar)
      rw [cutFrom_cons he]
      exact hstep hkept _ _

lemma cut_eq_error {events : List Event} {f : Fault} : cut events = .error f ↔
    ∃ i, FirstBroken events i ∧ f = { cause := .startBarMissing i } := by
  have h := @cutFrom_eq_error 0 none events f
  simp only [Nat.zero_add] at h
  exact h

lemma succeeds_cut_iff_forall_not_broken (events : List Event) :
    Fault.Succeeds (cut events) ↔ ∀ i, ¬ Broken events i := by
  classical
  constructor
  · rintro ⟨segments, h⟩ i hi
    have hfirst : FirstBroken events (Nat.find ⟨i, hi⟩) :=
      ⟨Nat.find_spec (⟨i, hi⟩ : ∃ i, Broken events i), fun j hj => Nat.find_min _ hj⟩
    have herror := cut_eq_error.mpr ⟨_, hfirst, rfl⟩
    rw [h] at herror
    cases herror
  · intro h
    cases hcut : cut events with
    | ok segments => exact Fault.succeeds_ok segments
    | error f =>
      obtain ⟨i, ⟨hi, -⟩, -⟩ := cut_eq_error.mp hcut
      exact absurd hi (h i)

/-- A timeline is cut when a start bar follows each end bar but one at the very end; else the first
end bar that none follows is named. The segments are the only cut there is. -/
theorem cut_eq_maximal_cut (events : List Event) :
    (Fault.Succeeds (cut events) ↔ ∀ i, ¬ Broken events i) ∧
    (∀ f, cut events = .error f ↔ ∃ i, Broken events i ∧ (∀ j < i, ¬ Broken events j) ∧
      f.kind = .malformed ∧ f = { cause := .startBarMissing i }) ∧
    ∀ segments, cut events = .ok segments →
      IsCut events segments ∧ ∀ others, IsCut events others → others = segments := by
  refine ⟨succeeds_cut_iff_forall_not_broken events, fun f => ?fault, fun segments h => ?cut⟩
  case fault =>
    rw [cut_eq_error]
    constructor
    · rintro ⟨i, ⟨hi, hfirst⟩, rfl⟩
      exact ⟨i, hi, hfirst, rfl, rfl⟩
    · rintro ⟨i, hi, hfirst, -, rfl⟩
      exact ⟨i, ⟨hi, hfirst⟩, rfl⟩
  case cut =>
    have hcut := isCut_of_cut h
    exact ⟨hcut, fun _ hothers => hcut.unique hothers⟩

end Segment

end BrailleScore
