import Mathlib.Data.Finset.Card
import BrailleScore.Proofs.EntryHistory
import BrailleScore.Proofs.NoteSuccess

/-!
# Scores that can be transcribed

A score has a script exactly when it is transcribable: start bars follow end bars, each segment has
as many staves as it declares, and every note that is written can be written behind the notes
before it.
-/

namespace BrailleScore

open Fault

variable {content : Options.Content} {table : Tuplet.Table}

/-- The last pitch that sounds among events in a voice of a staff. -/
def lastPitch (events : List Event) (staff voice : String) : Option Pitch :=
  Entry.lastSounding ((events.filterMap Event.entry?).filter fun e =>
    e.staff = staff ∧ e.voice = voice)

/-- The segment has the staves that it declares, and the notes before its last end bar can be
written. -/
structure Segment.Transcribable (content : Options.Content) (table : Tuplet.Table)
    (s : Segment) : Prop where
  staves : (s.events.filterMap Event.staff?).toFinset.card = s.staffCount
  notes : ∀ before n after, s.events = before ++ .entry (.note n) :: after → .endBar ∈ after →
    n.Transcribable content table (lastPitch before n.staff n.voice)

/-- Start bars follow the end bars of the part, and its segments that have staves can be written. -/
structure Part.Transcribable (content : Options.Content) (p : Part) : Prop where
  bars : ∀ before after, p.events = before ++ .endBar :: after →
    after = [] ∨ ∃ staves rest, after = .startBar staves :: rest
  segments : ∀ segments, Segment.cut p.events = .ok segments → ∀ s ∈ segments,
    1 ≤ s.staffCount → s.Transcribable content p.tuplets

def Score.Transcribable (content : Options.Content) (s : Score) : Prop :=
  ∀ p ∈ s.parts, p.Transcribable content

/-! ### Staves -/

namespace Staff

lemma cutAtEndBars_eq_nil {events : List Event} :
    cutAtEndBars events = [] ↔ .endBar ∉ events := by
  induction events with
  | nil => simp [cutAtEndBars]
  | cons e events ih =>
    cases e <;> simp only [cutAtEndBars, List.mem_cons, true_or, not_true_eq_false, reduceCtorEq,
      false_or, ← ih]
    all_goals cases cutAtEndBars events <;> simp

lemma flatMap_entries_cons (e : Event) (events : List Event) :
    (cutAtEndBars (e :: events)).flatMap Measure.entries =
      if .endBar ∈ events then e.entry?.toList ++ (cutAtEndBars events).flatMap Measure.entries
      else [] := by
  by_cases hbar : .endBar ∈ events
  · rw [if_pos hbar]
    cases hcut : cutAtEndBars events with
    | nil => exact absurd hbar (cutAtEndBars_eq_nil.mp hcut)
    | cons m ms =>
      cases e <;> simp [cutAtEndBars, hcut, Measure.entries, Event.entry?, List.filterMap_cons]
  · rw [if_neg hbar]
    have hcut := cutAtEndBars_eq_nil.mpr hbar
    cases e <;> simp [cutAtEndBars, hcut, Measure.entries]

/-- The entries of a staff are those in front of its last end bar. -/
theorem forall_place_entries {s : Staff} {Q : List Entry → Entry → Prop} :
    (∀ before e after, s.entries = before ++ e :: after → Q before e) ↔
      ∀ before x after, s.events = before ++ x :: after → ∀ e, x = .entry e → .endBar ∈ after →
        Q (before.filterMap Event.entry?) e := by
  unfold entries measures
  generalize s.events = events
  induction events generalizing Q with
  | nil => simp [cutAtEndBars]
  | cons x events ih =>
    rw [forall_place_cons (Q := fun before x after => ∀ e, x = .entry e → .endBar ∈ after →
      Q (before.filterMap Event.entry?) e), flatMap_entries_cons]
    -- Without an end bar in the rest neither the first event nor one after it is written.
    by_cases hbar : .endBar ∈ events
    · rw [if_pos hbar]
      cases hx : x.entry? with
      | none =>
        have hnone : ∀ e, x ≠ .entry e := by
          rintro e rfl
          cases hx
        simp only [Option.toList_none, List.nil_append, ih, hnone, false_implies, implies_true,
          true_and, List.filterMap_cons_none hx]
      | some e =>
        have he : ∀ e', x = .entry e' ↔ e = e' := by
          cases x <;> simp_all [Event.entry?]
        simp only [Option.toList_some, List.singleton_append, forall_place_cons, ih, he,
          forall_eq', hbar, true_implies, List.filterMap_nil, List.filterMap_cons_some hx]
    · rw [if_neg hbar]
      refine iff_of_true (by simp) ⟨fun e _ hmem => absurd hmem hbar, ?_⟩
      rintro before x' after hsplit e - hmem
      refine absurd ?_ hbar
      rw [hsplit]
      exact List.mem_append_right _ (List.mem_cons_of_mem _ hmem)

end Staff

/-! ### Segments -/

lemma filterMap_entry_filter (events : List Event) (staff voice : String) :
    ((events.filter fun x => x.isVertical || x.staff? = some staff).filterMap
        Event.entry?).filter (fun e => e.voice = voice) =
      (events.filterMap Event.entry?).filter fun e => e.staff = staff ∧ e.voice = voice := by
  induction events with
  | nil => rfl
  | cons x events ih =>
    cases x with
    | entry e =>
      by_cases hstaff : e.staff = staff
      · by_cases hvoice : e.voice = voice <;>
          simpa [Event.isVertical, Event.staff?, Event.entry?, List.filterMap_cons, hstaff, hvoice]
            using ih
      · simpa [Event.isVertical, Event.staff?, Event.entry?, List.filterMap_cons, hstaff] using ih
    | _ =>
      rw [List.filter_cons]
      split <;> simpa [Event.entry?, List.filterMap_cons] using ih

lemma nodup_eraseDups (names : List String) : names.eraseDups.Nodup :=
  (firstAppearances_eraseDups names).nodup

namespace Segment

variable {s : Segment}

lemma length_staffNames :
    s.staffNames.length = (s.events.filterMap Event.staff?).toFinset.card := by
  unfold staffNames
  rw [← List.toFinset_card_of_nodup (nodup_eraseDups _)]
  congr 1
  ext name
  simp

lemma staves_eq_ok {staves : List Staff} : s.staves = .ok staves ↔
    s.staffCount = 0 ∧ staves = [] ∨ s.staffCount ≠ 0 ∧ s.staffNames.length = s.staffCount ∧
      staves = s.staffNames.map s.staffNamed := by
  rw [staves_eq]
  by_cases hcount : s.staffCount = 0
  · simp [hcount, eq_comm]
  · cases hname : s.staffNames[s.staffCount]? with
    | some name =>
      obtain ⟨hlong, -⟩ := List.getElem?_eq_some_iff.mp hname
      simp [hcount, raise, hlong.ne']
    | none =>
      have hlong := List.getElem?_eq_none_iff.mp hname
      by_cases hshort : s.staffNames.length < s.staffCount
      · simp [hcount, hshort, raise, hshort.ne]
      · have hlength : s.staffNames.length = s.staffCount := by omega
        simp [hcount, hlength, eq_comm]

lemma succeeds_staffNamed {name : String} :
    Succeeds ((s.staffNamed name).script content table) ↔
      ∀ before n after, s.events = before ++ .entry (.note n) :: after → .endBar ∈ after →
        n.staff = name → n.Transcribable content table (lastPitch before n.staff n.voice) := by
  have hevents : (s.staffNamed name).events =
    s.events.filter fun x => x.isVertical || x.staff? = some name := rfl
  rw [Staff.succeeds_script, Staff.forall_place_entries (Q := fun before e =>
    Succeeds (e.script content table (Entry.lastSounding
      (before.filter fun f => f.voice = e.voice)))), hevents, forall_place_filter]
  simp only [Entry.succeeds_script, filterMap_entry_filter]
  constructor
  · rintro h before n after hsplit hbar rfl
    exact h before _ after hsplit (by simp [Event.isVertical, Event.staff?, Entry.staff]) _ rfl
      (by simp [hbar, Event.isVertical, Event.staff?]) n rfl
  · rintro h before x after hsplit hstaff e rfl hbar n rfl
    have hname : n.staff = name := by
      simpa [Event.isVertical, Event.staff?, Entry.staff] using hstaff
    have hnote := h before n after hsplit (List.mem_of_mem_filter hbar) hname
    rw [hname] at hnote
    exact hnote

/-- A segment without staves is skipped; any other one is written exactly when it is
transcribable. -/
theorem succeeds_script : Succeeds (s.script content table) ↔
    (1 ≤ s.staffCount → s.Transcribable content table) := by
  unfold Segment.script
  simp only [succeeds_bind, staves_eq_ok, succeeds_mapM]
  by_cases hcount : s.staffCount = 0
  · simp [hcount]
  · have hpos : 1 ≤ s.staffCount := by omega
    simp only [hcount, false_and, false_or, not_false_eq_true, ne_eq, true_and, hpos, true_implies]
    constructor
    · rintro ⟨staves, ⟨hlength, rfl⟩, hstaves⟩
      refine ⟨length_staffNames ▸ hlength, fun before n after hsplit hbar => ?_⟩
      have hname : n.staff ∈ s.staffNames := by
        unfold staffNames
        rw [List.mem_eraseDups, List.mem_filterMap]
        exact ⟨.entry (.note n), by simp [hsplit], rfl⟩
      have hstaff := hstaves _ (List.mem_map_of_mem hname)
      exact succeeds_staffNamed.mp hstaff before n after hsplit hbar rfl
    · rintro ⟨hstaves, hnotes⟩
      refine ⟨_, ⟨length_staffNames.trans hstaves, rfl⟩, ?_⟩
      rw [List.forall_mem_map]
      intro name _
      exact succeeds_staffNamed.mpr fun before n after hsplit hbar _ =>
        hnotes before n after hsplit hbar

lemma succeeds_cutFrom {events : List Event} (index : Nat) (declared : Option Nat) :
    Succeeds (cutFrom index declared events) ↔ ∀ before x after,
      events = before ++ x :: after → x = .endBar →
        after = [] ∨ ∃ staves rest, after = .startBar staves :: rest := by
  induction events generalizing index declared with
  | nil => simp [cutFrom]
  | cons e events ih =>
    rw [forall_place_cons (Q := fun _ (x : Event) after => x = .endBar →
      after = [] ∨ ∃ staves rest, after = .startBar staves :: rest)]
    cases e with
    | endBar =>
      cases events with
      | nil => simp [cutFrom]
      | cons next rest =>
        cases next with
        | startBar staves =>
          by_cases hsame : staves = declared.getD 0
          · rw [cutFrom, if_pos hsame, succeeds_bind_pure, ih]
            simp
          · rw [cutFrom, if_neg hsame, succeeds_bind_pure, ih]
            simp
        | _ => simp [cutFrom]
    | _ =>
      rw [cutFrom, succeeds_bind_pure, ih]
      · simp
      · simp

/-- A timeline is cut exactly when start bars follow its end bars. -/
theorem succeeds_cut {events : List Event} : Succeeds (cut events) ↔
    ∀ before after, events = before ++ .endBar :: after →
      after = [] ∨ ∃ staves rest, after = .startBar staves :: rest := by
  unfold cut
  rw [succeeds_cutFrom]
  constructor
  · exact fun h before after hsplit => h before _ after hsplit rfl
  · rintro h before x after hsplit rfl
    exact h before after hsplit

end Segment

/-! ### Parts and scores -/

theorem Part.succeeds_script {p : Part} :
    Succeeds (p.script content) ↔ p.Transcribable content := by
  unfold Part.script
  rw [succeeds_bind]
  simp only [succeeds_bind_pure, succeeds_each, Segment.succeeds_script]
  constructor
  · rintro ⟨segments, hcut, hsegments⟩
    refine ⟨Segment.succeeds_cut.mp ⟨segments, hcut⟩, fun segments' hcut' => ?_⟩
    obtain rfl : segments = segments' := Except.ok.inj (hcut.symm.trans hcut')
    exact hsegments
  · rintro ⟨hbars, hsegments⟩
    obtain ⟨segments, hcut⟩ := Segment.succeeds_cut.mpr hbars
    exact ⟨segments, hcut, hsegments segments hcut⟩

theorem Score.succeeds_script {s : Score} :
    Succeeds (s.script content) ↔ s.Transcribable content := by
  unfold Score.script
  rw [succeeds_each]
  exact forall₂_congr fun p _ => Part.succeeds_script

end BrailleScore
