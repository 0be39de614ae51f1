import Mathlib.Data.List.Induction
import Mathlib.Data.List.Nodup
import BrailleScore.Proofs.Outcome
import BrailleScore.Timeline.Segment

/-!
# Grouping by names

Entries are assigned to voices, and events are dealt out to staves, one after the other. What has
come about at the end is a filter for each name, and the names stand in the order in which they
first appear. Dealing stops at the first name that finds no free staff.
-/

namespace BrailleScore

open Fault

/-! ### Names in the order of their first appearance -/

/-- The names are those of a list, each once, in the order in which they first appear in it. -/
structure FirstAppearances (names all : List String) : Prop where
  mem_iff : ∀ name, name ∈ names ↔ name ∈ all
  nodup : names.Nodup
  order : names.Pairwise fun name later => all.idxOf name < all.idxOf later

lemma eraseDups_concat (all : List String) (name : String) : (all ++ [name]).eraseDups =
    if name ∈ all then all.eraseDups else all.eraseDups ++ [name] := by
  have hsingle : [name].eraseDups = [name] := rfl
  rw [List.eraseDups_append]
  by_cases h : name ∈ all
  · simp [List.removeAll, h]
  · simp [List.removeAll, h, hsingle]

theorem firstAppearances_eraseDups (all : List String) : FirstAppearances all.eraseDups all := by
  induction all using List.reverseRecOn with
  | nil => exact ⟨by simp, by simp, by simp⟩
  | append_singleton all last ih =>
    have hindex {name : String} (h : name ∈ all.eraseDups) :
        (all ++ [last]).idxOf name = all.idxOf name :=
      List.idxOf_append_of_mem ((ih.mem_iff name).mp h)
    have horder : all.eraseDups.Pairwise fun name later =>
        (all ++ [last]).idxOf name < (all ++ [last]).idxOf later := by
      refine ih.order.imp_of_mem fun hname hlater hlt => ?_
      rw [hindex hname, hindex hlater]
      exact hlt
    rw [eraseDups_concat]
    by_cases hlast : last ∈ all
    · rw [if_pos hlast]
      exact ⟨by simp [hlast], ih.nodup, horder⟩
    · rw [if_neg hlast]
      have hnew : last ∉ all.eraseDups := fun h => hlast ((ih.mem_iff last).mp h)
      refine ⟨by simp, List.nodup_append_comm.mp (ih.nodup.cons hnew), ?_⟩
      refine List.pairwise_append.mpr ⟨horder, List.pairwise_singleton _ _, ?_⟩
      intro name hname later hlater
      rw [List.mem_singleton.mp hlater, hindex hname, List.idxOf_append, if_neg hlast]
      have hlt := List.idxOf_lt_length_iff.mpr ((ih.mem_iff name).mp hname)
      omega

/-- Where each element belongs to a name and no name comes twice, at most one element changes. -/
lemma changeFirst?_map {α : Type} {p : α → Bool} {f : α → α} {g g' : String → α} {name : String}
    {names : List String} (hnames : names.Nodup) (hp : ∀ n, p (g n) = decide (n = name))
    (hname : f (g name) = g' name) (hother : ∀ n, n ≠ name → g n = g' n) :
    changeFirst? p f (names.map g) = if name ∈ names then some (names.map g') else none := by
  induction names with
  | nil => rfl
  | cons n names ih =>
    obtain ⟨hn, hnames⟩ := List.nodup_cons.mp hnames
    rw [List.map_cons, changeFirst?, hp]
    by_cases h : n = name
    · subst h
      have hrest : names.map g = names.map g' :=
        List.map_congr_left fun m hm => hother m fun heq => hn (heq ▸ hm)
      simp [hname, hrest]
    · have hmem : name ∈ n :: names ↔ name ∈ names := by simp [Ne.symm h]
      rw [if_neg (by simpa using h), ih hnames]
      simp only [hmem]
      split
      · simp [hother n h]
      · rfl

/-- What belongs to a name stands at one place among what belongs to distinct names. -/
lemma existsUnique_index {α : Type} {names : List String} (hnames : names.Nodup) {g : String → α}
    {P : α → Prop} {name : String} (hname : name ∈ names) (hP : ∀ n, P (g n) ↔ n = name) :
    ∃! i : Nat, ∃ a, (names.map g)[i]? = some a ∧ P a := by
  obtain ⟨i, hi⟩ := List.mem_iff_getElem?.mp hname
  refine ⟨i, ⟨g name, by rw [List.getElem?_map, hi]; rfl, (hP name).mpr rfl⟩, ?_⟩
  rintro j ⟨a, hj, ha⟩
  rw [List.getElem?_map] at hj
  obtain ⟨n, hn, rfl⟩ := Option.map_eq_some_iff.mp hj
  rw [(hP n).mp ha] at hn
  obtain ⟨hlt, -⟩ := List.getElem?_eq_some_iff.mp hn
  exact (List.getElem?_inj hlt hnames).mp (hn.trans hi.symm)

/-! ### Voices -/

/-- What the voice `name` has of some entries. -/
def Voice.among (es : List Entry) (name : String) : Voice :=
  ⟨name, es.filter fun e => e.voice = name⟩

lemma Voice.among_concat_self (es : List Entry) (e : Entry) :
    among (es ++ [e]) e.voice = (among es e.voice).push e := by
  simp [among, push]

lemma Voice.among_concat_of_ne {es : List Entry} {e : Entry} {name : String}
    (h : name ≠ e.voice) : among (es ++ [e]) name = among es name := by
  simp [among, h.symm]

lemma Voice.among_eq_of_not_mem {es : List Entry} {name : String}
    (h : name ∉ es.map Entry.voice) : among es name = ⟨name, []⟩ := by
  have hnone : es.filter (fun e => e.voice = name) = [] := by
    rw [List.filter_eq_nil_iff]
    intro e he hvoice
    exact h (List.mem_map.mpr ⟨e, he, of_decide_eq_true hvoice⟩)
  rw [among, hnone]

namespace Measure

theorem foldl_assign (es : List Entry) :
    es.foldl assign [] = (es.map Entry.voice).eraseDups.map (Voice.among es) := by
  induction es using List.reverseRecOn with
  | nil => rfl
  | append_singleton es e ih =>
    have hnames := firstAppearances_eraseDups (es.map Entry.voice)
    have hother : ∀ name, name ≠ e.voice → Voice.among es name = Voice.among (es ++ [e]) name :=
      fun name hname => (Voice.among_concat_of_ne hname).symm
    have hchange := @changeFirst?_map Voice (fun v => v.name = e.voice) (Voice.push e) _ _ e.voice _
      hnames.nodup (fun _ => rfl) (Voice.among_concat_self es e).symm hother
    rw [List.foldl_append, ih, List.foldl_cons, List.foldl_nil, assign, hchange, List.map_append,
      List.map_singleton, eraseDups_concat]
    simp only [hnames.mem_iff]
    by_cases h : e.voice ∈ es.map Entry.voice
    · rw [if_pos h, if_pos h]
    · have hearlier : (es.map Entry.voice).eraseDups.map (Voice.among es) =
          (es.map Entry.voice).eraseDups.map (Voice.among (es ++ [e])) := by
        refine List.map_congr_left fun name hname => hother name ?_
        rintro rfl
        exact h ((hnames.mem_iff _).mp hname)
      rw [if_neg h, if_neg h, List.map_append, List.map_singleton, hearlier,
        Voice.among_concat_self, Voice.among_eq_of_not_mem h]
      rfl

/-- Each voice has the entries of its name. -/
theorem voices_eq (m : Measure) : m.voices = m.voiceNames.map m.voice := foldl_assign m.entries

lemma firstAppearances_voiceNames (m : Measure) :
    FirstAppearances m.voiceNames (m.entries.map Entry.voice) :=
  firstAppearances_eraseDups _

end Measure

/-! ### Staves -/

namespace Segment

variable {events : List Event} {e : Event} {name : String} {count : Nat}

/-- How the events are divided when all of them are dealt out. -/
def Division.of (events : List Event) : Division :=
  ⟨(Segment.mk events).staffNames.map (Segment.mk events).staffNamed,
    events.filter Event.isVertical⟩

lemma firstAppearances_staffNames (s : Segment) :
    FirstAppearances s.staffNames (s.events.filterMap Event.staff?) :=
  firstAppearances_eraseDups _

lemma staffNames_prefix (events later : List Event) :
    (Segment.mk events).staffNames <+: (Segment.mk (events ++ later)).staffNames := by
  unfold staffNames
  rw [List.filterMap_append, List.eraseDups_append]
  exact List.prefix_append _ _

lemma staffNames_concat_of_vertical (h : e.staff? = none) :
    (Segment.mk (events ++ [e])).staffNames = (Segment.mk events).staffNames := by
  simp [staffNames, h]

lemma staffNames_concat (h : e.staff? = some name) : (Segment.mk (events ++ [e])).staffNames =
    if name ∈ (Segment.mk events).staffNames then (Segment.mk events).staffNames
    else (Segment.mk events).staffNames ++ [name] := by
  simp [staffNames, h, eraseDups_concat]

lemma staffNamed_concat_of_concerns (h : e.isVertical ∨ e.staff? = some name) :
    (Segment.mk (events ++ [e])).staffNamed name =
      ((Segment.mk events).staffNamed name).push e := by
  simp [staffNamed, Staff.push, h]

lemma staffNamed_concat_of_not (h : ¬ (e.isVertical ∨ e.staff? = some name)) :
    (Segment.mk (events ++ [e])).staffNamed name = (Segment.mk events).staffNamed name := by
  simp [staffNamed, h]

/-- A staff that no event has named so far holds what every staff holds. -/
lemma staffNamed_eq_of_not_mem (h : name ∉ (Segment.mk events).staffNames) :
    (Segment.mk events).staffNamed name = ⟨name, events.filter Event.isVertical⟩ := by
  have hothers : ∀ e ∈ events, e.staff? ≠ some name := by
    intro e he hstaff
    apply h
    rw [staffNames, List.mem_eraseDups]
    exact List.mem_filterMap.mpr ⟨e, he, hstaff⟩
  rw [staffNamed]
  congr 1
  exact List.filter_congr fun e he => by simp [hothers e he]

lemma deal_of_vertical (h : e.staff? = none) :
    Division.deal count (.of events) e = .ok (.of (events ++ [e])) := by
  have hvertical : e.isVertical = true := by rw [Event.isVertical, h]; rfl
  have hpush : (Segment.mk (events ++ [e])).staffNamed =
      Staff.push e ∘ (Segment.mk events).staffNamed :=
    funext fun name => staffNamed_concat_of_concerns (.inl hvertical)
  simp [Division.deal, Division.of, h, staffNames_concat_of_vertical, hpush, hvertical]

/-- An event goes to the staff of its name if there is one, else to the next staff that is free. -/
lemma deal_of_named (h : e.staff? = some name) : Division.deal count (.of events) e =
    if name ∈ (Segment.mk events).staffNames ∨ (Segment.mk events).staffNames.length < count then
      .ok (.of (events ++ [e]))
    else raise (.staffSurplus name count) := by
  have hvertical : e.isVertical = false := by rw [Event.isVertical, h]; rfl
  have hself := @staffNamed_concat_of_concerns events e name (.inr h)
  have hother : ∀ other, other ≠ name → (Segment.mk events).staffNamed other =
      (Segment.mk (events ++ [e])).staffNamed other := by
    intro other hother
    refine (staffNamed_concat_of_not ?_).symm
    simp [hvertical, h, hother.symm]
  have hchange := @changeFirst?_map Staff (fun staff => staff.name = name) (Staff.push e) _ _ name _
    (firstAppearances_staffNames ⟨events⟩).nodup (fun _ => rfl) hself.symm hother
  have hfree : (events ++ [e]).filter Event.isVertical = events.filter Event.isVertical := by
    simp [hvertical]
  rw [Division.deal, h]
  dsimp only
  rw [Division.of, hchange, Division.of, hfree, staffNames_concat h]
  by_cases hname : name ∈ (Segment.mk events).staffNames
  · simp [hname]
  · have hearlier : (Segment.mk events).staffNames.map (Segment.mk events).staffNamed =
        (Segment.mk events).staffNames.map (Segment.mk (events ++ [e])).staffNamed :=
      List.map_congr_left fun other hmem => hother other fun heq => hname (heq ▸ hmem)
    simp [hname, hearlier, hself, staffNamed_eq_of_not_mem hname, Staff.push]

/-- One more event is dealt unless it names one staff more than there are. -/
theorem deal_of (e : Event) (h : (Segment.mk events).staffNames.length ≤ count) :
    Division.deal count (.of events) e =
      match (Segment.mk (events ++ [e])).staffNames[count]? with
      | some name => raise (.staffSurplus name count)
      | none => .ok (.of (events ++ [e])) := by
  cases hstaff : e.staff? with
  | none =>
    rw [deal_of_vertical hstaff, staffNames_concat_of_vertical hstaff, List.getElem?_eq_none h]
  | some name =>
    rw [deal_of_named hstaff, staffNames_concat hstaff]
    by_cases hname : name ∈ (Segment.mk events).staffNames
    · rw [if_pos (.inl hname), if_pos hname, List.getElem?_eq_none h]
    · rw [if_neg hname]
      by_cases hlt : (Segment.mk events).staffNames.length < count
      · have hlength : ((Segment.mk events).staffNames ++ [name]).length ≤ count := by
          rw [List.length_append]
          exact hlt
        rw [if_pos (.inr hlt), List.getElem?_eq_none hlength]
      · have hfull : count = (Segment.mk events).staffNames.length := by omega
        rw [if_neg (by simp [hname, hlt]), hfull, List.getElem?_concat_length]

/-- Dealing goes on until an event names one staff more than there are. -/
theorem foldlM_deal (later : List Event) (h : (Segment.mk events).staffNames.length ≤ count) :
    later.foldlM (Division.deal count) (.of events) =
      match (Segment.mk (events ++ later)).staffNames[count]? with
      | some name => raise (.staffSurplus name count)
      | none => .ok (.of (events ++ later)) := by
  induction later generalizing events with
  | nil =>
    rw [List.append_nil, List.getElem?_eq_none h]
    rfl
  | cons e later ih =>
    have hsplit : events ++ e :: later = (events ++ [e]) ++ later := by simp
    rw [List.foldlM_cons, deal_of e h, hsplit]
    cases hnext : (Segment.mk (events ++ [e])).staffNames[count]? with
    | some name =>
      obtain ⟨others, hothers⟩ := staffNames_prefix (events ++ [e]) later
      obtain ⟨hlt, -⟩ := List.getElem?_eq_some_iff.mp hnext
      rw [← hothers, List.getElem?_append_left hlt, hnext]
      rfl
    | none => exact ih (List.getElem?_eq_none_iff.mp hnext)

/-- The staves have the events that are filtered out for their names, if there are as many names as
staves. -/
theorem staves_eq (s : Segment) : s.staves =
    if s.staffCount = 0 then .ok []
    else match s.staffNames[s.staffCount]? with
      | some name => raise (.staffSurplus name s.staffCount)
      | none =>
        if s.staffNames.length < s.staffCount then
          raise (.staffShortage s.staffCount s.staffNames.length)
        else .ok (s.staffNames.map s.staffNamed) := by
  have hdeal := @foldlM_deal [] s.staffCount s.events (Nat.zero_le _)
  have hstart : Division.of [] = {} := rfl
  rw [hstart, List.nil_append] at hdeal
  unfold staves
  dsimp only
  rw [hdeal]
  cases s.staffNames[s.staffCount]? with
  | some name => rfl
  | none =>
    have hlength : (Division.of s.events).bound.length = s.staffNames.length := List.length_map _
    rw [← hlength]
    rfl

end Segment

end BrailleScore
