import Mathlib.Data.List.DropRight
import BrailleScore.Proofs.TimelineEdits

/-!
# Measures and voices

The events of a staff up to its last end bar are those of its measures, each with an end bar behind
it. In a measure every note and rest stands in one voice; a voice keeps the order of the measure,
and the voices stand in the order in which their names first appear.
-/

namespace BrailleScore

namespace Staff

/-- The measures make up the events of the staff as far as an end bar follows. -/
structure IsMeasured (s : Staff) (measures : List Measure) : Prop where
  joined : measures.flatMap (fun m => m.events ++ [.endBar]) =
    s.events.rdropWhile fun e => !e.isEndBar
  inside : ∀ m ∈ measures, .endBar ∉ m.events
  length_eq : measures.length = s.events.count .endBar

/-- Behind the measures there is a rest without an end bar. -/
lemma exists_rest (events : List Event) : ∃ rest, .endBar ∉ rest ∧
    events = (cutAtEndBars events).flatMap (fun m => m.events ++ [.endBar]) ++ rest := by
  induction events with
  | nil => exact ⟨[], List.not_mem_nil, rfl⟩
  | cons e events ih =>
    obtain ⟨rest, hrest, hevents⟩ := ih
    by_cases he : e = .endBar
    · subst he
      exact ⟨rest, hrest, congrArg (List.cons .endBar) hevents⟩
    · rw [cutAtEndBars_cons he]
      cases hcut : cutAtEndBars events with
      | nil =>
        have hnot : .endBar ∉ events := cutAtEndBars_eq_nil.mp hcut
        exact ⟨e :: events, by simp [hnot, Ne.symm he], rfl⟩
      | cons m ms =>
        rw [hcut] at hevents
        exact ⟨rest, hrest, congrArg (List.cons e) hevents⟩

lemma rdropWhile_append_rest (events : List Event) {rest : List Event} (h : .endBar ∉ rest) :
    (events ++ rest).rdropWhile (fun e => !e.isEndBar) =
      events.rdropWhile fun e => !e.isEndBar := by
  induction rest using List.reverseRecOn with
  | nil => rw [List.append_nil]
  | append_singleton rest e ih =>
    rw [List.mem_append, List.mem_singleton, not_or] at h
    have he : (!e.isEndBar) = true := by
      cases e with
      | endBar => exact absurd rfl h.2
      | _ => rfl
    rw [← List.append_assoc, List.rdropWhile_concat_pos (fun e => !Event.isEndBar e) _ _ he,
      ih h.1]

lemma rdropWhile_flatMap_measures (ms : List Measure) :
    (ms.flatMap fun m => m.events ++ [.endBar]).rdropWhile (fun e => !e.isEndBar) =
      ms.flatMap fun m => m.events ++ [.endBar] := by
  induction ms using List.reverseRecOn with
  | nil => rfl
  | append_singleton ms m =>
    rw [List.flatMap_append, List.flatMap_singleton, ← List.append_assoc,
      List.rdropWhile_concat_neg (fun e => !Event.isEndBar e) _ _ (by simp [Event.isEndBar])]

lemma not_mem_of_mem_cutAtEndBars {events : List Event} :
    ∀ m ∈ cutAtEndBars events, .endBar ∉ m.events := by
  induction events with
  | nil => simp [cutAtEndBars]
  | cons e events ih =>
    by_cases he : e = .endBar
    · subst he
      exact List.forall_mem_cons.mpr ⟨List.not_mem_nil, ih⟩
    · rw [cutAtEndBars_cons he]
      cases hcut : cutAtEndBars events with
      | nil => simp
      | cons m ms =>
        rw [hcut] at ih
        obtain ⟨hm, hms⟩ := List.forall_mem_cons.mp ih
        exact List.forall_mem_cons.mpr ⟨by simp [hm, Ne.symm he], hms⟩

lemma length_cutAtEndBars (events : List Event) :
    (cutAtEndBars events).length = events.count .endBar := by
  induction events with
  | nil => rfl
  | cons e events ih =>
    by_cases he : e = .endBar
    · subst he
      rw [List.count_cons_self, ← ih]
      rfl
    · rw [cutAtEndBars_cons he, List.count_cons_of_ne he, ← ih]
      cases cutAtEndBars events <;> rfl

lemma isMeasured_measures (s : Staff) : s.IsMeasured s.measures := by
  obtain ⟨rest, hrest, hevents⟩ := exists_rest s.events
  refine ⟨?_, not_mem_of_mem_cutAtEndBars, length_cutAtEndBars s.events⟩
  conv_rhs => rw [hevents, rdropWhile_append_rest _ hrest, rdropWhile_flatMap_measures]
  rfl

end Staff

namespace Measure

/-- The voices share out the notes and rests of the measure by their names. -/
structure IsVoiced (m : Measure) (voices : List Voice) : Prop where
  names : FirstAppearances (voices.map Voice.name) (m.entries.map Entry.voice)
  ne_nil : ∀ v ∈ voices, v.entries ≠ []
  entries_eq : ∀ v ∈ voices, v.entries = m.entries.filter fun e => e.voice = v.name
  /-- Each note and rest stands in one voice. -/
  unique : ∀ e ∈ m.entries, ∃! i : Nat, ∃ v, voices[i]? = some v ∧ e ∈ v.entries

lemma isVoiced_voices (m : Measure) : m.IsVoiced m.voices := by
  have hnames := m.firstAppearances_voiceNames
  have hmap : (m.voiceNames.map m.voice).map Voice.name = m.voiceNames := by
    rw [List.map_map]
    exact List.map_id _
  rw [voices_eq]
  exact {
    names := by
      rw [hmap]
      exact hnames
    ne_nil := by
      rw [List.forall_mem_map]
      intro name hname
      obtain ⟨e, he, rfl⟩ := List.mem_map.mp ((hnames.mem_iff name).mp hname)
      exact List.ne_nil_of_mem (List.mem_filter.mpr ⟨he, decide_eq_true rfl⟩)
    entries_eq := List.forall_mem_map.mpr fun _ _ => rfl
    unique := by
      intro e he
      have hvoice : e.voice ∈ m.voiceNames :=
        (hnames.mem_iff _).mpr (List.mem_map_of_mem he)
      refine existsUnique_index hnames.nodup hvoice fun name => ?_
      simp [voice, he, eq_comm] }

end Measure

/-- The measures of a staff, each with an end bar behind it, are what stands on the staff up to its
last end bar; and the voices of any measure share out its notes and rests. -/
theorem Staff.measures_voices_partition (s : Staff) :
    s.IsMeasured s.measures ∧ ∀ m : Measure, m.IsVoiced m.voices :=
  ⟨s.isMeasured_measures, Measure.isVoiced_voices⟩

end BrailleScore
