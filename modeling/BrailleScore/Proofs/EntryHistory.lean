import BrailleScore.Proofs.Grouping
import BrailleScore.Script.Basic

/-!
# The history of a voice

What an entry is written as depends on the pitch that sounded last in its voice. A staff
remembers the last pitches of all its voices from measure to measure, so that the measures of one
voice are written like a single long measure.
-/

namespace BrailleScore

open Fault

/-! ### Places in a list -/

section Places

variable {α : Type} {l : List α}

lemma forall_place_cons {a : α} {Q : List α → α → List α → Prop} :
    (∀ before b after, a :: l = before ++ b :: after → Q before b after) ↔
      Q [] a l ∧ ∀ before b after, l = before ++ b :: after → Q (a :: before) b after := by
  constructor
  · intro h
    exact ⟨h [] a l rfl, fun before b after hl => h (a :: before) b after (congrArg (a :: ·) hl)⟩
  · rintro ⟨hfirst, hlater⟩ before b after hl
    obtain ⟨rfl, hcons⟩ | ⟨before, rfl, hcons⟩ := List.cons_eq_append_iff.mp hl
    · obtain ⟨rfl, rfl⟩ := List.cons.inj hcons
      exact hfirst
    · exact hlater before b after hcons

/-- The places in a filtered list are the places of the elements that are kept. -/
theorem forall_place_filter {p : α → Bool} {Q : List α → α → List α → Prop} :
    (∀ before a after, l.filter p = before ++ a :: after → Q before a after) ↔
      ∀ before a after, l = before ++ a :: after → p a →
        Q (before.filter p) a (after.filter p) := by
  induction l generalizing Q with
  | nil => simp
  | cons a l ih =>
    rw [forall_place_cons (Q := fun before a after => p a → Q (before.filter p) a (after.filter p))]
    by_cases ha : p a
    · rw [List.filter_cons_of_pos ha, forall_place_cons, ih]
      simp only [ha, true_implies, List.filter_nil, List.filter_cons_of_pos]
    · rw [List.filter_cons_of_neg ha, ih]
      simp only [ha, Bool.false_eq_true, false_implies, true_and, not_false_eq_true,
        List.filter_cons_of_neg]

end Places

variable {content : Options.Content} {table : Tuplet.Table}

namespace Entry

/-- The signs of a note or rest without those of the tuplets that begin on it. -/
def signs (content : Options.Content) (last : Option Pitch) : Entry → Except Fault (List Sign)
  | note n => n.scriptSigns content last
  | rest r => .ok r.signs

/-- The last pitch that sounds among entries. -/
def lastSounding (es : List Entry) : Option Pitch := (es.filterMap sounding).getLast?

@[simp] lemma lastSounding_nil : lastSounding [] = none := rfl

lemma lastSounding_append (es fs : List Entry) :
    lastSounding (es ++ fs) = (lastSounding fs).or (lastSounding es) := by
  simp [lastSounding, List.filterMap_append]

lemma lastSounding_singleton (e : Entry) : lastSounding [e] = e.sounding := by
  cases h : e.sounding <;> simp [lastSounding, h]

lemma lastSounding_cons_or (e : Entry) (es : List Entry) (last : Option Pitch) :
    (lastSounding (e :: es)).or last = (lastSounding es).or (e.sounding.or last) := by
  have happend := lastSounding_append [e] es
  rw [List.singleton_append, lastSounding_singleton] at happend
  rw [happend, Option.or_assoc]

theorem scriptAll_append (last : Option Pitch) (es fs : List Entry) :
    scriptAll content table last (es ++ fs) =
      (do
        let items ← scriptAll content table last es
        let more ← scriptAll content table ((lastSounding es).or last) fs
        pure (items ++ more)) := by
  induction es generalizing last with
  | nil => exact (bind_pure _).symm
  | cons e es ih =>
    rw [List.cons_append, scriptAll, scriptAll, ih, lastSounding_cons_or]
    simp only [bind_assoc, pure_bind, List.append_assoc]

/-- Entries are written exactly when each of them is, behind what sounded before it. -/
theorem succeeds_scriptAll {last : Option Pitch} {es : List Entry} :
    Succeeds (scriptAll content table last es) ↔ ∀ before e after, es = before ++ e :: after →
      Succeeds (e.script content table ((lastSounding before).or last)) := by
  induction es generalizing last with
  | nil => simp [scriptAll]
  | cons e es ih =>
    have hstep : Succeeds (scriptAll content table last (e :: es)) ↔
        Succeeds (e.script content table last) ∧
          Succeeds (scriptAll content table (e.sounding.or last) es) := by
      rw [scriptAll, succeeds_bind]
      simp only [succeeds_bind_pure]
      exact ⟨fun ⟨items, hitems, h⟩ => ⟨⟨items, hitems⟩, h⟩, fun ⟨⟨items, hitems⟩, h⟩ =>
        ⟨items, hitems, h⟩⟩
    rw [hstep, ih, forall_place_cons]
    simp only [lastSounding_nil, Option.none_or, lastSounding_cons_or]

end Entry

namespace Memory

lemma last_remember (m : Memory) (e : Entry) (name : String) :
    (m.remember e).last name =
      if e.voice = name then e.sounding.or (m.last name) else m.last name := by
  unfold remember
  cases h : e.sounding with
  | none => simp
  | some p =>
    by_cases hname : e.voice = name
    · simp [last, hname]
    · have hne : (name == e.voice) = false := beq_false_of_ne (Ne.symm hname)
      simp [last, hname, List.lookup_cons, hne]

theorem last_foldl_remember (m : Memory) (es : List Entry) (name : String) :
    (es.foldl remember m).last name =
      (Entry.lastSounding (es.filter fun e => e.voice = name)).or (m.last name) := by
  induction es generalizing m with
  | nil => simp
  | cons e es ih =>
    rw [List.foldl_cons, ih, last_remember]
    by_cases h : e.voice = name
    · rw [List.filter_cons_of_pos (by simpa using h), Entry.lastSounding_cons_or, if_pos h]
    · rw [List.filter_cons_of_neg (by simpa using h), if_neg h]

end Memory

namespace Staff

def entries (s : Staff) : List Entry := s.measures.flatMap Measure.entries

def voiceEntries (s : Staff) (name : String) : List Entry :=
  s.entries.filter fun e => e.voice = name

/-- What one voice of a staff is written as, measure by measure. -/
def voiceScripts (content : Options.Content) (table : Tuplet.Table) (s : Staff) (name : String) :
    Except Fault (List Script.Voice) :=
  (Memory.before [] s.measures).mapM fun m =>
    Entry.scriptAll content table (m.1.last name) (m.2.voice name).entries

/-- The measures of a voice are written like one long measure. -/
theorem map_flatten_voiceScripts (s : Staff) (name : String) :
    (s.voiceScripts content table name).map List.flatten =
      Entry.scriptAll content table none (s.voiceEntries name) := by
  have h (memory : Memory) (ms : List Measure) :
      ((memory.before ms).mapM fun m => Entry.scriptAll content table (m.1.last name)
        (m.2.voice name).entries).map List.flatten =
      Entry.scriptAll content table (memory.last name)
        ((ms.flatMap Measure.entries).filter fun e => e.voice = name) := by
    induction ms generalizing memory with
    | nil => rfl
    | cons m ms ih =>
      have hnext := ih (m.entries.foldl Memory.remember memory)
      rw [Memory.last_foldl_remember, map_eq_bind] at hnext
      rw [Memory.before, List.mapM_cons, List.flatMap_cons, List.filter_append,
        Entry.scriptAll_append, ← hnext, map_eq_bind]
      simp only [bind_assoc, pure_bind, List.flatten_cons]
      rfl
  exact h [] s.measures

lemma scriptAll_of_voiceScripts {s : Staff} {name : String} {vs : List Script.Voice}
    (h : s.voiceScripts content table name = .ok vs) :
    Entry.scriptAll content table none (s.voiceEntries name) = .ok vs.flatten := by
  rw [← map_flatten_voiceScripts, h]
  rfl

end Staff

lemma Measure.voice_entries_eq_nil {m : Measure} {name : String} (h : name ∉ m.voiceNames) :
    (m.voice name).entries = [] := by
  rw [voiceNames, List.mem_eraseDups] at h
  refine List.filter_eq_nil_iff.mpr fun e he hvoice => h ?_
  exact List.mem_map.mpr ⟨e, he, by simpa using hvoice⟩

lemma Measure.succeeds_script {memory : Memory} {m : Measure} :
    Succeeds (m.script content table memory) ↔ ∀ name,
      Succeeds (Entry.scriptAll content table (memory.last name) (m.voice name).entries) := by
  rw [Measure.script, succeeds_mapM, voices_eq, List.forall_mem_map]
  constructor
  · intro h name
    by_cases hname : name ∈ m.voiceNames
    · exact h name hname
    · rw [voice_entries_eq_nil hname]
      exact succeeds_ok []
  · exact fun h name _ => h name

lemma Measure.exists_voice {memory : Memory} {m : Measure} {written : Script.Measure}
    (h : m.script content table memory = .ok written) (name : String) :
    ∃ v, Entry.scriptAll content table (memory.last name) (m.voice name).entries = .ok v ∧
      (v = [] ∨ v ∈ written) := by
  rw [script, voices_eq] at h
  by_cases hname : name ∈ m.voiceNames
  · obtain ⟨v, hv, hscript⟩ := exists_mem_of_mapM h (List.mem_map_of_mem hname)
    exact ⟨v, hscript, .inr hv⟩
  · rw [voice_entries_eq_nil hname]
    exact ⟨[], rfl, .inl rfl⟩

/-- The voices that `voiceScripts` tells are those of the written measures. -/
theorem Staff.exists_voiceScripts {s : Staff} {written : Script.Staff}
    (h : s.script content table = .ok written) (name : String) :
    ∃ vs, s.voiceScripts content table name = .ok vs ∧
      List.Forall₂ (fun v m => v = [] ∨ v ∈ m) vs written := by
  unfold script at h
  unfold voiceScripts
  rw [each_eq_ok, mapM_eq_ok] at h
  generalize Memory.before [] s.measures = ms at h
  induction h with
  | nil => exact ⟨[], rfl, .nil⟩
  | cons hm hms ih =>
    obtain ⟨v, hscript, hv⟩ := Measure.exists_voice hm name
    obtain ⟨vs, hscripts, hvs⟩ := ih
    refine ⟨v :: vs, ?_, .cons hv hvs⟩
    rw [mapM_eq_ok] at hscripts ⊢
    exact .cons hscript hscripts

/-- A staff is written exactly when each of its entries is, behind what sounded before it in its
voice. -/
theorem Staff.succeeds_script {s : Staff} :
    Succeeds (s.script content table) ↔ ∀ before e after, s.entries = before ++ e :: after →
      Succeeds (e.script content table
        (Entry.lastSounding (before.filter fun f => f.voice = e.voice))) := by
  have hvoice (name : String) : Succeeds (s.voiceScripts content table name) ↔
      ∀ before e after, s.entries = before ++ e :: after → e.voice = name →
        Succeeds (e.script content table
          (Entry.lastSounding (before.filter fun f => f.voice = name))) := by
    rw [← succeeds_map (f := List.flatten), map_flatten_voiceScripts, Entry.succeeds_scriptAll,
      voiceEntries, forall_place_filter]
    simp only [Option.or_none, decide_eq_true_eq]
  have hvoices : Succeeds (s.script content table) ↔
      ∀ name, Succeeds (s.voiceScripts content table name) := by
    simp only [script, voiceScripts, succeeds_each, succeeds_mapM, Measure.succeeds_script]
    exact ⟨fun h name m hm => h m hm name, fun h m hm name => h name m hm⟩
  simp only [hvoices, hvoice]
  constructor
  · exact fun h before e after hsplit => h e.voice before e after hsplit rfl
  · rintro h name before e after hsplit rfl
    exact h before e after hsplit

end BrailleScore
