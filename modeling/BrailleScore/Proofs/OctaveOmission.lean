import BrailleScore.Proofs.EntryHistory
import BrailleScore.Proofs.MeasureReading

/-!
# Octave marks that are left out

An octave mark is left out where the last pitch of the voice tells the octave. The text of a voice
therefore determines all octaves: of two pitches that differ in nothing but the octave, at most
one goes without a mark, and a mark that is written is read from the signs of the note.
-/

namespace BrailleScore

open Fault Sign

namespace Pitch

def inOctave (o : Int8) (p : Pitch) : Pitch := { p with octave := o }

lemma omitted_iff {p last : Pitch} : p.needsOctaveMark (some last) = false ↔
    p.distance last < 5 ∨ p.distance last ≤ 7 ∧ p.octave = last.octave := by
  simp only [needsOctaveMark, Bool.not_eq_false', Bool.or_eq_true, Bool.and_eq_true,
    decide_eq_true_eq]
  constructor
  · rintro (h | ⟨⟨-, h⟩, ho⟩)
    · exact .inl h
    · exact .inr ⟨h, ho⟩
  · rintro (h | ⟨h, ho⟩)
    · exact .inl h
    · by_cases hd : p.distance last < 5
      · exact .inl hd
      · exact .inr ⟨⟨by omega, h⟩, ho⟩

/-- At most one octave goes without a mark. -/
lemma octave_eq_of_omitted {p last : Pitch} {o o' : Int8}
    (h : (p.inOctave o).needsOctaveMark (some last) = false)
    (h' : (p.inOctave o').needsOctaveMark (some last) = false) : o = o' := by
  rw [omitted_iff] at h h'
  have hd : (p.inOctave o).distance last =
    ((o.toInt + 1) * 12 + p.step.semitone + p.alter.toInt - last.midi).natAbs := rfl
  have hd' : (p.inOctave o').distance last =
    ((o'.toInt + 1) * 12 + p.step.semitone + p.alter.toInt - last.midi).natAbs := rfl
  apply Int8.toInt.inj
  -- Octaves are twelve semitones apart, and two distances together make at most eleven unless
  -- both pitches lie in the octave of the last one.
  obtain hnear | ⟨hnear, ho⟩ := h
  · obtain hnear' | ⟨hnear', -⟩ := h' <;> omega
  · obtain hnear' | ⟨hnear', ho'⟩ := h'
    · omega
    · exact congrArg Int8.toInt (ho.trans ho'.symm)

lemma octave_eq_of_octaveMark {o o' : Int8} {s s' : Sign} (h : octaveMark o = .ok s)
    (h' : octaveMark o' = .ok s') (e : s.face = s'.face) : o = o' := by
  obtain ⟨number, rfl, ho⟩ := octaveMark_eq_ok h
  obtain ⟨number', rfl, ho'⟩ := octaveMark_eq_ok h'
  have hnumber : number = number' := by simpa [face] using e
  apply Int8.toInt.inj
  rw [ho, ho', hnumber]

theorem inOctave_eq_of_octaveMarks {p : Pitch} {o : Int8} {last : Option Pitch}
    {M M' : List Sign} (h : p.octaveMarks last = .ok M)
    (h' : (p.inOctave o).octaveMarks last = .ok M') (e : M.map face = M'.map face) :
    p.inOctave o = p := by
  have hself : p.inOctave p.octave = p := rfl
  suffices ho : o = p.octave by rw [ho, hself]
  unfold octaveMarks at h h'
  split at h
  · obtain ⟨s, hs, hM⟩ := bind_eq_ok.mp h
    cases hM
    split at h'
    · obtain ⟨s', hs', hM'⟩ := bind_eq_ok.mp h'
      cases hM'
      have hface : s.face = s'.face := by simpa using e
      exact (octave_eq_of_octaveMark hs hs' hface).symm
    · cases h'
      simp at e
  · next hneeds =>
    cases h
    split at h'
    · obtain ⟨s', -, hM'⟩ := bind_eq_ok.mp h'
      cases hM'
      simp at e
    · next hneeds' =>
      cases last with
      | none => simp [needsOctaveMark] at hneeds
      | some last =>
        rw [Bool.not_eq_true] at hneeds hneeds'
        exact octave_eq_of_omitted hneeds' hneeds

end Pitch

namespace Note

/-- The note with what sounds in another octave. -/
def inOctave (o : Int8) (n : Note) : Note :=
  { n with
    pitch := n.pitch.map (Pitch.inOctave o)
    display := if n.pitch.isSome then n.display else n.display.map (Pitch.inOctave o) }

lemma sounding_inOctave (o : Int8) (n : Note) :
    (n.inOctave o).sounding = n.sounding.map (Pitch.inOctave o) := by
  unfold sounding inOctave
  cases n.pitch <;> simp

lemma inOctave_eq_self {n : Note} {o : Int8}
    (h : n.sounding.map (Pitch.inOctave o) = n.sounding) : n.inOctave o = n := by
  unfold sounding at h
  have hpitch : n.pitch.map (Pitch.inOctave o) = n.pitch := by
    cases hp : n.pitch with
    | none => rfl
    | some p => simpa [hp] using h
  have hdisplay : (if n.pitch.isSome then n.display else n.display.map (Pitch.inOctave o)) =
      n.display := by
    cases hp : n.pitch with
    | none => simpa [hp] using h
    | some p => rfl
  unfold inOctave
  rw [hpitch, hdisplay]

lemma inOctave_eq_of_bodySigns {n : Note} {o : Int8} {last : Option Pitch} {B B' : List Sign}
    (h : n.bodySigns last = .ok B) (h' : (n.inOctave o).bodySigns last = .ok B')
    (e : B.map face = B'.map face) : n.inOctave o = n := by
  apply inOctave_eq_self
  unfold bodySigns at h h'
  rw [sounding_inOctave] at h'
  cases hp : n.sounding with
  | none => rfl
  | some p =>
    simp only [hp, Option.map_some, bind_eq_ok, pure_eq_ok] at h h'
    obtain ⟨M, hM, rfl⟩ := h
    obtain ⟨M', hM', rfl⟩ := h'
    have hcore : M.map face = M'.map face := by
      rw [List.map_append, List.map_append] at e
      exact (List.append_inj' e rfl).1
    rw [Option.map_some, Pitch.inOctave_eq_of_octaveMarks hM hM' hcore]

theorem inOctave_eq_of_signs {n : Note} {o : Int8} {last : Option Pitch} {shown : Bool}
    {S S' : List Sign} (h : n.signs last shown = .ok S)
    (h' : (n.inOctave o).signs last shown = .ok S') (e : S.map face = S'.map face) :
    n.inOctave o = n := by
  simp only [signs, bind_eq_ok, pure_eq_ok] at h h'
  obtain ⟨B, hB, F, hF, rfl⟩ := h
  obtain ⟨B', hB', F', hF', rfl⟩ := h'
  obtain rfl : F = F' := Except.ok.inj (hF.symm.trans hF')
  apply inOctave_eq_of_bodySigns hB hB'
  have hleading : (n.inOctave o).leadingSigns = n.leadingSigns := rfl
  have hlinking : (n.inOctave o).linkingSigns = n.linkingSigns := rfl
  have hduration : (n.inOctave o).duration = n.duration := rfl
  simp only [hleading, hlinking, hduration, List.map_append, List.append_assoc,
    List.append_cancel_left_eq, List.append_cancel_right_eq] at e
  simpa only [← List.append_assoc, List.append_cancel_right_eq] using e

lemma map_face_ne_tuplet {n : Note} {last : Option Pitch} {shown : Bool} {S : List Sign}
    (h : n.signs last shown = .ok S) (number : Tuplet.Number) (nested : Bool) :
    S.map face ≠ [Sign.tuplet number nested] := by
  have hcell : Sign.rest n.duration.base ∈ S ∨ ∃ step, Sign.note step n.duration.base ∈ S := by
    simp only [signs, bodySigns, bind_eq_ok, pure_eq_ok] at h
    obtain ⟨B, hB, F, -, rfl⟩ := h
    cases hp : n.sounding with
    | none =>
      simp only [hp] at hB
      cases hB
      left
      simp
    | some p =>
      simp only [hp, bind_eq_ok, pure_eq_ok] at hB
      obtain ⟨M, -, rfl⟩ := hB
      right
      exact ⟨p.step, by simp⟩
  intro e
  obtain hmem | ⟨step, hmem⟩ := hcell
  · have hface := List.mem_map_of_mem (f := face) hmem
    rw [e, List.mem_singleton] at hface
    cases hface
  · have hface := List.mem_map_of_mem (f := face) hmem
    rw [e, List.mem_singleton] at hface
    cases hface

lemma inOctave_eq_of_scriptSigns {content : Options.Content} {n : Note} {o : Int8}
    {last : Option Pitch} {S S' : List Sign} (h : n.scriptSigns content last = .ok S)
    (h' : (n.inOctave o).scriptSigns content last = .ok S') (e : S.map face = S'.map face) :
    n.inOctave o = n := by
  unfold scriptSigns at h h'
  by_cases hshow : content.showFingering
  · rw [if_pos hshow] at h h'
    obtain ⟨shown, hshown, hS⟩ := bind_eq_ok.mp h
    obtain ⟨shown', hshown', hS'⟩ := bind_eq_ok.mp h'
    obtain rfl : shown = shown' := Except.ok.inj (hshown.symm.trans hshown')
    exact inOctave_eq_of_signs hS hS' e
  · rw [if_neg hshow] at h h'
    exact inOctave_eq_of_signs h h' e

end Note

namespace Entry

def inOctave (o : Int8) : Entry → Entry
  | note n => note (n.inOctave o)
  | rest r => rest r

/-- The entries agree in all but the octave of what sounds. -/
def EqUpToOctave (e e' : Entry) : Prop := ∃ o, e' = e.inOctave o

variable {content : Options.Content} {table table' : Tuplet.Table} {last : Option Pitch}

lemma EqUpToOctave.eq_of_signs {e e' : Entry} {S S' : List Sign} (he : e.EqUpToOctave e')
    (h : e.signs content last = .ok S) (h' : e'.signs content last = .ok S')
    (hfaces : S.map face = S'.map face) : e' = e := by
  obtain ⟨o, rfl⟩ := he
  cases e with
  | rest r => rfl
  | note n => exact congrArg note (Note.inOctave_eq_of_scriptSigns h h' hfaces)

/-- An entry is written as tuplet signs and its signs, which are no tuplet sign. -/
lemma script_eq_ok {e : Entry} {items : List Script.Item}
    (h : e.script content table last = .ok items) :
    ∃ T S : List Sign, items = T.map Script.Item.tuplet ++ [Script.Item.note S] ∧
      e.signs content last = .ok S ∧ (∀ t ∈ T, ∃ number nested, t = Sign.tuplet number nested) ∧
      ∀ number nested, S.map face ≠ [Sign.tuplet number nested] := by
  cases e with
  | rest r =>
    cases h
    exact ⟨[], r.signs, rfl, rfl, by simp, by simp [Rest.signs, face]⟩
  | note n =>
    simp only [script, bind_eq_ok, pure_eq_ok] at h
    obtain ⟨T, hT, S, hS, rfl⟩ := h
    obtain ⟨shown, hshown⟩ := Note.exists_signs_of_scriptSigns hS
    exact ⟨T, S, rfl, hS, fun t ht => Note.mem_tupletSigns hT ht,
      Note.map_face_ne_tuplet hshown⟩

/-- What the first entry tells is found behind the tuplet signs, as many as there may be. -/
lemma cancel_tuplets {T T' S S' : List Sign} {v v' : Script.Voice}
    (hT : ∀ t ∈ T, ∃ number nested, t = Sign.tuplet number nested)
    (hT' : ∀ t ∈ T', ∃ number nested, t = Sign.tuplet number nested)
    (hS : ∀ number nested, S.map face ≠ [Sign.tuplet number nested])
    (hS' : ∀ number nested, S'.map face ≠ [Sign.tuplet number nested])
    (e : (T.map Script.Item.tuplet ++ Script.Item.note S :: v).map Script.Item.faces =
      (T'.map Script.Item.tuplet ++ Script.Item.note S' :: v').map Script.Item.faces) :
    S.map face = S'.map face ∧ v.map Script.Item.faces = v'.map Script.Item.faces := by
  induction T generalizing T' with
  | nil =>
    cases T' with
    | nil => exact List.cons.inj e
    | cons t' T' =>
      obtain ⟨number, nested, rfl⟩ := hT' t' List.mem_cons_self
      exact absurd (List.cons.inj e).1 (hS number _)
  | cons t T ih =>
    obtain ⟨⟨number, nested, rfl⟩, hrest⟩ := List.forall_mem_cons.mp hT
    cases T' with
    | nil => exact absurd (List.cons.inj e).1.symm (hS' number _)
    | cons t' T' => exact ih hrest (List.forall_mem_cons.mp hT').2 (List.cons.inj e).2

/-- What a voice is written as tells its octaves: the octave of each entry is told once the last
pitch before it is known. -/
theorem eq_of_scriptAll {es es' : List Entry} {v v' : Script.Voice}
    (hes : List.Forall₂ EqUpToOctave es es') (h : scriptAll content table last es = .ok v)
    (h' : scriptAll content table' last es' = .ok v')
    (e : v.map Script.Item.faces = v'.map Script.Item.faces) : es' = es := by
  induction hes generalizing last v v' with
  | nil => rfl
  | cons hentry hrest ih =>
    simp only [scriptAll, bind_eq_ok, pure_eq_ok] at h h'
    obtain ⟨items, hitems, more, hmore, rfl⟩ := h
    obtain ⟨items', hitems', more', hmore', rfl⟩ := h'
    obtain ⟨T, S, rfl, hsigns, hT, hS⟩ := script_eq_ok hitems
    obtain ⟨T', S', rfl, hsigns', hT', hS'⟩ := script_eq_ok hitems'
    rw [List.append_assoc, List.append_assoc, List.singleton_append, List.singleton_append] at e
    obtain ⟨hfirst, hlater⟩ := cancel_tuplets hT hT' hS hS' e
    have hsame := hentry.eq_of_signs hsigns hsigns' hfirst
    -- Behind equal entries both voices go on from the same last pitch.
    subst hsame
    rw [ih hmore hmore' hlater]

end Entry

lemma Layout.flatMap_voiceText {style : Options.Style} (hstyle : style.compressRepeats = false)
    {vs : List Script.Voice} (h : ∀ i ∈ vs.flatten, InOrder i.signs) :
    vs.flatMap (voiceText style none) = Cell.row (Script.Voice.cells vs.flatten) := by
  have htexts : voiceText style none = fun v => v.flatMap Script.Item.text := by
    funext v
    exact Script.Voice.voiceText_eq_flatMap hstyle v
  rw [← Script.Voice.flatMap_text h, htexts, ← List.flatMap_id, List.flatMap_assoc]
  rfl

/-- Leaving out octave marks loses no octave: at most one octave goes without a mark behind a
pitch, and voices that agree in all but octaves have these in common, too, if their texts are
equal. The text of a voice is that of its measures as the staff is written. -/
theorem octaves_eq_of_voiceTexts_eq :
    (∀ (step : Step) (alter : Int8) (last : Pitch) (o o' : Int8),
      Pitch.needsOctaveMark ⟨step, alter, o⟩ (some last) = false →
      Pitch.needsOctaveMark ⟨step, alter, o'⟩ (some last) = false → o = o') ∧
    (∀ (content : Options.Content) (style : Options.Style) (table table' : Tuplet.Table)
      (s s' : Staff) (name : String) (vs vs' : List Script.Voice), style.compressRepeats = false →
      List.Forall₂ Entry.EqUpToOctave (s.voiceEntries name) (s'.voiceEntries name) →
      s.voiceScripts content table name = .ok vs → s'.voiceScripts content table' name = .ok vs' →
      vs.flatMap (Layout.voiceText style none) = vs'.flatMap (Layout.voiceText style none) →
      ((s.voiceEntries name).filterMap Entry.sounding).map Pitch.octave =
        ((s'.voiceEntries name).filterMap Entry.sounding).map Pitch.octave) ∧
    ∀ (content : Options.Content) (table : Tuplet.Table) (s : Staff) (name : String)
      (written : Script.Staff), s.script content table = .ok written →
      ∃ vs, s.voiceScripts content table name = .ok vs ∧
        List.Forall₂ (fun v m => v = [] ∨ v ∈ m) vs written := by
  refine ⟨?_, ?_, fun content table s name written h => Staff.exists_voiceScripts h name⟩
  · intro step alter last o o' h h'
    exact Pitch.octave_eq_of_omitted (p := ⟨step, alter, o⟩) h h'
  · intro content style table table' s s' name vs vs' hstyle hentries hvs hvs' htext
    have hall := Staff.scriptAll_of_voiceScripts hvs
    have hall' := Staff.scriptAll_of_voiceScripts hvs'
    have horder := Entry.inOrder_scriptAll hall
    have horder' := Entry.inOrder_scriptAll hall'
    rw [Layout.flatMap_voiceText hstyle horder, Layout.flatMap_voiceText hstyle horder'] at htext
    have hcells := Cell.row_injOn (Script.Voice.isCanonical_cells horder)
      (Script.Voice.isCanonical_cells horder') htext
    have hfaces := (Script.Voice.cancel horder horder' (.inl rfl) (.inl rfl)
      (congrArg (· ++ []) hcells)).1
    rw [Entry.eq_of_scriptAll hentries hall hall' hfaces]

/-- Behind C4 only E4 goes without a mark among all E, so that C4 and E4 are read alike with and
without a bar line between them. -/
theorem octaves_eq_of_bar_line :
    (∀ o : Int8, Pitch.needsOctaveMark ⟨.e, 0, o⟩ (some ⟨.c, 0, 4⟩) = false → o = 4) ∧
    let c : Event := .entry (.note { pitch := some ⟨.c, 0, 4⟩, duration := { base := .half } })
    let e : Event := .entry (.note { pitch := some ⟨.e, 0, 4⟩, duration := { base := .half } })
    let s : Staff := ⟨"1", [c, .endBar, e, .endBar]⟩
    ((s.voiceEntries "1").filterMap Entry.sounding).map Pitch.octave =
        ((Staff.voiceEntries ⟨"1", [c, e, .endBar]⟩ "1").filterMap Entry.sounding).map
          Pitch.octave ∧
      ∃ vs, s.voiceScripts {} {} "1" = .ok vs ∧ List.Forall₂ (fun v m => v = [] ∨ v ∈ m) vs
        [[[.note [.octave 4, .note .c .half]]], [[.note [.note .e .half]]]] := by
  refine ⟨?_, ?_, ?_⟩
  · intro o h
    exact octaves_eq_of_voiceTexts_eq.1 .e 0 ⟨.c, 0, 4⟩ o 4 h (by decide)
  · exact octaves_eq_of_voiceTexts_eq.2.1 {} {} {} {} _ _ "1"
      [[.note [.octave 4, .note .c .half]], [.note [.note .e .half]]]
      [[.note [.octave 4, .note .c .half], .note [.note .e .half]]]
      rfl (.cons ⟨4, rfl⟩ (.cons ⟨4, rfl⟩ .nil)) rfl rfl (by decide +kernel)
  · exact octaves_eq_of_voiceTexts_eq.2.2 {} {} _ "1" _ rfl

end BrailleScore
