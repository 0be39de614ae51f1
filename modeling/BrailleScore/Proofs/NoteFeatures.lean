import BrailleScore.Proofs.NoteSuccess
import BrailleScore.Proofs.WrittenVoice

/-!
# What signs tell of a note

The signs of a note or rest, even if values are told up to their class, give back all that is
written of it: grace, ornaments, articulations, accidental, octave mark, step and value class,
dots, the fingering that is shown, and a tie or slur.
-/

namespace BrailleScore

open Fault

/-- What is written of a note or rest. -/
structure Features where
  grace : Bool := false
  ornaments : List Ornament := []
  articulations : List Articulation := []
  accidental : Option Accidental := none
  /-- The octave, where it is marked. -/
  octave : Option Int := none
  /-- The step, where anything sounds. -/
  step : Option Step := none
  /-- The class of the value, which every note and rest has. -/
  valueClass : Option ValueClass := none
  dots : Nat := 0
  fingering : List Nat := []
  tie : Bool := false
  slur : Bool := false

/-- The fingering of a note, if it is to be shown and all its fingers have a sign. -/
def Note.shownFingering (content : Options.Content) (n : Note) : List Nat :=
  if content.showFingering ∧ ∀ f ∈ n.fingering, 1 ≤ f ∧ f ≤ 5 then n.fingering else []

namespace Entry

/-- What is written of an entry behind the last pitch of its voice. A note that nothing sounds of is
written like a rest, and a slur is not written beside a tie. -/
def features (content : Options.Content) (last : Option Pitch) : Entry → Features
  | rest r => { valueClass := some r.duration.base.valueClass, dots := r.duration.dots }
  | note n => {
    grace := n.grace, ornaments := n.ornaments, articulations := n.articulations
    accidental := n.accidental
    octave := (n.sounding.filter fun p => p.needsOctaveMark last).map fun p => p.octave.toInt
    step := n.sounding.map Pitch.step, valueClass := some n.duration.base.valueClass
    dots := n.duration.dots, fingering := n.shownFingering content, tie := n.tieStart
    slur := !n.tieStart && n.continuesSlur }

/-- What is written of consecutive entries of one voice. -/
def featuresAll (content : Options.Content) : Option Pitch → List Entry → List Features
  | _, [] => []
  | last, e :: later => e.features content last :: featuresAll content (e.sounding.or last) later

end Entry

/-! ### Read off signs -/

namespace Features

/-- Adds what one more sign tells, in front of others. -/
def add : Sign → Features → Features
  | .grace, f => { f with grace := true }
  | .ornament o, f => { f with ornaments := o :: f.ornaments }
  | .articulation a, f => { f with articulations := a :: f.articulations }
  | .accidental a, f => { f with accidental := some a }
  | .octave number, f => { f with octave := some number.val }
  | .note step value, f => { f with step := some step, valueClass := some value.valueClass }
  | .rest value, f => { f with valueClass := some value.valueClass }
  | .dot, f => { f with dots := f.dots + 1 }
  | .fingering fingers, f => { f with fingering := fingers.map fun finger => finger.val + 1 }
  | .tie, f => { f with tie := true }
  | .slur, f => { f with slur := true }
  | _, f => f

def ofSigns (signs : List Sign) : Features := signs.foldr add {}

lemma add_face (s : Sign) : add s.face = add s := by
  funext f
  cases s with
  | note step value => cases value <;> rfl
  | rest value => cases value <;> rfl
  | _ => rfl

/-- The face of a sign tells as much as the sign. -/
lemma ofSigns_map_face (signs : List Sign) : ofSigns (signs.map Sign.face) = ofSigns signs := by
  rw [ofSigns, List.foldr_map]
  simp only [add_face]
  rfl

variable (f : Features)

lemma foldr_ornaments (os : List Ornament) : (os.map Sign.ornament).foldr add f =
    { f with ornaments := os ++ f.ornaments } := by
  induction os with
  | nil => rfl
  | cons o os ih => rw [List.map_cons, List.foldr_cons, ih, add, List.cons_append]

lemma foldr_articulations (as : List Articulation) : (as.map Sign.articulation).foldr add f =
    { f with articulations := as ++ f.articulations } := by
  induction as with
  | nil => rfl
  | cons a as ih => rw [List.map_cons, List.foldr_cons, ih, add, List.cons_append]

lemma foldr_dots (n : Nat) : (List.replicate n Sign.dot).foldr add f =
    { f with dots := n + f.dots } := by
  induction n with
  | zero => rw [Nat.zero_add, List.replicate_zero, List.foldr_nil]
  | succ n ih =>
    rw [List.replicate_succ, List.foldr_cons, ih, Nat.add_right_comm]
    rfl

end Features

/-! ### The signs of a note -/

lemma Pitch.octaveMark_eq_ok {o : Int8} {s : Sign} (h : Sign.octaveMark o = .ok s) :
    ∃ number : Fin 9, s = Sign.octave number ∧ o.toInt = number.val := by
  by_cases hrange : 0 ≤ o.toInt ∧ o.toInt < 9
  · simp only [Sign.octaveMark, hrange, and_self, dite_true] at h
    cases h
    exact ⟨_, rfl, (Int.toNat_of_nonneg hrange.1).symm⟩
  · simp only [Sign.octaveMark, hrange, dite_false] at h
    cases h

lemma Sign.fingerOf_eq_ok {n : Nat} {f : Fin 5} (h : fingerOf n = .ok f) : f.val + 1 = n := by
  unfold fingerOf at h
  split at h
  · cases h
    dsimp only
    omega
  · cases h

lemma Sign.fingeringOf_eq_ok {fingers : List Nat} {s : Sign} (h : fingeringOf fingers = .ok s) :
    ∃ found : List (Fin 5), s = .fingering found ∧ found.map (fun f => f.val + 1) = fingers := by
  simp only [fingeringOf, bind_eq_ok, pure_eq_ok, mapM_eq_ok] at h
  obtain ⟨found, hfound, rfl⟩ := h
  refine ⟨found, rfl, ?_⟩
  induction hfound with
  | nil => rfl
  | cons hf _ ih => rw [List.map_cons, Sign.fingerOf_eq_ok hf, ih]

namespace Note

variable {n : Note} {last : Option Pitch} {S : List Sign}

lemma fingeringSigns_eq_ok {shown : Bool} (h : n.fingeringSigns shown = .ok S)
    {f : Features} (hf : f.fingering = []) :
    S.foldr Features.add f = { f with fingering := if shown then n.fingering else [] } := by
  unfold fingeringSigns at h
  split at h
  case isTrue hshown =>
    simp only [bind_eq_ok, pure_eq_ok] at h
    obtain ⟨s, hs, rfl⟩ := h
    obtain ⟨found, rfl, hfound⟩ := Sign.fingeringOf_eq_ok hs
    obtain ⟨rfl, -⟩ := Bool.and_eq_true_iff.mp hshown
    rw [if_pos rfl, ← hfound]
    rfl
  case isFalse hshown =>
    cases h
    cases f
    obtain rfl : _ = [] := hf
    cases shown with
    | false => rfl
    | true =>
      have hnone : n.fingering = [] := by simpa using hshown
      rw [hnone]
      rfl

lemma foldr_linkingSigns (n : Note) : n.linkingSigns.foldr Features.add {} =
    { tie := n.tieStart, slur := !n.tieStart && n.continuesSlur } := by
  unfold linkingSigns
  cases n.tieStart with
  | true => rfl
  | false => cases n.continuesSlur <;> rfl

lemma foldr_leadingSigns (n : Note) {f : Features} (hornaments : f.ornaments = [])
    (harticulations : f.articulations = []) (hgrace : f.grace = false)
    (haccidental : f.accidental = none) : n.leadingSigns.foldr Features.add f =
      { f with
        grace := n.grace, ornaments := n.ornaments, articulations := n.articulations
        accidental := n.accidental } := by
  cases f
  obtain rfl : _ = [] := hornaments
  obtain rfl : _ = [] := harticulations
  obtain rfl : _ = false := hgrace
  obtain rfl : _ = none := haccidental
  rw [leadingSigns, List.foldr_append, List.foldr_append, List.foldr_append]
  have hmark (f : Features) (hf : f.accidental = none) :
      (n.accidental.toList.map Sign.accidental).foldr Features.add f =
        { f with accidental := n.accidental } := by
    cases f
    obtain rfl : _ = none := hf
    cases n.accidental <;> rfl
  rw [hmark _ rfl, Features.foldr_articulations, Features.foldr_ornaments]
  dsimp only
  rw [List.append_nil, List.append_nil]
  cases n.grace <;> rfl

lemma foldr_bodySigns (h : n.bodySigns last = .ok S) {f : Features} (hstep : f.step = none)
    (hoctave : f.octave = none) : S.foldr Features.add f =
      { f with
        octave := (n.sounding.filter fun p => p.needsOctaveMark last).map fun p => p.octave.toInt
        step := n.sounding.map Pitch.step, valueClass := some n.duration.base.valueClass } := by
  cases f
  obtain rfl : _ = none := hstep
  obtain rfl : _ = none := hoctave
  unfold bodySigns at h
  cases hq : n.sounding with
  | none =>
    rw [hq] at h
    cases h
    rfl
  | some p =>
    simp only [hq, bind_eq_ok, pure_eq_ok, Pitch.octaveMarks] at h
    obtain ⟨marks, hmarks, rfl⟩ := h
    split at hmarks
    case isTrue hneeds =>
      simp only [bind_eq_ok, pure_eq_ok] at hmarks
      obtain ⟨mark, hmark, rfl⟩ := hmarks
      obtain ⟨number, rfl, hnumber⟩ := Pitch.octaveMark_eq_ok hmark
      simp [Features.add, Option.filter, hneeds, hnumber]
    case isFalse hneeds =>
      cases hmarks
      simp [Features.add, Option.filter, hneeds]

/-- The signs of a note tell what is written of it. -/
theorem ofSigns_signs {shown : Bool} (h : n.signs last shown = .ok S) :
    Features.ofSigns S = {
      grace := n.grace, ornaments := n.ornaments, articulations := n.articulations
      accidental := n.accidental
      octave := (n.sounding.filter fun p => p.needsOctaveMark last).map fun p => p.octave.toInt
      step := n.sounding.map Pitch.step, valueClass := some n.duration.base.valueClass
      dots := n.duration.dots, fingering := if shown then n.fingering else []
      tie := n.tieStart, slur := !n.tieStart && n.continuesSlur } := by
  simp only [signs, bind_eq_ok, pure_eq_ok] at h
  obtain ⟨B, hB, F, hF, rfl⟩ := h
  rw [Features.ofSigns, List.foldr_append, List.foldr_append, List.foldr_append,
    List.foldr_append, foldr_linkingSigns, fingeringSigns_eq_ok hF rfl, Features.foldr_dots,
    foldr_bodySigns hB rfl rfl, foldr_leadingSigns n rfl rfl rfl rfl]
  rfl

/-- The fingering that is written is the one that is shown. -/
lemma ofSigns_scriptSigns {content : Options.Content} (h : n.scriptSigns content last = .ok S) :
    Features.ofSigns S = (Entry.note n).features content last := by
  have hshown (shown : Bool) (hsigns : n.signs last shown = .ok S)
      (hfingers : (if shown then n.fingering else []) = n.shownFingering content) :
      Features.ofSigns S = (Entry.note n).features content last := by
    rw [ofSigns_signs hsigns, hfingers]
    rfl
  unfold scriptSigns at h
  split at h
  case isTrue hshow =>
    obtain ⟨shown, hattempt, hsigns⟩ := bind_eq_ok.mp h
    refine hshown shown hsigns ?_
    unfold shownFingering
    by_cases hall : ∀ f ∈ n.fingering, 1 ≤ f ∧ f ≤ 5
    · obtain ⟨s, hs⟩ := Sign.succeeds_fingeringOf.mpr hall
      rw [hs] at hattempt
      cases hattempt
      exact (if_pos rfl).trans (if_pos ⟨hshow, hall⟩).symm
    · rw [if_neg (fun h : content.showFingering ∧ _ => hall h.2)]
      cases hfingering : Sign.fingeringOf n.fingering with
      | ok s => exact absurd (Sign.succeeds_fingeringOf.mp ⟨s, hfingering⟩) hall
      | error f =>
        rw [hfingering, Options.Content.attempt] at hattempt
        split at hattempt <;> cases hattempt
        rfl
  case isFalse hshow =>
    refine hshown false h ?_
    exact (if_neg fun h => hshow h.1).symm

end Note

/-! ### The items of a voice -/

/-- What the notes and rests among some items tell. Signs of tuplets tell nothing. -/
def Script.Voice.features (v : Script.Voice) : List Features :=
  (v.map fun i => Features.ofSigns i.signs).filter fun f => f.valueClass.isSome

namespace Entry

variable {content : Options.Content} {table : Tuplet.Table} {last : Option Pitch}

lemma features_script {e : Entry} {items : List Script.Item}
    (h : e.script content table last = .ok items) :
    Script.Voice.features items = [e.features content last] := by
  cases e with
  | rest r =>
    cases h
    have hsigns : Features.ofSigns r.signs = (Entry.rest r).features content last := by
      rw [Features.ofSigns, Rest.signs, List.foldr_cons, Features.foldr_dots]
      rfl
    rw [← hsigns]
    rfl
  | note n =>
    simp only [script, bind_eq_ok, pure_eq_ok] at h
    obtain ⟨tuplets, htuplets, signs, hsigns, rfl⟩ := h
    have hnothing : Script.Voice.features (tuplets.map Script.Item.tuplet) = [] := by
      simp only [Script.Voice.features, List.map_map, List.filter_eq_nil_iff, List.forall_mem_map]
      intro s hs
      obtain ⟨number, nested, rfl⟩ := Note.mem_tupletSigns htuplets hs
      exact Bool.false_ne_true
    rw [Script.Voice.features, List.map_append, List.filter_append]
    change Script.Voice.features _ ++ _ = _
    rw [hnothing, ← Note.ofSigns_scriptSigns hsigns, List.nil_append]
    have hclass : (Features.ofSigns signs).valueClass.isSome := by
      rw [Note.ofSigns_scriptSigns hsigns]
      rfl
    exact List.filter_cons_of_pos hclass

/-- The items of a voice tell what is written of its notes and rests, one by one. -/
theorem features_scriptAll {entries : List Entry} {v : Script.Voice}
    (h : scriptAll content table last entries = .ok v) :
    v.features = featuresAll content last entries := by
  induction entries generalizing last v with
  | nil =>
    cases h
    rfl
  | cons e entries ih =>
    simp only [scriptAll, bind_eq_ok, pure_eq_ok] at h
    obtain ⟨items, hitems, more, hmore, rfl⟩ := h
    rw [Script.Voice.features, List.map_append, List.filter_append]
    change Script.Voice.features items ++ Script.Voice.features more = _
    rw [features_script hitems, ih hmore]
    rfl

end Entry

end BrailleScore
