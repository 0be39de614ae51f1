import BrailleScore.Proofs.Outcome
import BrailleScore.Script.Basic

/-!
# Notes that can be written

A note is written if the tuplets that begin on it exist and have signs, if its fingers have
signs, and if its octave has a mark where one is needed. Under a lenient policy tuplets and
fingers without a sign do no harm, since they are left out.
-/

namespace BrailleScore

open Fault

lemma Options.Content.succeeds_attempt {α : Type} {content : Options.Content}
    {x : Except Fault α} (h : ∀ f, x = .error f → f.kind = .unsupported) :
    Succeeds (content.attempt x) ↔ (content.unsupported = .strict → Succeeds x) := by
  cases x with
  | ok a => simp [attempt]
  | error f =>
    have hkind := h f rfl
    cases hpolicy : content.unsupported <;> simp [attempt, hkind, hpolicy]

namespace Sign

lemma succeeds_octaveMark {o : Int8} :
    Succeeds (octaveMark o) ↔ 0 ≤ o.toInt ∧ o.toInt ≤ 8 := by
  unfold octaveMark
  dsimp only
  split
  · next h => exact iff_of_true (succeeds_ok _) (by omega)
  · next h => exact iff_of_false (not_succeeds_raise _) (by omega)

lemma succeeds_tupletOf {t : Tuplet} :
    Succeeds (tupletOf t) ↔ t.arity ∈ [2, 3, 5, 6, 7] := by
  unfold tupletOf Tuplet.Number.ofNat?
  split <;> rename_i h <;> split at h <;> simp_all

lemma kind_of_tupletOf {t : Tuplet} {f : Fault} (h : tupletOf t = .error f) :
    f.kind = .unsupported := by
  unfold tupletOf at h
  split at h
  · cases h
  · cases h
    rfl

lemma succeeds_fingerOf {n : Nat} : Succeeds (fingerOf n) ↔ 1 ≤ n ∧ n ≤ 5 := by
  by_cases h : 1 ≤ n ∧ n ≤ 5 <;> simp [fingerOf, h]

lemma succeeds_fingeringOf {fingers : List Nat} :
    Succeeds (fingeringOf fingers) ↔ ∀ n ∈ fingers, 1 ≤ n ∧ n ≤ 5 := by
  unfold fingeringOf
  rw [succeeds_bind_pure, succeeds_mapM]
  simp only [succeeds_fingerOf]

lemma kind_of_fingerOf {n : Nat} {f : Fault} (h : fingerOf n = .error f) :
    f.kind = .unsupported := by
  unfold fingerOf at h
  split at h
  · cases h
  · cases h
    rfl

lemma kind_of_fingeringOf {fingers : List Nat} {f : Fault} (h : fingeringOf fingers = .error f) :
    f.kind = .unsupported := by
  unfold fingeringOf at h
  obtain h | ⟨fs, -, h⟩ := bind_eq_error.mp h
  · obtain ⟨n, -, hn⟩ := exists_of_mapM_error h
    exact kind_of_fingerOf hn
  · cases h

end Sign

namespace Note

variable {content : Options.Content} {table : Tuplet.Table} {last : Option Pitch} {n : Note}

/-- The note can be written behind the last pitch `last` of its voice. -/
structure Transcribable (content : Options.Content) (table : Tuplet.Table) (last : Option Pitch)
    (n : Note) : Prop where
  /-- As many tuplets as begin on the note lie around it. -/
  starts : n.tupletStarts = 0 ∨
    ∃ id, n.tuplet = some id ∧ n.tupletStarts ≤ (table.chain id).length
  /-- Each tuplet that begins on the note has a sign. -/
  arities : content.unsupported = .strict → ∀ id, n.tuplet = some id →
    ∀ t ∈ (table.chain id).take n.tupletStarts, t.arity ∈ [2, 3, 5, 6, 7]
  /-- Each finger that is shown has a sign. -/
  fingers : content.unsupported = .strict → content.showFingering →
    ∀ f ∈ n.fingering, 1 ≤ f ∧ f ≤ 5
  /-- The octave has a mark where one is needed. -/
  octave : ∀ p, n.sounding = some p → p.needsOctaveMark last →
    0 ≤ p.octave.toInt ∧ p.octave.toInt ≤ 8

lemma startingTuplets_eq_ok {ts : List Tuplet} : n.startingTuplets table = .ok ts ↔
    n.tupletStarts = 0 ∧ ts = [] ∨ n.tupletStarts ≠ 0 ∧ ∃ id, n.tuplet = some id ∧
      n.tupletStarts ≤ (table.chain id).length ∧ ts = (table.chain id).take n.tupletStarts := by
  unfold startingTuplets
  by_cases h : n.tupletStarts = 0
  · simp [h, eq_comm]
  · cases hid : n.tuplet with
    | none => simp [h, raise]
    | some id =>
      by_cases hdepth : (table.chain id).length < n.tupletStarts
      · simp [h, hdepth, raise, Nat.not_le.mpr hdepth]
      · simp [h, hdepth, eq_comm, Nat.not_lt.mp hdepth]

theorem succeeds_tupletSigns : Succeeds (n.tupletSigns content table) ↔
    (n.tupletStarts = 0 ∨ ∃ id, n.tuplet = some id ∧ n.tupletStarts ≤ (table.chain id).length) ∧
    (content.unsupported = .strict → ∀ id, n.tuplet = some id →
      ∀ t ∈ (table.chain id).take n.tupletStarts, t.arity ∈ [2, 3, 5, 6, 7]) := by
  have hattempt (t : Tuplet) : Succeeds (content.attempt (Sign.tupletOf t)) ↔
      (content.unsupported = .strict → t.arity ∈ [2, 3, 5, 6, 7]) := by
    rw [Options.Content.succeeds_attempt fun f => Sign.kind_of_tupletOf, Sign.succeeds_tupletOf]
  unfold tupletSigns
  rw [succeeds_bind]
  simp only [succeeds_bind_pure, succeeds_mapM, List.mem_reverse, hattempt, startingTuplets_eq_ok]
  by_cases h : n.tupletStarts = 0
  · simp [h]
  · constructor
    · rintro ⟨ts, hts, hsigns⟩
      obtain ⟨hzero, -⟩ | ⟨-, id, hid, hdepth, rfl⟩ := hts
      · exact absurd hzero h
      · refine ⟨.inr ⟨id, hid, hdepth⟩, fun hstrict id' hid' t ht => ?_⟩
        obtain rfl : id = id' := Option.some.inj (hid.symm.trans hid')
        exact hsigns t ht hstrict
    · rintro ⟨hstarts, harities⟩
      obtain hzero | ⟨id, hid, hdepth⟩ := hstarts
      · exact absurd hzero h
      · exact ⟨_, .inr ⟨h, id, hid, hdepth, rfl⟩, fun t ht hstrict =>
          harities hstrict id hid t ht⟩

lemma succeeds_bodySigns : Succeeds (n.bodySigns last) ↔
    ∀ p, n.sounding = some p → p.needsOctaveMark last →
      0 ≤ p.octave.toInt ∧ p.octave.toInt ≤ 8 := by
  unfold bodySigns
  cases hp : n.sounding with
  | none => simp
  | some p =>
    simp only [succeeds_bind_pure, Option.some.injEq, forall_eq', Pitch.octaveMarks]
    by_cases hneeds : p.needsOctaveMark last
    · simp only [hneeds, if_true, succeeds_bind_pure, Sign.succeeds_octaveMark, forall_const]
    · simp [hneeds]

lemma succeeds_fingeringSigns {shown : Bool} : Succeeds (n.fingeringSigns shown) ↔
    (shown → Succeeds (Sign.fingeringOf n.fingering)) := by
  unfold fingeringSigns
  cases hfingers : n.fingering with
  | nil => simp [Sign.succeeds_fingeringOf]
  | cons f fs =>
    cases shown with
    | false => simp
    | true => simp only [Bool.true_and, List.isEmpty_cons, Bool.not_false, if_true,
        succeeds_bind_pure, true_implies]

lemma succeeds_signs {shown : Bool} : Succeeds (n.signs last shown) ↔
    Succeeds (n.bodySigns last) ∧ (shown → Succeeds (Sign.fingeringOf n.fingering)) := by
  unfold signs
  rw [succeeds_bind]
  simp only [succeeds_bind_pure, succeeds_fingeringSigns]
  exact ⟨fun ⟨body, hbody, hshown⟩ => ⟨⟨body, hbody⟩, hshown⟩,
    fun ⟨⟨body, hbody⟩, hshown⟩ => ⟨body, hbody, hshown⟩⟩

/-- The signs of a note, its fingering being shown if it has a sign or must have one. -/
theorem succeeds_scriptSigns : Succeeds (n.scriptSigns content last) ↔
    (content.unsupported = .strict → content.showFingering →
      ∀ f ∈ n.fingering, 1 ≤ f ∧ f ≤ 5) ∧ Succeeds (n.bodySigns last) := by
  unfold scriptSigns
  by_cases hshow : content.showFingering
  · rw [if_pos hshow]
    simp only [hshow, true_implies, ← Sign.succeeds_fingeringOf]
    rw [← Options.Content.succeeds_attempt fun f => Sign.kind_of_fingeringOf]
    cases hfingering : Sign.fingeringOf n.fingering with
    | ok s =>
      simp [Options.Content.attempt, Except.map, bind, Except.bind, succeeds_signs, hfingering]
    | error f =>
      by_cases homit : f.kind = .unsupported ∧ content.unsupported = .lenient
      · simp [Options.Content.attempt, homit, Except.map, bind, Except.bind, succeeds_signs]
      · simp [Options.Content.attempt, homit, Except.map, bind, Except.bind]
  · rw [if_neg hshow]
    simp [hshow, succeeds_signs, pure_bind]

end Note

/-- Rests are always written, and notes if they can be. -/
theorem Entry.succeeds_script {content : Options.Content} {table : Tuplet.Table}
    {last : Option Pitch} {e : Entry} : Succeeds (e.script content table last) ↔
      ∀ n, e = .note n → n.Transcribable content table last := by
  cases e with
  | rest r => simp [script]
  | note n =>
    simp only [Entry.note.injEq, forall_eq', script]
    rw [succeeds_bind]
    simp only [succeeds_bind_pure, Note.succeeds_scriptSigns, Note.succeeds_bodySigns]
    constructor
    · rintro ⟨tuplets, htuplets, hfingers, hoctave⟩
      obtain ⟨hstarts, harities⟩ := Note.succeeds_tupletSigns.mp ⟨tuplets, htuplets⟩
      exact ⟨hstarts, harities, hfingers, hoctave⟩
    · rintro ⟨hstarts, harities, hfingers, hoctave⟩
      obtain ⟨tuplets, htuplets⟩ := Note.succeeds_tupletSigns.mpr ⟨hstarts, harities⟩
      exact ⟨tuplets, htuplets, hfingers, hoctave⟩

end BrailleScore
