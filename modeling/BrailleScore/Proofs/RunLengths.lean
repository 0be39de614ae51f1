import Mathlib.Data.List.Chain
import Mathlib.Data.List.Forall2
import Mathlib.Tactic.Lemma
import BrailleScore.Sign.Repetition

/-!
# Runs and what their abbreviation saves

Items are equal in the sense of any reflexive test. Gathered into runs they are still the same
items, up to that test, and no two neighbouring runs could be one. The abbreviation of a run is
shorter than its copies as soon as there is a count to write, because a number from four on is
greater than two and its digits together.
-/

namespace BrailleScore

namespace Decimal

lemma length_placesUpTo_le (fuel n : Nat) : (placesUpTo fuel n).length ≤ fuel := by
  induction fuel generalizing n with
  | zero => exact Nat.le_refl _
  | succ fuel ih =>
    rw [placesUpTo]
    split
    · exact Nat.zero_le _
    · exact Nat.succ_le_succ (ih _)

lemma length_digits_lt {n : Nat} (h : 4 ≤ n) : (digits n).length + 2 < n := by
  have hlater : (places (n / 10)).length ≤ n / 10 := length_placesUpTo_le _ _
  rw [digits, if_neg (by omega), List.length_reverse, places_of_pos (by omega), List.length_cons]
  omega

end Decimal

lemma Glyph.length_upperNumber (n : Nat) : (upperNumber n).length = (Decimal.digits n).length := by
  have hdigit : ∀ d, (digit d).text.length = 1 := by decide
  simp [upperNumber, List.length_flatMap, hdigit]

namespace Repetition

variable {atom : List Char} {n : Nat}

lemma length_write_of_lt (atom : List Char) (h : n < 4) :
    (write atom n).length = n * atom.length := by
  simp [write, h]

lemma length_write_lt (hatom : atom ≠ []) (h : 4 ≤ n) :
    (write atom n).length < n * atom.length := by
  have hdigits := Decimal.length_digits_lt h
  have hlength : (write atom n).length = 1 + (Decimal.digits n).length + atom.length := by
    rw [write, if_neg (by omega), List.length_append, List.length_append, Glyph.length_upperNumber]
    rfl
  have hpos : 1 ≤ atom.length := List.length_pos_of_ne_nil hatom
  obtain ⟨m, rfl⟩ := Nat.exists_eq_add_of_le' (show 1 ≤ n by omega)
  calc (write atom (m + 1)).length = 1 + (Decimal.digits (m + 1)).length + atom.length := hlength
    _ < m * 1 + atom.length := by omega
    _ ≤ m * atom.length + atom.length := Nat.add_le_add_right (Nat.mul_le_mul_left m hpos) _
    _ = (m + 1) * atom.length := (Nat.succ_mul m _).symm

lemma length_write_le (hatom : atom ≠ []) : (write atom n).length ≤ n * atom.length ∧
    ((write atom n).length = n * atom.length ↔ n ≤ 3) := by
  by_cases h : n < 4
  · have hlength := length_write_of_lt atom h
    omega
  · have hlength := length_write_lt hatom (Nat.not_lt.mp h)
    omega

end Repetition

namespace Run

variable {α : Type} {atom : α → List Char} {runs : List (Run α)} {items : List α}

lemma expand_cons (r : Run α) (runs : List (Run α)) :
    expand (r :: runs) = List.replicate r.length r.item ++ expand runs := rfl

lemma item_mem_expand {r : Run α} (h : r ∈ runs) (hlength : r.length ≠ 0) :
    r.item ∈ expand runs :=
  List.mem_flatMap.mpr ⟨r, h, List.mem_replicate.mpr ⟨hlength, rfl⟩⟩

/-- Runs of less than four items are written out. -/
lemma flatMap_write_eq (h : ∀ r ∈ runs, r.length < 4) (atom : α → List Char) :
    (runs.flatMap fun r => Repetition.write (atom r.item) r.length) =
      (expand runs).flatMap atom := by
  rw [expand, List.flatMap_assoc]
  refine List.flatMap_congr fun r hr => ?_
  rw [Repetition.write, if_pos (h r hr), List.flatMap_replicate]

/-- No run is written in more characters than its items are. -/
lemma length_flatMap_write_le (hatom : ∀ r ∈ runs, atom r.item ≠ []) :
    (runs.flatMap fun r => Repetition.write (atom r.item) r.length).length ≤
      ((expand runs).flatMap atom).length ∧
    ((runs.flatMap fun r => Repetition.write (atom r.item) r.length).length =
      ((expand runs).flatMap atom).length ↔ ∀ r ∈ runs, r.length ≤ 3) := by
  induction runs with
  | nil => simp [expand]
  | cons r runs ih =>
    obtain ⟨hfirst, hrest⟩ := List.forall_mem_cons.mp hatom
    obtain ⟨hle, heq⟩ := ih hrest
    obtain ⟨hle', heq'⟩ := Repetition.length_write_le (n := r.length) hfirst
    have hcopies : ((List.replicate r.length r.item).flatMap atom).length =
        r.length * (atom r.item).length := by
      simp [List.flatMap_replicate]
    rw [List.forall_mem_cons, ← heq, ← heq', expand_cons, List.flatMap_cons, List.flatMap_append,
      List.length_append, List.length_append, hcopies]
    omega

variable [BEq α]

/-- The runs stand for the items, up to the test for equality, and are as long as they can be. -/
structure Gathers (runs : List (Run α)) (items : List α) : Prop where
  stands : List.Forall₂ (fun a b => a == b) (expand runs) items
  length_pos : ∀ r ∈ runs, 1 ≤ r.length
  differ : runs.IsChain fun r next => ¬ r.item == next.item

lemma exists_head?_groupFrom (a : α) (n : Nat) (rest : List α) :
    ∃ m, (groupFrom a n rest).head? = some ⟨a, m⟩ := by
  induction rest generalizing n with
  | nil => exact ⟨n, rfl⟩
  | cons b rest ih =>
    rw [groupFrom]
    split
    · exact ih (n + 1)
    · exact ⟨n, rfl⟩

lemma forall₂_replicate {a : α} (h : ∀ b ∈ items, a == b) :
    List.Forall₂ (fun a b => a == b) (List.replicate items.length a) items := by
  induction items with
  | nil => exact .nil
  | cons b items ih =>
    obtain ⟨hb, hitems⟩ := List.forall_mem_cons.mp h
    exact .cons hb (ih hitems)

lemma gathers_groupFrom [ReflBEq α] {a : α} {before : List α} (hne : before ≠ [])
    (hequal : ∀ b ∈ before, a == b) (rest : List α) :
    Gathers (groupFrom a before.length rest) (before ++ rest) := by
  have hpos : 1 ≤ before.length := List.length_pos_of_ne_nil hne
  -- What is carried along: `before` are the items of the run that is still open.
  induction rest generalizing a before with
  | nil =>
    rw [groupFrom, List.append_nil]
    refine ⟨?_, by simpa using hpos, .singleton _⟩
    rw [expand_cons]
    exact (List.append_nil _).symm ▸ forall₂_replicate hequal
  | cons b rest ih =>
    rw [groupFrom]
    split
    · next hb =>
      have hopen : ∀ c ∈ before ++ [b], a == c := by
        intro c hc
        obtain hc | hc := List.mem_append.mp hc
        · exact hequal c hc
        · exact List.mem_singleton.mp hc ▸ hb
      simpa using ih (by simp) hopen (by simp)
    · next hb =>
      have hlater : Gathers (groupFrom b 1 rest) (b :: rest) :=
        ih (List.cons_ne_nil b []) (by simp) (by simp)
      obtain ⟨m, hhead⟩ := exists_head?_groupFrom b 1 rest
      refine ⟨?_, List.forall_mem_cons.mpr ⟨hpos, hlater.length_pos⟩, ?_⟩
      · rw [expand_cons]
        exact List.rel_append (forall₂_replicate hequal) hlater.stands
      · refine List.isChain_cons.mpr ⟨fun next hnext => ?_, hlater.differ⟩
        obtain rfl : ⟨b, m⟩ = next := Option.some.inj (hhead.symm.trans hnext)
        exact hb

theorem gathers_group [ReflBEq α] (items : List α) : Gathers (group items) items := by
  cases items with
  | nil => exact ⟨.nil, by simp, .nil⟩
  | cons a rest => exact gathers_groupFrom (List.cons_ne_nil a []) (by simp) rest

namespace Gathers

lemma flatMap_expand (h : Gathers runs items) (hcongr : ∀ a b, a == b → atom a = atom b) :
    (expand runs).flatMap atom = items.flatMap atom := by
  obtain ⟨hstands, -, -⟩ := h
  generalize expand runs = expanded at hstands
  induction hstands with
  | nil => rfl
  | cons hab _ ih => rw [List.flatMap_cons, List.flatMap_cons, hcongr _ _ hab, ih]

lemma exists_of_mem (h : Gathers runs items) {r : Run α} (hr : r ∈ runs) :
    ∃ b ∈ items, r.item == b := by
  obtain ⟨hstands, hpos, -⟩ := h
  have hmem := item_mem_expand hr (Nat.ne_of_gt (hpos r hr))
  generalize expand runs = expanded at hstands hmem
  induction hstands with
  | nil => cases hmem
  | cons hab _ ih =>
    obtain rfl | hmem := List.mem_cons.mp hmem
    · exact ⟨_, List.mem_cons_self, hab⟩
    · obtain ⟨b, hb, heq⟩ := ih hmem
      exact ⟨b, List.mem_cons_of_mem _ hb, heq⟩

end Gathers

/-- The runs of a list stand for its items one by one, none is empty and neighbours differ. If
equal items have equal atoms and no atom is empty, the abbreviation is at most as long as all the
atoms. It is as long only if no run has more than three items, and then it is the same text. -/
theorem compress_shortens [ReflBEq α] (items : List α) : Gathers (group items) items ∧
    ∀ atom : α → List Char, (∀ a b, a == b → atom a = atom b) → (∀ a ∈ items, atom a ≠ []) →
      (compress atom items).length ≤ (items.flatMap atom).length ∧
      ((compress atom items).length = (items.flatMap atom).length ↔
        ∀ r ∈ group items, r.length ≤ 3) ∧
      ((∀ r ∈ group items, r.length ≤ 3) → compress atom items = items.flatMap atom) := by
  have hgathers := gathers_group items
  refine ⟨hgathers, fun atom hcongr hatom => ?_⟩
  have hruns : ∀ r ∈ group items, atom r.item ≠ [] := by
    intro r hr
    obtain ⟨b, hb, heq⟩ := hgathers.exists_of_mem hr
    rw [hcongr _ _ heq]
    exact hatom b hb
  obtain ⟨hle, heq⟩ := length_flatMap_write_le hruns
  rw [← hgathers.flatMap_expand hcongr]
  refine ⟨hle, heq, fun hshort => ?_⟩
  exact flatMap_write_eq (fun r hr => Nat.lt_succ_of_le (hshort r hr)) atom

/-- Rests that look alike count as equal here, so that four of them are one run. -/
theorem compress_shortens_like_rests :
    let _ : BEq NoteValue := ⟨fun v w => v.valueClass = w.valueClass⟩
    let rest (v : NoteValue) : List Char := Cell.row [v.valueClass.restPattern]
    let items : List NoteValue := [.quarter, .sixtyFourth, .sixtyFourth, .quarter, .half, .half]
    (∀ v w, v == w → rest v = rest w) ∧ (∀ v ∈ items, rest v ≠ []) ∧
      Gathers [⟨.quarter, 4⟩, ⟨.half, 2⟩] items ∧
      (compress rest items).length < (items.flatMap rest).length := by
  intro _ rest items
  have hrefl : ReflBEq NoteValue := ⟨fun {v} => decide_eq_true (rfl : v.valueClass = v.valueClass)⟩
  have hcongr : ∀ v w, v == w → rest v = rest w := by
    intro v w h
    have hclass : v.valueClass = w.valueClass := of_decide_eq_true h
    exact congrArg (fun c => Cell.row [c.restPattern]) hclass
  have hatom : ∀ v ∈ items, rest v ≠ [] := fun v _ => List.cons_ne_nil _ _
  obtain ⟨hgathers, hgain⟩ := compress_shortens items
  obtain ⟨hle, heq, -⟩ := hgain rest hcongr hatom
  refine ⟨hcongr, hatom, hgathers, Nat.lt_of_le_of_ne hle fun hlength => ?_⟩
  have hfour : (4 : Nat) ≤ 3 := heq.mp hlength ⟨.quarter, 4⟩ List.mem_cons_self
  exact absurd hfour (by decide)

end Run

end BrailleScore
