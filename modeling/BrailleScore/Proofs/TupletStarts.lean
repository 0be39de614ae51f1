import BrailleScore.Proofs.PolicyRefinement
import BrailleScore.Proofs.TupletTable

/-!
# The tuplets that begin on a note

A note says how many tuplets begin on it, counted from the innermost one that it lies in. They are
told from the outermost inwards, each by a sign that depends on its number of notes and on whether
it lies in another tuplet, not on whether that one begins here too. If fewer tuplets lie around the
note, the timeline is malformed, whatever signs there are.
-/

namespace BrailleScore

open Fault

/-! ### One tuplet -/

namespace Tuplet

/-- There is a sign for this number of notes. -/
def HasSign (t : Tuplet) : Prop := t.arity ≠ 4 ∧ t.arity ≤ 7

instance (t : Tuplet) : Decidable t.HasSign :=
  inferInstanceAs (Decidable (t.arity ≠ 4 ∧ t.arity ≤ 7))

/-- The sign tells of the tuplet. A triplet that lies in no other tuplet has a cell of its own, any
other tuplet has its number in a lower cell, between the introducer and a dot 3. -/
structure IsToldBy (t : Tuplet) (s : Sign) : Prop where
  sign : ∃ number : Number, number.toNat = t.arity ∧ s = .tuplet number t.parent.isSome
  triplet : t.arity = 3 → t.parent = none → s.text = Cell.row [23]
  other : ¬ (t.arity = 3 ∧ t.parent = none) → ∃ digit : Fin 10, digit.val = t.arity ∧
    s.text = Cell.row [456] ++ (Glyph.lowerDigit digit).text ++ Cell.row [3]

lemma isToldBy_tuplet {t : Tuplet} {number : Number} (h : number.toNat = t.arity) :
    t.IsToldBy (.tuplet number t.parent.isSome) where
  sign := ⟨number, h, rfl⟩
  triplet harity hparent := by
    rw [harity] at h
    cases number with
    | three =>
      rw [hparent]
      rfl
    | _ => cases h
  other hother := by
    refine ⟨⟨t.arity, ?_⟩, rfl, ?_⟩
    · rw [← h]
      cases number <;> decide
    · cases hparent : t.parent with
      | none =>
        cases number with
        | three => exact absurd ⟨h.symm, hparent⟩ hother
        | _ => simp only [← h]; rfl
      | some p => cases number <;> simp only [← h] <;> rfl

lemma Number.ofNat?_eq_some {n : Nat} {number : Number} :
    ofNat? n = some number ↔ number.toNat = n := by
  constructor
  · intro h
    unfold ofNat? at h
    split at h <;> cases h <;> rfl
  · rintro rfl
    cases number <;> rfl

/-- A tuplet of more than one note has a sign that tells of it, or none. -/
lemma tuplet?_cases {t : Tuplet} (h : 2 ≤ t.arity) :
    t.HasSign ∧ (∃ s, Sign.tuplet? t = some s ∧ t.IsToldBy s) ∨
      ¬ t.HasSign ∧ Sign.tuplet? t = none := by
  have hmem : t.HasSign ↔ Succeeds (Sign.tupletOf t) := by
    rw [Sign.succeeds_tupletOf]
    simp only [HasSign, List.mem_cons, List.not_mem_nil, or_false]
    omega
  unfold Sign.tupletOf at hmem
  unfold Sign.tuplet?
  cases hnumber : Number.ofNat? t.arity with
  | none =>
    rw [hnumber] at hmem
    exact .inr ⟨fun hsign => not_succeeds_raise _ (hmem.mp hsign), rfl⟩
  | some number =>
    rw [hnumber] at hmem
    have htold := isToldBy_tuplet (Number.ofNat?_eq_some.mp hnumber)
    exact .inl ⟨hmem.mpr (succeeds_ok _), _, rfl, htold⟩

/-- The tuplets without a sign are left out, and the signs of the others stay as they are. -/
lemma forall₂_isToldBy {levels : List Tuplet} (h : ∀ t ∈ levels, 2 ≤ t.arity) :
    List.Forall₂ IsToldBy (levels.filter fun t => t.HasSign) (levels.filterMap Sign.tuplet?) := by
  induction levels with
  | nil => exact .nil
  | cons t levels ih =>
    obtain ⟨ht, hlevels⟩ := List.forall_mem_cons.mp h
    obtain ⟨hsign, s, hs, htold⟩ | ⟨hsign, hnone⟩ := tuplet?_cases ht
    · rw [List.filter_cons_of_pos (by simpa using hsign), List.filterMap_cons_some hs]
      exact .cons htold (ih hlevels)
    · rw [List.filter_cons_of_neg (by simpa using hsign), List.filterMap_cons_none hnone]
      exact ih hlevels

/-! ### Tuplets that begin together -/

/-- What is written of tuplets that begin together, the outermost first. One without a sign is left
out under the lenient policy; under the strict policy the outermost such tuplet is at fault. -/
structure AreWritten (policy : Options.Policy) (levels : List Tuplet)
    (answer : Except Fault (List Sign)) : Prop where
  lenient : policy = .lenient → ∃ signs, answer = .ok signs ∧
    List.Forall₂ IsToldBy (levels.filter fun t => t.HasSign) signs
  strict : policy = .strict → (∀ t ∈ levels, t.HasSign) → ∃ signs, answer = .ok signs ∧
    List.Forall₂ IsToldBy levels signs
  fault : policy = .strict → ∀ outer t inner, levels = outer ++ t :: inner →
    (∀ u ∈ outer, u.HasSign) → ¬ t.HasSign → answer = raise (.noTupletSign t.arity)

end Tuplet

namespace Note

variable {content : Options.Content} {table : Tuplet.Table} {n : Note} {levels : List Tuplet}

/-- Why there are fewer tuplets around the note than begin on it. -/
inductive StartsTooMany (table : Tuplet.Table) (n : Note) : Cause → Prop
  | outside (h : n.tuplet = none) : StartsTooMany table n (.startsOutsideTuplet n.tupletStarts)
  | deep {id : Nat} {levels : List Tuplet} (hid : n.tuplet = some id)
      (hlevels : table.Walks (table.get? id) levels) (hlt : levels.length < n.tupletStarts) :
      StartsTooMany table n (.startsTooDeep n.tupletStarts levels.length)

lemma attempt_tupletOf_of_not_hasSign {t : Tuplet} (hpolicy : content.unsupported = .strict)
    (harity : 2 ≤ t.arity) (ht : ¬ t.HasSign) :
    content.attempt (Sign.tupletOf t) = raise (.noTupletSign t.arity) := by
  obtain ⟨hsign, -⟩ | ⟨-, hnone⟩ := Tuplet.tuplet?_cases harity
  · exact absurd hsign ht
  · rw [Sign.tupletOf, Option.map_eq_none_iff.mp hnone]
    simp [raise, Options.Content.attempt, hpolicy]

lemma isSome_tuplet? {t : Tuplet} (harity : 2 ≤ t.arity) (ht : t.HasSign) :
    (Sign.tuplet? t).isSome := by
  obtain ⟨-, s, hs, -⟩ | ⟨hnot, -⟩ := Tuplet.tuplet?_cases harity
  · rw [hs]
    rfl
  · exact absurd ht hnot

/-- Under the strict policy the first tuplet without a sign is at fault. -/
lemma mapM_attempt_of_first {outer inner : List Tuplet} {t : Tuplet}
    (hpolicy : content.unsupported = .strict) (harity : ∀ u ∈ outer ++ t :: inner, 2 ≤ u.arity)
    (houter : ∀ u ∈ outer, u.HasSign) (ht : ¬ t.HasSign) :
    (outer ++ t :: inner).mapM (fun t => content.attempt (Sign.tupletOf t)) =
      raise (.noTupletSign t.arity) := by
  have hfirst := attempt_tupletOf_of_not_hasSign hpolicy (harity t List.mem_append_cons_self) ht
  refine mapM_eq_error.mpr ⟨outer, t, inner, rfl, fun u hu => ?_, hfirst⟩
  have hsome := isSome_tuplet? (harity u (List.mem_append_left _ hu)) (houter u hu)
  exact ⟨_, Sign.attempt_tupletOf_eq_ok.mpr ⟨fun _ => hsome, rfl⟩⟩

lemma areWritten_of_startingTuplets (harity : ∀ t ∈ levels, 2 ≤ t.arity)
    (h : n.startingTuplets table = .ok levels) :
    Tuplet.AreWritten content.unsupported levels.reverse (n.tupletSigns content table) := by
  have harity' : ∀ t ∈ levels.reverse, 2 ≤ t.arity :=
    fun t ht => harity t (List.mem_reverse.mp ht)
  have htold := Tuplet.forall₂_isToldBy harity'
  constructor
  · intro hpolicy
    refine ⟨_, ?_, htold⟩
    rw [tupletSigns_lenient hpolicy, h]
    rfl
  · intro hpolicy hsigns
    rw [List.filter_eq_self.mpr fun t ht => decide_eq_true (hsigns t ht)] at htold
    have hsome : ∀ t ∈ levels, (Sign.tuplet? t).isSome :=
      fun t ht => isSome_tuplet? (harity t ht) (hsigns t (List.mem_reverse.mpr ht))
    exact ⟨_, (tupletSigns_strict hpolicy).mpr ⟨levels, h, hsome, rfl⟩, htold⟩
  · intro hpolicy outer t inner hsplit houter ht
    rw [hsplit] at harity'
    have hfault := mapM_attempt_of_first hpolicy harity' houter ht
    rw [← hsplit] at hfault
    rw [tupletSigns, h]
    exact bind_eq_error.mpr (.inr ⟨levels, rfl, bind_eq_error.mpr (.inl hfault)⟩)

/-- A fault of what is written of tuplets that there are. -/
lemma kind_of_mapM_attempt {f : Fault}
    (h : levels.mapM (fun t => content.attempt (Sign.tupletOf t)) = .error f) :
    f.kind = .unsupported := by
  obtain ⟨t, -, ht⟩ := exists_of_mapM_error h
  cases hsign : Sign.tupletOf t with
  | ok s =>
    rw [hsign] at ht
    cases ht
  | error g =>
    have hkind := Sign.kind_of_tupletOf hsign
    rw [hsign, Options.Content.attempt] at ht
    split at ht
    · cases ht
    · rwa [← Except.error.inj ht]

lemma kind_of_tupletSigns (h : n.startingTuplets table = .ok levels) {f : Fault}
    (hf : n.tupletSigns content table = .error f) : f.kind = .unsupported := by
  obtain hstarting | ⟨starting, -, hsigns⟩ := bind_eq_error.mp hf
  · rw [h] at hstarting
    cases hstarting
  · obtain hsigns | ⟨_, -, hpure⟩ := bind_eq_error.mp hsigns
    · exact kind_of_mapM_attempt hsigns
    · cases hpure

/-! ### The innermost levels -/

lemma startingTuplets_of_startsTooMany (hsound : table.IsSound) (hstarts : 0 < n.tupletStarts)
    {c : Cause} (h : n.StartsTooMany table c) : n.startingTuplets table = raise c := by
  rw [startingTuplets, if_neg (Nat.ne_of_gt hstarts)]
  cases h with
  | outside hnone => rw [hnone]
  | deep hid hlevels hlt =>
    obtain rfl := hsound.walks_iff.mp hlevels
    simp only [hid, if_pos hlt]

/-- Either too few tuplets lie around the note, or those that begin on it are the innermost ones. -/
lemma startsTooMany_or_innermost (hsound : table.IsSound) (hstarts : 0 < n.tupletStarts) :
    (∃ c, n.StartsTooMany table c) ∨
      ∃ id inner outer, n.tuplet = some id ∧ table.Walks (table.get? id) (inner ++ outer) ∧
        inner.length = n.tupletStarts ∧ n.startingTuplets table = .ok inner := by
  cases hid : n.tuplet with
  | none => exact .inl ⟨_, .outside hid⟩
  | some id =>
    have hwalks : table.Walks (table.get? id) (table.chain id) := hsound.walks_iff.mpr rfl
    by_cases hlt : (table.chain id).length < n.tupletStarts
    · exact .inl ⟨_, .deep hid hwalks hlt⟩
    · refine .inr ⟨id, (table.chain id).take n.tupletStarts, (table.chain id).drop n.tupletStarts,
        rfl, ?_, List.length_take_of_le (Nat.le_of_not_lt hlt), ?_⟩
      · rwa [List.take_append_drop]
      · rw [startingTuplets, if_neg (Nat.ne_of_gt hstarts)]
        simp only [hid, if_neg hlt]

end Note

lemma Tuplet.Table.IsSound.two_le_arity {table : Tuplet.Table} (h : table.IsSound)
    {start : Option Tuplet} {levels : List Tuplet} (hlevels : table.Walks start levels)
    (hstart : ∀ t, start = some t → 2 ≤ t.arity) : ∀ t ∈ levels, 2 ≤ t.arity := by
  induction hlevels with
  | stop => simp
  | @step t outer _ ih =>
    refine List.forall_mem_cons.mpr ⟨hstart t rfl, ih fun u hu => ?_⟩
    obtain ⟨p, -, hp⟩ := Option.bind_eq_some_iff.mp hu
    exact (h p u hp).1

lemma Tuplet.Table.isSound_enterAll (history : List Tuplet) : (enterAll {} history).IsSound := by
  have hempty : IsSound {} := by
    intro id tuplet h
    simp [get?, toList] at h
  exact hempty.enterAll history

/-- The tuplets that begin on a note are the innermost ones around it, and they are told from the
outermost of these inwards. Where fewer lie around the note the timeline is malformed, under either
policy and whatever signs there are. -/
theorem Note.tupletSigns_innermost (history : List Tuplet) (content : Options.Content) (n : Note)
    (hstarts : 0 < n.tupletStarts) :
    let table := Tuplet.Table.enterAll {} history
    let answer := n.tupletSigns content table
    ((∃ f, answer = .error f ∧ f.kind = .malformed) ↔ ∃ c, n.StartsTooMany table c) ∧
    (∀ c, n.StartsTooMany table c → answer = raise c) ∧
    ((∀ c, ¬ n.StartsTooMany table c) → ∃ id inner outer, n.tuplet = some id ∧
      table.Walks (table.get? id) (inner ++ outer) ∧ inner.length = n.tupletStarts ∧
      Tuplet.AreWritten content.unsupported inner.reverse answer) := by
  intro table answer
  have hsound : table.IsSound := Tuplet.Table.isSound_enterAll history
  have hraise {c : Cause} (hc : n.StartsTooMany table c) : answer = raise c := by
    change n.tupletSigns content table = raise c
    rw [tupletSigns, startingTuplets_of_startsTooMany hsound hstarts hc]
    rfl
  have hcases := startsTooMany_or_innermost hsound hstarts
  refine ⟨⟨?_, ?_⟩, fun c hc => hraise hc, fun hnone => ?_⟩
  · rintro ⟨f, hf, hkind⟩
    refine hcases.resolve_right ?_
    rintro ⟨id, inner, outer, -, -, -, hinner⟩
    have hunsupported := kind_of_tupletSigns hinner hf
    rw [hkind] at hunsupported
    cases hunsupported
  · rintro ⟨c, hc⟩
    refine ⟨_, hraise hc, ?_⟩
    cases hc <;> rfl
  · obtain ⟨id, inner, outer, hid, hwalks, hlength, hinner⟩ :=
      hcases.resolve_left fun ⟨c, hc⟩ => hnone c hc
    refine ⟨id, inner, outer, hid, hwalks, hlength, areWritten_of_startingTuplets ?_ hinner⟩
    have harity := hsound.two_le_arity hwalks fun t ht => (hsound id t ht).1
    exact fun t ht => harity t (List.mem_append_left _ ht)

/-- A triplet in a quadruplet, in another triplet. The inner two begin on a note, or too many. -/
theorem Note.tupletSigns_innermost_two :
    let history : List Tuplet := [⟨3, none⟩, ⟨1, none⟩, ⟨4, some 0⟩, ⟨3, some 1⟩]
    let table := Tuplet.Table.enterAll {} history
    let n (starts : Nat) : Note :=
      { duration := { base := .quarter }, tuplet := some 2, tupletStarts := starts }
    0 < (n 2).tupletStarts ∧ 0 < (n 4).tupletStarts ∧
      (n 2).tupletSigns { unsupported := .strict } table = raise (.noTupletSign 4) ∧
      (∃ s, (n 2).tupletSigns { unsupported := .lenient } table = .ok [s] ∧
        s.text = Cell.row [456, 25, 3]) ∧
      ∀ content, (n 4).tupletSigns content table = raise (.startsTooDeep 4 3) := by
  intro history table n
  have hwalks : table.Walks (table.get? 2) [⟨3, some 1⟩, ⟨4, some 0⟩, ⟨3, none⟩] :=
    (Tuplet.Table.isSound_enterAll history).walks_iff.mpr (by decide)
  have hwritten (content : Options.Content) : Tuplet.AreWritten content.unsupported
      [⟨4, some 0⟩, ⟨3, some 1⟩] ((n 2).tupletSigns content table) := by
    obtain ⟨-, -, hinnermost⟩ := tupletSigns_innermost history content (n 2) (by decide)
    obtain ⟨id, inner, outer, hid, hwalks', hlength, h⟩ := hinnermost (by
      rintro c (hnone | ⟨hid, hlevels, hlt⟩)
      · cases hnone
      · obtain rfl := Option.some.inj hid
        rw [hlevels.unique hwalks] at hlt
        exact absurd hlt (by decide))
    obtain rfl := Option.some.inj hid
    have hinner : inner = [⟨3, some 1⟩, ⟨4, some 0⟩] := by
      have hsplit := congrArg (List.take 2) (hwalks'.unique hwalks)
      rwa [List.take_left' hlength] at hsplit
    rwa [hinner] at h
  refine ⟨by decide, by decide, ?_, ?_, fun content => ?_⟩
  · exact (hwritten { unsupported := .strict }).fault rfl [] _ _ rfl (by simp) (by decide)
  · obtain ⟨signs, hsigns, htold⟩ := (hwritten { unsupported := .lenient }).lenient rfl
    obtain ⟨s, rest, hs, hrest, rfl⟩ := List.forall₂_cons_left_iff.mp htold
    obtain rfl := List.forall₂_nil_left_iff.mp hrest
    obtain ⟨digit, hdigit, htext⟩ := hs.other (by decide)
    obtain rfl : digit = 3 := Fin.ext hdigit
    exact ⟨s, hsigns, htext⟩
  · exact (tupletSigns_innermost history content (n 4) (by decide)).2.1 _
      (.deep rfl hwalks (by decide))

end BrailleScore
