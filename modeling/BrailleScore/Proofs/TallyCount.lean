import Mathlib.Algebra.GroupWithZero.Nat
import Mathlib.Data.Finset.Card
import Mathlib.Data.List.DropRight
import Mathlib.Tactic.Lemma
import BrailleScore.Music.Pitch
import BrailleScore.Tally

/-!
# What a tally counts

The total and the entries of a tally are kept side by side, each with its own way to grow. Whatever
is added and however often the tally is cleared, they agree, and both tell only what was added
since then.
-/

namespace BrailleScore

namespace Tally

variable {α : Type}

/-- What can be done to a tally. -/
inductive Action (α : Type) where
  | add (a : α)
  | clear

/-- The value that is added, if any. -/
def Action.value? : Action α → Option α
  | add a => some a
  | clear => none

/-- The values that were added after the last time that the tally was cleared, if it ever was. -/
def sinceClear (history : List (Action α)) : List α :=
  (history.rtakeWhile fun action => action.value?.isSome).filterMap Action.value?

lemma sinceClear_add (history : List (Action α)) (a : α) :
    sinceClear (history ++ [.add a]) = sinceClear history ++ [a] := by
  simp [sinceClear, Action.value?]

lemma sinceClear_clear (history : List (Action α)) : sinceClear (history ++ [.clear]) = [] := by
  simp [sinceClear, Action.value?]

/-! ### Total and entries -/

variable [BEq α] {t : Tally α}

/-- The values seen, in the order of their first appearance. -/
def values (t : Tally α) : List α := t.counts.map Prod.fst

lemma values_add (t : Tally α) (a : α) :
    (t.add a).values = if t.values.any (· == a) then t.values else t.values ++ [a] := by
  obtain ⟨counts, total⟩ := t
  change (bump a counts).2.map Prod.fst = if (counts.map Prod.fst).any (· == a) then
    counts.map Prod.fst else counts.map Prod.fst ++ [a]
  induction counts with
  | nil => rfl
  | cons entry counts ih =>
    obtain ⟨b, n⟩ := entry
    by_cases h : b == a
    · simp [bump, h]
    · rw [bump, if_neg h, Prod.map_snd, List.map_cons, ih, List.map_cons, List.any_cons,
        Bool.eq_false_of_not_eq_true h, Bool.false_or]
      split <;> rfl

lemma sum_bump (a : α) (counts : List (α × Nat)) :
    ((bump a counts).2.map Prod.snd).sum = (counts.map Prod.snd).sum + 1 := by
  induction counts with
  | nil => rfl
  | cons entry counts ih =>
    obtain ⟨b, n⟩ := entry
    by_cases h : b == a
    · simp only [bump, h, ↓reduceIte, List.map_cons, List.sum_cons]
      omega
    · simp only [bump, h, Bool.false_eq_true, ↓reduceIte, Prod.map_snd, List.map_cons,
        List.sum_cons, ih]
      omega

/-- Every value has one entry, and the entries add up to the total. -/
structure Balanced (t : Tally α) : Prop where
  differ : t.values.Pairwise fun a b => ¬ a == b
  total_eq : t.total = (t.counts.map Prod.snd).sum

lemma balanced_empty : Balanced ({} : Tally α) := ⟨.nil, rfl⟩

lemma Balanced.add (h : t.Balanced) (a : α) : (t.add a).Balanced := by
  refine ⟨?_, ?_⟩
  · rw [values_add]
    split
    · exact h.differ
    · next hnew =>
      refine List.pairwise_append.mpr ⟨h.differ, List.pairwise_singleton _ _, ?_⟩
      intro b hb c hc
      obtain rfl := List.mem_singleton.mp hc
      exact fun hbc => hnew (List.any_eq_true.mpr ⟨b, hb, hbc⟩)
  · rw [total_add, h.total_eq]
    exact (sum_bump a t.counts).symm

lemma Balanced.foldl_add (h : t.Balanced) (as : List α) : (as.foldl Tally.add t).Balanced := by
  induction as generalizing t with
  | nil => exact h
  | cons a as ih => exact ih (h.add a)

lemma total_foldl_add (t : Tally α) (as : List α) :
    (as.foldl add t).total = t.total + as.length := by
  induction as generalizing t with
  | nil => rfl
  | cons a as ih =>
    rw [List.foldl_cons, ih, total_add, List.length_cons]
    omega

lemma total_ofList (as : List α) : (ofList as).total = as.length :=
  (total_foldl_add {} as).trans (Nat.zero_add _)

lemma ofList_append_singleton (as : List α) (a : α) : ofList (as ++ [a]) = (ofList as).add a :=
  List.foldl_append

/-! ### Histories -/

def Action.act (t : Tally α) : Action α → Tally α
  | add a => t.add a
  | clear => t.clear

/-- The tally after some actions. -/
def after (t : Tally α) (history : List (Action α)) : Tally α := history.foldl Action.act t

lemma after_append_singleton (t : Tally α) (history : List (Action α)) (action : Action α) :
    t.after (history ++ [action]) = action.act (t.after history) :=
  List.foldl_append

/-- What was done before the last clear leaves no trace. -/
lemma after_eq_ofList (history : List (Action α)) :
    after {} history = ofList (sinceClear history) := by
  induction history using List.reverseRecOn with
  | nil => rfl
  | append_singleton history action ih =>
    rw [after_append_singleton, ih]
    cases action with
    | add a =>
      rw [sinceClear_add, ofList_append_singleton]
      rfl
    | clear =>
      rw [sinceClear_clear]
      rfl

/-! ### Values up to equality -/

section EquivBEq

variable [EquivBEq α]

lemma count_foldl_add (t : Tally α) (as : List α) (b : α) :
    (as.foldl add t).count b = t.count b + as.count b := by
  induction as generalizing t with
  | nil => rfl
  | cons a as ih =>
    rw [List.foldl_cons, ih, count_add, List.count_cons, Nat.add_assoc, Nat.add_comm (as.count b),
      BEq.comm]

lemma count_ofList (as : List α) (b : α) : (ofList as).count b = as.count b :=
  (count_foldl_add {} as b).trans (Nat.zero_add _)

lemma eraseDups_append_singleton (as : List α) (a : α) : (as ++ [a]).eraseDups =
    if as.eraseDups.any (· == a) then as.eraseDups else as.eraseDups ++ [a] := by
  match as with
  | [] => simp [List.eraseDups_cons]
  | b :: as =>
    -- What equals `b` is filtered out before the rest is looked at, hence the recursion on length.
    have hrest := eraseDups_append_singleton (as.filter fun c => !c == b) a
    rw [List.cons_append, List.eraseDups_cons, List.eraseDups_cons, List.filter_append,
      List.any_cons]
    by_cases h : b == a
    · simp [h, BEq.symm h]
    · have ha : ¬ a == b := fun hab => h (BEq.symm hab)
      simp only [List.filter_cons, List.filter_nil, ha, Bool.not_false, ↓reduceIte, hrest, h,
        Bool.false_or]
      split <;> rfl
termination_by as.length
decreasing_by exact Nat.lt_succ_of_le (List.length_filter_le _ _)

lemma values_ofList (as : List α) : (ofList as).values = as.eraseDups := by
  induction as using List.reverseRecOn with
  | nil => rfl
  | append_singleton as a ih =>
    rw [ofList_append_singleton, values_add, ih, eraseDups_append_singleton]

lemma distinct_ofList (as : List α) : (ofList as).distinct = as.eraseDups.length := by
  rw [← values_ofList, values, List.length_map, distinct]

/-- Where every value has one entry, the entry tells how often the value was seen. -/
lemma map_count_eq {counts : List (α × Nat)}
    (h : (counts.map Prod.fst).Pairwise fun a b => ¬ a == b) :
    (counts.map Prod.fst).map (fun a => (counts.lookup a).getD 0) = counts.map Prod.snd := by
  induction counts with
  | nil => rfl
  | cons entry counts ih =>
    obtain ⟨b, n⟩ := entry
    obtain ⟨hfirst, hrest⟩ := List.pairwise_cons.mp h
    rw [List.map_cons, List.map_cons, List.map_cons, ← ih hrest]
    congr 1
    · simp
    · refine List.map_congr_left fun a ha => ?_
      have hab : ¬ a == b := fun hab => hfirst a ha (BEq.symm hab)
      simp [List.lookup_cons, hab]

lemma Balanced.total_eq_sum_count (h : t.Balanced) : t.total = (t.values.map t.count).sum := by
  rw [h.total_eq, ← map_count_eq h.differ]
  rfl

/-- After any history of additions and clears, the total is the number of values added since the
last clear and the sum of the counts of the different ones among them, each count is right, and
what the next addition answers is the count after it. -/
theorem after_counts (history : List (Action α)) :
    let t := after {} history
    let seen := sinceClear history
    t.total = seen.length ∧ t.total = (seen.eraseDups.map t.count).sum ∧
      (∀ a, t.count a = seen.count a) ∧ t.distinct = seen.eraseDups.length ∧
      (t.isEmpty ↔ t.distinct = 0) ∧
      ∀ a, (t.record a).1 = (after {} (history ++ [.add a])).count a := by
  intro t seen
  have ht : t = ofList seen := after_eq_ofList history
  have htotal : t.total = seen.length := ht ▸ total_ofList seen
  have hdistinct : t.distinct = seen.eraseDups.length := ht ▸ distinct_ofList seen
  refine ⟨htotal, ?_, fun a => ht ▸ count_ofList seen a, hdistinct, ?_, fun a => ?_⟩
  · have hbalanced : t.Balanced := ht ▸ balanced_empty.foldl_add seen
    rw [hbalanced.total_eq_sum_count, ← values_ofList, ← ht]
  · rw [isEmpty, decide_eq_true_iff, htotal, hdistinct]
    cases seen with
    | nil => rfl
    | cons a as => simp [List.eraseDups_cons]
  · rw [after_append_singleton]
    exact record_fst t a

/-- Pitches that sound alike count as equal here, so that C sharp and D flat are one value. -/
theorem after_counts_of_enharmonic :
    let _ : BEq Pitch := ⟨fun p q => p.midi = q.midi⟩
    let c : Pitch := ⟨.c, 0, 4⟩
    let cSharp : Pitch := ⟨.c, 1, 4⟩
    let dFlat : Pitch := ⟨.d, -1, 4⟩
    let t := after {} [.add c, .clear, .add cSharp, .add c, .add dFlat]
    EquivBEq Pitch ∧ t.total = 3 ∧ t.distinct = 2 ∧ t.count dFlat = 2 ∧ (t.record cSharp).1 = 3 := by
  intro _ c cSharp dFlat t
  have hequiv : EquivBEq Pitch := {
    rfl := fun {p} => decide_eq_true (rfl : p.midi = p.midi)
    symm := fun h => decide_eq_true (of_decide_eq_true h).symm
    trans := fun h h' => decide_eq_true ((of_decide_eq_true h).trans (of_decide_eq_true h')) }
  obtain ⟨htotal, -, hcount, hdistinct, -, hrecord⟩ :=
    after_counts [.add c, .clear, .add cSharp, .add c, .add dFlat]
  refine ⟨hequiv, htotal.trans ?_, hdistinct.trans ?_, (hcount dFlat).trans ?_,
    (hrecord cSharp).trans ?_⟩
  all_goals decide +kernel

end EquivBEq

/-- A tally of values knows how many there are, how many of each, and how many different ones. -/
theorem ofList_spec [LawfulBEq α] [DecidableEq α] (as : List α) :
    (ofList as).total = as.length ∧ (∀ b, (ofList as).count b = as.count b) ∧
      (ofList as).distinct = as.toFinset.card := by
  refine ⟨total_ofList as, count_ofList as, ?_⟩
  have hdiffer := (balanced_empty.foldl_add as).differ
  rw [← ofList, values_ofList] at hdiffer
  have hnodup : as.eraseDups.Nodup := hdiffer.imp fun h heq => h (beq_iff_eq.mpr heq)
  have hvalues : as.eraseDups.toFinset = as.toFinset := by
    ext b
    rw [List.mem_toFinset, List.mem_toFinset, List.mem_eraseDups]
  rw [distinct_ofList, ← hvalues, List.toFinset_card_of_nodup hnodup]

end Tally

end BrailleScore
