/-! Tallies: how often each value was seen. -/

namespace BrailleScore

/-- The values seen, each once and in the order of their first appearance, with their counts, and
how many there were of all values together. -/
structure Tally (α : Type) where
  counts : List (α × Nat) := []
  total : Nat := 0
deriving DecidableEq, Repr

namespace Tally

variable {α : Type} [BEq α]

/-- Counts one more `a`, and answers its new count. -/
def bump (a : α) : List (α × Nat) → Nat × List (α × Nat)
  | [] => (1, [(a, 1)])
  | (b, n) :: rest =>
    if b == a then (n + 1, (b, n + 1) :: rest) else (bump a rest).map id ((b, n) :: ·)

/-- Counts one more `a`, and answers how often it was seen by then. -/
def record (t : Tally α) (a : α) : Nat × Tally α :=
  (bump a t.counts).map id fun counts => ⟨counts, t.total + 1⟩

def add (t : Tally α) (a : α) : Tally α := (t.record a).2

/-- Begins to count anew. -/
def clear (_ : Tally α) : Tally α := {}

def ofList (as : List α) : Tally α := as.foldl add {}

/-- How often `a` was seen. -/
def count (t : Tally α) (a : α) : Nat := (t.counts.lookup a).getD 0

/-- How many different values were seen. -/
def distinct (t : Tally α) : Nat := t.counts.length

def isEmpty (t : Tally α) : Bool := t.total = 0

@[simp] theorem total_add (t : Tally α) (a : α) : (t.add a).total = t.total + 1 := rfl

variable [EquivBEq α]

theorem lookup_bump (a b : α) (counts : List (α × Nat)) :
    ((bump a counts).2.lookup b).getD 0 = (counts.lookup b).getD 0 + if b == a then 1 else 0 := by
  induction counts with
  | nil => cases h : b == a <;> simp [bump, List.lookup_cons, h]
  | cons entry counts ih =>
    obtain ⟨c, n⟩ := entry
    by_cases hc : c == a
    · have hb : (b == c) = (b == a) := BEq.congr_right hc
      cases h : b == a <;> simp [bump, List.lookup_cons, hc, hb, h]
    · rw [bump, if_neg hc]
      by_cases hb : b == c
      · have ha : ¬ b == a := fun h => hc (BEq.trans (BEq.symm hb) h)
        simp [List.lookup_cons, hb, ha]
      · simp [List.lookup_cons, hb, ih]

theorem bump_fst (a : α) (counts : List (α × Nat)) :
    (bump a counts).1 = ((bump a counts).2.lookup a).getD 0 := by
  induction counts with
  | nil => simp [bump]
  | cons entry counts ih =>
    obtain ⟨c, n⟩ := entry
    by_cases hc : c == a
    · simp [bump, List.lookup_cons, hc, BEq.symm hc]
    · have ha : ¬ a == c := fun h => hc (BEq.symm h)
      simp [bump, List.lookup_cons, hc, ha, ih]

@[simp] theorem count_add (t : Tally α) (a b : α) :
    (t.add a).count b = t.count b + if b == a then 1 else 0 :=
  lookup_bump a b t.counts

/-- What is answered is the count afterwards. -/
theorem record_fst (t : Tally α) (a : α) : (t.record a).1 = (t.add a).count a :=
  bump_fst a t.counts

end Tally

end BrailleScore
