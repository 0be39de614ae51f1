import BrailleScore.Proofs.Outcome

/-!
# All the faults of a pass

A pass stops at its first fault. Here its faults are listed as if it went on: the pass fails with
the head of the list, and it answers a value when the list is empty.
-/

namespace BrailleScore.Fault

variable {α β : Type} {P : α → Prop} {Q : β → Prop} {faults later : List Fault}
  {x : Except Fault α}

/-- The fault of a cause at the place `p`, which only located kinds have. -/
def found (p : Position) (c : Cause) : Fault := ⟨c, if c.kind.isLocated then p else {}⟩

lemma found_empty (c : Cause) : found {} c = ⟨c, {}⟩ := by
  unfold found
  split <;> rfl

lemma within_found (outer inner : Position) (c : Cause) :
    (found inner c).within outer = found (inner.fill outer) c := by
  unfold found within kind
  dsimp only
  split <;> rfl

lemma map_flatten_mapIdx {γ : Type} (g : β → γ) (f : Nat → α → List β) (as : List α) :
    (as.mapIdx f).flatten.map g = (as.mapIdx fun i a => (f i a).map g).flatten := by
  rw [List.map_flatten, List.mapIdx_eq_zipIdx_map, List.mapIdx_eq_zipIdx_map, List.map_map]
  rfl

lemma map_within_found (outer inner : Position) (causes : List Cause) :
    (causes.map (found inner)).map (within outer) = causes.map (found (inner.fill outer)) := by
  rw [List.map_map]
  exact List.map_congr_left fun c _ => within_found outer inner c

/-- The computation fails with the first of the faults. If there are none, it answers a value of
which `P` holds. -/
inductive Reports : List Fault → (α → Prop) → Except Fault α → Prop
  | answer {P : α → Prop} {a : α} (h : P a) : Reports [] P (.ok a)
  | fault {P : α → Prop} (f : Fault) (later : List Fault) : Reports (f :: later) P (.error f)

lemma reports_raise (c : Cause) (causes : List Cause) :
    Reports ((c :: causes).map (found {})) P (raise c) := by
  rw [List.map_cons, found_empty]
  exact .fault _ _

namespace Reports

lemma cases_faults (h : Reports faults P x) : (∃ a, x = .ok a ∧ faults = [] ∧ P a) ∨
    ∃ f later, x = .error f ∧ faults = f :: later := by
  cases h with
  | answer h => exact .inl ⟨_, rfl, rfl, h⟩
  | fault f later => exact .inr ⟨f, later, rfl, rfl⟩

/-- What is found after a success counts only if nothing is found before. -/
theorem bind {f : α → Except Fault β} (hx : Reports faults P x)
    (hf : ∀ a, P a → Reports later Q (f a)) : Reports (faults ++ later) Q (x >>= f) := by
  cases hx with
  | answer h => exact hf _ h
  | fault e faults => exact .fault e _

lemma bind_pure {f : α → β} (hx : Reports faults P x) (hf : ∀ a, P a → Q (f a)) :
    Reports faults Q (x >>= fun a => pure (f a)) := by
  rw [← List.append_nil faults]
  exact hx.bind fun a ha => .answer (hf a ha)

lemma imp {R : α → Prop} (hx : Reports faults P x) (h : ∀ a, P a → R a) : Reports faults R x := by
  cases hx with
  | answer ha => exact .answer (h _ ha)
  | fault e faults => exact .fault e faults

lemma locate (hx : Reports faults P x) (p : Position) :
    Reports (faults.map (within p)) P (locate p x) := by
  cases hx with
  | answer h => exact .answer h
  | fault e faults => exact .fault _ _

end Reports

lemma forall_mem_of_forall₂ {R : α → β → Prop} {as : List α} {bs : List β}
    (h : List.Forall₂ R as bs) (hR : ∀ a b, R a b → Q b) : ∀ b ∈ bs, Q b := by
  induction h with
  | nil => simp
  | cons hab _ ih => exact List.forall_mem_cons.mpr ⟨hR _ _ hab, ih⟩

variable {f : α → Except Fault β} {faultsOf : α → List Fault} {R : α → β → Prop}

theorem reports_mapM (h : ∀ a, Reports (faultsOf a) (R a) (f a)) (as : List α) :
    Reports (as.flatMap faultsOf) (List.Forall₂ R as) (as.mapM f) := by
  induction as with
  | nil => exact .answer .nil
  | cons a as ih =>
    rw [List.mapM_cons, List.flatMap_cons]
    exact (h a).bind fun b hb => ih.bind_pure fun bs hbs => .cons hb hbs

theorem reports_each (h : ∀ a, Reports (faultsOf a) (R a) (f a)) (place : Nat → Position)
    (as : List α) :
    Reports (as.mapIdx fun i a => (faultsOf a).map (within (place i))).flatten
      (List.Forall₂ R as) (each place f as) := by
  -- For the induction the first index is arbitrary.
  have hfrom (start : Nat) :
      Reports (as.mapIdx fun i a => (faultsOf a).map (within (place (start + i)))).flatten
        (List.Forall₂ R as) (eachFrom place f start as) := by
    induction as generalizing start with
    | nil => exact .answer .nil
    | cons a as ih =>
      have hlater := ih (start + 1)
      simp only [Nat.add_right_comm start 1, Nat.add_assoc start _ 1] at hlater
      rw [List.mapIdx_cons, List.flatten_cons]
      exact ((h a).locate (place start)).bind fun b hb => hlater.bind_pure fun bs hbs => .cons hb hbs
  have hzero := hfrom 0
  simp only [Nat.zero_add] at hzero
  exact hzero

end BrailleScore.Fault
