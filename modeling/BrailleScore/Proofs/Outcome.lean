import Mathlib.Data.List.Forall2
import Mathlib.Tactic.Lemma
import BrailleScore.Fault

/-!
# Outcomes of fallible passes

A pass over a score answers a value or the first fault that it meets. This file says when a pass
that is put together from others succeeds, and what it answers then.
-/

namespace BrailleScore.Fault

variable {α β : Type}

/-- The computation answers a value. -/
def Succeeds (x : Except Fault α) : Prop := ∃ a, x = .ok a

@[simp] lemma succeeds_ok (a : α) : Succeeds (.ok a : Except Fault α) := ⟨a, rfl⟩

@[simp] lemma succeeds_pure (a : α) : Succeeds (pure a : Except Fault α) := ⟨a, rfl⟩

@[simp] lemma not_succeeds_error (f : Fault) : ¬ Succeeds (.error f : Except Fault α) := by
  rintro ⟨a, h⟩
  cases h

@[simp] lemma not_succeeds_raise (c : Cause) : ¬ Succeeds (raise c : Except Fault α) :=
  not_succeeds_error _

lemma bind_eq_ok {ε : Type} {x : Except ε α} {f : α → Except ε β} {b : β} :
    x >>= f = .ok b ↔ ∃ a, x = .ok a ∧ f a = .ok b := by
  cases x <;> simp [bind, Except.bind]

lemma bind_eq_error {x : Except Fault α} {f : α → Except Fault β} {e : Fault} :
    x >>= f = .error e ↔ x = .error e ∨ ∃ a, x = .ok a ∧ f a = .error e := by
  cases x <;> simp [bind, Except.bind]

lemma pure_eq_ok {a b : α} : (pure a : Except Fault α) = .ok b ↔ a = b := by
  simp [pure, Except.pure]

lemma map_eq_bind (f : α → β) (x : Except Fault α) : x.map f = x >>= fun a => pure (f a) := by
  cases x <;> rfl

lemma map_eq_ok {f : α → β} {x : Except Fault α} {b : β} :
    x.map f = .ok b ↔ ∃ a, x = .ok a ∧ f a = b := by
  cases x <;> simp [Except.map]

lemma map_eq_error {f : α → β} {x : Except Fault α} {e : Fault} :
    x.map f = .error e ↔ x = .error e := by
  cases x <;> simp [Except.map]

lemma succeeds_bind {x : Except Fault α} {f : α → Except Fault β} :
    Succeeds (x >>= f) ↔ ∃ a, x = .ok a ∧ Succeeds (f a) := by
  cases x <;> simp [bind, Except.bind]

lemma succeeds_bind_pure {x : Except Fault α} {f : α → β} :
    Succeeds (x >>= fun a => pure (f a)) ↔ Succeeds x := by
  cases x <;> simp [bind, Except.bind]

lemma succeeds_map {x : Except Fault α} {f : α → β} : Succeeds (x.map f) ↔ Succeeds x := by
  cases x <;> simp [Except.map]

lemma locate_eq_ok {p : Position} {x : Except Fault α} {a : α} :
    locate p x = .ok a ↔ x = .ok a := by
  cases x <;> simp [locate]

/-- A pass over a list answers the values of its elements in order. -/
theorem mapM_eq_ok {f : α → Except Fault β} {as : List α} {bs : List β} :
    as.mapM f = .ok bs ↔ List.Forall₂ (fun a b => f a = .ok b) as bs := by
  induction as generalizing bs with
  | nil => rw [List.mapM_nil, pure_eq_ok, List.forall₂_nil_left_iff, eq_comm]
  | cons a as ih =>
    rw [List.mapM_cons, bind_eq_ok, List.forall₂_cons_left_iff]
    simp only [bind_eq_ok, pure_eq_ok, ih]
    constructor
    · rintro ⟨b, hb, bs, hbs, rfl⟩
      exact ⟨b, bs, hb, hbs, rfl⟩
    · rintro ⟨b, bs, hb, hbs, rfl⟩
      exact ⟨b, hb, bs, hbs, rfl⟩

/-- The places of faults do not change what a pass answers. -/
theorem each_eq_ok {place : Nat → Position} {f : α → Except Fault β} {as : List α}
    {bs : List β} : each place f as = .ok bs ↔ as.mapM f = .ok bs := by
  have h (start : Nat) : eachFrom place f start as = .ok bs ↔ as.mapM f = .ok bs := by
    induction as generalizing start bs with
    | nil => rfl
    | cons a as ih =>
      rw [eachFrom, List.mapM_cons]
      simp only [bind_eq_ok, pure_eq_ok, locate_eq_ok, ih]
  exact h 0

lemma exists_of_mem_mapM {f : α → Except Fault β} {as : List α} {bs : List β}
    (h : as.mapM f = .ok bs) {b : β} (hb : b ∈ bs) : ∃ a ∈ as, f a = .ok b := by
  have hall := mapM_eq_ok.mp h
  induction hall with
  | nil => simp at hb
  | cons hab hall ih =>
    obtain rfl | hb := List.mem_cons.mp hb
    · exact ⟨_, List.mem_cons_self, hab⟩
    · obtain ⟨a, ha, hab⟩ := ih (mapM_eq_ok.mpr hall) hb
      exact ⟨a, List.mem_cons_of_mem _ ha, hab⟩

lemma exists_of_mapM_error {f : α → Except Fault β} {as : List α} {e : Fault}
    (h : as.mapM f = .error e) : ∃ a ∈ as, f a = .error e := by
  induction as with
  | nil => cases h
  | cons a as ih =>
    rw [List.mapM_cons] at h
    obtain ha | ⟨b, -, h⟩ := bind_eq_error.mp h
    · exact ⟨a, List.mem_cons_self, ha⟩
    · obtain has | ⟨bs, -, h⟩ := bind_eq_error.mp h
      · obtain ⟨a', ha', hfault⟩ := ih has
        exact ⟨a', List.mem_cons_of_mem a ha', hfault⟩
      · cases h

lemma exists_mem_of_mapM {f : α → Except Fault β} {as : List α} {bs : List β}
    (h : as.mapM f = .ok bs) {a : α} (ha : a ∈ as) : ∃ b ∈ bs, f a = .ok b := by
  have hall := mapM_eq_ok.mp h
  induction hall with
  | nil => simp at ha
  | cons hab hall ih =>
    obtain rfl | ha := List.mem_cons.mp ha
    · exact ⟨_, List.mem_cons_self, hab⟩
    · obtain ⟨b, hb, hab⟩ := ih (mapM_eq_ok.mpr hall) ha
      exact ⟨b, List.mem_cons_of_mem _ hb, hab⟩

lemma exists_forall₂ {R : α → β → Prop} {as : List α} :
    (∃ bs, List.Forall₂ R as bs) ↔ ∀ a ∈ as, ∃ b, R a b := by
  induction as with
  | nil => simp
  | cons a as ih =>
    rw [List.forall_mem_cons, ← ih]
    constructor
    · rintro ⟨bs, h⟩
      obtain ⟨b, bs, hb, hbs, rfl⟩ := List.forall₂_cons_left_iff.mp h
      exact ⟨⟨b, hb⟩, bs, hbs⟩
    · rintro ⟨⟨b, hb⟩, bs, hbs⟩
      exact ⟨b :: bs, .cons hb hbs⟩

theorem succeeds_mapM {f : α → Except Fault β} {as : List α} :
    Succeeds (as.mapM f) ↔ ∀ a ∈ as, Succeeds (f a) := by
  simp only [Succeeds, mapM_eq_ok, exists_forall₂]

theorem succeeds_each {place : Nat → Position} {f : α → Except Fault β} {as : List α} :
    Succeeds (each place f as) ↔ ∀ a ∈ as, Succeeds (f a) := by
  simp only [Succeeds, each_eq_ok, mapM_eq_ok, exists_forall₂]

end BrailleScore.Fault
