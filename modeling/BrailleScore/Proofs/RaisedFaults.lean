import BrailleScore.Proofs.Grouping
import BrailleScore.Proofs.NoteSuccess

/-!
# Faults of passes

A pass over a list fails with the fault of the first element that fails. Notes, rests, staves and
timelines raise faults that have no place yet; the passes around them place these.
-/

namespace BrailleScore

namespace Fault

variable {α β : Type}

/-! ### Faults of passes over lists -/

/-- What remains of a computation when only its fault matters. -/
def check (x : Except Fault α) : Except Fault Unit := x.map fun _ => ()

@[simp] lemma check_eq_error {x : Except Fault α} {e : Fault} :
    check x = .error e ↔ x = .error e := by
  cases x <;> simp [check, Except.map]

lemma check_eq_ok {x : Except Fault α} {u : Unit} : check x = .ok u ↔ Succeeds x := by
  cases x <;> simp [check, Except.map]

lemma check_map (x : Except Fault α) (f : α → β) : check (x.map f) = check x := by
  cases x <;> rfl

lemma check_locate (p : Position) (x : Except Fault α) :
    check (locate p x) = locate p (check x) := by
  cases x <;> rfl

lemma check_bind_bind_pure {γ : Type} (x : Except Fault α) (y : Except Fault β) (f : α → β → γ) :
    check (do let a ← x; let b ← y; pure (f a b)) = (do check x; check y) := by
  cases x <;> cases y <;> rfl

lemma forM_cons (f : α → Except Fault Unit) (a : α) (as : List α) :
    (a :: as).forM f = f a >>= fun _ => as.forM f :=
  rfl

lemma forM_map (f : β → Except Fault Unit) (g : α → β) (as : List α) :
    (as.map g).forM f = as.forM fun a => f (g a) := by
  induction as with
  | nil => rfl
  | cons a as ih => rw [List.map_cons, forM_cons, forM_cons, ih]

lemma forM_append (f : α → Except Fault Unit) (as bs : List α) :
    (as ++ bs).forM f = as.forM f >>= fun _ => bs.forM f := by
  induction as with
  | nil => rfl
  | cons a as ih => rw [List.cons_append, forM_cons, forM_cons, ih, bind_assoc]

lemma check_mapM (f : α → Except Fault β) (as : List α) :
    check (as.mapM f) = as.forM fun a => check (f a) := by
  induction as with
  | nil => rfl
  | cons a as ih => rw [List.mapM_cons, check_bind_bind_pure, ih, forM_cons]

lemma check_each_range (position : Nat → Position) (f : α → Except Fault β) (g : Nat → α)
    (n : Nat) : check (each position f ((List.range n).map g)) =
      (List.range n).forM fun k => locate (position k) (check (f (g k))) := by
  have h (start : Nat) : check (eachFrom position f start ((List.range' start n).map g)) =
      (List.range' start n).forM fun k => locate (position k) (check (f (g k))) := by
    induction n generalizing start with
    | zero => rfl
    | succ n ih =>
      rw [List.range'_succ, List.map_cons, eachFrom, check_bind_bind_pure, check_locate, ih,
        forM_cons]
  rw [List.range_eq_range']
  exact h 0

lemma forM_congr {f g : α → Except Fault Unit} {as : List α} (h : ∀ a ∈ as, f a = g a) :
    as.forM f = as.forM g := by
  induction as with
  | nil => rfl
  | cons a as ih =>
    obtain ⟨ha, has⟩ := List.forall_mem_cons.mp h
    rw [forM_cons, forM_cons, ha, ih has]

lemma forM_flatten (f : α → Except Fault Unit) (ass : List (List α)) :
    ass.flatten.forM f = ass.forM fun as => as.forM f := by
  induction ass with
  | nil => rfl
  | cons as ass ih => rw [List.flatten_cons, forM_append, forM_cons, ih]

lemma locate_forM (p : Position) (f : α → Except Fault Unit) (as : List α) :
    locate p (as.forM f) = as.forM fun a => locate p (f a) := by
  induction as with
  | nil => rfl
  | cons a as ih =>
    rw [forM_cons, forM_cons, ← ih]
    cases f a <;> rfl

lemma locate_eq_error {p : Position} {x : Except Fault α} {e : Fault} :
    locate p x = .error e ↔ ∃ f, x = .error f ∧ e = f.within p := by
  cases x <;> simp [locate, eq_comm]

/-- A pass fails with the fault of the first element that fails. -/
theorem forM_eq_error {f : α → Except Fault Unit} {as : List α} {e : Fault} :
    as.forM f = .error e ↔ ∃ before a after, as = before ++ a :: after ∧
      (∀ b ∈ before, f b = .ok ()) ∧ f a = .error e := by
  induction as with
  | nil => simp [pure, Except.pure]
  | cons a as ih =>
    rw [forM_cons, bind_eq_error, ih]
    constructor
    · rintro (ha | ⟨⟨⟩, ha, before, b, after, rfl, hbefore, hb⟩)
      · exact ⟨[], a, as, rfl, by simp, ha⟩
      · exact ⟨a :: before, b, after, rfl, List.forall_mem_cons.mpr ⟨ha, hbefore⟩, hb⟩
    · rintro ⟨before, b, after, hsplit, hbefore, hb⟩
      obtain ⟨rfl, hcons⟩ | ⟨before, rfl, rfl⟩ := List.cons_eq_append_iff.mp hsplit
      · obtain ⟨rfl, rfl⟩ := List.cons.inj hcons
        exact .inl hb
      · obtain ⟨ha, hbefore⟩ := List.forall_mem_cons.mp hbefore
        exact .inr ⟨(), ha, before, b, after, rfl, hbefore, hb⟩

lemma mapM_eq_error {f : α → Except Fault β} {as : List α} {e : Fault} :
    as.mapM f = .error e ↔ ∃ before a after, as = before ++ a :: after ∧
      (∀ b ∈ before, Succeeds (f b)) ∧ f a = .error e := by
  rw [← check_eq_error, check_mapM, forM_eq_error]
  simp only [check_eq_ok, check_eq_error]

/-- A pass fails with the fault of the first element that fails, placed by its index. -/
theorem each_eq_error {position : Nat → Position} {f : α → Except Fault β} {as : List α}
    {e : Fault} : each position f as = .error e ↔ ∃ before a after g, as = before ++ a :: after ∧
      (∀ b ∈ before, Succeeds (f b)) ∧ f a = .error g ∧ e = g.within (position before.length) := by
  -- For the induction the first index is arbitrary.
  have h (start : Nat) : eachFrom position f start as = .error e ↔
      ∃ before a after g, as = before ++ a :: after ∧ (∀ b ∈ before, Succeeds (f b)) ∧
        f a = .error g ∧ e = g.within (position (start + before.length)) := by
    induction as generalizing start with
    | nil => simp [eachFrom]
    | cons a as ih =>
      rw [eachFrom, bind_eq_error, locate_eq_error]
      simp only [bind_eq_error, ih, locate_eq_ok]
      constructor
      · rintro (⟨g, ha, rfl⟩ | ⟨b, ha, ⟨before, c, after, g, rfl, hbefore, hc, rfl⟩ | ⟨_, _, h⟩⟩)
        · exact ⟨[], a, as, g, rfl, by simp, ha, rfl⟩
        · have hearlier := List.forall_mem_cons.mpr ⟨⟨b, ha⟩, hbefore⟩
          refine ⟨a :: before, c, after, g, rfl, hearlier, hc, ?_⟩
          rw [List.length_cons, Nat.add_right_comm, Nat.add_assoc]
        · cases h
      · rintro ⟨before, c, after, g, hsplit, hbefore, hc, rfl⟩
        obtain ⟨rfl, hcons⟩ | ⟨before, rfl, rfl⟩ := List.cons_eq_append_iff.mp hsplit
        · obtain ⟨rfl, rfl⟩ := List.cons.inj hcons
          exact .inl ⟨g, hc, rfl⟩
        · obtain ⟨⟨b, ha⟩, hbefore⟩ := List.forall_mem_cons.mp hbefore
          refine .inr ⟨b, ha, .inl ⟨before, c, after, g, rfl, hbefore, hc, ?_⟩⟩
          rw [List.length_cons, Nat.add_right_comm, Nat.add_assoc]
  have hzero := h 0
  simp only [Nat.zero_add] at hzero
  exact hzero

/-! ### Faults whose place is not known yet -/

/-- A cause that lies in a score: its timeline is malformed or its notation unsupported. -/
def Cause.OfScore (c : Cause) : Prop := c.kind = .malformed ∨ c.kind = .unsupported

/-- A fault of a score that is not placed yet. -/
def IsRaised (f : Fault) : Prop := f.position = {} ∧ f.cause.OfScore

/-- The computation raises its faults without a place. -/
def Raises (x : Except Fault α) : Prop := ∀ f, x = .error f → f.IsRaised

lemma within_of_ofScore {c : Cause} (h : c.OfScore) (p outer : Position) :
    within outer ⟨c, p⟩ = ⟨c, p.fill outer⟩ := by
  have hlocated : c.kind.isLocated = true := by
    obtain h | h := h <;> rw [h] <;> rfl
  exact if_pos hlocated

lemma Raises.eq_error {x : Except Fault α} (hx : Raises x) {f : Fault} :
    x = .error f ↔ ∃ c : Cause, f = ⟨c, {}⟩ ∧ x = .error ⟨c, {}⟩ := by
  constructor
  · intro h
    have hf : f = ⟨f.cause, {}⟩ := by rw [← (hx f h).1]
    exact ⟨f.cause, hf, hf ▸ h⟩
  · rintro ⟨c, rfl, h⟩
    exact h

lemma raises_ok (a : α) : Raises (.ok a) := by
  intro f h
  cases h

lemma raises_pure (a : α) : Raises (pure a) := raises_ok a

lemma raises_raise {c : Cause} (h : c.OfScore) :
    Raises (raise c : Except Fault α) := by
  intro f hf
  cases hf
  exact ⟨rfl, h⟩

lemma raises_bind {x : Except Fault α} {f : α → Except Fault β} (hx : Raises x)
    (hf : ∀ a, Raises (f a)) : Raises (x >>= f) := by
  intro e he
  obtain he | ⟨a, -, he⟩ := bind_eq_error.mp he
  · exact hx e he
  · exact hf a e he

lemma raises_map {x : Except Fault α} (hx : Raises x) (f : α → β) : Raises (x.map f) := by
  rw [map_eq_bind]
  exact raises_bind hx fun _ => raises_pure _

lemma raises_mapM {f : α → Except Fault β} (hf : ∀ a, Raises (f a)) (as : List α) :
    Raises (as.mapM f) := by
  intro e he
  obtain ⟨a, -, ha⟩ := exists_of_mapM_error he
  exact hf a e ha

end Fault

open Fault

variable {content : Options.Content} {table : Tuplet.Table}

lemma raises_attempt {α : Type} {x : Except Fault α} (hx : Raises x) :
    Raises (content.attempt x) := by
  cases x with
  | ok a => exact raises_ok _
  | error f =>
    unfold Options.Content.attempt
    dsimp only
    split
    · exact raises_ok _
    · exact fun e he => hx e (congrArg Except.error (Except.error.inj he))

lemma raises_fingeringOf (fingers : List Nat) : Raises (Sign.fingeringOf fingers) := by
  refine raises_bind (raises_mapM (fun n => ?_) _) fun _ => raises_pure _
  unfold Sign.fingerOf
  split
  · exact raises_ok _
  · exact raises_raise (.inr rfl)

lemma raises_tupletSigns (n : Note) : Raises (n.tupletSigns content table) := by
  refine raises_bind ?_ fun _ => raises_bind (raises_mapM (fun t => raises_attempt ?_) _)
    fun _ => raises_pure _
  · unfold Note.startingTuplets
    split
    · exact raises_ok _
    · split
      · exact raises_raise (.inl rfl)
      · dsimp only
        split
        · exact raises_raise (.inl rfl)
        · exact raises_ok _
  · unfold Sign.tupletOf
    split
    · exact raises_ok _
    · exact raises_raise (.inr rfl)

lemma raises_octaveMarks (p : Pitch) (last : Option Pitch) : Raises (p.octaveMarks last) := by
  unfold Pitch.octaveMarks
  split
  · refine raises_bind ?_ fun _ => raises_pure _
    unfold Sign.octaveMark
    dsimp only
    split
    · exact raises_ok _
    · exact raises_raise (.inr rfl)
  · exact raises_ok _

lemma raises_scriptSigns (n : Note) (last : Option Pitch) :
    Raises (n.scriptSigns content last) := by
  have hsigns (shown : Bool) : Raises (n.signs last shown) := by
    refine raises_bind ?_ fun _ => raises_bind ?_ fun _ => raises_pure _
    · unfold Note.bodySigns
      split
      · exact raises_ok _
      · exact raises_bind (raises_octaveMarks _ _) fun _ => raises_pure _
    · unfold Note.fingeringSigns
      split
      · exact raises_bind (raises_fingeringOf _) fun _ => raises_pure _
      · exact raises_ok _
  unfold Note.scriptSigns
  split
  · exact raises_bind (raises_map (raises_attempt (raises_fingeringOf _)) _) hsigns
  · exact raises_bind (raises_pure _) hsigns

theorem Entry.raises_script (last : Option Pitch) (e : Entry) :
    Raises (e.script content table last) := by
  cases e with
  | rest r => exact raises_ok _
  | note n =>
    exact raises_bind (raises_tupletSigns n) fun _ => raises_bind (raises_scriptSigns n last)
      fun _ => raises_pure _

lemma Segment.raises_staves (s : Segment) : Raises s.staves := by
  rw [staves_eq]
  split
  · exact raises_ok _
  · split
    · exact raises_raise (.inl rfl)
    · split
      · exact raises_raise (.inl rfl)
      · exact raises_ok _

lemma Segment.raises_cut (events : List Event) : Raises (cut events) := by
  have h (index : Nat) (declared : Option Nat) : Raises (cutFrom index declared events) := by
    induction events generalizing index declared with
    | nil => exact raises_ok _
    | cons e events ih =>
      cases e with
      | endBar =>
        cases events with
        | nil => exact raises_ok _
        | cons next rest =>
          cases next with
          | startBar staves =>
            rw [cutFrom]
            split
            · exact raises_bind (ih _ _) fun _ => raises_pure _
            · exact raises_bind (ih _ _) fun _ => raises_pure _
          | _ => exact raises_raise (.inl rfl)
      | _ =>
        rw [cutFrom]
        · exact raises_bind (ih _ _) fun _ => raises_pure _
        · simp
  exact h 0 none

end BrailleScore
