import BrailleScore.Proofs.Loading

/-!
# Tables of tuplets

A table only grows, and what is entered lies in tuplets that are there already. So the way from a
tuplet through all that it lies in leads down the table and ends, and it is not changed by anything
that is entered later.
-/

namespace BrailleScore.Tuplet.Table

open Fault

variable {t t' : Table} {tuplet : Tuplet} {id : Nat}

/-- Each tuplet lies in earlier ones. -/
def IsSound (t : Table) : Prop := ∀ id tuplet, t.get? id = some tuplet → tuplet.IsSoundAt id

/-- What is stored in the table is stored in the other one too, under the same number. -/
def Extends (t t' : Table) : Prop := ∀ id tuplet, t.get? id = some tuplet → t'.get? id = some tuplet

/-- The table after some tuplets, whether or not each of them could be entered. -/
def enterAll (t : Table) (tuplets : List Tuplet) : Table :=
  tuplets.foldl (fun t tuplet => ((enter tuplet).run.run t).2) t

lemma get?_cons (tuplet : Tuplet) (earlier : List Tuplet) (id : Nat) :
    (Table.mk (tuplet :: earlier)).get? id =
      if id = earlier.length then some tuplet else (Table.mk earlier).get? id := by
  unfold get? toList
  rw [List.reverse_cons]
  obtain h | rfl | h := Nat.lt_trichotomy id earlier.length
  · rw [if_neg (Nat.ne_of_lt h), List.getElem?_append_left (by simpa using h)]
  · simp
  · rw [if_neg (Nat.ne_of_gt h), List.getElem?_eq_none (by simpa using Nat.succ_le_of_lt h),
      List.getElem?_eq_none (by simpa using Nat.le_of_lt h)]

lemma get?_eq_none : t.get? id = none ↔ t.size ≤ id := by
  simp [get?, toList, size]

lemma get?_cons_self (tuplet : Tuplet) (earlier : List Tuplet) :
    (Table.mk (tuplet :: earlier)).get? earlier.length = some tuplet := by
  rw [get?_cons, if_pos rfl]

lemma extends_cons (tuplet : Tuplet) (earlier : List Tuplet) :
    Extends ⟨earlier⟩ ⟨tuplet :: earlier⟩ := by
  intro id other h
  have hne : id ≠ earlier.length := by
    rintro rfl
    have hnone : (Table.mk earlier).get? earlier.length = none := get?_eq_none.mpr (Nat.le_refl _)
    rw [hnone] at h
    cases h
  rw [get?_cons, if_neg hne, h]

/-! ### Entering a tuplet -/

lemma declare_eq_ok : t.declare tuplet = .ok t' ↔
    tuplet.IsSoundAt t.size ∧ t' = ⟨tuplet :: t.latestFirst⟩ := by
  unfold declare IsSoundAt
  by_cases harity : tuplet.arity < 2
  · simp [harity, Nat.not_le.mpr harity, raise]
  · cases hparent : tuplet.parent with
    | none => simp [harity, Nat.le_of_not_lt harity, eq_comm]
    | some p =>
      by_cases hbefore : p < t.size
      · simp [harity, Nat.le_of_not_lt harity, hbefore, eq_comm]
      · simp [harity, hbefore, raise]

lemma run_get_bind (f : Table → ExceptT Fault (StateM Table) Nat) (t : Table) :
    (get >>= f).run.run t = (f t).run.run t := rfl

/-- A tuplet that may not be entered leaves everything as it is. -/
lemma run_enter (tuplet : Tuplet) (t : Table) : (enter tuplet).run.run t =
    match t.declare tuplet with
    | .ok t' => (.ok t.size, t')
    | .error f => (.error f, t) := by
  unfold enter declare
  by_cases harity : tuplet.arity < 2
  · rw [if_pos harity, if_pos harity]
    rfl
  · rw [if_neg harity, if_neg harity]
    cases hparent : tuplet.parent with
    | none => rfl
    | some p =>
      simp only [run_get_bind]
      by_cases hbefore : p < t.size
      · rw [if_neg (Nat.not_le.mpr hbefore), if_pos hbefore]
        rfl
      · rw [if_pos (Nat.le_of_not_lt hbefore), if_neg hbefore]
        rfl

/-- What entering one tuplet does. -/
lemma enter_cases (tuplet : Tuplet) (t : Table) :
    tuplet.IsSoundAt t.size ∧
        (enter tuplet).run.run t = (.ok t.size, ⟨tuplet :: t.latestFirst⟩) ∨
      ¬ tuplet.IsSoundAt t.size ∧ ∃ f, (enter tuplet).run.run t = (.error f, t) := by
  rw [run_enter]
  cases h : t.declare tuplet with
  | ok t' =>
    obtain ⟨hsound, rfl⟩ := declare_eq_ok.mp h
    exact .inl ⟨hsound, rfl⟩
  | error f =>
    refine .inr ⟨fun hsound => ?_, f, rfl⟩
    rw [declare_eq_ok.mpr ⟨hsound, rfl⟩] at h
    cases h

lemma IsSound.enter (h : t.IsSound) (tuplet : Tuplet) :
    IsSound ((enter tuplet).run.run t).2 := by
  obtain ⟨hsound, hrun⟩ | ⟨-, f, hrun⟩ := enter_cases tuplet t
  · rw [hrun]
    intro id other hother
    rw [get?_cons] at hother
    split at hother
    · next hid =>
      rw [hid, ← Option.some.inj hother]
      exact hsound
    · exact h id other hother
  · rw [hrun]
    exact h

lemma extends_enter (t : Table) (tuplet : Tuplet) : t.Extends ((enter tuplet).run.run t).2 := by
  obtain ⟨-, hrun⟩ | ⟨-, f, hrun⟩ := enter_cases tuplet t
  · rw [hrun]
    exact extends_cons tuplet t.latestFirst
  · rw [hrun]
    exact fun _ _ h => h

lemma IsSound.enterAll (h : t.IsSound) (tuplets : List Tuplet) : (t.enterAll tuplets).IsSound := by
  induction tuplets generalizing t with
  | nil => exact h
  | cons tuplet tuplets ih => exact ih (h.enter tuplet)

lemma extends_enterAll (t : Table) (tuplets : List Tuplet) : t.Extends (t.enterAll tuplets) := by
  induction tuplets generalizing t with
  | nil => exact fun _ _ h => h
  | cons tuplet tuplets ih => exact fun id other h => ih _ id other (t.extends_enter tuplet id other h)

/-! ### The way outwards -/

/-- From the tuplet `id` outwards to one that lies in no other, each step to an earlier tuplet. -/
inductive Ascends (t : Table) : Nat → List Tuplet → Prop
  | outermost {id : Nat} {tuplet : Tuplet} (hid : t.get? id = some tuplet)
      (hparent : tuplet.parent = none) : Ascends t id [tuplet]
  | inner {id p : Nat} {tuplet : Tuplet} {outer : List Tuplet} (hid : t.get? id = some tuplet)
      (hparent : tuplet.parent = some p) (hlt : p < id) (houter : Ascends t p outer) :
      Ascends t id (tuplet :: outer)

/-- The walk from a tuplet, if there is one, to whatever the table has for its parent, and so on. A
walk that went on for ever would have no list. -/
inductive Walks (t : Table) : Option Tuplet → List Tuplet → Prop
  | stop : Walks t none []
  | step {tuplet : Tuplet} {outer : List Tuplet}
      (houter : Walks t (tuplet.parent.bind t.get?) outer) : Walks t (some tuplet) (tuplet :: outer)

lemma Walks.unique {start : Option Tuplet} {l l' : List Tuplet} (h : t.Walks start l)
    (h' : t.Walks start l') : l = l' := by
  induction h generalizing l' with
  | stop =>
    cases h'
    rfl
  | step _ ih =>
    cases h' with
    | step houter => rw [ih houter]

namespace Ascends

variable {l : List Tuplet}

lemma mono (hextends : t.Extends t') (h : t.Ascends id l) : t'.Ascends id l := by
  induction h with
  | outermost hid hparent => exact .outermost (hextends _ _ hid) hparent
  | inner hid hparent hlt _ ih => exact .inner (hextends _ _ hid) hparent hlt ih

lemma walks (h : t.Ascends id l) : t.Walks (t.get? id) l := by
  induction h with
  | outermost hid hparent =>
    rw [hid]
    refine .step ?_
    rw [hparent]
    exact .stop
  | inner hid hparent _ _ ih =>
    rw [hid]
    refine .step ?_
    rw [hparent]
    exact ih

lemma length_le (h : t.Ascends id l) : l.length ≤ id + 1 := by
  induction h with
  | outermost => exact Nat.le_add_left 1 _
  | inner _ _ hlt _ ih =>
    rw [List.length_cons]
    omega

lemma ne_nil (h : t.Ascends id l) : l ≠ [] := by
  cases h <;> exact List.cons_ne_nil _ _

end Ascends

lemma IsSound.earlier {earlier : List Tuplet} (h : IsSound ⟨tuplet :: earlier⟩) :
    tuplet.IsSoundAt earlier.length ∧ IsSound ⟨earlier⟩ :=
  ⟨h _ _ (get?_cons_self tuplet earlier),
    fun id other hother => h id other (extends_cons tuplet earlier id other hother)⟩

lemma ascends_chainIn {tuplets : List Tuplet} (h : IsSound ⟨tuplets⟩) (hid : id < tuplets.length) :
    Ascends ⟨tuplets⟩ id (chainIn tuplets id) := by
  -- The latest tuplet stands first and no earlier one refers to it, so each case is carried over
  -- from the smaller table.
  induction tuplets generalizing id with
  | nil => exact absurd hid (Nat.not_lt_zero id)
  | cons tuplet earlier ih =>
    obtain ⟨⟨-, hbefore⟩, hearlier⟩ := h.earlier
    rw [chainIn]
    split
    · next heq =>
      subst heq
      have hself := get?_cons_self tuplet earlier
      cases hparent : tuplet.parent with
      | none => exact .outermost hself hparent
      | some p =>
        have hlt := hbefore p hparent
        exact .inner hself hparent hlt ((ih hearlier hlt).mono (extends_cons tuplet earlier))
    · next hne =>
      rw [List.length_cons] at hid
      exact (ih hearlier (by omega)).mono (extends_cons tuplet earlier)

lemma chainIn_of_le {tuplets : List Tuplet} (h : tuplets.length ≤ id) : chainIn tuplets id = [] := by
  induction tuplets with
  | nil => rfl
  | cons tuplet earlier ih =>
    rw [List.length_cons] at h
    rw [chainIn, if_neg (by omega), ih (by omega)]

theorem IsSound.ascends_chain (h : t.IsSound) (hid : id < t.size) : t.Ascends id (t.chain id) :=
  ascends_chainIn h hid

lemma chain_of_le (h : t.size ≤ id) : t.chain id = [] := chainIn_of_le h

/-- The walk through the whole table ends, with the chain. -/
theorem IsSound.walks_iff (h : t.IsSound) {l : List Tuplet} :
    t.Walks (t.get? id) l ↔ l = t.chain id := by
  have hwalks : t.Walks (t.get? id) (t.chain id) := by
    by_cases hid : id < t.size
    · exact (h.ascends_chain hid).walks
    · rw [get?_eq_none.mpr (Nat.le_of_not_lt hid), chain_of_le (Nat.le_of_not_lt hid)]
      exact .stop
  constructor
  · exact fun hl => hl.unique hwalks
  · rintro rfl
    exact hwalks

/-- What is entered later does not change the chain of a tuplet. -/
theorem IsSound.chain_eq_of_extends (h : t.IsSound) (h' : t'.IsSound) (hextends : t.Extends t')
    (hid : id < t.size) : t'.chain id = t.chain id := by
  have hwalks := ((h.ascends_chain hid).mono hextends).walks
  exact (h'.walks_iff.mp hwalks).symm

/-- Whatever is entered in a new table, each tuplet in it lies in an earlier one or in none, and one
that may not be entered changes nothing. The chain of a tuplet leads from it through earlier ones to
one that lies in no other, and stays the same whatever is entered later. -/
theorem enterAll_keeps_chains (history : List Tuplet) :
    let t := enterAll {} history
    (∀ id tuplet, t.get? id = some tuplet →
      2 ≤ tuplet.arity ∧ ∀ p, tuplet.parent = some p → p < id) ∧
    (∀ tuplet,
      (tuplet.IsSoundAt t.size ∧ ∃ t', (enter tuplet).run.run t = (.ok t.size, t') ∧
        t'.toList = t.toList ++ [tuplet]) ∨
      ¬ tuplet.IsSoundAt t.size ∧ ∃ f, (enter tuplet).run.run t = (.error f, t)) ∧
    ∀ id, (∀ l, t.Walks (t.get? id) l ↔ l = t.chain id) ∧ (t.chain id = [] ↔ ¬ id < t.size) ∧
      (id < t.size → t.Ascends id (t.chain id) ∧ (t.chain id).length ≤ id + 1 ∧
        ∀ later, (enterAll {} (history ++ later)).chain id = t.chain id) := by
  intro t
  have hempty : IsSound {} := by
    intro id tuplet h
    simp [get?, toList] at h
  have hsound : t.IsSound := hempty.enterAll history
  refine ⟨hsound, fun tuplet => ?_, fun id => ⟨fun l => hsound.walks_iff, ?_, fun hid => ?_⟩⟩
  · obtain ⟨hfits, hrun⟩ | hfault := enter_cases tuplet t
    · exact .inl ⟨hfits, _, hrun, List.reverse_cons⟩
    · exact .inr hfault
  · constructor
    · intro hnil hid
      exact (hsound.ascends_chain hid).ne_nil hnil
    · intro hid
      exact chain_of_le (Nat.le_of_not_lt hid)
  · have hchain := hsound.ascends_chain hid
    refine ⟨hchain, hchain.length_le, fun later => ?_⟩
    have happend : enterAll {} (history ++ later) = t.enterAll later := List.foldl_append
    rw [happend]
    exact hsound.chain_eq_of_extends (hsound.enterAll later) (t.extends_enterAll later) hid

/-- Between the tuplets of a chain of three, some that may not be entered. -/
theorem enterAll_keeps_chain_of_three :
    let history : List Tuplet := [⟨3, none⟩, ⟨1, none⟩, ⟨5, some 7⟩, ⟨5, some 0⟩, ⟨3, some 1⟩]
    let t := enterAll {} history
    2 < t.size ∧ t.toList = [⟨3, none⟩, ⟨5, some 0⟩, ⟨3, some 1⟩] ∧
      t.Ascends 2 [⟨3, some 1⟩, ⟨5, some 0⟩, ⟨3, none⟩] ∧
      ∀ later, (enterAll {} (history ++ later)).chain 2 =
        [⟨3, some 1⟩, ⟨5, some 0⟩, ⟨3, none⟩] := by
  intro history t
  have hsize : 2 < t.size := by decide
  obtain ⟨hchain, -, hlater⟩ := ((enterAll_keeps_chains history).2.2 2).2.2 hsize
  exact ⟨hsize, by decide, hchain, hlater⟩

end BrailleScore.Tuplet.Table
