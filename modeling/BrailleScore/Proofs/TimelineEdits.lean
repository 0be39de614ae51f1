import BrailleScore.Proofs.Transcribable

/-!
# Timelines that differ in one place

Timelines are cut at bar lines only. So if two of them differ in one place, in events other than
bar lines, then either both cannot be cut, for the same reason, or their segments differ in that
place alone. And what a voice has in each measure of its staff depends only on the end bars and on
the notes and rests of that voice.
-/

namespace BrailleScore

namespace Fault

variable {α β γ : Type}

/-- The answer of a computation, or the kind and the position of its fault. -/
def outcome (x : Except Fault α) : Except (Kind × Position) α :=
  x.mapError fun f => (f.kind, f.position)

lemma outcome_bind {x y : Except Fault α} {f g : α → Except Fault β} (h : outcome x = outcome y)
    (hfg : ∀ a, outcome (f a) = outcome (g a)) : outcome (x >>= f) = outcome (y >>= g) := by
  cases x with
  | error e =>
    cases y with
    | error e' => exact congrArg Except.error (Except.error.inj h)
    | ok b => cases h
  | ok a =>
    cases y with
    | error e' => cases h
    | ok b =>
      cases h
      exact hfg a

lemma outcome_map (f : α → β) {x y : Except Fault α} (h : outcome x = outcome y) :
    outcome (x.map f) = outcome (y.map f) := by
  rw [map_eq_bind, map_eq_bind]
  exact outcome_bind h fun _ => rfl

lemma outcome_locate (p : Position) {x y : Except Fault α} (h : outcome x = outcome y) :
    outcome (locate p x) = outcome (locate p y) := by
  cases x with
  | ok a =>
    cases y with
    | ok b => exact h
    | error f => cases h
  | error e =>
    cases y with
    | ok b => cases h
    | error f =>
      obtain ⟨hkind, hposition⟩ := Prod.mk.inj (Except.error.inj h)
      have hwithin (g : Fault) : ((g.within p).kind, (g.within p).position) =
          (g.kind, if g.kind.isLocated then g.position.fill p else g.position) := by
        unfold within
        split
        · rfl
        · rfl
      change Except.error ((e.within p).kind, (e.within p).position) =
        Except.error ((f.within p).kind, (f.within p).position)
      rw [hwithin, hwithin, hkind, hposition]

/-- Passes over lists whose elements have the same outcomes have the same outcome. -/
theorem outcome_each {position : Nat → Position} {f : α → Except Fault γ} {g : β → Except Fault γ}
    {as : List α} {bs : List β}
    (h : List.Forall₂ (fun a b => outcome (f a) = outcome (g b)) as bs) :
    outcome (each position f as) = outcome (each position g bs) := by
  have hfrom (start : Nat) :
      outcome (eachFrom position f start as) = outcome (eachFrom position g start bs) := by
    induction h generalizing start with
    | nil => rfl
    | cons hab _ ih =>
      apply outcome_bind (outcome_locate _ hab)
      intro c
      exact outcome_bind (ih (start + 1)) fun _ => rfl
  exact hfrom 0

lemma outcome_each_replaced (position : Nat → Position) {f : α → Except Fault β} {a b : α}
    (h : outcome (f a) = outcome (f b)) (before after : List α) :
    outcome (each position f (before ++ a :: after)) =
      outcome (each position f (before ++ b :: after)) := by
  have hafter : List.Forall₂ (fun c d => outcome (f c) = outcome (f d)) after after :=
    List.forall₂_same.mpr fun _ _ => rfl
  apply outcome_each
  induction before with
  | nil => exact .cons h hafter
  | cons c before ih => exact .cons rfl ih

end Fault

/-! ### Measures -/

/-- End bars, and the notes and rests that are asked for. -/
def Event.keeps (q : Entry → Bool) : Event → Bool
  | entry e => q e
  | endBar => true
  | _ => false

namespace Staff

lemma cutAtEndBars_cons {e : Event} (he : e ≠ .endBar) (events : List Event) :
    cutAtEndBars (e :: events) = match cutAtEndBars events with
      | [] => []
      | m :: ms => ⟨e :: m.events⟩ :: ms := by
  cases e with
  | endBar => exact absurd rfl he
  | _ => rfl

/-- What is left out besides end bars is left out of each measure. -/
theorem cutAtEndBars_filter {p : Event → Bool} (hp : p .endBar = true) (events : List Event) :
    cutAtEndBars (events.filter p) = (cutAtEndBars events).map fun m => ⟨m.events.filter p⟩ := by
  induction events with
  | nil => rfl
  | cons e events ih =>
    by_cases he : e = .endBar
    · rw [he, List.filter_cons_of_pos hp, cutAtEndBars, cutAtEndBars, ih]
      rfl
    · rw [cutAtEndBars_cons he]
      by_cases hkeep : p e = true
      · rw [List.filter_cons_of_pos hkeep, cutAtEndBars_cons he, ih]
        cases cutAtEndBars events with
        | nil => rfl
        | cons m ms => simp [hkeep]
      · rw [List.filter_cons_of_neg hkeep, ih]
        cases cutAtEndBars events with
        | nil => rfl
        | cons m ms => simp [hkeep]

end Staff

/-- The notes and rests of a staff that are asked for, measure by measure. -/
theorem Segment.map_entries_measures (s : Segment) (name : String) (q : Entry → Bool) :
    (s.staffNamed name).measures.map (fun m => m.entries.filter q) =
      (Staff.cutAtEndBars (s.events.filter (Event.keeps fun e => e.staff = name && q e))).map
        Measure.entries := by
  have hentries (events : List Event) : (events.filter (Event.keeps q)).filterMap Event.entry? =
      (events.filterMap Event.entry?).filter q := by
    induction events with
    | nil => rfl
    | cons e events ih =>
      cases e with
      | entry e =>
        by_cases hq : q e = true
        · simp [Event.keeps, Event.entry?, hq, ih]
        · simp [Event.keeps, Event.entry?, hq, ih]
      | _ => exact ih
  have hkeeps : s.events.filter (Event.keeps fun e => e.staff = name && q e) =
      (s.staffNamed name).events.filter (Event.keeps q) := by
    rw [staffNamed, List.filter_filter]
    apply List.filter_congr
    intro e _
    cases e with
    | entry e => simp [Event.keeps, Event.isVertical, Event.staff?, Bool.and_comm]
    | _ => simp [Event.keeps, Event.isVertical, Event.staff?]
  rw [hkeeps, Staff.cutAtEndBars_filter rfl, List.map_map]
  apply List.map_congr_left
  intro m _
  exact (hentries m.events).symm

/-! ### Segments -/

/-- A bar line. -/
def Event.isBar : Event → Bool
  | startBar _ => true
  | endBar => true
  | _ => false

namespace Segment

lemma cutFrom_cons {e : Event} (he : e ≠ .endBar) (index : Nat) (declared : Option Nat)
    (events : List Event) : cutFrom index declared (e :: events) =
      (cutFrom (index + 1) (declared.or e.declared?) events).map (prepend e) := by
  rw [Fault.map_eq_bind]
  cases e with
  | endBar => exact absurd rfl he
  | _ => rfl

lemma cutFrom_endBar_startBar (index : Nat) (declared : Option Nat) (staves : Nat)
    (events : List Event) : cutFrom index declared (.endBar :: .startBar staves :: events) =
      if staves = declared.getD 0 then
        (cutFrom (index + 1) declared (.startBar staves :: events)).map (prepend .endBar)
      else (cutFrom (index + 1) none (.startBar staves :: events)).map (List.cons ⟨[.endBar]⟩) := by
  rw [cutFrom, Fault.map_eq_bind, Fault.map_eq_bind]

lemma cutFrom_endBar_fault {e : Event} (he : ∀ staves, e ≠ .startBar staves) (index : Nat)
    (declared : Option Nat) (events : List Event) :
    cutFrom index declared (.endBar :: e :: events) = Fault.raise (.startBarMissing index) := by
  cases e with
  | startBar staves => exact absurd rfl (he staves)
  | _ => rfl

lemma cutFrom_append {mid : List Event} (hmid : ∀ e ∈ mid, e.isBar = false) (index : Nat)
    (declared : Option Nat) (events : List Event) : cutFrom index declared (mid ++ events) =
      (cutFrom (index + mid.length) declared events).map fun segments =>
        mid.foldr prepend segments := by
  induction mid generalizing index with
  | nil =>
    rw [List.nil_append, List.length_nil, Nat.add_zero, Fault.map_eq_bind]
    exact (bind_pure _).symm
  | cons e mid ih =>
    obtain ⟨he, hmid⟩ := List.forall_mem_cons.mp hmid
    have hne : e ≠ .endBar := by
      rintro rfl
      cases he
    have hdeclared : declared.or e.declared? = declared := by
      cases e with
      | startBar staves => cases he
      | _ => exact Option.or_none
    have hlength : index + (e :: mid).length = index + 1 + mid.length := by
      rw [List.length_cons]
      omega
    rw [List.cons_append, cutFrom_cons hne, hdeclared, ih hmid, hlength]
    cases cutFrom (index + 1 + mid.length) declared events <;> rfl

lemma foldr_prepend (mid : List Event) (s : Segment) (rest : List Segment) :
    mid.foldr prepend (s :: rest) = ⟨mid ++ s.events⟩ :: rest := by
  induction mid with
  | nil => rfl
  | cons e mid ih => rw [List.foldr_cons, ih, prepend, List.cons_append]

/-- Where the events stand in the timeline is only told in messages. -/
lemma outcome_cutFrom (i j : Nat) (declared : Option Nat) (events : List Event) :
    Fault.outcome (cutFrom i declared events) = Fault.outcome (cutFrom j declared events) := by
  induction events generalizing i j declared with
  | nil => rfl
  | cons e events ih =>
    by_cases he : e = .endBar
    · subst he
      cases events with
      | nil => rfl
      | cons next rest =>
        cases next with
        | startBar staves =>
          rw [cutFrom_endBar_startBar, cutFrom_endBar_startBar]
          split
          · exact Fault.outcome_map _ (ih _ _ _)
          · exact Fault.outcome_map _ (ih _ _ _)
        | _ => rfl
    · rw [cutFrom_cons he, cutFrom_cons he]
      exact Fault.outcome_map _ (ih _ _ _)

/-- How the segments of a timeline come about, event by event from the end: an event goes on with
the first segment behind it, or an end bar ends a segment of its own, or no start bar follows it. -/
theorem cutFrom_induction {motive : List Event → Except Fault (List Segment) → Prop}
    (nil : motive [] (.ok [{}])) (bar : motive [.endBar] (.ok [⟨[.endBar]⟩]))
    (extend : ∀ e events x, motive events x → motive (e :: events) (x.map (prepend e)))
    (close : ∀ events x, motive events x →
      motive (.endBar :: events) (x.map (List.cons ⟨[.endBar]⟩)))
    (fault : ∀ events index, motive (.endBar :: events) (Fault.raise (.startBarMissing index)))
    (index : Nat) (declared : Option Nat) (events : List Event) :
    motive events (cutFrom index declared events) := by
  induction events generalizing index declared with
  | nil => exact nil
  | cons e events ih =>
    by_cases he : e = .endBar
    · subst he
      cases events with
      | nil => exact bar
      | cons next rest =>
        by_cases hnext : ∃ staves, next = .startBar staves
        · obtain ⟨staves, rfl⟩ := hnext
          rw [cutFrom_endBar_startBar]
          split
          · exact extend _ _ _ (ih _ _)
          · exact close _ _ (ih _ _)
        · rw [cutFrom_endBar_fault fun staves hstaves => hnext ⟨staves, hstaves⟩]
          exact fault _ _
    · rw [cutFrom_cons he]
      exact extend _ _ _ (ih _ _)

/-- There is always a segment that the first events belong to. -/
lemma cutFrom_ne_nil {index : Nat} {declared : Option Nat} {events : List Event} :
    cutFrom index declared events ≠ .ok [] := by
  refine cutFrom_induction (motive := fun _ x => x ≠ .ok []) nofun nofun (fun e _ x _ => ?extend)
    (fun _ x _ => ?close) (fun _ _ => nofun) index declared events
  case extend =>
    cases x with
    | error f => exact nofun
    | ok segments => cases segments <;> exact nofun
  case close => cases x <;> exact nofun

lemma flatMap_events_prepend (e : Event) (segments : List Segment) :
    (prepend e segments).flatMap Segment.events = e :: segments.flatMap Segment.events := by
  cases segments <;> rfl

/-- The segments of a timeline hold its events, in the same order. -/
theorem flatMap_events_cutFrom (index : Nat) (declared : Option Nat) (events : List Event) :
    ∀ segments, cutFrom index declared events = .ok segments →
      segments.flatMap Segment.events = events := by
  refine cutFrom_induction (motive := fun events x => ∀ segments : List Segment,
      x = .ok segments → segments.flatMap Segment.events = events)
    ?nil ?bar (fun e events x ih => ?extend) (fun events x ih => ?close) (fun _ _ => nofun)
    index declared events
  case nil =>
    rintro segments ⟨⟩
    rfl
  case bar =>
    rintro segments ⟨⟩
    rfl
  case extend =>
    intro segments h
    obtain ⟨later, hlater, rfl⟩ := Fault.map_eq_ok.mp h
    rw [flatMap_events_prepend, ih later hlater]
  case close =>
    intro segments h
    obtain ⟨later, hlater, rfl⟩ := Fault.map_eq_ok.mp h
    rw [List.flatMap_cons, ih later hlater, List.singleton_append]

/-- What becomes of two timelines that differ in `mid` and `mid'`, and of what stands before these:
both cannot be cut, or the last segment of what stands before them is continued differently. -/
inductive EditedCut (mid mid' : List Event) : Except Fault (List Segment) →
    Except Fault (List Segment) → Except Fault (List Segment) → Prop
  | fault {f f' : Fault} {earlier : Except Fault (List Segment)} (hkind : f.kind = f'.kind)
      (hposition : f.position = f'.position) : EditedCut mid mid' (.error f) (.error f') earlier
  | segments (before : List Segment) (first rest : List Event) (after : List Segment) :
      EditedCut mid mid' (.ok (before ++ ⟨first ++ (mid ++ rest)⟩ :: after))
        (.ok (before ++ ⟨first ++ (mid' ++ rest)⟩ :: after)) (.ok (before ++ [⟨first⟩]))

namespace EditedCut

variable {mid mid' : List Event} {x x' earlier : Except Fault (List Segment)}

lemma prepend (h : EditedCut mid mid' x x' earlier) (e : Event) :
    EditedCut mid mid' (x.map (Segment.prepend e)) (x'.map (Segment.prepend e))
      (earlier.map (Segment.prepend e)) := by
  cases h with
  | fault hkind hposition => exact fault hkind hposition
  | segments before first rest after =>
    cases before with
    | nil => exact segments [] (e :: first) rest after
    | cons s before => exact segments (⟨e :: s.events⟩ :: before) first rest after

lemma cons (h : EditedCut mid mid' x x' earlier) (s : Segment) :
    EditedCut mid mid' (x.map (List.cons s)) (x'.map (List.cons s))
      (earlier.map (List.cons s)) := by
  cases h with
  | fault hkind hposition => exact fault hkind hposition
  | segments before first rest after => exact segments (s :: before) first rest after

end EditedCut

/-- Events other than bar lines matter in their own segment only, unless an end bar stands directly
before some of them. -/
theorem cutFrom_edit {mid mid' before : List Event} (hmid : ∀ e ∈ mid, e.isBar = false)
    (hmid' : ∀ e ∈ mid', e.isBar = false)
    (hbefore : before.getLast? = some .endBar → mid ≠ [] ∧ mid' ≠ []) (after : List Event)
    (i j k : Nat) (declared : Option Nat) :
    EditedCut mid mid' (cutFrom i declared (before ++ (mid ++ after)))
      (cutFrom j declared (before ++ (mid' ++ after))) (cutFrom k declared before) := by
  induction before generalizing i j k declared with
  | nil =>
    have hafter := outcome_cutFrom (i + mid.length) (j + mid'.length) declared after
    have hne := @cutFrom_ne_nil (i + mid.length) declared after
    rw [List.nil_append, List.nil_append, cutFrom_append hmid, cutFrom_append hmid']
    generalize cutFrom (i + mid.length) declared after = x at hafter hne
    generalize cutFrom (j + mid'.length) declared after = x' at hafter
    cases x with
    | error f =>
      cases x' with
      | error f' =>
        obtain ⟨hkind, hposition⟩ := Prod.mk.inj (Except.error.inj hafter)
        exact .fault hkind hposition
      | ok segments => cases hafter
    | ok segments =>
      cases x' with
      | error f' => cases hafter
      | ok segments' =>
        cases hafter
        cases segments with
        | nil => exact absurd rfl hne
        | cons s rest =>
          change EditedCut mid mid' (.ok (mid.foldr prepend (s :: rest)))
            (.ok (mid'.foldr prepend (s :: rest))) (.ok [{}])
          rw [foldr_prepend, foldr_prepend]
          exact .segments [] [] s.events rest
  | cons e before ih =>
    have hlast : before.getLast? = some .endBar → mid ≠ [] ∧ mid' ≠ [] := by
      intro h
      apply hbefore
      rw [List.getLast?_cons, h, Option.getD_some]
    have ih := ih hlast
    rw [List.cons_append, List.cons_append]
    by_cases he : e = .endBar
    · subst he
      cases before with
      | nil =>
        -- The end bar stands directly before the difference, which begins with no start bar.
        obtain ⟨hne, hne'⟩ := hbefore rfl
        obtain ⟨m, ms, rfl⟩ := List.exists_cons_of_ne_nil hne
        obtain ⟨m', ms', rfl⟩ := List.exists_cons_of_ne_nil hne'
        have hstart (m : Event) (hm : m.isBar = false) (staves : Nat) : m ≠ .startBar staves := by
          rintro rfl
          cases hm
        have hm := hstart m (hmid m List.mem_cons_self)
        have hm' := hstart m' (hmid' m' List.mem_cons_self)
        change EditedCut _ _ (cutFrom i declared (.endBar :: m :: (ms ++ after)))
          (cutFrom j declared (.endBar :: m' :: (ms' ++ after))) _
        rw [cutFrom_endBar_fault hm, cutFrom_endBar_fault hm']
        exact .fault rfl rfl
      | cons next before =>
        cases next with
        | startBar staves =>
          rw [List.cons_append, List.cons_append, cutFrom_endBar_startBar, cutFrom_endBar_startBar,
            cutFrom_endBar_startBar]
          split
          · exact (ih _ _ _ _).prepend .endBar
          · exact (ih _ _ _ _).cons ⟨[.endBar]⟩
        | _ => exact .fault rfl rfl
    · rw [cutFrom_cons he, cutFrom_cons he, cutFrom_cons he]
      exact (ih _ _ _ _).prepend e

end Segment

end BrailleScore
