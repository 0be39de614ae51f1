import BrailleScore.Proofs.OffsetOrder
import BrailleScore.Proofs.Transcribable

/-!
# Clef and key in effect

A staff goes by the changes that come last in its own list, although a change is in effect by its
offset. Where the changes stand in the order of time it is the same, and the changes on a staff
are those of its segment that name it, with the changes of key that name no staff. Changes on other
staves have no influence.
-/

namespace BrailleScore

/-! ### By place and by offset -/

section

variable {α : Type} {changes : List (Offset × α)} {offset : Offset} {found found' : Option α}

/-- The changes stand in the order of time. -/
structure Offset.InOrder (changes : List (Offset × α)) : Prop where
  positive : ∀ c ∈ changes, 0 < c.1.denominator
  ascending : changes.Pairwise fun c d => c.1.ratio ≤ d.1.ratio

/-- Of the changes at the greatest offset up to the given one, the last. -/
inductive InEffect (changes : List (Offset × α)) (offset : Offset) : Option α → Prop
  | before (h : ∀ c ∈ changes, offset.ratio < c.1.ratio) : InEffect changes offset none
  | since {earlier later : List (Offset × α)} {start : Offset} {a : α}
      (hsplit : changes = earlier ++ (start, a) :: later) (hle : start.ratio ≤ offset.ratio)
      (hgreatest : ∀ c ∈ changes, c.1.ratio ≤ offset.ratio → c.1.ratio ≤ start.ratio)
      (hlast : ∀ c ∈ later, c.1.ratio ≠ start.ratio) : InEffect changes offset (some a)

lemma InEffect.unique (h : InEffect changes offset found) (h' : InEffect changes offset found') :
    found = found' := by
  cases h with
  | before hbefore =>
    cases h' with
    | before _ => rfl
    | @since earlier later start a hsplit hle _ _ =>
      have hmem : (start, a) ∈ changes := hsplit ▸ List.mem_append_cons_self
      exact absurd hle (hbefore (start, a) hmem).not_ge
  | @since earlier later start a hsplit hle hgreatest hlast =>
    have hmem : (start, a) ∈ changes := hsplit ▸ List.mem_append_cons_self
    cases h' with
    | before hbefore => exact absurd hle (hbefore (start, a) hmem).not_ge
    | @since earlier' later' start' a' hsplit' hle' hgreatest' hlast' =>
      have hmem' : (start', a') ∈ changes := hsplit' ▸ List.mem_append_cons_self
      have hratio : start.ratio = start'.ratio :=
        le_antisymm (hgreatest' (start, a) hmem hle) (hgreatest (start', a') hmem' hle')
      -- Neither of the two stands behind the other.
      obtain ⟨_ | ⟨c, skipped⟩, -, hrest⟩ | ⟨_ | ⟨c, skipped⟩, -, hrest⟩ :=
        List.append_eq_append_iff.mp (hsplit.symm.trans hsplit')
      · rw [(Prod.mk.inj (List.cons.inj hrest).1).2]
      · obtain ⟨-, rfl⟩ := List.cons.inj hrest
        exact absurd hratio.symm (hlast _ List.mem_append_cons_self)
      · rw [(Prod.mk.inj (List.cons.inj hrest).1).2]
      · obtain ⟨-, rfl⟩ := List.cons.inj hrest
        exact absurd hratio (hlast' _ List.mem_append_cons_self)

lemma getLast?_filter_eq_some {β : Type} {p : β → Bool} {bs : List β} {b : β} :
    (bs.filter p).getLast? = some b ↔
      ∃ earlier later, bs = earlier ++ b :: later ∧ p b ∧ ∀ c ∈ later, ¬ p c := by
  rw [List.getLast?_eq_some_iff]
  constructor
  · rintro ⟨kept, hkept⟩
    obtain ⟨earlier, rest, rfl, -, hrest⟩ := List.filter_eq_append_iff.mp hkept
    obtain ⟨skipped, later, rfl, -, hb, hlater⟩ := List.filter_eq_cons_iff.mp hrest
    exact ⟨earlier ++ skipped, later, (List.append_assoc _ _ _).symm, hb,
      List.filter_eq_nil_iff.mp hlater⟩
  · rintro ⟨earlier, later, rfl, hb, hlater⟩
    refine ⟨earlier.filter p, ?_⟩
    rw [List.filter_append, List.filter_cons_of_pos hb, List.filter_eq_nil_iff.mpr hlater]

/-- In the order of time the last change up to an offset is the one in effect. -/
theorem inEffect_lastChange (h : Offset.InOrder changes) (hoffset : 0 < offset.denominator) :
    InEffect changes offset (Staff.lastChange changes offset) := by
  have hle {c : Offset × α} (hc : c ∈ changes) :
      c.1.atMost offset ↔ c.1.ratio ≤ offset.ratio :=
    Offset.atMost_iff (h.positive c hc) hoffset
  unfold Staff.lastChange
  cases hlast : (changes.filter fun change => change.1.atMost offset).getLast? with
  | none =>
    apply InEffect.before
    intro c hc
    have hnot := List.filter_eq_nil_iff.mp (List.getLast?_eq_none_iff.mp hlast) c hc
    exact not_le.mp ((hle hc).not.mp hnot)
  | some c =>
    obtain ⟨start, a⟩ := c
    obtain ⟨earlier, later, hsplit, hstart, hlater⟩ := getLast?_filter_eq_some.mp hlast
    have hmem {c : Offset × α} (hc : c ∈ earlier ++ (start, a) :: later) : c ∈ changes :=
      hsplit ▸ hc
    have hbehind : ∀ c ∈ later, offset.ratio < c.1.ratio := by
      intro c hc
      have hin := hmem (List.mem_append_right _ (List.mem_cons_of_mem _ hc))
      exact not_le.mp ((hle hin).not.mp (hlater c hc))
    have hin := hmem (List.mem_append_right _ List.mem_cons_self)
    have hstart' := (hle hin).mp hstart
    refine .since hsplit hstart' ?_ fun c hc heq => ?_
    · intro c hc hcoffset
      rw [hsplit, List.mem_append, List.mem_cons] at hc
      obtain hc | rfl | hc := hc
      · have hascending := h.ascending
        rw [hsplit, List.pairwise_append] at hascending
        exact hascending.2.2 c hc (start, a) List.mem_cons_self
      · exact le_refl _
      · exact absurd hcoffset (not_le.mpr (hbehind c hc))
    · exact absurd (heq.le.trans hstart') (not_le.mpr (hbehind c hc))

end

/-! ### The changes on a staff -/

namespace Event

/-- The change of clef on the staff `name`. -/
def clefOn? (name : String) : Event → Option (Offset × Clef)
  | .clef offset c staff => if staff = name then some (offset, c) else none
  | _ => none

/-- The change of key on the staff `name`, which may concern all staves. -/
def keyOn? (name : String) : Event → Option (Offset × KeySignature)
  | .key offset k staff => if staff = none ∨ staff = some name then some (offset, k) else none
  | _ => none

/-- A change of clef or key that names another staff. -/
def changesOther (name : String) : Event → Bool
  | .clef _ _ staff => staff ≠ name
  | .key _ _ (some staff) => staff ≠ name
  | _ => false

lemma clefOn?_of_changesOther {name : String} {e : Event} (h : e.changesOther name) :
    e.clefOn? name = none := by
  cases e with
  | clef _ _ staff => simpa [changesOther, clefOn?] using h
  | _ => rfl

lemma keyOn?_of_changesOther {name : String} {e : Event} (h : e.changesOther name) :
    e.keyOn? name = none := by
  cases e with
  | key _ _ staff =>
    cases staff with
    | none => cases h
    | some staff => simpa [changesOther, keyOn?] using h
  | _ => rfl

/-- Where changes on other staves come to nothing, they may be left out. -/
lemma filterMap_eq_of_changesOther {β : Type} {change? : Event → Option β} {name : String}
    (hother : ∀ e : Event, e.changesOther name → change? e = none) {events events' : List Event}
    (h : events'.filter (fun e => !e.changesOther name) =
      events.filter (fun e => !e.changesOther name)) :
    events'.filterMap change? = events.filterMap change? := by
  have hfilter (es : List Event) :
      (es.filter fun e => !e.changesOther name).filterMap change? = es.filterMap change? := by
    rw [List.filterMap_filter]
    apply List.filterMap_congr
    intro e _
    by_cases he : e.changesOther name
    · rw [hother e he]
      simp [he]
    · simp [he]
  rw [← hfilter events', h, hfilter]

end Event

namespace Segment

variable {s : Segment} {staves : List Staff} {staff : Staff} {i : Nat} {offset : Offset}

def clefsOn (s : Segment) (name : String) : List (Offset × Clef) :=
  s.events.filterMap (Event.clefOn? name)

def keysOn (s : Segment) (name : String) : List (Offset × KeySignature) :=
  s.events.filterMap (Event.keyOn? name)

lemma clefChanges_staffNamed (s : Segment) (name : String) :
    (s.staffNamed name).clefChanges = s.clefsOn name := by
  unfold Staff.clefChanges clefsOn staffNamed
  rw [List.filterMap_filter]
  apply List.filterMap_congr
  intro e _
  cases e <;> simp [Event.clefOn?, Event.isVertical, Event.staff?]

lemma keyChanges_staffNamed (s : Segment) (name : String) :
    (s.staffNamed name).keyChanges = s.keysOn name := by
  unfold Staff.keyChanges keysOn staffNamed
  rw [List.filterMap_filter]
  apply List.filterMap_congr
  intro e _
  cases e with
  | key _ _ staff => cases staff <;> simp [Event.keyOn?, Event.isVertical, Event.staff?]
  | _ => simp [Event.keyOn?, Event.isVertical, Event.staff?]

lemma eq_staffNamed (hstaves : s.staves = .ok staves) (hstaff : staves[i]? = some staff) :
    staff = s.staffNamed staff.name := by
  obtain ⟨-, rfl⟩ | ⟨-, -, rfl⟩ := staves_eq_ok.mp hstaves
  · cases hstaff
  · rw [List.getElem?_map] at hstaff
    obtain ⟨name, -, rfl⟩ := Option.map_eq_some_iff.mp hstaff
    rfl

lemma clefAt_of_staves (hstaves : s.staves = .ok staves) (hstaff : staves[i]? = some staff) :
    staff.clefAt offset = (Staff.lastChange (s.clefsOn staff.name) offset).getD {} := by
  rw [Staff.clefAt, ← clefChanges_staffNamed, ← eq_staffNamed hstaves hstaff]

lemma keyAt_of_staves (hstaves : s.staves = .ok staves) (hstaff : staves[i]? = some staff) :
    staff.keyAt offset = (Staff.lastChange (s.keysOn staff.name) offset).getD {} := by
  rw [Staff.keyAt, ← keyChanges_staffNamed, ← eq_staffNamed hstaves hstaff]

end Segment

/-- Where the changes on a staff stand in the order of time, its clef at an offset is the last of
those at the greatest offset up to it, or the treble clef, and its key likewise, or one without
accidentals. Other staves may change their clefs and keys without any effect on it. -/
theorem Staff.changes_in_effect {s : Segment} {staves : List Staff} {i : Nat} {staff : Staff}
    {offset : Offset} (hstaves : s.staves = .ok staves) (hstaff : staves[i]? = some staff)
    (hoffset : 0 < offset.denominator) :
    (Offset.InOrder (s.clefsOn staff.name) → ∃ found,
      InEffect (s.clefsOn staff.name) offset found ∧
        staff.clefAt offset = found.getD { sign := .g, line := 2 }) ∧
    (Offset.InOrder (s.keysOn staff.name) → ∃ found,
      InEffect (s.keysOn staff.name) offset found ∧
        staff.keyAt offset = found.getD { fifths := 0 }) ∧
    (staff.chordDirection offset = 1 ↔ staff.clefAt offset = { sign := .f, line := 4 }) ∧
    ∀ (s' : Segment) (staves' : List Staff) (i' : Nat) (staff' : Staff),
      s'.staves = .ok staves' → staves'[i']? = some staff' → staff'.name = staff.name →
      s'.events.filter (fun e => !e.changesOther staff.name) =
        s.events.filter (fun e => !e.changesOther staff.name) →
      staff'.clefAt offset = staff.clefAt offset ∧ staff'.keyAt offset = staff.keyAt offset := by
  refine ⟨fun h => ?_, fun h => ?_, ?_, fun s' staves' i' staff' hstaves' hstaff' hname h => ?_⟩
  · exact ⟨_, inEffect_lastChange h hoffset, Segment.clefAt_of_staves hstaves hstaff⟩
  · exact ⟨_, inEffect_lastChange h hoffset, Segment.keyAt_of_staves hstaves hstaff⟩
  · rw [Staff.chordDirection]
    cases staff.clefAt offset with
    | mk sign line => simp [Clef.chordDirection, Clef.isBass]
  · have hclefs : s'.clefsOn staff.name = s.clefsOn staff.name :=
      Event.filterMap_eq_of_changesOther (fun _ => Event.clefOn?_of_changesOther) h
    have hkeys : s'.keysOn staff.name = s.keysOn staff.name :=
      Event.filterMap_eq_of_changesOther (fun _ => Event.keyOn?_of_changesOther) h
    constructor
    · rw [Segment.clefAt_of_staves hstaves hstaff, Segment.clefAt_of_staves hstaves' hstaff',
        hname, hclefs]
    · rw [Segment.keyAt_of_staves hstaves hstaff, Segment.keyAt_of_staves hstaves' hstaff',
        hname, hkeys]

/-- Of two clefs half a note from the start the later one is in effect, and a change of key for all
staves goes before a later one for one staff. It is the same without the changes on another staff. -/
theorem Staff.changes_in_effect_of_ties :
    let rest : Event := .entry (.rest { duration := { base := .half }, staff := "1" })
    let events (others : List Event) : List Event :=
      [.startBar 2, .clef ⟨0, 1, by decide⟩ ⟨.f, 4⟩ "2", .key ⟨1, 4, by decide⟩ ⟨-3⟩ none] ++
        others ++ [.clef ⟨1, 2, by decide⟩ ⟨.g, 2⟩ "2", .key ⟨2, 8, by decide⟩ ⟨1⟩ (some "2"),
          .clef ⟨2, 4, by decide⟩ ⟨.f, 4⟩ "2", rest, .endBar]
    let s : Segment := ⟨events [.clef ⟨1, 2, by decide⟩ ⟨.c, 3⟩ "1",
      .key ⟨1, 2, by decide⟩ ⟨5⟩ (some "1")]⟩
    let s' : Segment := ⟨events []⟩
    let offset : Offset := ⟨3, 4, by decide⟩
    ∃ staves staff staves' staff', s.staves = .ok staves ∧ staves[0]? = some staff ∧
      0 < offset.denominator ∧ staff.name = "2" ∧ s'.staves = .ok staves' ∧
      staves'[0]? = some staff' ∧ Offset.InOrder (s.clefsOn "2") ∧
      Offset.InOrder (s.keysOn "2") ∧ staff.clefAt offset = ⟨.f, 4⟩ ∧
      staff.chordDirection offset = 1 ∧ staff.keyAt offset = ⟨1⟩ ∧
      staff'.clefAt offset = ⟨.f, 4⟩ ∧ staff'.keyAt offset = ⟨1⟩ := by
  intro rest events s s' offset
  have hstaves : s.staves = .ok [s.staffNamed "2", s.staffNamed "1"] := by decide
  have hstaves' : s'.staves = .ok [s'.staffNamed "2", s'.staffNamed "1"] := by decide
  have hclefsOn : s.clefsOn "2" = [(⟨0, 1, by decide⟩, ⟨.f, 4⟩), (⟨1, 2, by decide⟩, ⟨.g, 2⟩),
      (⟨2, 4, by decide⟩, ⟨.f, 4⟩)] := rfl
  have hkeysOn : s.keysOn "2" = [(⟨1, 4, by decide⟩, ⟨-3⟩), (⟨2, 8, by decide⟩, ⟨1⟩)] := rfl
  have hclefs : Offset.InOrder (s.clefsOn "2") := by
    refine ⟨by decide, ?_⟩
    rw [hclefsOn]
    norm_num [Offset.ratio]
  have hkeys : Offset.InOrder (s.keysOn "2") := by
    refine ⟨by decide, ?_⟩
    rw [hkeysOn]
    norm_num [Offset.ratio]
  have hclef : InEffect (s.clefsOn "2") offset (some ⟨.f, 4⟩) := by
    rw [hclefsOn]
    refine @InEffect.since _ _ _ [_, _] [] _ _ rfl ?_ ?_ (by simp)
    · norm_num [offset, Offset.ratio]
    · simp only [List.forall_mem_cons]
      norm_num [offset, Offset.ratio]
  have hkey : InEffect (s.keysOn "2") offset (some ⟨1⟩) := by
    rw [hkeysOn]
    refine @InEffect.since _ _ _ [_] [] _ _ rfl ?_ ?_ (by simp)
    · norm_num [offset, Offset.ratio]
    · simp only [List.forall_mem_cons]
      norm_num [offset, Offset.ratio]
  have hstaff : [s.staffNamed "2", s.staffNamed "1"][0]? = some (s.staffNamed "2") := rfl
  have hoffset : 0 < offset.denominator := by decide
  obtain ⟨hclefAt, hkeyAt, hdirection, hothers⟩ := changes_in_effect hstaves hstaff hoffset
  obtain ⟨clef, hfound, hclefAt⟩ := hclefAt hclefs
  obtain ⟨key, hfound', hkeyAt⟩ := hkeyAt hkeys
  obtain rfl := hfound.unique hclef
  obtain rfl := hfound'.unique hkey
  obtain ⟨hsame, hsame'⟩ := hothers s' _ 0 (s'.staffNamed "2") hstaves' rfl rfl rfl
  exact ⟨_, _, _, _, hstaves, hstaff, hoffset, rfl, hstaves', rfl, hclefs, hkeys, hclefAt,
    hdirection.mpr hclefAt, hkeyAt, hsame.trans hclefAt, hsame'.trans hkeyAt⟩

end BrailleScore
