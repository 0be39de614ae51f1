import BrailleScore.Proofs.DraftMeaning
import BrailleScore.Proofs.Findings
import BrailleScore.Yaml.Decoder

/-!
# Loading a timeline

A draft becomes a score when all its words are known, the tuplets of each part are declared in
order and its notes refer to declared tuplets. The score then is the draft with its words
understood. Else loading fails with the first fault in the order of the document: part by part, the
tuplets of a part before its events.
-/

namespace BrailleScore

open Fault

/-! ### What can be wrong with a draft -/

def Vocabulary.causes {α : Type} (v : Vocabulary α) (text : String) : List Cause :=
  if Text.trim text ∈ v.words.map Prod.fst then []
  else [.unknownWord v.subject (Text.trim text)]

/-- What is wrong with the tuplet that is declared behind `id` others. -/
def Tuplet.causes (id : Nat) (t : Tuplet) : List Cause :=
  (if t.arity < 2 then [.arityTooSmall t.arity] else []) ++
    match t.parent with
    | none => []
    | some parent => if parent < id then [] else [.parentNotBefore id parent]

namespace Draft

namespace Note

def pitchCauses (n : Note) : List Cause :=
  match n.step, n.octave with
  | some step, some _ => Step.vocabulary.causes step
  | none, none => if n.alter.isSome then [.halfPitch] else []
  | _, _ => [.halfPitch]

/-- The note lies in a tuplet that is not among the declared ones. -/
def tupletCauses (tuplets : Nat) (n : Note) : List Cause :=
  match n.tuplet with
  | none => []
  | some id => if id < tuplets then [] else [.tupletNotDeclared id]

/-- What is wrong with a note of a part with so many tuplets. -/
def causes (tuplets : Nat) (n : Note) : List Cause :=
  n.pitchCauses ++ n.display.toList.flatMap (fun p => Step.vocabulary.causes p.step) ++
    n.tupletCauses tuplets ++ NoteValue.vocabulary.causes n.value ++
    n.accidental.toList.flatMap Accidental.vocabulary.causes ++
    n.ornaments.flatMap Ornament.vocabulary.causes ++
    n.articulations.flatMap Articulation.vocabulary.causes

end Note

def Event.causes (tuplets : Nat) : Event → List Cause
  | note n => n.causes tuplets
  | rest value _ _ _ => NoteValue.vocabulary.causes value
  | clef _ sign _ _ => ClefSign.vocabulary.causes sign
  | _ => []

/-- What is wrong with a part, each cause with the measure of its event. Tuplets stand in no
measure. -/
def Part.causes (p : Part) : List (Option Nat × Cause) :=
  (p.tuplets.mapIdx Tuplet.causes).flatten.map (none, ·) ++
    (p.events.mapIdx fun i e => (e.causes p.tuplets.length).map
      (some ((p.events.take i).count .endBar), ·)).flatten

/-- All faults of a score in the order of the document. -/
def Score.faults (s : Score) : List Fault :=
  (s.parts.mapIdx fun i p => p.causes.map fun c =>
    found { part := some i, measure := c.1 } c.2).flatten

end Draft

/-! ### What is sound in a part -/

/-- A tuplet of two notes or more, whose parent is one of `id` tuplets before it. -/
def Tuplet.IsSoundAt (t : Tuplet) (id : Nat) : Prop :=
  2 ≤ t.arity ∧ ∀ parent, t.parent = some parent → parent < id

/-- The tuplets lie in tuplets before them, and the notes in tuplets that there are. -/
structure Part.IsSound (p : Part) : Prop where
  tuplets : ∀ id t, p.tuplets.get? id = some t → t.IsSoundAt id
  notes : ∀ n, .entry (.note n) ∈ p.events → ∀ id, n.tuplet = some id → id < p.tuplets.size

/-! ### Words -/

lemma Vocabulary.reports_read {α : Type} (v : Vocabulary α) (text : String) :
    Reports ((v.causes text).map (found {})) (v.Names text) (v.read text) := by
  unfold causes read
  cases hlookup : v.words.lookup (Text.trim text) with
  | some a =>
    have hmem : (Text.trim text, a) ∈ v.words := by
      obtain ⟨before, after, hwords, -⟩ := List.lookup_eq_some_iff.mp hlookup
      rw [hwords]
      exact List.mem_append_right _ List.mem_cons_self
    rw [if_pos (List.mem_map_of_mem hmem)]
    exact .answer hmem
  | none =>
    have hnot : Text.trim text ∉ v.words.map Prod.fst := by
      intro hmem
      obtain ⟨word, hword, heq⟩ := List.mem_map.mp hmem
      simpa [heq] using List.lookup_eq_none_iff.mp hlookup word hword
    rw [if_neg hnot]
    exact reports_raise _ _

/-! ### Tuplets -/

namespace Tuplet.Table

variable {t t' : Table}

lemma reports_declare (t : Table) (tuplet : Tuplet) :
    Reports ((tuplet.causes t.size).map (found {}))
      (fun t' : Table => t' = ⟨tuplet :: t.latestFirst⟩ ∧ tuplet.IsSoundAt t.size)
      (t.declare tuplet) := by
  unfold declare causes
  by_cases harity : tuplet.arity < 2
  · rw [if_pos harity, if_pos harity, List.singleton_append]
    exact reports_raise _ _
  · rw [if_neg harity, if_neg harity, List.nil_append]
    cases hparent : tuplet.parent with
    | none => exact .answer ⟨rfl, Nat.le_of_not_lt harity, by simp [hparent]⟩
    | some parent =>
      dsimp only
      by_cases hbefore : parent < t.size
      · rw [if_pos hbefore, if_pos hbefore]
        exact .answer ⟨rfl, Nat.le_of_not_lt harity, by simpa [hparent] using hbefore⟩
      · rw [if_neg hbefore, if_neg hbefore]
        exact reports_raise _ _

lemma reports_declareAll (t : Table) (tuplets : List Tuplet) :
    Reports ((tuplets.mapIdx fun i tuplet => tuplet.causes (t.size + i)).flatten.map (found {}))
      (fun t' : Table => t'.toList = t.toList ++ tuplets ∧
        ∀ (i : Nat) (tuplet : Tuplet), tuplets[i]? = some tuplet → tuplet.IsSoundAt (t.size + i))
      (tuplets.foldlM declare t) := by
  induction tuplets generalizing t with
  | nil => exact .answer ⟨(List.append_nil _).symm, by simp⟩
  | cons tuplet tuplets ih =>
    have hlater := ih ⟨tuplet :: t.latestFirst⟩
    have hsize : (Table.mk (tuplet :: t.latestFirst)).size = t.size + 1 := rfl
    simp only [hsize, Nat.add_right_comm t.size 1, Nat.add_assoc t.size _ 1] at hlater
    rw [List.foldlM_cons, List.mapIdx_cons, List.flatten_cons, List.map_append]
    refine (t.reports_declare tuplet).bind ?_
    rintro _ ⟨rfl, hsound⟩
    refine hlater.imp ?_
    rintro t' ⟨hlist, hall⟩
    refine ⟨by simpa [toList] using hlist, ?_⟩
    intro i u hu
    cases i with
    | zero => exact Option.some.inj hu ▸ hsound
    | succ i => exact hall i u hu

end Tuplet.Table

/-! ### Notes and events -/

namespace Draft

lemma Pitch.reports_resolve (p : Pitch) :
    Reports ((Step.vocabulary.causes p.step).map (found {})) p.Describes p.resolve :=
  (Step.vocabulary.reports_read p.step).bind_pure fun _ hstep => ⟨hstep, rfl, rfl⟩

namespace Note

variable (n : Note)

lemma reports_resolvePitch :
    Reports (n.pitchCauses.map (found {})) n.DescribesPitch n.resolvePitch := by
  unfold pitchCauses resolvePitch DescribesPitch
  cases n.step with
  | none =>
    cases n.octave with
    | none =>
      cases n.alter with
      | none => exact .answer ⟨rfl, rfl, rfl⟩
      | some alter => exact reports_raise _ _
    | some octave => exact reports_raise _ _
  | some step =>
    cases n.octave with
    | none => exact reports_raise _ _
    | some octave =>
      exact (Pitch.reports_resolve ⟨step, n.alter.getD 0, octave⟩).bind_pure
        fun p hp => ⟨step, octave, rfl, rfl, hp⟩

lemma reports_resolveDisplay :
    Reports ((n.display.toList.flatMap fun p => Step.vocabulary.causes p.step).map (found {}))
      (Option.Rel Pitch.Describes n.display) n.resolveDisplay := by
  unfold resolveDisplay
  cases n.display with
  | none => exact .answer .none
  | some p =>
    rw [Option.toList_some, List.flatMap_singleton]
    exact p.reports_resolve.bind_pure fun _ hp => .some hp

lemma reports_resolveTuplet (table : Tuplet.Table) :
    Reports ((n.tupletCauses table.size).map (found {}))
      (fun tuplet => tuplet = n.tuplet ∧ ∀ id, tuplet = some id → id < table.size)
      (n.resolveTuplet table) := by
  unfold tupletCauses resolveTuplet
  cases n.tuplet with
  | none => exact .answer ⟨rfl, nofun⟩
  | some id =>
    dsimp only
    by_cases hid : id < table.size
    · rw [if_pos hid, if_pos hid]
      exact .answer ⟨rfl, by simpa using hid⟩
    · rw [if_neg hid, if_neg hid]
      exact reports_raise _ _

lemma reports_resolveAccidental :
    Reports ((n.accidental.toList.flatMap Accidental.vocabulary.causes).map (found {}))
      (Option.Rel Accidental.vocabulary.Names n.accidental) n.resolveAccidental := by
  unfold resolveAccidental
  cases n.accidental with
  | none => exact .answer .none
  | some text =>
    rw [Option.toList_some, List.flatMap_singleton]
    exact (Accidental.vocabulary.reports_read text).bind_pure fun _ hword => .some hword

end Note

lemma reports_readAll {α : Type} (v : Vocabulary α) (texts : List String) :
    Reports ((texts.flatMap v.causes).map (found {})) (List.Forall₂ v.Names texts)
      (texts.mapM v.read) := by
  rw [List.map_flatMap]
  exact reports_mapM v.reports_read texts

lemma Name.spells_spelling (name : Name) : name.Spells name.spelling := by
  cases name with
  | text s => exact .text s
  | number n =>
    rw [spelling, Decimal.signed_eq_toString]
    exact .number n

lemma given_resolve (default : String) (name : Option Name) :
    Given Name.Spells default name (Name.resolve default name) := by
  cases name with
  | none => exact .missing
  | some name => exact .given (Name.spells_spelling name)

lemma given_getD (offset : Option Offset) :
    Given Eq ⟨0, 1, by decide⟩ offset (offset.getD {}) := by
  cases offset with
  | none => exact .missing
  | some offset => exact .given rfl

lemma rel_map_spelling (name : Option Name) :
    Option.Rel Name.Spells name (name.map Name.spelling) := by
  cases name with
  | none => exact .none
  | some name => exact .some (Name.spells_spelling name)

theorem Note.reports_resolve (table : Tuplet.Table) (n : Note) :
    Reports ((n.causes table.size).map (found {}))
      (fun note => n.Describes note ∧ ∀ id, note.tuplet = some id → id < table.size)
      (n.resolve table) := by
  unfold causes resolve
  simp only [List.append_assoc, List.map_append]
  refine n.reports_resolvePitch.bind fun pitch hpitch => ?_
  refine n.reports_resolveDisplay.bind fun display hdisplay => ?_
  refine (n.reports_resolveTuplet table).bind fun tuplet ⟨htuplet, hdeclared⟩ => ?_
  refine (NoteValue.vocabulary.reports_read n.value).bind fun value hvalue => ?_
  refine n.reports_resolveAccidental.bind fun accidental haccidental => ?_
  refine (reports_readAll Ornament.vocabulary n.ornaments).bind fun ornaments hornaments => ?_
  refine (reports_readAll Articulation.vocabulary n.articulations).bind_pure
    fun articulations harticulations => ⟨?_, hdeclared⟩
  exact {
    pitch := hpitch, display := hdisplay, tuplet := htuplet, value := hvalue
    accidental := haccidental, ornaments := hornaments, articulations := harticulations
    dots := rfl, tieStart := rfl, slurs := rfl, fingering := rfl, grace := rfl
    tupletStarts := rfl, staff := given_resolve _ _, voice := given_resolve _ _ }

/-- The event of a part with so many tuplets is what the draft describes. -/
def Event.Yields (tuplets : Nat) (d : Event) (e : BrailleScore.Event) : Prop :=
  d.Describes e ∧ ∀ n, e = .entry (.note n) → ∀ id, n.tuplet = some id → id < tuplets

theorem Event.reports_resolve (table : Tuplet.Table) (d : Event) :
    Reports ((d.causes table.size).map (found {})) (d.Yields table.size) (d.resolve table) := by
  cases d with
  | startBar staves => exact .answer ⟨.startBar staves, by simp⟩
  | endBar => exact .answer ⟨.endBar, by simp⟩
  | note n =>
    refine (n.reports_resolve table).bind_pure fun note ⟨hnote, hdeclared⟩ => ⟨.note hnote, ?_⟩
    rintro _ ⟨⟩
    exact hdeclared
  | rest value dots staff voice =>
    rw [causes, resolve]
    exact (NoteValue.vocabulary.reports_read value).bind_pure
      fun _ hvalue => ⟨.rest hvalue (given_resolve _ staff) (given_resolve _ voice) dots, by simp⟩
  | clef offset sign line staff =>
    rw [causes, resolve]
    exact (ClefSign.vocabulary.reports_read sign).bind_pure
      fun _ hsign => ⟨.clef (given_getD offset) hsign (given_resolve _ staff) line, by simp⟩
  | key offset fifths staff =>
    exact .answer ⟨.key (given_getD offset) (rel_map_spelling staff) fifths, by simp⟩

/-! ### Parts and scores -/

theorem Event.reports_resolveFrom (table : Tuplet.Table) (measure : Nat) (events : List Event) :
    Reports (events.mapIdx fun i e => (e.causes table.size).map
        (found { measure := some (measure + (events.take i).count .endBar) })).flatten
      (List.Forall₂ (Yields table.size) events) (resolveFrom table measure events) := by
  induction events generalizing measure with
  | nil => exact .answer .nil
  | cons e events ih =>
    have hfirst := (e.reports_resolve table).locate { measure := some measure }
    have hlater := ih (if e = .endBar then measure + 1 else measure)
    have hmeasure (i : Nat) : measure + ((e :: events).take (i + 1)).count .endBar =
        (if e = .endBar then measure + 1 else measure) + (events.take i).count .endBar := by
      rw [List.take_succ_cons, List.count_cons]
      by_cases he : e = .endBar
      · simp only [he, beq_self_eq_true, if_true]
        omega
      · simp [he]
    rw [map_within_found] at hfirst
    simp only [← hmeasure] at hlater
    rw [List.mapIdx_cons, List.flatten_cons]
    exact hfirst.bind fun event hevent => hlater.bind_pure fun later hlater => .cons hevent hlater

def Part.Yields (d : Part) (p : BrailleScore.Part) : Prop := d.Describes p ∧ p.IsSound

theorem Part.reports_resolve (d : Part) :
    Reports (d.causes.map fun c => found { measure := c.1 } c.2) d.Yields d.resolve := by
  have hsplit : (d.causes.map fun c => found { measure := c.1 } c.2) =
      (d.tuplets.mapIdx Tuplet.causes).flatten.map (found {}) ++
        (d.events.mapIdx fun i e => (e.causes d.tuplets.length).map
          (found { measure := some ((d.events.take i).count .endBar) })).flatten := by
    simp only [causes, List.map_append, map_flatten_mapIdx, List.map_map, Function.comp_def]
  have htuplets := Tuplet.Table.reports_declareAll {} d.tuplets
  simp only [Tuplet.Table.size, List.length_nil, Nat.zero_add] at htuplets
  rw [hsplit]
  refine htuplets.bind ?_
  rintro table ⟨htable, hsound⟩
  have htable : table.toList = d.tuplets := htable
  have hsize : table.size = d.tuplets.length := by
    rw [← htable, Tuplet.Table.toList, List.length_reverse, Tuplet.Table.size]
  have hevents := Event.reports_resolveFrom table 0 d.events
  simp only [Nat.zero_add, hsize] at hevents
  refine hevents.bind_pure fun events hevents => ⟨⟨rfl, htable, ?_⟩, ?_, ?_⟩
  · exact hevents.imp fun _ _ h => h.1
  · intro id t ht
    rw [Tuplet.Table.get?, htable] at ht
    exact hsound id t ht
  · intro n hn id hid
    rw [hsize]
    exact forall_mem_of_forall₂ hevents (fun _ _ h => h.2) _ hn n rfl id hid

/-- A draft without faults becomes the score that it describes; else resolving it fails with the
first of its faults. -/
theorem Score.reports_resolve (d : Score) :
    Reports d.faults (fun s => d.Describes s ∧ ∀ p ∈ s.parts, p.IsSound) d.resolve := by
  have hparts := reports_each Part.reports_resolve (fun i => { part := some i }) d.parts
  have hfaults : d.faults = (d.parts.mapIdx fun i p =>
      (p.causes.map fun c => found { measure := c.1 } c.2).map
        (within { part := some i })).flatten := by
    simp only [faults, List.map_map, Function.comp_def, within_found, Position.fill,
      Option.none_or, Option.or_none]
  rw [hfaults]
  exact hparts.bind_pure fun parts hparts =>
    ⟨⟨rfl, hparts.imp fun _ _ h => h.1⟩, forall_mem_of_forall₂ hparts fun _ _ h => h.2⟩

end Draft

/-- A score is loaded if its document is decoded as a draft without faults that describes it. -/
theorem Score.load_eq_ok {decoder : Decoder} {text : String} {score : Score} :
    Score.load decoder text = .ok score ↔ ∃ draft, decoder.timeline text = .ok draft ∧
      draft.faults = [] ∧ draft.Describes score := by
  unfold load
  cases decoder.timeline text with
  | error reason => simp [raise]
  | ok draft =>
    obtain ⟨score', hscore', hfaults, hdescribes, -⟩ | ⟨f, later, hf, hfaults⟩ :=
      draft.reports_resolve.cases_faults
    · constructor
      · intro h
        obtain rfl := Except.ok.inj (hscore'.symm.trans h)
        exact ⟨draft, rfl, hfaults, hdescribes⟩
      · rintro ⟨_, ⟨⟩, -, h⟩
        rw [Draft.Score.rightUnique_describes h hdescribes]
        exact hscore'
    · simp [hf, hfaults]

end BrailleScore
