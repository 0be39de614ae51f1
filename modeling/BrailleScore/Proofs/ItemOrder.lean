import BrailleScore.Proofs.Outcome
import BrailleScore.Proofs.SignCodes
import BrailleScore.Script.Basic

/-!
# The order of the signs in an item

An item of a voice is a tuplet sign or the signs of a note or rest. `InOrder` is the grammar of
its signs. An item that is followed by nothing that could belong to it determines its signs, up
to what texts cannot tell, and its end in a longer text.
-/

namespace BrailleScore

namespace Sign

/-- What links a note to the next one. -/
inductive Linking : List Sign → Prop
  | none : Linking []
  | tie : Linking [tie]
  | slur : Linking [slur]

/-- What stands behind the cell of a note or rest. -/
inductive Trailing : List Sign → Prop
  | linking {S : List Sign} : Linking S → Trailing S
  | fingering {S : List Sign} (f : Fin 5) (fs : List (Fin 5)) :
      Linking S → Trailing (fingering (f :: fs) :: S)
  | dot {S : List Sign} : Trailing S → Trailing (dot :: S)

/-- The cell of a note or rest with its octave mark and all that stands behind it. -/
inductive Sounding : List Sign → Prop
  | marked {S : List Sign} (number : Fin 9) (step : Step) (value : NoteValue) :
      Trailing S → Sounding (octave number :: note step value :: S)
  | note {S : List Sign} (step : Step) (value : NoteValue) :
      Trailing S → Sounding (note step value :: S)
  | rest {S : List Sign} (value : NoteValue) : Trailing S → Sounding (rest value :: S)

/-- The signs of one item. -/
inductive InOrder : List Sign → Prop
  | tuplet (number : Tuplet.Number) (nested : Bool) : InOrder [tuplet number nested]
  | grace {S : List Sign} : InOrder S → InOrder (grace :: S)
  | ornament {S : List Sign} (o : Ornament) : InOrder S → InOrder (ornament o :: S)
  | articulation {S : List Sign} (a : Articulation) : InOrder S → InOrder (articulation a :: S)
  | accidental {S : List Sign} (a : Accidental) : Sounding S → InOrder (accidental a :: S)
  | sounding {S : List Sign} : Sounding S → InOrder S

/-- The sign belongs behind the cell of a note or rest. -/
def trails : Sign → Bool
  | dot | tie | slur => true
  | fingering fingers => !fingers.isEmpty
  | _ => false

/-- Every item has one such sign: a tuplet sign or the cell of a note or rest. -/
def isCore : Sign → Bool
  | tuplet .. | note .. | rest _ => true
  | _ => false

@[simp] lemma trails_face (s : Sign) : s.face.trails = s.trails := by
  cases s <;> rfl

@[simp] lemma isCore_face (s : Sign) : s.face.isCore = s.isCore := by
  cases s <;> rfl

def cells (S : List Sign) : List Nat := S.flatMap patterns

@[simp] lemma cells_nil : cells [] = [] := rfl

@[simp] lemma cells_cons (s : Sign) (S : List Sign) : cells (s :: S) = s.patterns ++ cells S :=
  rfl

/-- No sign of the text `x` belongs to an item before it. -/
def Fresh (x : List Nat) : Prop := ∀ s : Sign, s.trails → ¬ s.patterns <+: x

/-- Each sign of music is closed where it stands in front of the text `x`. -/
def Legible : List Sign → List Nat → Prop
  | [], _ => True
  | s :: S, x => s.isMusic ∧ Closed s.patterns (cells S ++ x) ∧ Legible S x

lemma Linking.legible {S : List Sign} (h : Linking S) (x : List Nat) : Legible S x := by
  cases h with
  | none => trivial
  | tie => exact ⟨rfl, closed_of_not_isOpen rfl rfl _, trivial⟩
  | slur => exact ⟨rfl, closed_of_not_isOpen rfl rfl _, trivial⟩

lemma Linking.not_finger_prefix {S : List Sign} {x : List Nat} (h : Linking S) (hx : Fresh x)
    (g : Fin 5) : ¬ [14, fingerCell g] <+: cells S ++ x := by
  intro hpre
  cases h with
  | none => exact hx Sign.slur rfl ((List.prefix_append [14] [fingerCell g]).trans hpre)
  | tie => exact absurd (List.cons_prefix_cons.mp hpre).1 (by decide)
  | slur =>
    have hfinger : [fingerCell g] <+: x := (List.cons_prefix_cons.mp hpre).2
    exact hx (fingering [g]) rfl (patterns_fingering_singleton g ▸ hfinger)

lemma Trailing.legible {S : List Sign} {x : List Nat} (h : Trailing S) (hx : Fresh x) :
    Legible S x := by
  induction h with
  | linking h => exact h.legible x
  | fingering f fs h =>
    exact ⟨rfl, closed_fingering f fs fun g => h.not_finger_prefix hx g, h.legible x⟩
  | dot _ ih => exact ⟨rfl, closed_of_not_isOpen rfl rfl _, ih⟩

lemma notePattern_mem_noteCells (v : ValueClass) (step : Step) :
    v.notePattern step ∈ noteCells :=
  List.mem_flatMap.mpr ⟨v, v.mem_all, List.mem_map_of_mem step.mem_all⟩

lemma Sounding.legible {S : List Sign} {x : List Nat} (h : Sounding S) (hx : Fresh x) :
    Legible S x := by
  cases h with
  | marked number step value h =>
    have hmem := notePattern_mem_noteCells value.valueClass step
    exact ⟨rfl, closed_octave number hmem rfl, rfl, closed_of_not_isOpen rfl rfl _, h.legible hx⟩
  | note step value h => exact ⟨rfl, closed_of_not_isOpen rfl rfl _, h.legible hx⟩
  | rest value h => exact ⟨rfl, closed_of_not_isOpen rfl rfl _, h.legible hx⟩

lemma head_octave : ∀ number : Fin 9,
    ∃ p ∈ soundingCells, (octave number).patterns.head? = some p := by
  decide

lemma Sounding.head {S : List Sign} (h : Sounding S) (x : List Nat) :
    ∃ p ∈ soundingCells, (cells S ++ x).head? = some p := by
  cases h with
  | marked number step value h =>
    obtain ⟨p, hp, hhead⟩ := head_octave number
    exact ⟨p, hp, by simp [hhead]⟩
  | note step value h =>
    refine ⟨value.valueClass.notePattern step, ?_, rfl⟩
    have := notePattern_mem_noteCells value.valueClass step
    simp only [soundingCells, List.mem_append]
    exact .inl (.inr this)
  | rest value h => exact ⟨value.valueClass.restPattern, by cases value <;> decide, rfl⟩

/-- The signs of an item are closed if nothing behind it belongs to it. -/
theorem InOrder.legible {S : List Sign} {x : List Nat} (h : InOrder S) (hx : Fresh x) :
    Legible S x := by
  induction h with
  | tuplet number nested => exact ⟨rfl, closed_of_not_isOpen rfl rfl _, trivial⟩
  | grace _ ih => exact ⟨rfl, closed_of_not_isOpen rfl rfl _, ih⟩
  | ornament o _ ih => exact ⟨rfl, closed_of_not_isOpen rfl rfl _, ih⟩
  | articulation a _ ih => exact ⟨rfl, closed_of_not_isOpen rfl rfl _, ih⟩
  | accidental a h =>
    obtain ⟨p, hp, hhead⟩ := h.head x
    exact ⟨rfl, closed_accidental a hp hhead, h.legible hx⟩
  | sounding h => exact h.legible hx

/-! ### The end of an item -/

lemma Linking.trails {S : List Sign} (h : Linking S) : ∀ s ∈ S, s.trails := by
  cases h <;> simp [Sign.trails]

lemma Trailing.trails {S : List Sign} (h : Trailing S) : ∀ s ∈ S, s.trails := by
  induction h with
  | linking h => exact h.trails
  | fingering f fs h => exact List.forall_mem_cons.mpr ⟨rfl, h.trails⟩
  | dot _ ih => exact List.forall_mem_cons.mpr ⟨rfl, ih⟩

/-- Only what belongs behind a core stands behind it. -/
def CoreLast (S : List Sign) : Prop := S.Pairwise fun s t => s.isCore → t.trails

lemma coreLast_cons_of_not_isCore {s : Sign} {S : List Sign} (hs : s.isCore = false)
    (h : CoreLast S) : CoreLast (s :: S) :=
  List.pairwise_cons.mpr ⟨fun t _ hc => by simp [hs] at hc, h⟩

lemma coreLast_of_trails {S : List Sign} (h : ∀ s ∈ S, s.trails) : CoreLast S :=
  List.pairwise_of_forall_mem_list fun _ _ t ht _ => h t ht

lemma Sounding.coreLast {S : List Sign} (h : Sounding S) : CoreLast S := by
  cases h with
  | marked number step value h =>
    refine coreLast_cons_of_not_isCore rfl (List.pairwise_cons.mpr ⟨fun t ht _ => ?_, ?_⟩)
    · exact h.trails t ht
    · exact coreLast_of_trails h.trails
  | note step value h =>
    exact List.pairwise_cons.mpr ⟨fun t ht _ => h.trails t ht, coreLast_of_trails h.trails⟩
  | rest value h =>
    exact List.pairwise_cons.mpr ⟨fun t ht _ => h.trails t ht, coreLast_of_trails h.trails⟩

lemma InOrder.coreLast {S : List Sign} (h : InOrder S) : CoreLast S := by
  induction h with
  | tuplet number nested => exact List.pairwise_singleton _ _
  | grace _ ih => exact coreLast_cons_of_not_isCore rfl ih
  | ornament o _ ih => exact coreLast_cons_of_not_isCore rfl ih
  | articulation a _ ih => exact coreLast_cons_of_not_isCore rfl ih
  | accidental a h => exact coreLast_cons_of_not_isCore rfl h.coreLast
  | sounding h => exact h.coreLast

lemma Sounding.exists_isCore {S : List Sign} (h : Sounding S) : ∃ s ∈ S, s.isCore := by
  cases h <;> simp [isCore]

lemma InOrder.exists_isCore {S : List Sign} (h : InOrder S) : ∃ s ∈ S, s.isCore := by
  induction h with
  | tuplet number nested => simp [isCore]
  | grace _ ih => simpa [isCore] using ih
  | ornament o _ ih => simpa [isCore] using ih
  | articulation a _ ih => simpa [isCore] using ih
  | accidental a h => simpa [isCore] using h.exists_isCore
  | sounding h => exact h.exists_isCore

/-- Of two legible rows with one text, one tells the beginning of the other. -/
lemma Legible.split {S S' : List Sign} {x x' : List Nat} (h : Legible S x) (h' : Legible S' x')
    (e : cells S ++ x = cells S' ++ x') :
    (∃ A M, S' = A ++ M ∧ A.map face = S.map face ∧ x = cells M ++ x') ∨
      ∃ A M, S = A ++ M ∧ A.map face = S'.map face ∧ x' = cells M ++ x := by
  induction S generalizing S' with
  | nil => exact .inl ⟨[], S', rfl, rfl, e⟩
  | cons s S ih =>
    cases S' with
    | nil => exact .inr ⟨[], s :: S, rfl, rfl, e.symm⟩
    | cons s' S' =>
      obtain ⟨hm, hc, hS⟩ := h
      obtain ⟨hm', hc', hS'⟩ := h'
      simp only [cells_cons, List.append_assoc] at e
      obtain ⟨hp, hrest⟩ := hc.cancel (isCode_patterns hm) (isCode_patterns hm') hc' e
      have hface := face_eq_of_patterns_eq hm hm' hp
      obtain ⟨A, M, rfl, hA, hx⟩ | ⟨A, M, rfl, hA, hx⟩ := ih hS hS' hrest
      · exact .inl ⟨s' :: A, M, rfl, by simp [hA, hface], hx⟩
      · exact .inr ⟨s :: A, M, rfl, by simp [hA, hface], hx⟩

lemma InOrder.eq_nil_of_split {S A M : List Sign} {x : List Nat} (h : InOrder S)
    (h' : InOrder (A ++ M)) (hA : A.map face = S.map face) (hx : Fresh (cells M ++ x)) :
    M = [] := by
  cases M with
  | nil => rfl
  | cons m M =>
    -- The core stands in `A` already, so that `m` trails it and cannot begin a fresh text.
    obtain ⟨s, hs, hcore⟩ := h.exists_isCore
    have hmem : s.face ∈ A.map face := hA ▸ List.mem_map_of_mem hs
    obtain ⟨a, ha, hface⟩ := List.mem_map.mp hmem
    have hacore : a.isCore := by rw [← isCore_face, hface, isCore_face, hcore]
    have htrails := (List.pairwise_append.mp h'.coreLast).2.2 a ha m (by simp) hacore
    exact absurd (by simp) (hx m htrails)

/-- An item determines what it tells and its end in a longer text. -/
theorem InOrder.cancel {S S' : List Sign} {x x' : List Nat} (h : InOrder S) (h' : InOrder S')
    (hx : Fresh x) (hx' : Fresh x') (e : cells S ++ x = cells S' ++ x') :
    S.map face = S'.map face ∧ x = x' := by
  obtain ⟨A, M, rfl, hA, hM⟩ | ⟨A, M, rfl, hA, hM⟩ := (h.legible hx).split (h'.legible hx') e
  · have hnil := h.eq_nil_of_split h' hA (hM ▸ hx)
    subst hnil
    exact ⟨by simpa using hA.symm, by simpa using hM⟩
  · have hnil := h'.eq_nil_of_split h hA (hM ▸ hx')
    subst hnil
    exact ⟨by simpa using hA, by simpa using hM.symm⟩

/-! ### Places where an item may end -/

lemma isMusic_of_trails {s : Sign} (h : s.trails) : s.isMusic := by
  cases s <;> simp_all [trails, isMusic]

lemma fresh_nil : Fresh [] := by
  intro s hs hpre
  exact ne_nil_of_isCode (isCode_patterns (isMusic_of_trails hs)) (List.prefix_nil.mp hpre)

/-- A closed code that is no trailing sign ends the item before it. -/
lemma fresh_of_fixed {c x : List Nat} (hc : c ∈ fixedCodes) (hcx : Closed c x)
    (h : ∀ s ∈ [dot, tie, slur], c ≠ s.patterns) : Fresh (c ++ x) := by
  have hplain : ∀ s ∈ [dot, tie, slur], ¬ s.patterns <+: c ++ x := by
    rintro s hs ⟨y, hy⟩
    have hm : s.isMusic ∧ s.isOpen = false := by
      revert s
      simp [isMusic, isOpen]
    have hcs := hcx.cancel (.inl hc) (isCode_patterns hm.1) (closed_of_not_isOpen hm.1 hm.2 y)
      hy.symm
    exact h s hs hcs.1
  intro s hs hpre
  cases s with
  | dot => exact hplain dot (by simp) hpre
  | tie => exact hplain tie (by simp) hpre
  | slur => exact hplain slur (by simp) hpre
  | fingering fs =>
    cases fs with
    | nil => simp [trails] at hs
    | cons f fs =>
      have hlen : [fingerCell f].length ≤ c.length := List.length_pos_iff.mpr (ne_nil_of_fixed hc)
      have hf := (fingerCell_prefix_fingering f fs).trans hpre
      have := List.prefix_of_prefix_length_le hf (List.prefix_append c x) hlen
      exact not_finger_prefix_fixed hc f this
  | _ => simp [trails] at hs

lemma InOrder.exists_cons {S : List Sign} (h : InOrder S) :
    ∃ s S', S = s :: S' ∧ s.trails = false := by
  cases h with
  | sounding h => cases h <;> exact ⟨_, _, rfl, rfl⟩
  | _ => exact ⟨_, _, rfl, rfl⟩

theorem InOrder.fresh {S : List Sign} {x : List Nat} (h : InOrder S) (hx : Fresh x) :
    Fresh (cells S ++ x) := by
  have hlegible := h.legible hx
  obtain ⟨s, S, rfl, hs⟩ := h.exists_cons
  obtain ⟨hm, hc, -⟩ := hlegible
  obtain hf | ⟨f, fs, rfl⟩ := face_mem_faces hm
  · rw [cells_cons, List.append_assoc]
    refine fresh_of_fixed (patterns_mem_fixedCodes hf) hc fun t ht e => ?_
    have ht' : t.isMusic ∧ t.trails := by
      revert t
      simp [isMusic, trails]
    have := congrArg trails (face_eq_of_patterns_eq hm ht'.1 e)
    simp [hs, ht'.2] at this
  · simp [trails] at hs

lemma fresh_divider {g : Glyph} (hg : g ∈ dividers) (x : List Nat) : Fresh (g.patterns ++ x) := by
  refine fresh_of_fixed (List.mem_append_left _ (List.mem_map_of_mem hg)) (closed_divider hg x) ?_
  revert g
  decide

lemma InOrder.ne_divider {S : List Sign} {x y : List Nat} {g : Glyph} (h : InOrder S)
    (hx : Fresh x) (hg : g ∈ dividers) : cells S ++ x ≠ g.patterns ++ y := by
  intro e
  have hlegible := h.legible hx
  obtain ⟨s, S, rfl, hs⟩ := h.exists_cons
  obtain ⟨hm, hc, -⟩ := hlegible
  rw [cells_cons, List.append_assoc] at e
  have hcode : IsCode g.patterns := .inl (List.mem_append_left _ (List.mem_map_of_mem hg))
  have hp := (hc.cancel (isCode_patterns hm) hcode (closed_divider hg y) e).1
  obtain hf | ⟨f, fs, rfl⟩ := face_mem_faces hm
  · exact not_divider_of_mem_faces hf hg (by rw [patterns_face, hp])
  · simp [trails] at hs

lemma InOrder.cells_ne_nil {S : List Sign} (h : InOrder S) : cells S ≠ [] := by
  have hlegible := h.legible fresh_nil
  obtain ⟨s, S, rfl, -⟩ := h.exists_cons
  exact List.append_ne_nil_of_left_ne_nil (ne_nil_of_isCode (isCode_patterns hlegible.1)) _

end Sign

end BrailleScore
