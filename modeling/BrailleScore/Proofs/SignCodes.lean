import Mathlib.Data.List.Nodup
import Mathlib.Tactic.Lemma
import BrailleScore.Sign.Basic

/-!
# Signs as codes

Inside a voice the signs of braille music share cells, so that a sign is told from its first
cells only together with what follows. A code is a row of patterns that means something by
itself; `Closed c x` says that `c` is the longest code at the start of `c ++ x`. Closed codes
can be cancelled from the front of a text without losing the boundary.
-/

namespace BrailleScore

/-- A pattern that names its dots in ascending order, each once. -/
def Cell.IsCanonical (p : Nat) : Prop := (Cell.ofPattern p).pattern = p

instance (p : Nat) : Decidable (Cell.IsCanonical p) :=
  inferInstanceAs (Decidable ((Cell.ofPattern p).pattern = p))

def Cell.patternOf (c : Char) : Nat := ((Cell.ofChar? c).map Cell.pattern).getD 0

lemma Cell.map_patternOf_row {ps : List Nat} (h : ∀ p ∈ ps, IsCanonical p) :
    (row ps).map patternOf = ps := by
  induction ps with
  | nil => rfl
  | cons p ps ih =>
    have hp : (ofPattern p).pattern = p := h p (by simp)
    have hps := ih (fun q hq => h q (by simp [hq]))
    rw [row] at hps ⊢
    simp only [List.map_cons, patternOf, ofChar?_char, Option.map_some, Option.getD_some, hp]
    exact congrArg (p :: ·) hps

theorem Cell.row_injOn {ps qs : List Nat} (hp : ∀ p ∈ ps, IsCanonical p)
    (hq : ∀ q ∈ qs, IsCanonical q) (h : row ps = row qs) : ps = qs := by
  rw [← map_patternOf_row hp, ← map_patternOf_row hq, h]

lemma Cell.row_append (ps qs : List Nat) : row (ps ++ qs) = row ps ++ row qs :=
  List.map_append

def ValueClass.longer : ValueClass → NoteValue
  | wholes => .whole
  | halves => .half
  | quarters => .quarter
  | eighths => .eighth

lemma ValueClass.mem_all (v : ValueClass) : v ∈ ValueClass.all := by
  cases v <;> decide

lemma Step.mem_all (step : Step) : step ∈ Step.all := by
  cases step <;> decide

namespace Sign

/-- What the text of a sign tells: a value up to its class, and the nesting of a tuplet only
for a triplet. -/
def face : Sign → Sign
  | note step value => note step value.valueClass.longer
  | rest value => rest value.valueClass.longer
  | tuplet number nested => tuplet number (nested && decide (number = .three))
  | s => s

@[simp] lemma patterns_face (s : Sign) : s.face.patterns = s.patterns := by
  cases s with
  | note step value => cases value <;> rfl
  | rest value => cases value <;> rfl
  | tuplet number nested => cases number <;> cases nested <;> rfl
  | _ => rfl

/-- The sign can stand in a voice. -/
def isMusic : Sign → Bool
  | digit _ | lowerDigit _ | hand _ => false
  | fingering fingers => !fingers.isEmpty
  | _ => true

/-- The text of the sign may go on as the text of another one. -/
def isOpen : Sign → Bool
  | accidental _ | octave _ | fingering _ => true
  | _ => false

@[simp] lemma isOpen_face (s : Sign) : s.face.isOpen = s.isOpen := by
  cases s <;> rfl

/-- The faces of the signs of music other than fingerings. -/
def faces : List Sign :=
  [grace, ornament .mordent, ornament .invertedMordent, ornament .trill, ornament .turn,
    articulation .accent, articulation .strongAccent, articulation .breathMark,
    articulation .staccato, articulation .mezzoStaccato, articulation .staccatissimo,
    articulation .tenuto, accidental .sharp, accidental .doubleSharp, accidental .flat,
    accidental .doubleFlat, accidental .natural] ++
  (List.finRange 9).map octave ++
  (ValueClass.all.flatMap fun v => Step.all.map fun step => note step v.longer) ++
  (ValueClass.all.map fun v => rest v.longer) ++
  [dot, tie, slur, tuplet .two false, tuplet .three false, tuplet .three true,
    tuplet .five false, tuplet .six false, tuplet .seven false]

lemma face_mem_faces {s : Sign} (h : s.isMusic) :
    s.face ∈ faces ∨ ∃ f fs, s = fingering (f :: fs) := by
  cases s with
  | ornament o => left; cases o <;> simp [faces, face]
  | articulation a => left; cases a <;> simp [faces, face]
  | accidental a => left; cases a <;> simp [faces, face]
  | note step value => left; simp [faces, face, ValueClass.mem_all, Step.mem_all]
  | rest value => left; simp [faces, face, ValueClass.mem_all]
  | tuplet number nested => left; cases number <;> cases nested <;> simp [faces, face]
  | digit d => simp [isMusic] at h
  | lowerDigit d => simp [isMusic] at h
  | hand hand => simp [isMusic] at h
  | fingering fingers =>
    cases fingers with
    | nil => simp [isMusic] at h
    | cons f fs => exact .inr ⟨f, fs, rfl⟩
  | _ => left; simp [faces, face]

def fingerCell : Fin 5 → Nat
  | 0 => 1
  | 1 => 12
  | 2 => 123
  | 3 => 2
  | 4 => 13

lemma patterns_finger (f : Fin 5) : (Glyph.finger f).patterns = [fingerCell f] := by
  revert f
  decide

lemma fingerCell_injective : Function.Injective fingerCell := by
  intro f g
  revert f g
  decide

/-- The glyphs that stand between items: the sign between voices and the number sign. -/
def dividers : List Glyph := [.fullMeasureInAccord, .numberSign]

/-- The codes of fixed length: dividers and signs of music. -/
def fixedCodes : List (List Nat) := dividers.map Glyph.patterns ++ faces.map patterns

/-- A row of patterns with a meaning of its own. -/
def IsCode (c : List Nat) : Prop :=
  c ∈ fixedCodes ∨ ∃ f fs, c = (fingering (f :: fs)).patterns

lemma patterns_mem_fixedCodes {s : Sign} (h : s.face ∈ faces) : s.patterns ∈ fixedCodes := by
  rw [← patterns_face]
  exact List.mem_append_right _ (List.mem_map_of_mem h)

lemma isCode_patterns {s : Sign} (h : s.isMusic) : IsCode s.patterns := by
  obtain hs | ⟨f, fs, rfl⟩ := face_mem_faces h
  · exact .inl (patterns_mem_fixedCodes hs)
  · exact .inr ⟨f, fs, rfl⟩

def noteCells : List Nat := ValueClass.all.flatMap fun v => Step.all.map v.notePattern

/-- The first cells of what sounds: an octave mark, a note or a rest. -/
def soundingCells : List Nat :=
  [4, 45, 456, 5, 46, 56, 6] ++ noteCells ++ ValueClass.all.map ValueClass.restPattern

/-- Every place inside a code where another code may end: what stands before it, and the cell by
which the longer code goes on. -/
def openings : List (List Nat × Nat) :=
  fixedCodes.flatMap fun c => (List.range' 1 (c.length - 1)).map fun k => (c.take k, c.getD k 0)

lemma mem_openings {c y : List Nat} {p : Nat} (hc : c ≠ []) (h : c ++ p :: y ∈ fixedCodes) :
    (c, p) ∈ openings := by
  have hpos : 0 < c.length := List.length_pos_iff.mpr hc
  refine List.mem_flatMap.mpr ⟨_, h, List.mem_map.mpr ⟨c.length, ?_, ?_⟩⟩
  · rw [List.mem_range'_1, List.length_append, List.length_cons]
    omega
  · simp

/-! ### Finite facts about the table of signs -/

lemma nodup_fixedCodes : fixedCodes.Nodup := by
  -- Codes are compared as numbers whose digits are patterns.
  apply List.Nodup.of_map fun c => c.foldl (fun n p => 1000000 * n + p) 0
  decide +kernel

lemma fixedCodes_spec : ∀ c ∈ fixedCodes,
    c ≠ [] ∧ (∀ f : Fin 5, ¬ [fingerCell f] <+: c) ∧ ∀ p ∈ c, Cell.IsCanonical p := by
  decide +kernel

lemma openings_spec : (∀ s ∈ faces, s.patterns ∈ openings.map Prod.fst → s.isOpen) ∧
    ∀ o ∈ openings, (∀ g ∈ dividers, g.patterns ≠ o.1) ∧
      (∀ number : Fin 9, (octave number).patterns = o.1 → o.2 ∉ noteCells) ∧
      ∀ a ∈ [Accidental.sharp, .doubleSharp, .flat, .doubleFlat, .natural],
        (accidental a).patterns = o.1 → o.2 ∉ soundingCells := by
  decide +kernel

lemma isCanonical_fingerCell : ∀ f : Fin 5, Cell.IsCanonical (fingerCell f) := by
  decide

lemma ne_nil_of_fixed {c : List Nat} (hc : c ∈ fixedCodes) : c ≠ [] := (fixedCodes_spec c hc).1

lemma not_finger_prefix_fixed {c : List Nat} (hc : c ∈ fixedCodes) (f : Fin 5) :
    ¬ [fingerCell f] <+: c := (fixedCodes_spec c hc).2.1 f

lemma not_divider_of_mem_faces {s : Sign} (hs : s ∈ faces) {g : Glyph} (hg : g ∈ dividers) :
    s.patterns ≠ g.patterns :=
  ((List.nodup_append.mp nodup_fixedCodes).2.2 _ (List.mem_map_of_mem hg) _
    (List.mem_map_of_mem hs)).symm

/-! ### Fingerings -/

@[simp] lemma patterns_fingering_singleton (f : Fin 5) :
    (fingering [f]).patterns = [fingerCell f] := by
  simp [patterns, List.intercalate, patterns_finger]

@[simp] lemma patterns_fingering_cons (f g : Fin 5) (fs : List (Fin 5)) :
    (fingering (f :: g :: fs)).patterns =
      fingerCell f :: 14 :: (fingering (g :: fs)).patterns := by
  have hslur : Glyph.slur.patterns = [14] := rfl
  simp [patterns, List.intercalate, hslur, patterns_finger]

lemma fingerCell_prefix_fingering (f : Fin 5) (fs : List (Fin 5)) :
    [fingerCell f] <+: (fingering (f :: fs)).patterns := by
  cases fs with
  | nil => simp
  | cons g fs => simp

lemma ne_nil_of_isCode {c : List Nat} (h : IsCode c) : c ≠ [] := by
  obtain h | ⟨f, fs, rfl⟩ := h
  · exact ne_nil_of_fixed h
  · exact (fingerCell_prefix_fingering f fs).ne_nil (List.cons_ne_nil _ _)

lemma fingers_eq_of_patterns_eq {f g : Fin 5} {fs gs : List (Fin 5)}
    (e : (fingering (f :: fs)).patterns = (fingering (g :: gs)).patterns) :
    f :: fs = g :: gs := by
  induction fs generalizing f g gs with
  | nil =>
    cases gs with
    | nil => simpa [fingerCell_injective.eq_iff] using e
    | cons g' gs => simp at e
  | cons f' fs ih =>
    cases gs with
    | nil => simp at e
    | cons g' gs =>
      simp only [patterns_fingering_cons, List.cons.injEq, true_and] at e
      rw [fingerCell_injective e.1, ih e.2]

lemma isCanonical_fingering (f : Fin 5) (fs : List (Fin 5)) :
    ∀ p ∈ (fingering (f :: fs)).patterns, Cell.IsCanonical p := by
  induction fs generalizing f with
  | nil => simpa using isCanonical_fingerCell f
  | cons g fs ih =>
    intro p hp
    simp only [patterns_fingering_cons, List.mem_cons] at hp
    obtain rfl | rfl | hp := hp
    · exact isCanonical_fingerCell f
    · decide
    · exact ih g p hp

theorem isCanonical_of_isCode {c : List Nat} (h : IsCode c) : ∀ p ∈ c, Cell.IsCanonical p := by
  obtain h | ⟨f, fs, rfl⟩ := h
  · exact (fixedCodes_spec c h).2.2
  · exact isCanonical_fingering f fs

/-! ### Closed codes -/

/-- No longer code than `c` begins the text `c ++ x`. -/
def Closed (c x : List Nat) : Prop := ∀ c', IsCode c' → c <+: c' → c' <+: c ++ x → c' = c

/-- A closed code determines itself and its boundary in a longer text. -/
theorem Closed.cancel {c c' x x' : List Nat} (hc : IsCode c) (hc' : IsCode c')
    (h : Closed c x) (h' : Closed c' x') (e : c ++ x = c' ++ x') : c = c' ∧ x = x' := by
  have hpre : c <+: c ++ x := List.prefix_append c x
  have hpre' : c' <+: c ++ x := e ▸ List.prefix_append c' x'
  have hcc : c = c' := by
    obtain hle | hle := List.prefix_or_prefix_of_prefix hpre hpre'
    · exact (h c' hc' hle hpre').symm
    · exact h' c hc hle (e ▸ hpre)
  subst hcc
  exact ⟨rfl, List.append_cancel_left e⟩

lemma closed_fixed {c x : List Nat} (hc : c ∈ fixedCodes)
    (h : ∀ p, (c, p) ∈ openings → x.head? ≠ some p) : Closed c x := by
  intro c' hc' hpre hx
  obtain hc' | ⟨f, fs, rfl⟩ := hc'
  · obtain ⟨y, rfl⟩ := hpre
    cases y with
    | nil => exact List.append_nil c
    | cons p y =>
      rw [List.prefix_append_right_inj] at hx
      obtain ⟨z, rfl⟩ := hx
      exact absurd rfl (h p (mem_openings (ne_nil_of_fixed hc) hc'))
  · have hlen : [fingerCell f].length ≤ c.length := List.length_pos_iff.mpr (ne_nil_of_fixed hc)
    have hf := List.prefix_of_prefix_length_le (fingerCell_prefix_fingering f fs) hpre hlen
    exact absurd hf (not_finger_prefix_fixed hc f)

lemma closed_octave (number : Fin 9) {p : Nat} {x : List Nat} (hp : p ∈ noteCells)
    (hx : x.head? = some p) : Closed (octave number).patterns x := by
  refine closed_fixed (patterns_mem_fixedCodes ?_) fun q hq hxq => ?_
  · revert number
    decide
  · rw [hx, Option.some.injEq] at hxq
    exact (openings_spec.2 _ hq).2.1 number rfl (hxq ▸ hp)

lemma closed_accidental (a : Accidental) {p : Nat} {x : List Nat} (hp : p ∈ soundingCells)
    (hx : x.head? = some p) : Closed (accidental a).patterns x := by
  refine closed_fixed (patterns_mem_fixedCodes ?_) fun q hq hxq => ?_
  · cases a <;> decide
  · rw [hx, Option.some.injEq] at hxq
    exact (openings_spec.2 _ hq).2.2 a (by cases a <;> decide) rfl (hxq ▸ hp)

lemma closed_divider {g : Glyph} (h : g ∈ dividers) (x : List Nat) : Closed g.patterns x := by
  refine closed_fixed (List.mem_append_left _ (List.mem_map_of_mem h)) fun p hp => ?_
  exact absurd rfl ((openings_spec.2 _ hp).1 g h)

/-- Signs other than accidentals, octave marks and fingerings are closed wherever they stand. -/
lemma closed_of_not_isOpen {s : Sign} (h : s.isMusic) (hs : s.isOpen = false) (x : List Nat) :
    Closed s.patterns x := by
  obtain hf | ⟨f, fs, rfl⟩ := face_mem_faces h
  · refine closed_fixed (patterns_mem_fixedCodes hf) fun p hp => ?_
    rw [← patterns_face] at hp
    have hopen := openings_spec.1 _ hf (List.mem_map_of_mem hp)
    rw [isOpen_face, hs] at hopen
    exact absurd hopen Bool.false_ne_true
  · simp [isOpen] at hs

lemma closed_fingering (f : Fin 5) (fs : List (Fin 5)) {x : List Nat}
    (h : ∀ g : Fin 5, ¬ [14, fingerCell g] <+: x) :
    Closed (fingering (f :: fs)).patterns x := by
  intro c' hc' hpre hx
  obtain hc' | ⟨g, gs, rfl⟩ := hc'
  · exact absurd ((fingerCell_prefix_fingering f fs).trans hpre) (not_finger_prefix_fixed hc' f)
  · induction fs generalizing f g gs with
    | nil =>
      cases gs with
      | nil => simpa [eq_comm] using hpre
      | cons g' gs =>
        simp only [patterns_fingering_singleton, patterns_fingering_cons, List.singleton_append,
          List.cons_prefix_cons] at hx
        have hfinger : [14, fingerCell g'] <+: 14 :: (fingering (g' :: gs)).patterns :=
          List.cons_prefix_cons.mpr ⟨rfl, fingerCell_prefix_fingering g' gs⟩
        exact absurd (hfinger.trans hx.2) (h g')
    | cons f' fs ih =>
      cases gs with
      | nil => simp at hpre
      | cons g' gs =>
        simp only [patterns_fingering_cons, List.cons_append, List.cons_prefix_cons,
          true_and] at hpre hx ⊢
        rw [hpre.1, ih f' g' gs hpre.2 hx.2]

theorem face_eq_of_patterns_eq {s s' : Sign} (h : s.isMusic) (h' : s'.isMusic)
    (e : s.patterns = s'.patterns) : s.face = s'.face := by
  obtain hs | ⟨f, fs, rfl⟩ := face_mem_faces h
  · obtain hs' | ⟨g, gs, rfl⟩ := face_mem_faces h'
    · have hnodup := (List.nodup_append.mp nodup_fixedCodes).2.1
      exact List.inj_on_of_nodup_map hnodup hs hs' (by simpa using e)
    · exact absurd (e ▸ fingerCell_prefix_fingering g gs)
        (not_finger_prefix_fixed (patterns_mem_fixedCodes hs) g)
  · obtain hs' | ⟨g, gs, rfl⟩ := face_mem_faces h'
    · exact absurd (e ▸ fingerCell_prefix_fingering f fs)
        (not_finger_prefix_fixed (patterns_mem_fixedCodes hs') f)
    · rw [fingers_eq_of_patterns_eq e]

end Sign

end BrailleScore
