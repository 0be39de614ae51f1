import BrailleScore.Proofs.ItemOrder
import BrailleScore.Sign.Repetition

/-!
# Counts in front of items

The count of a repeated item stands in upper digits directly in front of the item, and some items
begin with a cell of an upper digit themselves. Such an item is a note without anything in front
of its cell, and what follows this cell cannot begin an item, so that a count is read wrongly
only where it goes on over the whole of an item.
-/

namespace BrailleScore

namespace Sign

/-- All cells are those of upper digits. -/
def IsDigits (x : List Nat) : Prop := ∀ p ∈ x, ∃ d : Fin 10, (Glyph.digit d).patterns = [p]

instance (x : List Nat) : Decidable (IsDigits x) := by
  unfold IsDigits
  infer_instance

def countCells (n : Nat) : List Nat :=
  (Decimal.digits n).flatMap fun d => (Glyph.digit d).patterns

lemma exists_patterns_digit (d : Fin 10) : ∃ p, (Glyph.digit d).patterns = [p] := by
  apply List.length_eq_one_iff.mp
  revert d
  decide

lemma digit_eq_of_patterns_eq {d d' : Fin 10}
    (h : (Glyph.digit d).patterns = (Glyph.digit d').patterns) : d = d' := by
  revert d d'
  decide

lemma isCanonical_digit (d : Fin 10) : ∀ p ∈ (Glyph.digit d).patterns, Cell.IsCanonical p := by
  revert d
  decide

lemma upperNumber_eq_row (n : Nat) : Glyph.upperNumber n = Cell.row (countCells n) := by
  simp [Glyph.upperNumber, countCells, Cell.row, List.map_flatMap, Glyph.text]

lemma isCanonical_countCells (n : Nat) : ∀ p ∈ countCells n, Cell.IsCanonical p := by
  intro p hp
  obtain ⟨d, -, hp⟩ := List.mem_flatMap.mp hp
  exact isCanonical_digit d p hp

lemma isDigits_countCells (n : Nat) : IsDigits (countCells n) := by
  intro p hp
  obtain ⟨d, -, hp⟩ := List.mem_flatMap.mp hp
  obtain ⟨q, hq⟩ := exists_patterns_digit d
  rw [hq, List.mem_singleton] at hp
  exact ⟨d, hp ▸ hq⟩

lemma countCells_injective : Function.Injective countCells := by
  have hdigits : ∀ ds ds' : List (Fin 10), (ds.flatMap fun d => (Glyph.digit d).patterns) =
      (ds'.flatMap fun d => (Glyph.digit d).patterns) → ds = ds' := by
    intro ds
    induction ds with
    | nil =>
      intro ds' h
      cases ds' with
      | nil => rfl
      | cons d' ds' =>
        obtain ⟨p', hp'⟩ := exists_patterns_digit d'
        simp [hp'] at h
    | cons d ds ih =>
      intro ds' h
      obtain ⟨p, hp⟩ := exists_patterns_digit d
      cases ds' with
      | nil => simp [hp] at h
      | cons d' ds' =>
        obtain ⟨p', hp'⟩ := exists_patterns_digit d'
        simp only [List.flatMap_cons, hp, hp', List.singleton_append, List.cons.injEq] at h
        have hd : d = d' := digit_eq_of_patterns_eq (by rw [hp, hp', h.1])
        rw [hd, ih ds' h.2]
  intro n m h
  rw [← Decimal.ofDigits_digits n, ← Decimal.ofDigits_digits m, hdigits _ _ h]

/-! ### Items that begin with a digit -/

lemma length_of_digit_head : ∀ s ∈ faces, ∀ d : Fin 10,
    (Glyph.digit d).patterns <+: s.patterns →
      s.trails ∨ s.isCore ∧ s.patterns = (Glyph.digit d).patterns := by
  decide +kernel

lemma exists_trailing_prefix_fingering {x y : List Nat}
    (h : x <:+ y → ∃ t : Sign, t.trails ∧ t.patterns <+: x) (f : Fin 5) (fs : List (Fin 5))
    (hx : x <:+ (fingering (f :: fs)).patterns ++ y) :
    ∃ t : Sign, t.trails ∧ t.patterns <+: x := by
  induction fs generalizing f with
  | nil =>
    rw [patterns_fingering_singleton, List.singleton_append] at hx
    obtain rfl | hx := List.suffix_cons_iff.mp hx
    · exact ⟨fingering [f], rfl, patterns_fingering_singleton f ▸ List.prefix_append _ _⟩
    · exact h hx
  | cons g fs ih =>
    rw [patterns_fingering_cons, List.cons_append, List.cons_append] at hx
    obtain rfl | hx := List.suffix_cons_iff.mp hx
    · exact ⟨fingering [f], rfl, patterns_fingering_singleton f ▸ List.prefix_append _ _⟩
    · -- Between two fingers stands the cell of a slur.
      obtain rfl | hx := List.suffix_cons_iff.mp hx
      · exact ⟨slur, rfl, List.prefix_append [14] _⟩
      · exact ih g hx

/-- Inside of what trails a note, something that trails a note begins everywhere. -/
lemma exists_trailing_prefix {F : List Sign} (hF : ∀ t ∈ F, t.trails) {x : List Nat}
    (hne : x ≠ []) (hx : x <:+ cells F) : ∃ t : Sign, t.trails ∧ t.patterns <+: x := by
  induction F with
  | nil => exact absurd (List.suffix_nil.mp hx) hne
  | cons t F ih =>
    obtain ⟨ht, hrest⟩ := List.forall_mem_cons.mp hF
    have hlater := ih hrest
    cases t with
    | dot =>
      obtain rfl | hx := List.suffix_cons_iff.mp hx
      · exact ⟨dot, rfl, List.prefix_append _ _⟩
      · exact hlater hx
    | slur =>
      obtain rfl | hx := List.suffix_cons_iff.mp hx
      · exact ⟨slur, rfl, List.prefix_append _ _⟩
      · exact hlater hx
    | tie =>
      obtain rfl | hx := List.suffix_cons_iff.mp hx
      · exact ⟨tie, rfl, List.prefix_append _ _⟩
      · -- The second cell of a tie is that of a slur.
        obtain rfl | hx := List.suffix_cons_iff.mp hx
        · exact ⟨slur, rfl, List.prefix_append _ _⟩
        · exact hlater hx
    | fingering fs =>
      cases fs with
      | nil => simp [trails] at ht
      | cons f fs => exact exists_trailing_prefix_fingering hlater f fs hx
    | _ => simp [trails] at ht

lemma InOrder.exists_of_digit_head {S : List Sign} {p : Nat} {x : List Nat} (h : InOrder S)
    (hx : cells S = p :: x) (hp : IsDigits [p]) : ∃ F, (∀ t ∈ F, t.trails) ∧ x = cells F := by
  obtain ⟨d, hd⟩ := hp p (List.mem_singleton_self p)
  have hlegible := h.legible fresh_nil
  have hcore := h.coreLast
  obtain ⟨s, S, rfl, hs⟩ := h.exists_cons
  obtain hf | ⟨f, fs, rfl⟩ := face_mem_faces hlegible.1
  · have hhead : (Glyph.digit d).patterns <+: s.face.patterns := by
      have hne := ne_nil_of_isCode (isCode_patterns hlegible.1)
      rw [patterns_face, hd]
      rw [cells_cons] at hx
      cases hpat : s.patterns with
      | nil => exact absurd hpat hne
      | cons q y =>
        rw [hpat, List.cons_append] at hx
        rw [(List.cons.inj hx).1]
        exact List.prefix_append [p] y
    obtain htrails | ⟨hiscore, hpat⟩ := length_of_digit_head s.face hf d hhead
    · rw [trails_face, hs] at htrails
      exact absurd htrails Bool.false_ne_true
    · rw [isCore_face] at hiscore
      rw [patterns_face, hd] at hpat
      rw [cells_cons, hpat] at hx
      exact ⟨S, fun t ht => (List.pairwise_cons.mp hcore).1 t ht hiscore, (List.cons.inj hx).2.symm⟩
  · simp [trails] at hs

/-- A count does not go on over the beginning of an item, and over all of it only if the item is
written in digits and stands before a further item that is written out. -/
lemma InOrder.eq_nil_of_count {S T : List Sign} {e x y : List Nat} (hS : InOrder S)
    (hT : InOrder T) (hy : Fresh y) (he : IsDigits e)
    (hend : IsDigits (cells S) → x = [] ∨ ∃ z, x = Glyph.numberSign.patterns ++ z)
    (h : cells S ++ x = e ++ (cells T ++ y)) : e = [] := by
  -- The count goes on over all of the item.
  have hall : ∀ e', e = cells S ++ e' → x ≠ e' ++ (cells T ++ y) := by
    rintro e' rfl hx
    have hSdigits : IsDigits (cells S) := fun p hp => he p (List.mem_append_left e' hp)
    obtain rfl | ⟨z, rfl⟩ := hend hSdigits
    · exact hT.cells_ne_nil (List.append_eq_nil_iff.mp (List.append_eq_nil_iff.mp hx.symm).2).1
    · cases e' with
      | nil => exact hT.ne_divider hy (by decide) hx.symm
      | cons p e' =>
        have hp : 3456 = p := (List.cons.inj hx).1
        obtain ⟨d, hd⟩ := he p (by simp)
        revert hd
        rw [← hp]
        revert d
        decide
  obtain ⟨e', he', hx⟩ | ⟨s, hs, hx⟩ := List.append_eq_append_iff.mp h
  · exact absurd hx (hall e' he')
  · cases s with
    | nil =>
      rw [List.append_nil] at hs
      exact absurd hx.symm (hall [] (by rw [hs, List.append_nil]))
    | cons q s =>
      cases e with
      | nil => rfl
      | cons p e =>
        obtain ⟨F, hF, hcells⟩ := hS.exists_of_digit_head hs fun r hr => he r (by simp_all)
        have hsuffix : q :: s <:+ cells F := ⟨e, hcells⟩
        obtain ⟨t, ht, hbegin⟩ := exists_trailing_prefix hF (List.cons_ne_nil q s) hsuffix
        have hfresh := hT.fresh hy
        rw [hx] at hfresh
        exact absurd (hbegin.trans (List.prefix_append _ _)) (hfresh t ht)

/-- A count and the item behind it are determined by their text. -/
theorem InOrder.cancel_count {S T : List Sign} {n m : Nat} {x y : List Nat} (hS : InOrder S)
    (hT : InOrder T) (hx : Fresh x) (hy : Fresh y)
    (hSend : IsDigits (cells S) → x = [] ∨ ∃ z, x = Glyph.numberSign.patterns ++ z)
    (hTend : IsDigits (cells T) → y = [] ∨ ∃ z, y = Glyph.numberSign.patterns ++ z)
    (h : countCells n ++ (cells S ++ x) = countCells m ++ (cells T ++ y)) :
    n = m ∧ S.map face = T.map face ∧ x = y := by
  have hrest : countCells n = countCells m ∧ cells S ++ x = cells T ++ y := by
    obtain ⟨e, he, hcells⟩ | ⟨e, he, hcells⟩ := List.append_eq_append_iff.mp h
    · have hdigits : IsDigits e := fun p hp =>
        isDigits_countCells m p (he ▸ List.mem_append_right _ hp)
      have hnil := hS.eq_nil_of_count hT hy hdigits hSend hcells
      subst hnil
      exact ⟨by simpa using he.symm, hcells⟩
    · have hdigits : IsDigits e := fun p hp =>
        isDigits_countCells n p (he ▸ List.mem_append_right _ hp)
      have hnil := hT.eq_nil_of_count hS hx hdigits hTend hcells
      subst hnil
      exact ⟨by simpa using he, hcells.symm⟩
  obtain ⟨hfaces, htail⟩ := hS.cancel hT hx hy hrest.2
  exact ⟨countCells_injective hrest.1, hfaces, htail⟩

end Sign

end BrailleScore
