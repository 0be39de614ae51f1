import BrailleScore.Proofs.SignCodes
import BrailleScore.Script.Layout

/-!
# The alphabet of the text

The text of a voice consists of cells whose patterns are in the alphabet, whatever its items are
and whether it is abbreviated or stands behind a hand sign.
-/

namespace BrailleScore

/-- The character is a cell of the alphabet. -/
def Cell.IsLetter (c : Char) : Prop := ∃ p ∈ Cell.alphabet, c = (Cell.ofPattern p).char

lemma Glyph.mem_all (g : Glyph) : g ∈ Glyph.all := by
  have hoctave : ∀ n, octave n ∈ all := by decide +kernel
  have hfinger : ∀ n, finger n ∈ all := by decide +kernel
  have hdigit : ∀ d, digit d ∈ all ∧ lowerDigit d ∈ all := by decide +kernel
  cases g with
  | octave n => exact hoctave n
  | finger n => exact hfinger n
  | digit d => exact (hdigit d).1
  | lowerDigit d => exact (hdigit d).2
  | part hand => cases hand <;> decide +kernel
  | _ => decide +kernel

lemma Cell.mem_alphabet {p : Nat} : p ∈ Cell.alphabet ↔ (∃ g : Glyph, p ∈ g.patterns) ∨
    (∃ (v : ValueClass) (s : Step), p = v.notePattern s) ∨ ∃ v : ValueClass, p = v.restPattern := by
  unfold Cell.alphabet
  simp only [List.mem_eraseDups, List.mem_mergeSort, List.mem_append, List.mem_flatMap,
    List.mem_map, Glyph.mem_all, ValueClass.mem_all, Step.mem_all, true_and, or_assoc, eq_comm]

lemma Glyph.patterns_subset_alphabet (g : Glyph) : g.patterns ⊆ Cell.alphabet := by
  intro p hp
  exact Cell.mem_alphabet.mpr (.inl ⟨g, hp⟩)

/-- The numbers in tuplet signs are lower digits. -/
lemma Tuplet.Number.exists_lowerDigit (n : Tuplet.Number) :
    ∃ d, (Glyph.lowerDigit d).patterns = [n.pattern] := by
  cases n with
  | two => exact ⟨2, rfl⟩
  | three => exact ⟨3, rfl⟩
  | five => exact ⟨5, rfl⟩
  | six => exact ⟨6, rfl⟩
  | seven => exact ⟨7, rfl⟩

lemma Sign.patterns_fingering_subset (f : Fin 5) (fs : List (Fin 5)) :
    (fingering (f :: fs)).patterns ⊆ Cell.alphabet := by
  have hfinger (f : Fin 5) : fingerCell f ∈ Cell.alphabet := by
    apply (Glyph.finger f).patterns_subset_alphabet
    rw [patterns_finger]
    exact List.mem_singleton_self _
  have hchange : 14 ∈ Cell.alphabet := Glyph.slur.patterns_subset_alphabet List.mem_cons_self
  induction fs generalizing f with
  | nil =>
    rw [patterns_fingering_singleton]
    exact List.cons_subset.mpr ⟨hfinger f, List.nil_subset _⟩
  | cons g fs ih =>
    rw [patterns_fingering_cons]
    exact List.cons_subset.mpr ⟨hfinger f, List.cons_subset.mpr ⟨hchange, ih g⟩⟩

theorem Sign.patterns_subset_alphabet (s : Sign) : s.patterns ⊆ Cell.alphabet := by
  have hglyph (g : Glyph) : g.patterns ⊆ Cell.alphabet := g.patterns_subset_alphabet
  cases s with
  | note step value =>
    intro p hp
    rw [patterns, List.mem_singleton] at hp
    exact Cell.mem_alphabet.mpr (.inr (.inl ⟨_, _, hp⟩))
  | rest value =>
    intro p hp
    rw [patterns, List.mem_singleton] at hp
    exact Cell.mem_alphabet.mpr (.inr (.inr ⟨_, hp⟩))
  | tuplet number nested =>
    obtain ⟨d, hd⟩ := number.exists_lowerDigit
    have hnumber : [number.pattern] ⊆ Cell.alphabet := hd ▸ hglyph (.lowerDigit d)
    have hlong : Glyph.tupletIntroducer.patterns ++ [number.pattern] ++ Glyph.dot.patterns ⊆
        Cell.alphabet := by
      apply List.append_subset.mpr
      constructor
      · exact List.append_subset.mpr ⟨hglyph _, hnumber⟩
      · exact hglyph _
    cases number with
    | three =>
      cases nested with
      | false => exact hglyph (.lowerDigit 2)
      | true => exact hlong
    | _ => exact hlong
  | fingering fingers =>
    cases fingers with
    | nil => exact List.nil_subset _
    | cons f fs => exact patterns_fingering_subset f fs
  | grace => exact hglyph .grace
  | ornament o => exact hglyph (ornamentGlyph o)
  | articulation a => exact hglyph (articulationGlyph a)
  | accidental a => exact hglyph (accidentalGlyph a)
  | octave number => exact hglyph (.octave number)
  | dot => exact hglyph .dot
  | tie => exact hglyph .tie
  | slur => exact hglyph .slur
  | digit d => exact hglyph (.digit d)
  | lowerDigit d => exact hglyph (.lowerDigit d)
  | hand h => exact hglyph (.part h)

/-! ### Texts -/

lemma Cell.isLetter_of_mem_row {ps : List Nat} (h : ps ⊆ Cell.alphabet) {c : Char}
    (hc : c ∈ Cell.row ps) : Cell.IsLetter c := by
  obtain ⟨p, hp, rfl⟩ := List.mem_map.mp hc
  exact ⟨p, h hp, rfl⟩

/-- The letters are cells, so none of them is a line end or a space. -/
lemma Cell.IsLetter.base_le_toNat {c : Char} (h : Cell.IsLetter c) : Cell.base ≤ c.toNat := by
  obtain ⟨p, -, rfl⟩ := h
  rw [Cell.toNat_char]
  exact Nat.le_add_right _ _

/-- All characters of the text are letters. -/
def Cell.AllLetters (t : List Char) : Prop := ∀ c ∈ t, Cell.IsLetter c

namespace Cell.AllLetters

lemma append {t u : List Char} (ht : AllLetters t) (hu : AllLetters u) : AllLetters (t ++ u) := by
  intro c hc
  obtain hc | hc := List.mem_append.mp hc
  · exact ht c hc
  · exact hu c hc

lemma flatMap {α : Type} {f : α → List Char} {as : List α} (h : ∀ a ∈ as, AllLetters (f a)) :
    AllLetters (as.flatMap f) := by
  intro c hc
  obtain ⟨a, ha, hc⟩ := List.mem_flatMap.mp hc
  exact h a ha c hc

lemma glyph (g : Glyph) : AllLetters g.text :=
  fun _ => isLetter_of_mem_row g.patterns_subset_alphabet

lemma sign (s : Sign) : AllLetters s.text :=
  fun _ => isLetter_of_mem_row s.patterns_subset_alphabet

theorem join {fs : List Fragment} (h : ∀ f ∈ fs, AllLetters f.text) :
    AllLetters (Fragment.join fs) := by
  have hsolid (gs : List Fragment) (hgs : ∀ f ∈ gs, AllLetters f.text) :
      AllLetters (Fragment.joinSolid gs) := by
    induction gs with
    | nil => exact fun c hc => absurd hc List.not_mem_nil
    | cons f gs ih =>
      obtain ⟨hf, hrest⟩ := List.forall_mem_cons.mp hgs
      cases gs with
      | nil => exact hf
      | cons g gs =>
        have hseparator : AllLetters (f.separator g) := by
          unfold Fragment.separator
          split
          · exact glyph .dot
          · exact fun c hc => absurd hc List.not_mem_nil
        exact (hf.append hseparator).append (ih hrest)
  exact hsolid _ fun f hf => h f (List.mem_of_mem_filter hf)

lemma item (i : Script.Item) : AllLetters i.text := by
  cases i with
  | tuplet s => exact sign s
  | note signs =>
    apply join
    intro f hf
    obtain ⟨s, -, rfl⟩ := List.mem_map.mp hf
    exact sign s

lemma repetition {t : List Char} (h : AllLetters t) (n : Nat) :
    AllLetters (Repetition.write t n) := by
  unfold Repetition.write
  split
  · intro c hc
    obtain ⟨u, hu, hc⟩ := List.mem_flatten.mp hc
    rw [List.eq_of_mem_replicate hu] at hc
    exact h c hc
  · have hcount : AllLetters (Glyph.upperNumber n) := flatMap fun d _ => glyph (.digit d)
    exact ((glyph .numberSign).append hcount).append h

/-- The text of a voice consists of letters. -/
theorem voiceText (style : Options.Style) (hand : Option Hand) (v : Script.Voice) :
    AllLetters (Layout.voiceText style hand v) := by
  apply join
  intro f hf
  obtain hf | hf := List.mem_append.mp hf
  · obtain ⟨h, -, rfl⟩ := List.mem_map.mp hf
    exact sign (.hand h)
  · unfold Layout.fragments at hf
    split at hf
    · obtain ⟨r, -, rfl⟩ := List.mem_map.mp hf
      exact (item r.item).repetition r.length
    · obtain ⟨i, -, rfl⟩ := List.mem_map.mp hf
      exact item i

end Cell.AllLetters

end BrailleScore
