import BrailleScore.Proofs.ItemOrder
import BrailleScore.Script.Layout

/-!
# Written voices

The items that notes and rests are written as are in the order of `Sign.InOrder`. The text of a
voice that is written out is the row of the cells of its items.
-/

namespace BrailleScore

open Fault Sign

@[simp] lemma Options.Content.attempt_eq_some {α : Type} {content : Options.Content}
    {x : Except Fault α} {a : α} : content.attempt x = .ok (some a) ↔ x = .ok a := by
  cases x with
  | ok b => simp [attempt]
  | error f =>
    simp only [attempt]
    split <;> simp

namespace Note

variable {n : Note} {S : List Sign}

lemma linking_linkingSigns (n : Note) : Linking n.linkingSigns := by
  unfold linkingSigns
  split
  · exact .tie
  · split
    · exact .slur
    · exact .none

lemma trailing_fingeringSigns {shown : Bool} {F : List Sign} (h : n.fingeringSigns shown = .ok F)
    (hS : Linking S) : Trailing (F ++ S) := by
  unfold fingeringSigns at h
  split at h
  · next hshown =>
    simp only [bind_eq_ok, pure_eq_ok, fingeringOf] at h
    obtain ⟨_, ⟨fingers, hfingers, rfl⟩, rfl⟩ := h
    have hlen := (mapM_eq_ok.mp hfingers).length_eq
    cases fingers with
    | nil => simp_all
    | cons f fs => exact .fingering f fs hS
  · cases h
    exact .linking hS

lemma trailing_replicate_dot (hS : Trailing S) (dots : Nat) :
    Trailing (List.replicate dots .dot ++ S) := by
  induction dots with
  | zero => exact hS
  | succ dots ih => exact .dot ih

lemma sounding_bodySigns {last : Option Pitch} {B : List Sign} (h : n.bodySigns last = .ok B)
    (hS : Trailing S) : Sounding (B ++ S) := by
  unfold bodySigns at h
  split at h
  · cases h
    exact .rest _ hS
  · next p _ =>
    simp only [bind_eq_ok, pure_eq_ok, Pitch.octaveMarks] at h
    obtain ⟨marks, hmarks, rfl⟩ := h
    split at hmarks
    · simp only [bind_eq_ok, pure_eq_ok, octaveMark] at hmarks
      obtain ⟨mark, hmark, rfl⟩ := hmarks
      split at hmark
      · cases hmark
        exact .marked _ _ _ hS
      · cases hmark
    · cases hmarks
      exact .note _ _ hS

lemma inOrder_leadingSigns (n : Note) (hS : Sounding S) : InOrder (n.leadingSigns ++ S) := by
  have haccidental : InOrder (n.accidental.toList.map .accidental ++ S) := by
    cases n.accidental with
    | none => exact .sounding hS
    | some a => exact .accidental a hS
  have harticulations :
      InOrder (n.articulations.map .articulation ++
        (n.accidental.toList.map .accidental ++ S)) := by
    induction n.articulations with
    | nil => exact haccidental
    | cons a _ ih => exact .articulation a ih
  have hornaments : InOrder (n.ornaments.map .ornament ++ (n.articulations.map .articulation ++
      (n.accidental.toList.map .accidental ++ S))) := by
    induction n.ornaments with
    | nil => exact harticulations
    | cons o _ ih => exact .ornament o ih
  unfold leadingSigns
  simp only [List.append_assoc]
  split
  · exact .grace hornaments
  · exact hornaments

theorem inOrder_signs {last : Option Pitch} {shown : Bool} (h : n.signs last shown = .ok S) :
    InOrder S := by
  simp only [signs, bind_eq_ok, pure_eq_ok] at h
  obtain ⟨body, hbody, F, hF, rfl⟩ := h
  have htrailing := trailing_replicate_dot
    (trailing_fingeringSigns hF n.linking_linkingSigns) n.duration.dots
  have hinOrder := n.inOrder_leadingSigns (sounding_bodySigns hbody htrailing)
  simpa only [List.append_assoc] using hinOrder

lemma exists_signs_of_scriptSigns {content : Options.Content} {last : Option Pitch}
    (h : n.scriptSigns content last = .ok S) : ∃ shown, n.signs last shown = .ok S := by
  unfold scriptSigns at h
  split at h
  · obtain ⟨shown, -, hsigns⟩ := bind_eq_ok.mp h
    exact ⟨shown, hsigns⟩
  · exact ⟨false, h⟩

lemma mem_tupletSigns {content : Options.Content} {table : Tuplet.Table} {signs : List Sign}
    (h : n.tupletSigns content table = .ok signs) {s : Sign} (hs : s ∈ signs) :
    ∃ number nested, s = .tuplet number nested := by
  simp only [tupletSigns, bind_eq_ok, pure_eq_ok] at h
  obtain ⟨starting, -, found, hfound, rfl⟩ := h
  obtain ⟨o, ho, hos⟩ := List.mem_filterMap.mp hs
  obtain ⟨t, -, ht⟩ := exists_of_mem_mapM hfound ho
  have hsign : tupletOf t = .ok s := by
    rw [show o = some s from hos] at ht
    exact Options.Content.attempt_eq_some.mp ht
  unfold tupletOf at hsign
  split at hsign
  · cases hsign
    exact ⟨_, _, rfl⟩
  · cases hsign

end Note

lemma Rest.inOrder_signs (r : Rest) : InOrder r.signs := by
  have htrailing := Note.trailing_replicate_dot (.linking .none) r.duration.dots
  rw [List.append_nil] at htrailing
  exact .sounding (.rest _ htrailing)

def Script.Item.signs : Script.Item → List Sign
  | tuplet s => [s]
  | note signs => signs

namespace Entry

variable {content : Options.Content} {table : Tuplet.Table} {last : Option Pitch}

lemma inOrder_script {e : Entry} {items : List Script.Item}
    (h : e.script content table last = .ok items) : ∀ i ∈ items, InOrder i.signs := by
  cases e with
  | rest r =>
    cases h
    simpa [Script.Item.signs] using r.inOrder_signs
  | note n =>
    simp only [script, bind_eq_ok, pure_eq_ok] at h
    obtain ⟨tuplets, htuplets, signs, hsigns, rfl⟩ := h
    intro i hi
    simp only [List.mem_append, List.mem_map, List.mem_singleton] at hi
    obtain ⟨s, hs, rfl⟩ | rfl := hi
    · obtain ⟨number, nested, rfl⟩ := Note.mem_tupletSigns htuplets hs
      exact .tuplet number nested
    · obtain ⟨shown, hshown⟩ := Note.exists_signs_of_scriptSigns hsigns
      exact Note.inOrder_signs hshown

theorem inOrder_scriptAll {entries : List Entry} {v : Script.Voice}
    (h : scriptAll content table last entries = .ok v) : ∀ i ∈ v, InOrder i.signs := by
  induction entries generalizing last v with
  | nil =>
    cases h
    simp
  | cons e entries ih =>
    simp only [scriptAll, bind_eq_ok, pure_eq_ok] at h
    obtain ⟨items, hitems, more, hmore, rfl⟩ := h
    intro i hi
    obtain hi | hi := List.mem_append.mp hi
    · exact inOrder_script hitems i hi
    · exact ih hmore i hi

end Entry

/-! ### Texts -/

lemma Fragment.join_eq_flatMap {fs : List Fragment} (h : ∀ f ∈ fs, f.separates = false) :
    join fs = fs.flatMap Fragment.text := by
  have hsolid : ∀ gs : List Fragment, (∀ f ∈ gs, f.separates = false) →
      joinSolid gs = gs.flatMap Fragment.text := by
    intro gs hgs
    induction gs with
    | nil => rfl
    | cons f gs ih =>
      have hrest := ih fun g hg => hgs g (List.mem_cons_of_mem f hg)
      have hf := hgs f List.mem_cons_self
      cases gs with
      | nil => simp [joinSolid]
      | cons g gs => rw [joinSolid, hrest, separator, hf]; simp
  have hfilter : (fs.filter fun f => !f.text.isEmpty).flatMap Fragment.text =
      fs.flatMap Fragment.text := by
    clear h
    induction fs with
    | nil => rfl
    | cons f fs ih => cases hf : f.text <;> simp [hf, ih]
  rw [join, hsolid _ fun f hf => h f (List.mem_filter.mp hf).1, hfilter]

lemma Sign.isMusic_of_inOrder {S : List Sign} (h : InOrder S) : ∀ s ∈ S, s.isMusic := by
  have hlegible := h.legible fresh_nil
  clear h
  induction S with
  | nil => simp
  | cons s S ih =>
    exact List.forall_mem_cons.mpr ⟨hlegible.1, ih hlegible.2.2⟩

/-- Signs of music need no separation, so their text is the row of their cells. -/
theorem Sign.render_eq_row {S : List Sign} (h : ∀ s ∈ S, s.isMusic) :
    Sign.render S = Cell.row (cells S) := by
  have hsep : ∀ f ∈ S.map Fragment.ofSign, f.separates = false := by
    simp only [List.forall_mem_map]
    intro s hs
    have := h s hs
    cases s <;> simp_all [Fragment.ofSign, separates, isMusic]
  rw [render, Fragment.join_eq_flatMap hsep]
  clear h hsep
  induction S with
  | nil => rfl
  | cons s S ih => simpa [cells_cons, Cell.row_append, Fragment.ofSign, Sign.text] using ih

namespace Script

lemma Item.text_eq_row {i : Item} (h : InOrder i.signs) : i.text = Cell.row (cells i.signs) := by
  cases i with
  | tuplet s => simp [Item.text, Item.signs, Sign.text]
  | note signs => exact Sign.render_eq_row (Sign.isMusic_of_inOrder h)

def Voice.cells (v : Voice) : List Nat := v.flatMap fun i => Sign.cells i.signs

@[simp] lemma Voice.cells_nil : Voice.cells [] = [] := rfl

@[simp] lemma Voice.cells_cons (i : Item) (v : Voice) :
    Voice.cells (i :: v) = Sign.cells i.signs ++ Voice.cells v := rfl

lemma Voice.flatMap_text {v : Voice} (h : ∀ i ∈ v, InOrder i.signs) :
    v.flatMap Item.text = Cell.row v.cells := by
  induction v with
  | nil => rfl
  | cons i v ih =>
    have hi := Item.text_eq_row (h i List.mem_cons_self)
    have hv := ih fun j hj => h j (List.mem_cons_of_mem i hj)
    rw [List.flatMap_cons, Voice.cells_cons, Cell.row_append, hi, hv]

/-- The text of a voice that is written out without a hand sign. -/
theorem Voice.voiceText_eq_flatMap {style : Options.Style} (h : style.compressRepeats = false)
    (v : Voice) : Layout.voiceText style none v = v.flatMap Item.text := by
  have hfragments : Layout.fragments style v = v.map fun i => { text := i.text } := by
    simp [Layout.fragments, h]
  rw [Layout.voiceText, hfragments, Fragment.join_eq_flatMap (by simp)]
  simp [List.flatMap_map]

lemma Voice.isCanonical_cells {v : Voice} (h : ∀ i ∈ v, InOrder i.signs) :
    ∀ p ∈ v.cells, Cell.IsCanonical p := by
  intro p hp
  obtain ⟨i, hi, hp⟩ := List.mem_flatMap.mp hp
  obtain ⟨s, hs, hp⟩ := List.mem_flatMap.mp hp
  exact isCanonical_of_isCode (isCode_patterns (isMusic_of_inOrder (h i hi) s hs)) p hp

end Script

end BrailleScore
