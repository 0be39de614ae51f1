import BrailleScore.Proofs.HandSigns

/-!
# Streams of signs

Whether a cell with dot 3 stands behind a fragment is seen from the next one that is not empty. So
a stream reads the same however it is cut into fragments, as long as none is put together from
signs of which an inner one must be kept apart.
-/

namespace BrailleScore

open Fault

namespace Fragment

variable {f : Fragment} {fs gs : List Fragment}

/-- The cell behind a fragment that must be kept apart, if the next one that is not empty begins
with a dot on the left. -/
def gap (f : Fragment) (later : List Fragment) : List Char :=
  if f.separates ∧ f.text ≠ [] ∧ (later.find? fun next => next.text ≠ []).any startsLeft then
    [(Cell.ofPattern 3).char]
  else []

/-- The first fragment and what stands between it and the others. -/
def spaced : List Fragment → List Char
  | [] => []
  | f :: later => f.text ++ f.gap later

lemma startsLeft_iff (f : Fragment) : f.startsLeft ↔ ∃ (cell : Cell) (more : List Char),
    f.text = cell.char :: more ∧ (cell.hasDot 1 ∨ cell.hasDot 2 ∨ cell.hasDot 3) := by
  unfold startsLeft
  cases htext : f.text with
  | nil => simp
  | cons c rest =>
    cases hcell : Cell.ofChar? c with
    | none =>
      have hnot (cell : Cell) : c ≠ cell.char := by
        intro heq
        rw [Cell.ofChar?_eq_some.mpr heq] at hcell
        cases hcell
      simp [hcell, hnot]
    | some cell =>
      have hleft : cell.touchesLeft ↔ cell.hasDot 1 ∨ cell.hasDot 2 ∨ cell.hasDot 3 := by
        simp [Cell.touchesLeft, or_assoc]
      simp only [hcell, hleft, List.cons.injEq]
      constructor
      · intro hdots
        exact ⟨cell, rest, ⟨Cell.ofChar?_eq_some.mp hcell, rfl⟩, hdots⟩
      · rintro ⟨other, more, ⟨hother, -⟩, hdots⟩
        rw [Cell.ofChar?_eq_some.mpr hother] at hcell
        obtain rfl := Option.some.inj hcell
        exact hdots

lemma join_cons_of_empty (hf : f.text = []) (fs : List Fragment) : join (f :: fs) = join fs := by
  simp [join, hf]

/-- The text of a stream begins as the first fragment that is not empty. -/
lemma startsLeft_join (fs : List Fragment) : startsLeft { text := join fs } =
    (fs.find? fun next => next.text ≠ []).any startsLeft := by
  induction fs with
  | nil => rfl
  | cons f fs ih =>
    by_cases hf : f.text = []
    · rw [join_cons_of_empty hf, ih, List.find?_cons_of_neg (by simpa using hf)]
    · obtain ⟨c, t, ht⟩ := List.exists_cons_of_ne_nil hf
      rw [join_cons hf, List.find?_cons_of_pos (by simpa using hf)]
      simp [startsLeft, ht]

lemma join_cons_eq_gap (f : Fragment) (fs : List Fragment) :
    join (f :: fs) = f.text ++ f.gap fs ++ join fs := by
  by_cases hf : f.text = []
  · simp [join_cons_of_empty, gap, hf]
  · have hgap : f.separator { text := join fs } = f.gap fs := by
      rw [separator, startsLeft_join, gap]
      simp [hf]
      rfl
    rw [join_cons hf, hgap]

theorem join_eq_flatMap_spaced (fs : List Fragment) : join fs = fs.tails.flatMap spaced := by
  induction fs with
  | nil => rfl
  | cons f fs ih =>
    rw [join_cons_eq_gap, ih, List.tails_cons, List.flatMap_cons]
    rfl

/-- What stands in front of a stream depends on its text alone. -/
lemma join_append_congr (h : join fs = join gs) (before : List Fragment) :
    join (before ++ fs) = join (before ++ gs) := by
  induction before with
  | nil => exact h
  | cons f before ih =>
    rw [List.cons_append, List.cons_append]
    by_cases hf : f.text = []
    · rw [join_cons_of_empty hf, join_cons_of_empty hf, ih]
    · rw [join_cons hf, join_cons hf, ih]

/-- A fragment that need not be kept apart is as good as a part of the next one. -/
theorem join_merge {a b : Fragment} (ha : a.separates = false) (hb : b.text ≠ [])
    (before after : List Fragment) : join (before ++ a :: b :: after) =
      join (before ++ ⟨a.text ++ b.text, b.separates⟩ :: after) := by
  apply join_append_congr
  have hmerged : a.text ++ b.text ≠ [] := List.append_ne_nil_of_right_ne_nil _ hb
  rw [join_cons_eq_gap a, join_cons hb, join_cons hmerged]
  simp [gap, ha, separator]

end Fragment

/-! ### Voices -/

lemma Sign.separates_of_isMusic {s : Sign} (h : s.isMusic) : s.separates = false := by
  cases s with
  | hand hand => cases h
  | _ => rfl

namespace Script

lemma Item.text_eq_flatMap {i : Item} (h : Sign.InOrder i.signs) :
    i.text = (i.signs.map Fragment.ofSign).flatMap Fragment.text := by
  cases i with
  | tuplet s => simp [text, signs, Fragment.ofSign]
  | note signs =>
    apply Fragment.join_eq_flatMap
    rw [List.forall_mem_map]
    exact fun s hs => Sign.separates_of_isMusic (Sign.isMusic_of_inOrder h s hs)

/-- The items of a voice need not be kept apart, so they may be written sign by sign. -/
theorem Voice.voiceText_eq_render {v : Voice} (h : ∀ i ∈ v, Sign.InOrder i.signs)
    {style : Options.Style} (hstyle : style.compressRepeats = false) (hand : Option Hand) :
    Layout.voiceText style hand v =
      Sign.render (hand.toList.map .hand ++ v.flatMap Item.signs) := by
  have hfragments : Layout.fragments style v = v.map fun i => { text := i.text } := by
    simp [Layout.fragments, hstyle]
  have hsigns : ∀ f ∈ (v.flatMap Item.signs).map Fragment.ofSign, f.separates = false := by
    rw [List.forall_mem_map]
    intro s hs
    obtain ⟨i, hi, hs⟩ := List.mem_flatMap.mp hs
    exact Sign.separates_of_isMusic (Sign.isMusic_of_inOrder (h i hi) s hs)
  have hitems : Fragment.join (Layout.fragments style v) =
      Fragment.join ((v.flatMap Item.signs).map Fragment.ofSign) := by
    rw [hfragments, Fragment.join_eq_flatMap (by simp), Fragment.join_eq_flatMap hsigns,
      List.flatMap_map, List.map_flatMap, List.flatMap_assoc]
    exact List.flatMap_congr fun i hi => Item.text_eq_flatMap (h i hi)
  rw [Layout.voiceText, Sign.render, List.map_append, List.map_map]
  exact Fragment.join_append_congr hitems _

end Script

/-- A cell with dot 3 stands directly behind each fragment that must be kept apart from the next
one that is not empty, and nowhere else. A fragment may be written together with the next one
unless it must be kept apart. So a voice that is not abbreviated is written as the one row of the
hand sign and all signs of its items. -/
theorem Fragment.join_stream :
    (∀ fs, join fs = fs.tails.flatMap spaced) ∧
    (∀ f : Fragment, f.startsLeft ↔ ∃ (cell : Cell) (more : List Char),
      f.text = cell.char :: more ∧ (cell.hasDot 1 ∨ cell.hasDot 2 ∨ cell.hasDot 3)) ∧
    (∀ before a b after, a.separates = false → b.text ≠ [] → join (before ++ a :: b :: after) =
      join (before ++ ⟨a.text ++ b.text, b.separates⟩ :: after)) ∧
    ∀ content table last entries items (style : Options.Style) (hand : Option Hand),
      Entry.scriptAll content table last entries = .ok items → style.compressRepeats = false →
        Layout.voiceText style hand items =
          Sign.render (hand.toList.map .hand ++ items.flatMap Script.Item.signs) := by
  refine ⟨join_eq_flatMap_spaced, startsLeft_iff, fun before a b after ha hb => ?_, ?_⟩
  · exact join_merge ha hb before after
  · intro content table last entries items style hand hitems hstyle
    exact Script.Voice.voiceText_eq_render (Entry.inOrder_scriptAll hitems) hstyle hand

/-- A hand sign in front of rests, whose cell has dot 1, with an empty fragment in between. -/
theorem Fragment.join_stream_right_hand :
    let before : List Fragment := [ofSign (.hand .right), ⟨[], true⟩]
    let rest : Fragment := ⟨Cell.row [1236], false⟩
    let entries : List Entry := [.rest { duration := { base := .quarter } }]
    let items : Script.Voice := [.note [.rest .quarter]]
    rest.separates = false ∧ rest.text ≠ [] ∧ Entry.scriptAll {} {} none entries = .ok items ∧
      join (before ++ [rest, rest]) = Cell.row [46, 345, 3, 1236, 1236] ∧
      join (before ++ [⟨rest.text ++ rest.text, false⟩]) = Cell.row [46, 345, 3, 1236, 1236] ∧
      Layout.voiceText {} (some .right) items = Cell.row [46, 345, 3, 1236] := by
  intro before rest entries items
  have hne : rest.text ≠ [] := by decide
  have hitems : Entry.scriptAll {} {} none entries = .ok items := by decide
  have htext : join (before ++ [rest, rest]) = Cell.row [46, 345, 3, 1236, 1236] := by
    rw [join_stream.1]
    decide
  refine ⟨rfl, hne, hitems, htext, ?_, ?_⟩
  · exact (join_stream.2.2.1 before rest rest [] rfl hne).symm.trans htext
  · rw [join_stream.2.2.2 {} {} none entries items {} (some .right) hitems rfl]
    decide

end BrailleScore
