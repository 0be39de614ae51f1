import Mathlib.Data.List.Chain
import BrailleScore.Proofs.CountReading
import BrailleScore.Proofs.MeasureReading
import BrailleScore.Proofs.RunLengths

/-!
# Reading abbreviated repetitions

A voice with abbreviated repetitions determines the voice that is written out, unless an
abbreviated run of an item in digit cells stands in front of an item that is written out: there
the item of the run may be read as the end of its count.
-/

namespace BrailleScore

open Sign

namespace Run

variable {α : Type}

/-- The runs as they are written: a run of less than four items as runs of one. -/
def spell (runs : List (Run α)) : List (Run α) :=
  runs.flatMap fun r => if r.length < 4 then List.replicate r.length ⟨r.item, 1⟩ else [r]

lemma spell_cons (r : Run α) (runs : List (Run α)) : spell (r :: runs) =
    (if r.length < 4 then List.replicate r.length ⟨r.item, 1⟩ else [r]) ++ spell runs := rfl

lemma expand_spell (runs : List (Run α)) : expand (spell runs) = expand runs := by
  induction runs with
  | nil => rfl
  | cons r runs ih =>
    rw [spell_cons, expand, List.flatMap_append, ← expand, ← expand, ih, expand_cons]
    congr 1
    by_cases h : r.length < 4
    · rw [if_pos h]
      generalize r.length = n
      induction n with
      | zero => rfl
      | succ n ihn => simpa [expand, List.replicate_succ] using ihn
    · rw [if_neg h]
      simp [expand]

lemma length_of_mem_spell {runs : List (Run α)} {u : Run α} (h : u ∈ spell runs) :
    u.length = 1 ∨ 4 ≤ u.length := by
  obtain ⟨r, -, hu⟩ := List.mem_flatMap.mp h
  by_cases hr : r.length < 4
  · rw [if_pos hr] at hu
    exact .inl (congrArg Run.length (List.eq_of_mem_replicate hu))
  · rw [if_neg hr, List.mem_singleton] at hu
    exact .inr (by rw [hu]; omega)

lemma item_mem_of_mem_spell [DecidableEq α] {items : List α} {u : Run α}
    (h : u ∈ spell (group items)) : u.item ∈ items := by
  have hpos : u.length ≠ 0 := by
    obtain h | h := length_of_mem_spell h <;> omega
  rw [← expand_group items, ← expand_spell]
  exact item_mem_expand h hpos

lemma flatMap_write_spell (atom : α → List Char) (runs : List (Run α)) :
    ((spell runs).flatMap fun r => Repetition.write (atom r.item) r.length) =
      runs.flatMap fun r => Repetition.write (atom r.item) r.length := by
  induction runs with
  | nil => rfl
  | cons r runs ih =>
    rw [spell_cons, List.flatMap_append, ih, List.flatMap_cons]
    congr 1
    by_cases h : r.length < 4
    · rw [if_pos h, Repetition.write, if_pos h]
      simp [Repetition.write, List.flatMap_replicate]
    · rw [if_neg h]
      simp

lemma isChain_spell {P : α → Prop} {runs : List (Run α)}
    (h : runs.IsChain fun r next => 4 ≤ r.length → P r.item → 4 ≤ next.length) :
    (spell runs).IsChain fun r next => 4 ≤ r.length → P r.item → 4 ≤ next.length := by
  induction runs with
  | nil => exact h
  | cons r runs ih =>
    obtain ⟨hhead, htail⟩ := List.isChain_cons.mp h
    have hrest := ih htail
    rw [spell_cons]
    by_cases hr : r.length < 4
    · rw [if_pos hr]
      generalize r.length = n
      induction n with
      | zero => exact hrest
      | succ n ihn =>
        rw [List.replicate_succ, List.cons_append]
        exact List.isChain_cons.mpr ⟨fun _ _ hlong => absurd hlong (by simp), ihn⟩
    · rw [if_neg hr, List.singleton_append]
      refine List.isChain_cons.mpr ⟨fun u hu hlong hP => ?_, hrest⟩
      cases runs with
      | nil => simp [spell] at hu
      | cons next runs =>
        have hnext := hhead next rfl hlong hP
        rw [spell_cons, if_neg (by omega), List.singleton_append, List.head?_cons,
          Option.mem_some_iff] at hu
        rw [← hu]
        exact hnext

end Run

namespace Script

/-- All cells of the item are those of upper digits. -/
def Item.IsDigits (i : Item) : Prop := Sign.IsDigits (Sign.cells i.signs)

instance (i : Item) : Decidable i.IsDigits := by
  unfold Item.IsDigits
  infer_instance

/-- An abbreviated run of an item in digit cells stands at the end or before another abbreviated
run. -/
def Voice.CountsEnd (v : Voice) : Prop :=
  (Run.group v).IsChain fun r next => 4 ≤ r.length → r.item.IsDigits → 4 ≤ next.length

instance (v : Voice) : Decidable v.CountsEnd := by
  unfold Voice.CountsEnd
  infer_instance

/-- The patterns of a run that stands for one item or is abbreviated. -/
def runCells (u : Run Item) : List Nat :=
  if u.length < 4 then Sign.cells u.item.signs
  else Glyph.numberSign.patterns ++ (countCells u.length ++ Sign.cells u.item.signs)

/-- Runs of single items and abbreviated runs such that every count ends where it seems to end. -/
structure Spelled (U : List (Run Item)) : Prop where
  inOrder : ∀ u ∈ U, InOrder u.item.signs
  length : ∀ u ∈ U, u.length = 1 ∨ 4 ≤ u.length
  ends : U.IsChain fun r next => 4 ≤ r.length → r.item.IsDigits → 4 ≤ next.length

lemma Spelled.tail {u : Run Item} {U : List (Run Item)} (h : Spelled (u :: U)) : Spelled U :=
  ⟨fun v hv => h.inOrder v (List.mem_cons_of_mem u hv),
    fun v hv => h.length v (List.mem_cons_of_mem u hv), (List.isChain_cons.mp h.ends).2⟩

lemma Spelled.fresh {U : List (Run Item)} (h : Spelled U) : Fresh (U.flatMap runCells) := by
  induction U with
  | nil => exact fresh_nil
  | cons u U ih =>
    rw [List.flatMap_cons, runCells]
    by_cases hu : u.length < 4
    · rw [if_pos hu]
      exact (h.inOrder u List.mem_cons_self).fresh (ih h.tail)
    · rw [if_neg hu, List.append_assoc]
      exact fresh_divider (by decide) _

lemma Spelled.count_ends {u : Run Item} {U : List (Run Item)} (h : Spelled (u :: U))
    (hu : 4 ≤ u.length) (hdigits : u.item.IsDigits) :
    U.flatMap runCells = [] ∨ ∃ z, U.flatMap runCells = Glyph.numberSign.patterns ++ z := by
  cases U with
  | nil => exact .inl rfl
  | cons next U =>
    have hnext := (List.isChain_cons.mp h.ends).1 next rfl hu hdigits
    right
    rw [List.flatMap_cons, runCells, if_neg (by omega), List.append_assoc]
    exact ⟨_, rfl⟩

theorem Spelled.cancel {U U' : List (Run Item)} (h : Spelled U) (h' : Spelled U')
    (e : U.flatMap runCells = U'.flatMap runCells) :
    U.map (fun u => (u.length, u.item.faces)) = U'.map fun u => (u.length, u.item.faces) := by
  induction U generalizing U' with
  | nil =>
    cases U' with
    | nil => rfl
    | cons u' U' =>
      have hne := (h'.inOrder u' List.mem_cons_self).cells_ne_nil
      rw [List.flatMap_nil, List.flatMap_cons, runCells] at e
      split at e <;> simp [hne] at e
  | cons u U ih =>
    cases U' with
    | nil =>
      have hne := (h.inOrder u List.mem_cons_self).cells_ne_nil
      rw [List.flatMap_nil, List.flatMap_cons, runCells] at e
      split at e <;> simp [hne] at e
    | cons u' U' =>
      have hu := h.inOrder u List.mem_cons_self
      have hu' := h'.inOrder u' List.mem_cons_self
      have hfresh := h.tail.fresh
      have hfresh' := h'.tail.fresh
      rw [List.flatMap_cons, List.flatMap_cons, runCells, runCells] at e
      obtain hlen | hlen := h.length u List.mem_cons_self
      · rw [if_pos (by omega)] at e
        obtain hlen' | hlen' := h'.length u' List.mem_cons_self
        · -- Two items that are written out.
          rw [if_pos (by omega)] at e
          obtain ⟨hfaces, htail⟩ := hu.cancel hu' hfresh hfresh' e
          have hitem : u.item.faces = u'.item.faces := hfaces
          rw [List.map_cons, List.map_cons, hlen, hlen', hitem, ih h.tail h'.tail htail]
        · rw [if_neg (by omega), List.append_assoc] at e
          exact absurd e (hu.ne_divider hfresh (by decide))
      · rw [if_neg (by omega)] at e
        obtain hlen' | hlen' := h'.length u' List.mem_cons_self
        · rw [if_pos (by omega), List.append_assoc] at e
          exact absurd e.symm (hu'.ne_divider hfresh' (by decide))
        · -- Two abbreviated runs.
          rw [if_neg (by omega)] at e
          simp only [List.append_assoc, List.append_cancel_left_eq] at e
          obtain ⟨hcount, hfaces, htail⟩ := hu.cancel_count hu' hfresh hfresh'
            (h.count_ends hlen) (h'.count_ends hlen') e
          have hitem : u.item.faces = u'.item.faces := hfaces
          rw [List.map_cons, List.map_cons, hcount, hitem, ih h.tail h'.tail htail]

lemma Voice.spelled {v : Voice} (h : ∀ i ∈ v, InOrder i.signs) (hv : v.CountsEnd) :
    Spelled (Run.spell (Run.group v)) :=
  ⟨fun u hu => h u.item (Run.item_mem_of_mem_spell hu), fun _ => Run.length_of_mem_spell,
    Run.isChain_spell hv⟩

lemma write_eq_row {u : Run Item} (h : InOrder u.item.signs) (hlen : u.length = 1 ∨ 4 ≤ u.length) :
    Repetition.write u.item.text u.length = Cell.row (runCells u) := by
  obtain hlen | hlen := hlen
  · simp [Repetition.write, runCells, hlen, Item.text_eq_row h]
  · rw [Repetition.write, runCells, if_neg (by omega), if_neg (by omega), Item.text_eq_row h,
      upperNumber_eq_row, Cell.row_append, Cell.row_append, List.append_assoc]
    rfl

lemma isCanonical_runCells {u : Run Item} (h : InOrder u.item.signs) :
    ∀ p ∈ runCells u, Cell.IsCanonical p := by
  have hitem := Voice.isCanonical_cells (v := [u.item]) (by simpa using h)
  rw [Voice.cells_cons, Voice.cells_nil, List.append_nil] at hitem
  have hnumber : ∀ p ∈ Glyph.numberSign.patterns, Cell.IsCanonical p := by decide
  intro p hp
  unfold runCells at hp
  split at hp
  · exact hitem p hp
  · obtain hp | hp := List.mem_append.mp hp
    · exact hnumber p hp
    · obtain hp | hp := List.mem_append.mp hp
      · exact isCanonical_countCells _ p hp
      · exact hitem p hp

lemma Voice.voiceText_eq_row {style : Options.Style} (hstyle : style.compressRepeats = true)
    {v : Voice} (h : ∀ i ∈ v, InOrder i.signs) : Layout.voiceText style none v =
      Cell.row ((Run.spell (Run.group v)).flatMap runCells) := by
  have hfragments : Layout.fragments style v =
      (Run.group v).map fun r => { text := Repetition.write r.item.text r.length } := by
    simp [Layout.fragments, hstyle]
  rw [Layout.voiceText, hfragments, Fragment.join_eq_flatMap (by simp)]
  have hwrite := Run.flatMap_write_spell Item.text (Run.group v)
  have hunits : ∀ u ∈ Run.spell (Run.group v),
      Repetition.write u.item.text u.length = Cell.row (runCells u) := fun u hu =>
    write_eq_row (h u.item (Run.item_mem_of_mem_spell hu)) (Run.length_of_mem_spell hu)
  simp only [Option.toList_none, List.map_nil, List.nil_append, List.flatMap_map]
  rw [← hwrite, List.flatMap_congr hunits]
  simp [Cell.row, List.map_flatMap]

lemma Voice.flatMap_text_spell {v : Voice} (h : ∀ i ∈ v, InOrder i.signs) :
    v.flatMap Item.text = ((Run.spell (Run.group v)).map fun u => (u.length, u.item.faces)).flatMap
      fun n => (List.replicate n.1 (Cell.row (Sign.cells n.2))).flatten := by
  have hunits : ∀ u ∈ Run.spell (Run.group v), (List.replicate u.length u.item).flatMap Item.text =
      (List.replicate u.length (Cell.row (Sign.cells u.item.faces))).flatten := by
    intro u hu
    have hfaces : Sign.cells u.item.faces = Sign.cells u.item.signs := by
      simp [Item.faces, Sign.cells, List.flatMap_map]
    rw [hfaces, ← Item.text_eq_row (h u.item (Run.item_mem_of_mem_spell hu))]
    simp [List.flatMap_replicate]
  conv_lhs => rw [← Run.expand_group v, ← Run.expand_spell]
  rw [Run.expand, List.flatMap_assoc, List.flatMap_map]
  exact List.flatMap_congr hunits

end Script

/-- Abbreviated repetitions lose nothing of voices in which no abbreviated run of an item in
digit cells stands before an item that is written out. -/
theorem voiceText_eq_of_abbreviated_eq {content content' : Options.Content}
    {table table' : Tuplet.Table} {last : Option Pitch} {entries entries' : List Entry}
    {v v' : Script.Voice} {on off : Options.Style}
    (h : Entry.scriptAll content table last entries = .ok v)
    (h' : Entry.scriptAll content' table' last entries' = .ok v') (hv : v.CountsEnd)
    (hv' : v'.CountsEnd) (hon : on.compressRepeats = true) (hoff : off.compressRepeats = false)
    (htext : Layout.voiceText on none v = Layout.voiceText on none v') :
    Layout.voiceText off none v = Layout.voiceText off none v' := by
  have horder := Entry.inOrder_scriptAll h
  have horder' := Entry.inOrder_scriptAll h'
  rw [Script.Voice.voiceText_eq_row hon horder, Script.Voice.voiceText_eq_row hon horder'] at htext
  have hspelled := Script.Voice.spelled horder hv
  have hspelled' := Script.Voice.spelled horder' hv'
  have hcanonical : ∀ U : List (Run Script.Item), Script.Spelled U →
      ∀ p ∈ U.flatMap Script.runCells, Cell.IsCanonical p := by
    intro U hU p hp
    obtain ⟨u, hu, hp⟩ := List.mem_flatMap.mp hp
    exact Script.isCanonical_runCells (hU.inOrder u hu) p hp
  have hcells := Cell.row_injOn (hcanonical _ hspelled) (hcanonical _ hspelled') htext
  rw [Script.Voice.voiceText_eq_flatMap hoff, Script.Voice.voiceText_eq_flatMap hoff,
    Script.Voice.flatMap_text_spell horder, Script.Voice.flatMap_text_spell horder',
    hspelled.cancel hspelled' hcells]

/-- Five slurred D at the end are read alike in both values that D may have. -/
theorem voiceText_eq_of_five_slurred :
    let slurred (value : NoteValue) : Script.Voice :=
      .note [.octave 4, .note .c .half] :: List.replicate 5 (.note [.note .d value, .slur])
    Layout.voiceText {} none (slurred .eighth) =
      Layout.voiceText {} none (slurred .hundredTwentyEighth) := by
  let note (step : Step) (value : NoteValue) (slurs : List Slur) : Entry :=
    .note { pitch := some ⟨step, 0, 4⟩, duration := { base := value }, slurs }
  let entries (value : NoteValue) : List Entry :=
    note .c .half [] :: List.replicate 5 (note .d value [{ id := 0 }])
  exact @voiceText_eq_of_abbreviated_eq {} {} {} {} none (entries .eighth)
    (entries .hundredTwentyEighth) _ _ { compressRepeats := true } {} rfl rfl (by decide +kernel)
    (by decide +kernel) rfl rfl (by decide +kernel)

/-- Four C in front of a D are abbreviated as forty-four D are: the cell of C is the digit four. -/
theorem abbreviated_four_c_eq_many_d :
    let note (step : Step) : Entry :=
      .note { pitch := some ⟨step, 0, 4⟩, duration := { base := .eighth } }
    ∃ v v',
      Entry.scriptAll {} {} none (note .c :: List.replicate 4 (note .c) ++ [note .d]) = .ok v ∧
      Entry.scriptAll {} {} none (note .c :: List.replicate 44 (note .d)) = .ok v' ∧
      Layout.voiceText { compressRepeats := true } none v =
        Layout.voiceText { compressRepeats := true } none v' ∧
      Layout.voiceText {} none v ≠ Layout.voiceText {} none v' := by
  refine ⟨_, _, rfl, rfl, ?_, ?_⟩
  · decide +kernel
  · decide +kernel

end BrailleScore
