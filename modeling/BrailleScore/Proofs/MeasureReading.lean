import BrailleScore.Proofs.NoteFeatures

/-!
# Reading a measure

The text of a measure that is written out determines how many voices it has, how many items each
voice has and the texts of the signs of each item. Values of one class and most nestings of
tuplets look alike; all else that the signs tell is determined, and so is what is written of each
note and rest.
-/

namespace BrailleScore

open Sign

namespace Script

/-- What the signs of an item tell. -/
def Item.faces (i : Item) : List Sign := i.signs.map face

def Item.signTexts (i : Item) : List (List Char) := i.signs.map Sign.text

lemma Item.signTexts_eq (i : Item) : i.signTexts = i.faces.map Sign.text := by
  simp [signTexts, faces, Sign.text, Function.comp_def]

/-- The voice is what some notes and rests are written as. -/
def Voice.IsWritten (v : Voice) : Prop :=
  ∃ content table last entries, entries ≠ [] ∧ Entry.scriptAll content table last entries = .ok v

/-- The measure has voices, and each of them is written. -/
def Measure.IsWritten (m : Measure) : Prop := m ≠ [] ∧ ∀ v ∈ m, Voice.IsWritten v

lemma Voice.IsWritten.inOrder {v : Voice} (h : v.IsWritten) : ∀ i ∈ v, InOrder i.signs := by
  obtain ⟨content, table, last, entries, -, h⟩ := h
  exact Entry.inOrder_scriptAll h

/-- What a voice is written from: some notes and rests, and what is known in front of them. -/
structure Voice.Source where
  content : Options.Content
  table : Tuplet.Table
  last : Option Pitch
  entries : List Entry

namespace Voice.Source

def Writes (source : Source) (v : Voice) : Prop :=
  Entry.scriptAll source.content source.table source.last source.entries = .ok v

/-- What is written of the notes and rests. -/
def features (source : Source) : List Features :=
  Entry.featuresAll source.content source.last source.entries

end Voice.Source

/-- The faces of items tell what is written of the notes and rests behind them. -/
lemma map_features_of_writes {m : Measure} {sources : List Voice.Source}
    (h : List.Forall₂ Voice.Source.Writes sources m) :
    sources.map Voice.Source.features = (m.map (List.map Item.faces)).map fun items =>
      (items.map Features.ofSigns).filter fun f => f.valueClass.isSome := by
  induction h with
  | nil => rfl
  | @cons source v _ _ hfirst _ ih =>
    have hfaces : (v.map Item.faces).map Features.ofSigns =
        v.map fun i => Features.ofSigns i.signs := by
      simp [Item.faces, Features.ofSigns_map_face]
    rw [List.map_cons, List.map_cons, List.map_cons, ih, hfaces, Voice.Source.features,
      ← Entry.features_scriptAll hfirst]
    rfl

/-- A voice ends here: nothing follows, or the sign between voices. -/
def VoiceEnd (x : List Nat) : Prop := x = [] ∨ ∃ y, x = Glyph.fullMeasureInAccord.patterns ++ y

lemma VoiceEnd.fresh {x : List Nat} (h : VoiceEnd x) : Fresh x := by
  obtain rfl | ⟨y, rfl⟩ := h
  · exact fresh_nil
  · exact fresh_divider (by decide) y

lemma VoiceEnd.ne_item {x y : List Nat} {S : List Sign} (h : VoiceEnd x) (hS : InOrder S)
    (hy : Fresh y) : Sign.cells S ++ y ≠ x := by
  obtain rfl | ⟨z, rfl⟩ := h
  · exact List.append_ne_nil_of_left_ne_nil hS.cells_ne_nil y
  · exact hS.ne_divider hy (by decide)

lemma Voice.fresh {v : Voice} {x : List Nat} (hv : ∀ i ∈ v, InOrder i.signs) (hx : Fresh x) :
    Fresh (v.cells ++ x) := by
  induction v with
  | nil => exact hx
  | cons i v ih =>
    have hrest := ih fun j hj => hv j (List.mem_cons_of_mem i hj)
    rw [Voice.cells_cons, List.append_assoc]
    exact (hv i List.mem_cons_self).fresh hrest

theorem Voice.cancel {v v' : Voice} {x x' : List Nat} (hv : ∀ i ∈ v, InOrder i.signs)
    (hv' : ∀ i ∈ v', InOrder i.signs) (hx : VoiceEnd x) (hx' : VoiceEnd x')
    (e : v.cells ++ x = v'.cells ++ x') : v.map Item.faces = v'.map Item.faces ∧ x = x' := by
  induction v generalizing v' with
  | nil =>
    cases v' with
    | nil => exact ⟨rfl, e⟩
    | cons i' v' =>
      obtain ⟨hi', hrest'⟩ := List.forall_mem_cons.mp hv'
      rw [Voice.cells_cons, List.append_assoc] at e
      exact absurd e.symm (hx.ne_item hi' (Voice.fresh hrest' hx'.fresh))
  | cons i v ih =>
    obtain ⟨hi, hrest⟩ := List.forall_mem_cons.mp hv
    have hfresh := Voice.fresh hrest hx.fresh
    rw [Voice.cells_cons, List.append_assoc] at e
    cases v' with
    | nil => exact absurd e (hx'.ne_item hi hfresh)
    | cons i' v' =>
      obtain ⟨hi', hrest'⟩ := List.forall_mem_cons.mp hv'
      have hfresh' := Voice.fresh hrest' hx'.fresh
      rw [Voice.cells_cons, List.append_assoc] at e
      obtain ⟨hfaces, htail⟩ := hi.cancel hi' hfresh hfresh' e
      obtain ⟨hmore, hend⟩ := ih hrest hrest' htail
      exact ⟨by simp [Item.faces, hfaces, hmore], hend⟩

/-- The patterns of voices, each behind the sign that separates it from the one before. -/
def accordCells (m : Measure) : List Nat :=
  m.flatMap fun v => Glyph.fullMeasureInAccord.patterns ++ v.cells

lemma voiceEnd_accordCells (m : Measure) : VoiceEnd (accordCells m) := by
  cases m with
  | nil => exact .inl rfl
  | cons v m => exact .inr ⟨v.cells ++ accordCells m, by simp [accordCells]⟩

theorem faces_eq_of_accordCells_eq {m m' : Measure} (hm : ∀ v ∈ m, ∀ i ∈ v, InOrder i.signs)
    (hm' : ∀ v ∈ m', ∀ i ∈ v, InOrder i.signs) (e : accordCells m = accordCells m') :
    m.map (List.map Item.faces) = m'.map (List.map Item.faces) := by
  induction m generalizing m' with
  | nil =>
    cases m' with
    | nil => rfl
    | cons v' m' => simp [accordCells, Glyph.patterns] at e
  | cons v m ih =>
    cases m' with
    | nil => simp [accordCells, Glyph.patterns] at e
    | cons v' m' =>
      obtain ⟨hv, hrest⟩ := List.forall_mem_cons.mp hm
      obtain ⟨hv', hrest'⟩ := List.forall_mem_cons.mp hm'
      have htail : v.cells ++ accordCells m = v'.cells ++ accordCells m' := by
        simpa [accordCells] using e
      obtain ⟨hfaces, hend⟩ :=
        Voice.cancel hv hv' (voiceEnd_accordCells m) (voiceEnd_accordCells m') htail
      simp [hfaces, ih hrest hrest' hend]

end Script

namespace Layout

def Piece.text : Piece → List Char
  | heading name => name
  | staff => []
  | voice text | glue text => text

/-- The text of a measure without a hand sign: its voices, joined by the sign of voices in
accord, and a space. -/
def measureText (style : Options.Style) (m : Script.Measure) : List Char :=
  (measurePieces style none m).flatMap Piece.text

lemma flatMap_text_others {style : Options.Style} (hstyle : style.compressRepeats = false)
    {m : Script.Measure} (hm : ∀ v ∈ m, ∀ i ∈ v, InOrder i.signs) :
    (m.flatMap fun v => [inAccord, .voice (voiceText style none v)]).flatMap Piece.text =
      Cell.row (Script.accordCells m) := by
  induction m with
  | nil => rfl
  | cons v m ih =>
    obtain ⟨hv, hrest⟩ := List.forall_mem_cons.mp hm
    have hvoice : voiceText style none v = Cell.row v.cells := by
      rw [Script.Voice.voiceText_eq_flatMap hstyle, Script.Voice.flatMap_text hv]
    have hcells : Script.accordCells (v :: m) =
      Glyph.fullMeasureInAccord.patterns ++ v.cells ++ Script.accordCells m := rfl
    rw [List.flatMap_cons, List.flatMap_append, ih hrest, hcells, Cell.row_append, Cell.row_append]
    simp [inAccord, Piece.text, hvoice, Glyph.text]

/-- The sign of voices in accord in front of a measure makes all voices alike. -/
lemma accord_append_measureText {style : Options.Style} (hstyle : style.compressRepeats = false)
    {m : Script.Measure} (hne : m ≠ []) (hm : ∀ v ∈ m, ∀ i ∈ v, InOrder i.signs) :
    Glyph.fullMeasureInAccord.text ++ measureText style m =
      Cell.row (Script.accordCells m) ++ [' '] := by
  cases m with
  | nil => exact absurd rfl hne
  | cons first others =>
    rw [← flatMap_text_others hstyle hm]
    simp [measureText, measurePieces, inAccord, Piece.text]

end Layout

lemma Script.isCanonical_accordCells {m : Script.Measure}
    (hm : ∀ v ∈ m, ∀ i ∈ v, InOrder i.signs) :
    ∀ p ∈ Script.accordCells m, Cell.IsCanonical p := by
  have haccord : ∀ p ∈ Glyph.fullMeasureInAccord.patterns, Cell.IsCanonical p := by decide
  intro p hp
  obtain ⟨v, hv, hp⟩ := List.mem_flatMap.mp hp
  obtain hp | hp := List.mem_append.mp hp
  · exact haccord p hp
  · exact Script.Voice.isCanonical_cells (hm v hv) p hp

/-- The text of a measure is uniquely decodable: it determines the voices, their items and the
signs of these, and so what is written of the notes and rests that the measure comes from. -/
theorem signTexts_eq_of_measureText_eq {style style' : Options.Style} {m m' : Script.Measure}
    (hstyle : style.compressRepeats = false) (hstyle' : style'.compressRepeats = false)
    (hm : m.IsWritten) (hm' : m'.IsWritten)
    (h : Layout.measureText style m = Layout.measureText style' m') :
    m.map (List.map Script.Item.signTexts) = m'.map (List.map Script.Item.signTexts) ∧
      m.map (List.map Script.Item.faces) = m'.map (List.map Script.Item.faces) ∧
      ∀ sources sources', List.Forall₂ Script.Voice.Source.Writes sources m →
        List.Forall₂ Script.Voice.Source.Writes sources' m' →
          sources.map Script.Voice.Source.features = sources'.map Script.Voice.Source.features := by
  have horder : ∀ v ∈ m, ∀ i ∈ v, InOrder i.signs := fun v hv => (hm.2 v hv).inOrder
  have horder' : ∀ v ∈ m', ∀ i ∈ v, InOrder i.signs := fun v hv => (hm'.2 v hv).inOrder
  have htext := congrArg (Glyph.fullMeasureInAccord.text ++ ·) h
  simp only [Layout.accord_append_measureText hstyle hm.1 horder,
    Layout.accord_append_measureText hstyle' hm'.1 horder'] at htext
  have hcells := Cell.row_injOn (Script.isCanonical_accordCells horder)
    (Script.isCanonical_accordCells horder') (List.append_cancel_right htext)
  have hfaces := Script.faces_eq_of_accordCells_eq horder horder' hcells
  refine ⟨?_, hfaces, fun sources sources' hsources hsources' => ?features⟩
  case features =>
    rw [Script.map_features_of_writes hsources, Script.map_features_of_writes hsources', hfaces]
  have hsigns (m : Script.Measure) : m.map (List.map Script.Item.signTexts) =
      (m.map (List.map Script.Item.faces)).map (List.map (List.map Sign.text)) := by
    simp [Script.Item.signTexts_eq, Function.comp_def]
  rw [hsigns m, hsigns m', hfaces]

/-- A slurred quarter C under a triplet sign, in accord with a dotted half rest, is written like
the shortest values of their classes. -/
theorem signTexts_eq_of_accord_of_two :
    [[Script.Item.signTexts (.tuplet (.tuplet .three false)),
        Script.Item.signTexts (.note [.octave 4, .note .c .quarter, .fingering [0, 1], .slur])],
      [Script.Item.signTexts (.note [.rest .half, .dot])]] =
    [[Script.Item.signTexts (.tuplet (.tuplet .three false)),
        Script.Item.signTexts (.note [.octave 4, .note .c .sixtyFourth, .fingering [0, 1], .slur])],
      [Script.Item.signTexts (.note [.rest .thirtySecond, .dot])]] := by
  have hnote (value : NoteValue) : Script.Voice.IsWritten
      [.tuplet (.tuplet .three false),
        .note [.octave 4, .note .c value, .fingering [0, 1], .slur]] :=
    ⟨{ showFingering := true }, ⟨[{ arity := 3 }]⟩, none,
      [.note {
        pitch := some { step := .c, octave := 4 }, duration := { base := value },
        fingering := [1, 2], slurs := [{ id := 0 }], tuplet := some 0, tupletStarts := 1 }],
      by simp, by rfl⟩
  have hrest (value : NoteValue) : Script.Voice.IsWritten [.note [.rest value, .dot]] :=
    ⟨{}, {}, none, [.rest { duration := { base := value, dots := 1 } }], by simp, by rfl⟩
  have hmeasure (value value' : NoteValue) : Script.Measure.IsWritten
      [[.tuplet (.tuplet .three false),
        .note [.octave 4, .note .c value, .fingering [0, 1], .slur]],
        [.note [.rest value', .dot]]] := by
    refine ⟨by simp, ?_⟩
    rintro v hv
    obtain rfl | hv := List.mem_cons.mp hv
    · exact hnote value
    · obtain rfl := List.mem_singleton.mp hv
      exact hrest value'
  exact (@signTexts_eq_of_measureText_eq {} { handSigns := false } _ _ rfl rfl
    (hmeasure .quarter .half) (hmeasure .sixtyFourth .thirtySecond) (by decide +kernel)).1

end BrailleScore
