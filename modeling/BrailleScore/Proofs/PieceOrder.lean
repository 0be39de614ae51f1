import BrailleScore.Proofs.CellAlphabet

/-!
# The order of the pieces

The pieces of a script do not follow each other at will. Parts and staves begin where nothing is
under way, a voice stands behind the start of a staff, a finished measure or a sign of accord, and
behind a voice there is a sign of accord or the space that ends its measure. A property of what is
placed is proved along these steps.
-/

namespace BrailleScore.Layout

/-- What was placed last. -/
inductive Stage where
  /-- The name of a part, or nothing at all. -/
  | margin
  /-- The indentation of a staff, or a finished measure. -/
  | bar
  | voice
  | accord
deriving DecidableEq, Repr

/-- No measure is under way. -/
def Stage.Rests (a : Stage) : Prop := a = margin ∨ a = bar

/-- The piece may follow at the one stage and leads to the other. -/
inductive Follows : Stage → Piece → Stage → Prop
  | heading {a : Stage} (h : a.Rests) (name : List Char) : Follows a (.heading name) .margin
  | staff {a : Stage} (h : a.Rests) : Follows a .staff .bar
  | voice {a : Stage} (h : a = .bar ∨ a = .accord) {text : List Char}
      (htext : Cell.AllLetters text) : Follows a (.voice text) .voice
  | accord : Follows .voice inAccord .accord
  | space {a : Stage} (h : a = .bar ∨ a = .voice) : Follows a (.glue [' ']) .bar

/-- The pieces lead from the one stage to the other. -/
inductive Orderly : Stage → List Piece → Stage → Prop
  | nil (a : Stage) : Orderly a [] a
  | cons {a b c : Stage} {p : Piece} {ps : List Piece} (hp : Follows a p b)
      (hps : Orderly b ps c) : Orderly a (p :: ps) c

namespace Orderly

variable {a b c : Stage} {ps qs : List Piece}

lemma append (hps : Orderly a ps b) (hqs : Orderly b qs c) : Orderly a (ps ++ qs) c := by
  induction hps with
  | nil => exact hqs
  | cons hp _ ih => exact cons hp (ih hqs)

/-- What every piece keeps on its way from stage to stage is kept by all of them together. -/
theorem foldl {σ : Type} {place : σ → Piece → σ} {I : Stage → σ → Prop} (h : Orderly a ps b)
    (hstep : ∀ c d p s, p ∈ ps → Follows c p d → I c s → I d (place s p)) {s : σ} (hs : I a s) :
    I b (ps.foldl place s) := by
  induction h generalizing s with
  | nil => exact hs
  | cons hp _ ih =>
    have hfirst := hstep _ _ _ s List.mem_cons_self hp hs
    exact ih (fun c d p s hmem => hstep c d p s (List.mem_cons_of_mem _ hmem)) hfirst

end Orderly

/-! ### The pieces of a script -/

lemma orderly_measurePieces (style : Options.Style) (hand : Option Hand) (m : Script.Measure) :
    Orderly .bar (measurePieces style hand m) .bar := by
  have hvoice (a : Stage) (h : a = .bar ∨ a = .accord) (hand : Option Hand) (v : Script.Voice) :
      Follows a (.voice (voiceText style hand v)) .voice :=
    .voice h (Cell.AllLetters.voiceText style hand v)
  have hothers (others : Script.Measure) : Orderly .voice
      (others.flatMap fun v => [inAccord, .voice (voiceText style none v)]) .voice := by
    induction others with
    | nil => exact .nil .voice
    | cons v others ih => exact .cons .accord (.cons (hvoice .accord (.inr rfl) none v) ih)
  cases m with
  | nil => exact .cons (.space (.inl rfl)) (.nil .bar)
  | cons first others =>
    have hspace : Orderly .voice [.glue [' ']] .bar := .cons (.space (.inr rfl)) (.nil .bar)
    exact .cons (hvoice .bar (.inl rfl) hand first) ((hothers others).append hspace)

lemma orderly_measuresPieces (style : Options.Style) (hand : Option Hand) (s : Script.Staff) :
    Orderly .bar (measuresPieces style hand s) .bar := by
  induction s generalizing hand with
  | nil => exact .nil .bar
  | cons m rest ih => exact (orderly_measurePieces style hand m).append (ih _)

/-- The pieces begin and end where nothing is under way. -/
def Whole (ps : List Piece) : Prop := ∀ a : Stage, a.Rests → ∃ b : Stage, b.Rests ∧ Orderly a ps b

namespace Whole

lemma nil : Whole [] := fun a ha => ⟨a, ha, .nil a⟩

lemma append {ps qs : List Piece} (hps : Whole ps) (hqs : Whole qs) : Whole (ps ++ qs) := by
  intro a ha
  obtain ⟨b, hb, hab⟩ := hps a ha
  obtain ⟨c, hc, hbc⟩ := hqs b hb
  exact ⟨c, hc, hab.append hbc⟩

lemma flatMap {α : Type} {f : α → List Piece} (hf : ∀ x, Whole (f x)) (xs : List α) :
    Whole (xs.flatMap f) := by
  induction xs with
  | nil => exact nil
  | cons x xs ih => exact (hf x).append ih

lemma staff (style : Options.Style) (hand : Option Hand) (s : Script.Staff) :
    Whole (staffPieces style hand s) := by
  intro a ha
  exact ⟨.bar, .inr rfl, .cons (.staff ha) (orderly_measuresPieces style hand s)⟩

lemma segment (style : Options.Style) (staves : Script.Segment) :
    Whole (segmentPieces style staves) := by
  unfold segmentPieces
  split
  · split
    · exact (staff style _ _).append (staff style _ _)
    · exact (staff style _ _).append (staff style _ _)
  · exact flatMap (staff style none) staves

lemma part (style : Options.Style) (p : Script.Part) : Whole (partPieces style p) := by
  intro a ha
  obtain ⟨b, hb, h⟩ := flatMap (segment style) p.segments .margin (.inl rfl)
  exact ⟨b, hb, .cons (.heading ha _) h⟩

end Whole

theorem whole_pieces (style : Options.Style) (s : Script) : Whole (pieces style s) :=
  Whole.flatMap (Whole.part style) s

theorem exists_orderly_pieces (style : Options.Style) (s : Script) :
    ∃ b, Orderly .margin (pieces style s) b := by
  obtain ⟨b, -, h⟩ := whole_pieces style s .margin (.inl rfl)
  exact ⟨b, h⟩

end BrailleScore.Layout
