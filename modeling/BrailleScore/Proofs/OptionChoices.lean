import BrailleScore.Document.Decoder
import BrailleScore.Proofs.Outcome

/-!
# The options of a document

A document gives options that say what it chooses and have their defaults elsewhere, or it is
refused.
-/

namespace BrailleScore.Options

open Fault

/-- The policy that a word stands for, white space around it aside. Without a word it is strict. -/
inductive Policy.Named : Option String → Policy → Prop
  | missing : Named none .strict
  | strict {text : String} (h : Text.trim text = "strict") : Named (some text) .strict
  | lenient {text : String} (h : Text.trim text = "omit") : Named (some text) .lenient

/-- The options are as chosen: 25 lines of 40 characters, if nothing else is, and no less than one
line of 8. -/
structure Choices.Give (c : Choices) (o : Options) : Prop where
  width : o.page.width = c.width.getD 40
  wide : 8 ≤ o.page.width
  height : o.page.height = c.height.getD 25
  high : 1 ≤ o.page.height
  showFingering : o.content.showFingering = c.showFingering.getD false
  unsupported : Policy.Named c.unsupported o.content.unsupported
  compressRepeats : o.style.compressRepeats = c.compressRepeats.getD false
  handSigns : o.style.handSigns = c.handSigns.getD true

/-- White space alone chooses nothing, any other document what it is decoded as. -/
inductive Chosen (decoder : Decoder) (document : String) : Choices → Prop
  | blank (h : ∀ char ∈ document.toList, Text.isBlank char) : Chosen decoder document {}
  | decoded {c : Choices} (hblank : ∃ char ∈ document.toList, ¬ Text.isBlank char)
    (h : decoder.options document = .ok c) : Chosen decoder document c

variable {o o' : Options} {c : Choices}

lemma Policy.read_eq_ok {text : String} {p : Policy} :
    Policy.read text = .ok p ↔ Policy.Named (some text) p := by
  unfold Policy.read
  constructor
  · intro h
    split at h
    case h_1 hword =>
      cases h
      exact .strict hword
    case h_2 hword =>
      cases h
      exact .lenient hword
    case h_3 => cases h
  · intro h
    cases h with
    | strict hword =>
      rw [hword]
      rfl
    | lenient hword =>
      rw [hword]
      rfl

lemma Policy.named_none {p : Policy} : Policy.Named none p ↔ .strict = p := by
  constructor
  · rintro ⟨⟩
    rfl
  · rintro rfl
    exact .missing

/-- The options that choices with this policy give, if the page is large enough. -/
def Choices.filled (c : Choices) (unsupported : Policy) : Options where
  page := ⟨c.width.getD 40, c.height.getD 25⟩
  content := ⟨c.showFingering.getD false, unsupported⟩
  style := ⟨c.compressRepeats.getD false, c.handSigns.getD true⟩

lemma Choices.give_iff : c.Give o ↔ 8 ≤ c.width.getD 40 ∧ 1 ≤ c.height.getD 25 ∧
    ∃ p, Policy.Named c.unsupported p ∧ c.filled p = o := by
  constructor
  · intro h
    refine ⟨h.width ▸ h.wide, h.height ▸ h.high, o.content.unsupported, h.unsupported, ?_⟩
    rw [filled, ← h.width, ← h.height, ← h.showFingering, ← h.compressRepeats, ← h.handSigns]
  · rintro ⟨hwide, hhigh, p, hp, rfl⟩
    exact ⟨rfl, hwide, rfl, hhigh, rfl, hp, rfl, rfl⟩

theorem ofChoices_eq_ok : ofChoices c = .ok o ↔ c.Give o := by
  rw [Choices.give_iff]
  unfold ofChoices
  by_cases hwidth : c.width.getD 40 < leastWidth
  · refine ⟨fun h => ?_, fun h => absurd h.1 (Nat.not_le.mpr hwidth)⟩
    simp only [hwidth] at h
    cases h
  · have hwide : 8 ≤ c.width.getD 40 := Nat.not_lt.mp hwidth
    by_cases hheight : c.height.getD 25 = 0
    · refine ⟨fun h => ?_, fun h => absurd hheight (Nat.one_le_iff_ne_zero.mp h.2.1)⟩
      simp only [hwidth, hheight] at h
      cases h
    · have hhigh : 1 ≤ c.height.getD 25 := Nat.one_le_iff_ne_zero.mpr hheight
      simp only [hwidth, hheight, hwide, hhigh, true_and, if_false]
      cases hword : c.unsupported with
      | none =>
        simp only [Policy.named_none, exists_eq_left']
        exact pure_eq_ok
      | some text =>
        simp only [bind_eq_ok, Policy.read_eq_ok]
        exact exists_congr fun p => and_congr_right fun _ => pure_eq_ok

lemma Choices.give_default : Choices.Give {} {} := ofChoices_eq_ok.mp rfl

lemma Choices.Give.unique (h : c.Give o) (h' : c.Give o') : o = o' :=
  Except.ok.inj ((ofChoices_eq_ok.mpr h).symm.trans (ofChoices_eq_ok.mpr h'))

lemma chosen_of_blank {decoder : Decoder} {document : String}
    (hblank : ∀ char ∈ document.toList, Text.isBlank char) :
    Chosen decoder document c ↔ c = {} := by
  constructor
  · intro h
    cases h with
    | blank _ => rfl
    | decoded hother _ =>
      obtain ⟨char, hmem, hchar⟩ := hother
      exact absurd (hblank char hmem) hchar
  · rintro rfl
    exact .blank hblank

lemma chosen_of_other {decoder : Decoder} {document : String}
    (hother : ∃ char ∈ document.toList, ¬ Text.isBlank char) :
    Chosen decoder document c ↔ decoder.options document = .ok c := by
  constructor
  · intro h
    cases h with
    | blank hblank =>
      obtain ⟨char, hmem, hchar⟩ := hother
      exact absurd (hblank char hmem) hchar
    | decoded _ h => exact h
  · exact .decoded hother

/-- Options are loaded if the choices of the document give them. -/
theorem load_eq_ok {decoder : Decoder} {document : String} :
    load decoder document = .ok o ↔ ∃ c, Chosen decoder document c ∧ c.Give o := by
  unfold load
  by_cases hblank : ∀ char ∈ document.toList, Text.isBlank char
  · have hblankText : Text.isBlankText document := List.all_eq_true.mpr hblank
    simp only [hblankText, if_true, chosen_of_blank hblank, exists_eq_left]
    exact ⟨fun h => Except.ok.inj h ▸ Choices.give_default,
      fun h => congrArg _ (Choices.give_default.unique h)⟩
  · have hblankText : ¬ Text.isBlankText document := fun h => hblank (List.all_eq_true.mp h)
    push Not at hblank
    simp only [hblankText, chosen_of_other hblank]
    cases decoder.options document with
    | error reason => simp [raise]
    | ok c => simp [ofChoices_eq_ok]

end BrailleScore.Options
