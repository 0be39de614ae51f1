import BrailleScore.Proofs.CellAlphabet
import BrailleScore.Proofs.NoteCount
import BrailleScore.Proofs.RepeatReading

/-!
# Voices behind hand signs

A cell with dot 3 keeps a hand sign apart from a voice that begins with a dot on the left, whatever
the voice begins with and whether it is abbreviated. All hand signs end in a cell that no voice
contains, so that they are told from the text alone.
-/

namespace BrailleScore

open Fault Sign

namespace Hand

def all : List Hand := [.right, .left, .solo]

/-- The hand signs that a text contains, in the order of their places. -/
def signsIn (t : List Char) : List Hand :=
  t.tails.flatMap fun u => all.filter fun h => (Sign.hand h).text.isPrefixOf u

def opening : Hand → Char
  | right => (Cell.ofPattern 46).char
  | left => (Cell.ofPattern 456).char
  | solo => (Cell.ofPattern 5).char

/-- The cell that every hand sign ends with. -/
def closing : Char := (Cell.ofPattern 345).char

lemma text_hand (hand : Hand) : (Sign.hand hand).text = [hand.opening, closing] := by
  cases hand <;> rfl

lemma opening_ne_closing (hand : Hand) : hand.opening ≠ closing := by
  cases hand <;> decide

lemma filter_opening (hand : Hand) : (all.filter fun h => h.opening = hand.opening) = [hand] := by
  cases hand <;> decide

lemma signsIn_eq_nil {t : List Char} (h : closing ∉ t) : signsIn t = [] := by
  simp only [signsIn, List.flatMap_eq_nil_iff, List.mem_tails, List.filter_eq_nil_iff,
    List.isPrefixOf_iff_prefix, text_hand]
  intro u hu hand _ hstart
  exact h (hu.subset (hstart.subset (by simp)))

/-- A text that begins with a hand sign contains no other one. -/
lemma signsIn_text_append (hand : Hand) {t : List Char} (h : closing ∉ t) :
    signsIn ((Sign.hand hand).text ++ t) = [hand] := by
  have hfirst : (all.filter fun h => [h.opening, closing].isPrefixOf (hand.opening :: closing :: t))
      = [hand] := by
    rw [← filter_opening hand]
    simp [List.isPrefixOf, beq_eq_decide]
  have hsecond : (all.filter fun h => [h.opening, closing].isPrefixOf (closing :: t)) = [] := by
    simp [List.isPrefixOf, opening_ne_closing]
  have hrest := signsIn_eq_nil h
  unfold signsIn at hrest ⊢
  simp only [text_hand] at hrest ⊢
  rw [List.cons_append, List.cons_append, List.nil_append, List.tails_cons, List.tails_cons,
    List.flatMap_cons, List.flatMap_cons, hfirst, hsecond, hrest]
  rfl

end Hand

/-! ### The cells of a voice -/

namespace Sign

lemma closing_not_mem_fingering (f : Fin 5) (fs : List (Fin 5)) :
    Hand.closing ∉ (fingering (f :: fs)).text := by
  have hfinger : ∀ f, Hand.closing ≠ (Cell.ofPattern (fingerCell f)).char := by decide
  have hchange : Hand.closing ≠ (Cell.ofPattern 14).char := by decide
  induction fs generalizing f with
  | nil => simpa [text, Cell.row] using hfinger f
  | cons g fs ih =>
    rw [text, patterns_fingering_cons, Cell.row, List.map_cons, List.map_cons, List.mem_cons,
      List.mem_cons]
    rintro (hc | hc | hc)
    · exact hfinger f hc
    · exact hchange hc
    · exact ih g hc

lemma closing_not_mem_text {s : Sign} (h : s.isMusic) : Hand.closing ∉ s.text := by
  have hfaces : ∀ s ∈ faces, Hand.closing ∉ s.text := by decide +kernel
  obtain hs | ⟨f, fs, rfl⟩ := face_mem_faces h
  · have hface := hfaces _ hs
    rw [text, patterns_face] at hface
    exact hface
  · exact closing_not_mem_fingering f fs

end Sign

namespace Script

lemma Voice.IsWritten.ne_nil {v : Voice} (h : v.IsWritten) : v ≠ [] := by
  obtain ⟨content, table, last, entries, hentries, hv⟩ := h
  obtain ⟨e, later, rfl⟩ := List.exists_cons_of_ne_nil hentries
  simp only [Entry.scriptAll, bind_eq_ok, pure_eq_ok] at hv
  obtain ⟨items, hitems, more, -, rfl⟩ := hv
  obtain ⟨note, -, hnote⟩ := Entry.script_eq_ok_signs hitems
  rintro hnil
  rw [(List.append_eq_nil_iff.mp hnil).1] at hnote
  cases hnote

lemma Item.closing_not_mem_text {i : Item} (h : InOrder i.signs) : Hand.closing ∉ i.text := by
  rw [Item.text_eq_row h, Cell.row, Sign.cells, List.map_flatMap]
  intro hc
  obtain ⟨s, hs, hc⟩ := List.mem_flatMap.mp hc
  exact Sign.closing_not_mem_text (isMusic_of_inOrder h s hs) hc

lemma Item.text_ne_nil {i : Item} (h : InOrder i.signs) : i.text ≠ [] := by
  rw [Item.text_eq_row h]
  exact fun hnil => h.cells_ne_nil (List.map_eq_nil_iff.mp hnil)

end Script

lemma Repetition.closing_not_mem_write {t : List Char} (h : Hand.closing ∉ t) (n : Nat) :
    Hand.closing ∉ write t n := by
  have hnumber : Hand.closing ∉ Glyph.numberSign.text := by decide
  have hdigit : ∀ d, Hand.closing ∉ (Glyph.digit d).text := by decide
  unfold write
  split
  · intro hc
    obtain ⟨u, hu, hc⟩ := List.mem_flatten.mp hc
    rw [List.eq_of_mem_replicate hu] at hc
    exact h hc
  · intro hc
    obtain hc | hc := List.mem_append.mp hc
    · obtain hc | hc := List.mem_append.mp hc
      · exact hnumber hc
      · obtain ⟨d, -, hc⟩ := List.mem_flatMap.mp hc
        exact hdigit d hc
    · exact h hc

/-! ### A voice behind a hand sign -/

lemma Fragment.startsLeft_joinSolid (f : Fragment) (hf : f.text ≠ []) (fs : List Fragment) :
    startsLeft { text := joinSolid (f :: fs) } = f.startsLeft := by
  obtain ⟨c, t, ht⟩ := List.exists_cons_of_ne_nil hf
  cases fs with
  | nil => rfl
  | cons next rest => simp [startsLeft, joinSolid, ht]

/-- A fragment is kept apart from the text of those behind it, however that is put together. -/
theorem Fragment.join_cons {f : Fragment} (hf : f.text ≠ []) (fs : List Fragment) :
    join (f :: fs) = f.text ++ f.separator { text := join fs } ++ join fs := by
  have hkept : (f :: fs).filter (fun f => !f.text.isEmpty) =
      f :: fs.filter fun f => !f.text.isEmpty :=
    List.filter_cons_of_pos (by simpa using hf)
  unfold join
  rw [hkept]
  have hsolid : ∀ next ∈ fs.filter fun f => !f.text.isEmpty, next.text ≠ [] := by
    intro next hnext
    simpa using (List.mem_filter.mp hnext).2
  cases hrest : fs.filter fun f => !f.text.isEmpty with
  | nil => simp [joinSolid, separator, startsLeft]
  | cons next rest =>
    have hnext := hsolid next (by simp [hrest])
    rw [joinSolid, separator, separator, startsLeft_joinSolid next hnext]

namespace Run

variable {α : Type} [DecidableEq α]

lemma forall_length_pos_group (items : List α) : ∀ r ∈ group items, 1 ≤ r.length :=
  (gathers_group items).length_pos

lemma item_mem_of_mem_group {items : List α} {r : Run α} (h : r ∈ group items) :
    r.item ∈ items := by
  have hlength := forall_length_pos_group items r h
  rw [← expand_group items]
  exact item_mem_expand h (by omega)

end Run

lemma Repetition.write_ne_nil {t : List Char} (h : t ≠ []) {n : Nat} (hn : 1 ≤ n) :
    write t n ≠ [] := by
  unfold write
  split
  · obtain ⟨m, rfl⟩ := Nat.exists_eq_add_of_le' hn
    rw [List.replicate_succ, List.flatten_cons]
    exact List.append_ne_nil_of_left_ne_nil h _
  · exact List.append_ne_nil_of_right_ne_nil _ h

namespace Layout

variable {style : Options.Style} {v : Script.Voice}

lemma exists_of_mem_fragments {f : Fragment} (h : f ∈ fragments style v) :
    ∃ i ∈ v, ∃ n, 1 ≤ n ∧ f = { text := Repetition.write i.text n } := by
  unfold fragments at h
  split at h
  · obtain ⟨r, hr, rfl⟩ := List.mem_map.mp h
    exact ⟨r.item, Run.item_mem_of_mem_group hr, r.length, Run.forall_length_pos_group v r hr, rfl⟩
  · obtain ⟨i, hi, rfl⟩ := List.mem_map.mp h
    have hone : Repetition.write i.text 1 = i.text := by simp [Repetition.write]
    exact ⟨i, hi, 1, le_rfl, by rw [hone]⟩

lemma fragments_ne_nil (h : v ≠ []) : fragments style v ≠ [] := by
  have hgroup : Run.group v ≠ [] := by
    intro hnil
    have hexpand := Run.expand_group v
    rw [hnil] at hexpand
    exact h hexpand.symm
  unfold fragments
  split
  · simpa using hgroup
  · simpa using h

lemma voiceText_none : voiceText style none v = (fragments style v).flatMap Fragment.text := by
  apply Fragment.join_eq_flatMap
  intro f hf
  obtain ⟨i, -, n, -, rfl⟩ := exists_of_mem_fragments hf
  rfl

lemma voiceText_ne_nil (h : v.IsWritten) (style : Options.Style) :
    voiceText style none v ≠ [] := by
  have hfragments : fragments style v ≠ [] := fragments_ne_nil h.ne_nil
  obtain ⟨f, hf⟩ := List.exists_mem_of_ne_nil _ hfragments
  have hne : f.text ≠ [] := by
    obtain ⟨i, hi, n, hn, rfl⟩ := exists_of_mem_fragments hf
    exact Repetition.write_ne_nil (Script.Item.text_ne_nil (h.inOrder i hi)) hn
  rw [voiceText_none]
  intro hnil
  exact hne (List.flatMap_eq_nil_iff.mp hnil f hf)

lemma closing_not_mem_voiceText (h : v.IsWritten) (style : Options.Style) :
    Hand.closing ∉ voiceText style none v := by
  rw [voiceText_none]
  intro hc
  obtain ⟨f, hf, hc⟩ := List.mem_flatMap.mp hc
  obtain ⟨i, hi, n, -, rfl⟩ := exists_of_mem_fragments hf
  have hitem := Script.Item.closing_not_mem_text (h.inOrder i hi)
  exact Repetition.closing_not_mem_write hitem n hc

/-- The text `t` is that of a voice behind a hand sign. A cell with dot 3 stands between the two if
the voice begins with a dot on the left. -/
def Handed (hand : Hand) (voice t : List Char) : Prop :=
  ∃ (first : Cell) (more : List Char), voice = first.char :: more ∧
    t = (Sign.hand hand).text ++ (if first.touchesLeft then Glyph.dot.text else []) ++ voice ∧
    Hand.signsIn t = [hand]

theorem handed (h : v.IsWritten) (style : Options.Style) (hand : Hand) :
    Handed hand (voiceText style none v) (voiceText style (some hand) v) := by
  obtain ⟨c, more, hvoice⟩ := List.exists_cons_of_ne_nil (voiceText_ne_nil h style)
  obtain ⟨p, -, hp⟩ : Cell.IsLetter c :=
    Cell.AllLetters.voiceText style none v c (by rw [hvoice]; exact List.mem_cons_self)
  have hsign : (Fragment.ofSign (.hand hand)).text ≠ [] := by
    rw [Fragment.ofSign, Hand.text_hand]
    exact List.cons_ne_nil _ _
  have hjoin := Fragment.join_cons hsign (fragments style v)
  have hseparator : (Fragment.ofSign (.hand hand)).separator { text := voiceText style none v } =
      if (Cell.ofPattern p).touchesLeft then Glyph.dot.text else [] := by
    simp [Fragment.separator, Fragment.startsLeft, hvoice, hp, Fragment.ofSign, separates,
      Glyph.separates]
  have htext : voiceText style (some hand) v = (Sign.hand hand).text ++
      (if (Cell.ofPattern p).touchesLeft then Glyph.dot.text else []) ++
        voiceText style none v := by
    rw [← hseparator]
    exact hjoin
  refine ⟨Cell.ofPattern p, more, by rw [hvoice, hp], htext, ?_⟩
  rw [htext, List.append_assoc]
  apply Hand.signsIn_text_append
  intro hc
  obtain hc | hc := List.mem_append.mp hc
  · have hdot : Hand.closing ∉ Glyph.dot.text := by decide
    split at hc
    · exact hdot hc
    · exact List.not_mem_nil hc
  · exact closing_not_mem_voiceText h style hc

end Layout

end BrailleScore
