import Mathlib.Data.List.DropRight
import BrailleScore.Proofs.AsciiCoding

/-!
# Faults in the export to Braille ASCII

A text may be written line by line or in one go. The first character without a form is at fault,
and its line and column are counted from the line ends in front of it.
-/

namespace BrailleScore.BrailleAscii

open Fault

/-! ### Lines -/

/-- Encodes what stands in one line from a column on. -/
def encodeLine (line column : Nat) (cs : List Char) : Except Fault (List Char) :=
  (cs.zipIdx column).mapM fun (c, column) => encodeChar line column c

/-- Encodes lines one after the other, the first of which has the given number. -/
def encodeLines (line : Nat) (lines : List (List Char)) : Except Fault (List (List Char)) :=
  (lines.zipIdx line).mapM fun (cs, line) => encodeLine line 1 cs

lemma encodeLine_cons (line column : Nat) (c : Char) (cs : List Char) :
    encodeLine line column (c :: cs) = encodeChar line column c >>= fun a =>
      encodeLine line (column + 1) cs >>= fun as => pure (a :: as) :=
  List.mapM_cons

lemma encodeLines_cons (line : Nat) (cs : List Char) (lines : List (List Char)) :
    encodeLines line (cs :: lines) = encodeLine line 1 cs >>= fun as =>
      encodeLines (line + 1) lines >>= fun bs => pure (as :: bs) :=
  List.mapM_cons

lemma splitOn_cons (c : Char) (text : List Char) : (c :: text).splitOn '\n' =
    if c = '\n' then [] :: text.splitOn '\n' else (text.splitOn '\n').modifyHead (c :: ·) := by
  simp [List.splitOn, List.splitOnP_cons_eq_if_modifyHead]

lemma encodeFrom_eq_lines {text first : List Char} {rest : List (List Char)}
    (h : text.splitOn '\n' = first :: rest) (line column : Nat) :
    encodeFrom line column text = encodeLine line column first >>= fun a =>
      encodeLines (line + 1) rest >>= fun as => pure (['\n'].intercalate (a :: as)) := by
  -- For the induction the first line may have begun before the text.
  induction text generalizing line column first rest with
  | nil =>
    obtain ⟨rfl, rfl⟩ : [] = first ∧ [] = rest := by simpa using h
    rfl
  | cons c text ih =>
    obtain ⟨next, later, hsplit⟩ := List.exists_cons_of_ne_nil (List.splitOn_ne_nil '\n' text)
    rw [splitOn_cons, hsplit] at h
    by_cases hc : c = '\n'
    · obtain ⟨rfl, rfl⟩ : [] = first ∧ next :: later = rest := by simpa [hc] using h
      have hbreak : encodeFrom line column (c :: text) =
          encodeFrom (line + 1) 1 text >>= fun as => pure ('\n' :: as) := by
        rw [hc]
        rfl
      rw [hbreak, ih hsplit, encodeLines_cons]
      simp only [bind_assoc, pure_bind, encodeLine, List.zipIdx_nil, List.mapM_nil,
        List.intercalate_cons_cons]
      rfl
    · obtain ⟨rfl, rfl⟩ : c :: next = first ∧ later = rest := by simpa [hc] using h
      have hchar : encodeFrom line column (c :: text) = encodeChar line column c >>= fun a =>
          encodeFrom line (column + 1) text >>= fun as => pure (a :: as) := by
        rw [encodeFrom_cons]
        simp [hc, columnBehind]
      have hjoin (a : Char) (as : List Char) (bs : List (List Char)) :
          ['\n'].intercalate ((a :: as) :: bs) = a :: ['\n'].intercalate (as :: bs) := by
        cases bs <;> simp
      simp only [hchar, ih hsplit, encodeLine_cons, bind_assoc, pure_bind, hjoin]

/-- A text may be encoded line by line. -/
theorem encode_eq_lines (text : List Char) :
    encode text = (encodeLines 1 (text.splitOn '\n')).map ['\n'].intercalate := by
  obtain ⟨first, rest, hsplit⟩ := List.exists_cons_of_ne_nil (List.splitOn_ne_nil '\n' text)
  rw [encode, encodeFrom_eq_lines hsplit, hsplit, encodeLines_cons, map_eq_bind]
  simp only [bind_assoc, pure_bind]

/-! ### The first fault -/

/-- The fault of a character without a form that stands at a place. -/
def faultOf (line column : Nat) (c : Char) : Fault :=
  { cause := if (Cell.ofChar? c).isSome then .eightDotCell c else .notAscii line column c }

lemma encodeChar_of_not_hasForm {c : Char} (h : ¬ HasForm c) (line column : Nat) :
    encodeChar line column c = .error (faultOf line column c) := by
  rw [HasForm, ← isSome_ofCell?, not_or] at h
  obtain ⟨hascii, hcell⟩ := h
  rw [encodeChar, if_neg hascii, Option.not_isSome_iff_eq_none.mp hcell, faultOf]
  simp only
  split <;> rfl

lemma columnBehind_one (before : List Char) :
    columnBehind 1 before = 1 + (before.rtakeWhile (· ≠ '\n')).length := by
  induction before using List.reverseRecOn with
  | nil => rfl
  | append_singleton before c ih =>
    rw [columnBehind_append, ih]
    by_cases hc : c = '\n'
    · rw [List.rtakeWhile_concat_neg _ _ _ (by simpa using hc)]
      simp [columnBehind, hc]
    · rw [List.rtakeWhile_concat_pos _ _ _ (by simpa using hc), List.length_append]
      simp [columnBehind, hc, Nat.add_assoc]

lemma encode_of_first {before : List Char} (h : ∀ d ∈ before, HasForm d) {c : Char}
    (hc : ¬ HasForm c) (after : List Char) : encode (before ++ c :: after) = .error
      (faultOf (1 + before.count '\n') (1 + (before.rtakeWhile (· ≠ '\n')).length) c) := by
  rw [encode, encodeFrom_append h, encodeFrom, encodeChar_of_not_hasForm hc, columnBehind_one]
  rfl

lemma exists_first_without_form {text : List Char} (h : ¬ ∀ c ∈ text, HasForm c) :
    ∃ before c after, text = before ++ c :: after ∧ (∀ d ∈ before, HasForm d) ∧ ¬ HasForm c := by
  induction text with
  | nil => exact absurd (fun c hc => absurd hc List.not_mem_nil) h
  | cons c rest ih =>
    by_cases hc : HasForm c
    · obtain ⟨before, d, after, rfl, hbefore, hd⟩ := ih fun hrest =>
        h (List.forall_mem_cons.mpr ⟨hc, hrest⟩)
      exact ⟨c :: before, d, after, rfl, List.forall_mem_cons.mpr ⟨hc, hbefore⟩, hd⟩
    · exact ⟨[], c, rest, rfl, by simp, hc⟩

/-- The fault of a character without a form behind a text: a cell with eight dots is at fault for
its dots, any other character is named with its line and column. -/
def FaultBehind (before : List Char) (c : Char) (f : Fault) : Prop :=
  let line := 1 + before.count '\n'
  let column := 1 + (before.rtakeWhile (· ≠ '\n')).length
  (∃ cell : Cell, ¬ cell.isSixDot ∧ c = cell.char) ∧ f.kind = .unsupported ∧
      f = { cause := .eightDotCell c } ∨
    (∀ cell : Cell, c ≠ cell.char) ∧ f.kind = .transfer ∧ f = { cause := .notAscii line column c }

lemma faultBehind_iff {before : List Char} {c : Char} (hc : ¬ HasForm c) {f : Fault} :
    FaultBehind before c f ↔ f =
      faultOf (1 + before.count '\n') (1 + (before.rtakeWhile (· ≠ '\n')).length) c := by
  unfold FaultBehind faultOf
  cases hcell : Cell.ofChar? c with
  | none =>
    have hnone (cell : Cell) : c ≠ cell.char := by
      rintro rfl
      rw [Cell.ofChar?_char] at hcell
      cases hcell
    constructor
    · rintro (⟨⟨cell, -, heq⟩, -⟩ | ⟨-, -, rfl⟩)
      · exact absurd heq (hnone cell)
      · rfl
    · rintro rfl
      exact .inr ⟨hnone, rfl, rfl⟩
  | some cell =>
    obtain rfl := Cell.ofChar?_eq_some.mp hcell
    constructor
    · rintro (⟨-, -, rfl⟩ | ⟨hnone, -⟩)
      · rfl
      · exact absurd rfl (hnone cell)
    · rintro rfl
      exact .inl ⟨⟨cell, fun hsix => hc (.inr ⟨cell, hsix, rfl⟩), rfl⟩, rfl, rfl⟩

lemma encode_eq_ok {text out : List Char} :
    encode text = .ok out ↔ (∀ c ∈ text, HasForm c) ∧ out = text.map form := by
  constructor
  · intro h
    have hforms := succeeds_encode.mp ⟨out, h⟩
    rw [encode_of_hasForm hforms] at h
    exact ⟨hforms, (Except.ok.inj h).symm⟩
  · rintro ⟨hforms, rfl⟩
    exact encode_of_hasForm hforms

/-- The first character without a form decides on the fault. -/
lemma encode_eq_error {text : List Char} {f : Fault} :
    encode text = .error f ↔ ∃ before c after, text = before ++ c :: after ∧
      (∀ d ∈ before, HasForm d) ∧ ¬ HasForm c ∧ FaultBehind before c f := by
  constructor
  · intro h
    have hsome : ¬ ∀ c ∈ text, HasForm c := by
      intro hforms
      rw [encode_of_hasForm hforms] at h
      cases h
    obtain ⟨before, c, after, rfl, hbefore, hc⟩ := exists_first_without_form hsome
    rw [encode_of_first hbefore hc] at h
    exact ⟨before, c, after, rfl, hbefore, hc, (faultBehind_iff hc).mpr (Except.error.inj h).symm⟩
  · rintro ⟨before, c, after, rfl, hbefore, hc, hf⟩
    rw [encode_of_first hbefore hc, (faultBehind_iff hc).mp hf]

/-- Each character is written for itself, an ASCII character as it is and a six-dot cell by the
table. If there is another one, the first of them is at fault, a cell for its dots and any other
character at its line and column. -/
theorem encode_character_by_character (text : List Char) :
    encode text = (encodeLines 1 (text.splitOn '\n')).map ['\n'].intercalate ∧
    (∀ out, encode text = .ok out ↔ (∀ c ∈ text, HasForm c) ∧ out = text.map form) ∧
    (∀ c, isAscii c → form c = c) ∧
    (∀ cell : Cell, cell.isSixDot →
      ∃ row ∈ table, Cell.ofPattern row.1 = cell ∧ form cell.char = row.2) ∧
    ∀ f, encode text = .error f ↔ ∃ before c after, text = before ++ c :: after ∧
      (∀ d ∈ before, HasForm d) ∧ ¬ HasForm c ∧ FaultBehind before c f := by
  refine ⟨encode_eq_lines text, fun out => encode_eq_ok, fun c => form_of_isAscii,
    fun cell hsix => ?_, fun f => encode_eq_error⟩
  obtain ⟨row, hrow, hcell⟩ := exists_row_of_isSixDot cell.mask.toFin hsix
  have hpattern : Cell.ofPattern row.1 = cell := hcell
  refine ⟨row, hrow, hpattern, ?_⟩
  rw [← hpattern, form_cell hrow]

/-- A letter with an accent in the second line, in front of a cell with eight dots. -/
theorem encode_accent_in_second_line :
    let before : List Char := ['F', '\n', 'F', 'l']
    let eight : Char := (Cell.mk 0xC0#8).char
    (∀ d ∈ before, HasForm d) ∧ ¬ HasForm 'û' ∧
      encode (before ++ ['û', eight]) = .error { cause := .notAscii 2 3 'û' } ∧
      encode (before ++ [eight, 'û']) = .error { cause := .eightDotCell eight } ∧
      encode (before ++ Cell.row [1456]) = .ok ['F', '\n', 'F', 'l', '?'] := by
  intro before eight
  have hascii : before.all isAscii := by decide
  have hbefore : ∀ d ∈ before, HasForm d := fun d hd => .inl (List.all_eq_true.mp hascii d hd)
  have haccent : ¬ HasForm 'û' := by
    rw [HasForm, Cell.exists_sixDot_iff]
    decide
  have height : ¬ HasForm eight := by
    rw [HasForm, Cell.exists_sixDot_iff]
    decide
  have hnone (cell : Cell) : 'û' ≠ cell.char := by
    intro h
    have hcode := Cell.toNat_char cell
    rw [← h, Cell.base, show 'û'.toNat = 251 from rfl] at hcode
    omega
  have hcells : ∀ c ∈ before ++ Cell.row [1456], HasForm c :=
    List.forall_mem_append.mpr ⟨hbefore, List.forall_mem_singleton.mpr (hasForm_cell 1456)⟩
  have hfault (text : List Char) := (encode_character_by_character text).2.2.2.2
  refine ⟨hbefore, haccent, (hfault _ _).mpr ⟨before, 'û', [eight], rfl, hbefore, haccent, ?_⟩,
    (hfault _ _).mpr ⟨before, eight, ['û'], rfl, hbefore, height, ?_⟩, ?_⟩
  · exact .inr ⟨hnone, rfl, rfl⟩
  · exact .inl ⟨⟨⟨0xC0#8⟩, by decide, rfl⟩, rfl, rfl⟩
  · exact ((encode_character_by_character _).2.1 _).mpr ⟨hcells, by decide +kernel⟩

end BrailleScore.BrailleAscii
