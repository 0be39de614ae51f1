import BrailleScore.Proofs.AsciiExport

/-!
# Coding in Braille ASCII

Writing replaces each character for itself. The table pairs the 64 six-dot cells with as many
characters, so reading and writing undo one another, capital letters standing for small ones.
-/

namespace BrailleScore

open Fault

namespace Cell

lemma isSixDot_iff (cell : Cell) : cell.isSixDot ↔ cell.mask.toNat < 64 := by
  have h : ∀ mask : Fin 256, (Cell.mk (BitVec.ofFin mask)).isSixDot ↔ mask.val < 64 := by
    decide +kernel
  exact h cell.mask.toFin

/-- The six-dot cells are the first quarter of all cells. -/
lemma exists_sixDot_iff {c : Char} : (∃ cell : Cell, cell.isSixDot ∧ c = cell.char) ↔
    0x2800 ≤ c.toNat ∧ c.toNat ≤ 0x283f := by
  constructor
  · rintro ⟨cell, hsix, rfl⟩
    have hlt := cell.isSixDot_iff.mp hsix
    rw [toNat_char, base]
    omega
  · rintro ⟨hle, hge⟩
    have hcell : ofChar? c = some ⟨BitVec.ofNat 8 (c.toNat - base)⟩ := by
      rw [ofChar?, base]
      exact if_pos ⟨hle, by omega⟩
    refine ⟨_, (isSixDot_iff _).mpr ?_, ofChar?_eq_some.mp hcell⟩
    rw [BitVec.toNat_ofNat, base]
    omega

end Cell

namespace BrailleAscii

/-! ### One character -/

lemma not_isAscii_char (cell : Cell) : isAscii cell.char = false := by
  rw [isAscii, Cell.toNat_char, Cell.base]
  exact decide_eq_false (by omega)

lemma ofCell?_of_mem : ∀ row ∈ table, ofCell? (Cell.ofPattern row.1).char = some row.2 := by
  decide +kernel

lemma find?_of_mem : ∀ row ∈ table, table.find? (fun other => other.2 = row.2) = some row := by
  decide +kernel

/-- The table has capital letters only. -/
lemma toUpper_of_mem : ∀ row ∈ table, row.2.toUpper = row.2 := by
  decide

lemma ne_break_of_mem : ∀ row ∈ table, row.2 ≠ '\n' ∧ row.2 ≠ '\r' := by
  decide

/-- The character that is written for another one. -/
def form (c : Char) : Char := if isAscii c then c else (ofCell? c).getD c

lemma form_of_isAscii {c : Char} (h : isAscii c) : form c = c := if_pos h

lemma form_cell {row : Nat × Char} (h : row ∈ table) : form (Cell.ofPattern row.1).char = row.2 := by
  rw [form, not_isAscii_char, ofCell?_of_mem row h]
  rfl

lemma exists_row_iff {c : Char} : (∃ row ∈ table, c = (Cell.ofPattern row.1).char) ↔
    0x2800 ≤ c.toNat ∧ c.toNat ≤ 0x283f := by
  rw [← Cell.exists_sixDot_iff]
  constructor
  · rintro ⟨row, -, rfl⟩
    exact ⟨_, Cell.isSixDot_ofPattern row.1, rfl⟩
  · rintro ⟨⟨⟨mask⟩⟩, hsix, rfl⟩
    obtain ⟨row, hrow, hcell⟩ := exists_row_of_isSixDot mask hsix
    exact ⟨row, hrow, congrArg Cell.char hcell.symm⟩

lemma hasForm_cell (pattern : Nat) : HasForm (Cell.ofPattern pattern).char :=
  .inr ⟨_, Cell.isSixDot_ofPattern pattern, rfl⟩

lemma encodeChar_of_hasForm {c : Char} (h : HasForm c) (line column : Nat) :
    encodeChar line column c = .ok (form c) := by
  obtain ⟨a, ha⟩ := succeeds_encodeChar.mpr h
  rw [ha]
  unfold encodeChar at ha
  by_cases hascii : isAscii c
  · rw [if_pos hascii] at ha
    rw [form, if_pos hascii, ← Except.ok.inj ha]
  · rw [if_neg hascii] at ha
    cases hcell : ofCell? c with
    | none =>
      rw [hcell] at ha
      simp only at ha
      split at ha
      · cases ha
      · cases ha
    | some b =>
      rw [hcell] at ha
      rw [form, if_neg hascii, hcell, ← Except.ok.inj ha]
      rfl

lemma toCell?_eq_some {c d : Char} : toCell? c = some d ↔
    ∃ row ∈ table, row.2 = c.toUpper ∧ d = (Cell.ofPattern row.1).char := by
  rw [toCell?, Option.map_eq_some_iff]
  constructor
  · rintro ⟨row, hfind, rfl⟩
    exact ⟨row, List.mem_of_find?_eq_some hfind, by simpa using List.find?_some hfind, rfl⟩
  · rintro ⟨row, hrow, hc, rfl⟩
    refine ⟨row, ?_, rfl⟩
    rw [← hc]
    exact find?_of_mem row hrow

lemma decodeChar_eq_ok {c d : Char} : decodeChar c = .ok d ↔
    (c = '\n' ∨ c = '\r') ∧ d = c ∨
      ∃ row ∈ table, row.2 = c.toUpper ∧ d = (Cell.ofPattern row.1).char := by
  unfold decodeChar
  by_cases hbreak : c = '\n' ∨ c = '\r'
  · have hupper : c.toUpper = c := by
      obtain rfl | rfl := hbreak <;> rfl
    have hrow : ¬ ∃ row ∈ table, row.2 = c.toUpper ∧ d = (Cell.ofPattern row.1).char := by
      rintro ⟨row, hrow, hc, -⟩
      obtain ⟨hnewline, hreturn⟩ := ne_break_of_mem row hrow
      rw [hupper] at hc
      exact hbreak.elim (fun h => hnewline (hc.trans h)) fun h => hreturn (hc.trans h)
    simp [hbreak, hrow, eq_comm]
  · rw [if_neg hbreak, ← toCell?_eq_some]
    cases toCell? c <;> simp [hbreak, raise]

/-! ### Whole texts -/

/-- The column behind a text that begins in the given one. -/
def columnBehind (column : Nat) (before : List Char) : Nat :=
  before.foldl (fun column c => if c = '\n' then 1 else column + 1) column

lemma columnBehind_append (column : Nat) (before after : List Char) :
    columnBehind column (before ++ after) = columnBehind (columnBehind column before) after :=
  List.foldl_append

lemma encodeFrom_cons (line column : Nat) (c : Char) (rest : List Char) :
    encodeFrom line column (c :: rest) = encodeChar line column c >>= fun a =>
      encodeFrom (line + [c].count '\n') (columnBehind column [c]) rest >>= fun as =>
        pure (a :: as) := by
  rw [encodeFrom]
  refine bind_congr fun a => ?_
  by_cases hc : c = '\n'
  · simp [hc, columnBehind]
  · simp [hc, columnBehind]

/-- What has a form is written, and the count of lines and columns goes on behind it. -/
lemma encodeFrom_append {before : List Char} (h : ∀ c ∈ before, HasForm c) (line column : Nat)
    (rest : List Char) : encodeFrom line column (before ++ rest) =
      (encodeFrom (line + before.count '\n') (columnBehind column before) rest).map
        (before.map form ++ ·) := by
  induction before generalizing line column with
  | nil =>
    change encodeFrom line column rest = (encodeFrom line column rest).map id
    cases encodeFrom line column rest <;> rfl
  | cons c before ih =>
    obtain ⟨hc, hbefore⟩ := List.forall_mem_cons.mp h
    have hline : line + [c].count '\n' + before.count '\n' = line + (c :: before).count '\n' := by
      rw [Nat.add_assoc, ← List.count_append, List.singleton_append]
    have hcolumn : columnBehind (columnBehind column [c]) before =
        columnBehind column (c :: before) := rfl
    rw [List.cons_append, encodeFrom_cons, encodeChar_of_hasForm hc, ih hbefore, hline, hcolumn]
    cases encodeFrom (line + (c :: before).count '\n') (columnBehind column (c :: before)) rest <;>
      rfl

lemma encode_of_hasForm {text : List Char} (h : ∀ c ∈ text, HasForm c) :
    encode text = .ok (text.map form) := by
  have hencode := encodeFrom_append h 1 1 []
  rw [List.append_nil] at hencode
  rw [encode, hencode, encodeFrom, Except.map, List.append_nil]

/-! ### Reading and writing -/

lemma encode_of_decode {text cells : List Char} (h : decode text = .ok cells) :
    encode cells = .ok (text.map Char.toUpper) := by
  have hall := mapM_eq_ok.mp h
  have hpoint : ∀ c d, decodeChar c = .ok d → HasForm d ∧ form d = c.toUpper := by
    intro c d hcd
    obtain ⟨hbreak, rfl⟩ | ⟨row, hrow, hc, rfl⟩ := decodeChar_eq_ok.mp hcd
    · obtain rfl | rfl := hbreak
      · exact ⟨.inl rfl, rfl⟩
      · exact ⟨.inl rfl, rfl⟩
    · exact ⟨hasForm_cell row.1, (form_cell hrow).trans hc⟩
  have hforms : (∀ d ∈ cells, HasForm d) ∧ cells.map form = text.map Char.toUpper := by
    clear h
    induction hall with
    | nil => simp
    | cons hcd _ ih =>
      obtain ⟨hform, heq⟩ := hpoint _ _ hcd
      exact ⟨List.forall_mem_cons.mpr ⟨hform, ih.1⟩, by rw [List.map_cons, List.map_cons, heq, ih.2]⟩
  rw [encode_of_hasForm hforms.1, hforms.2]

lemma decode_of_encode {text : List Char}
    (h : ∀ c ∈ text, (0x2800 ≤ c.toNat ∧ c.toNat ≤ 0x283f) ∨ c = '\n' ∨ c = '\r') :
    encode text >>= decode = .ok text := by
  have hpoint : ∀ c ∈ text, HasForm c ∧ decodeChar (form c) = .ok c := by
    intro c hc
    obtain hcell | rfl | rfl := h c hc
    · obtain ⟨row, hrow, rfl⟩ := exists_row_iff.mpr hcell
      refine ⟨hasForm_cell row.1, decodeChar_eq_ok.mpr (.inr ⟨row, hrow, ?_, rfl⟩)⟩
      rw [form_cell hrow, toUpper_of_mem row hrow]
    · exact ⟨.inl rfl, rfl⟩
    · exact ⟨.inl rfl, rfl⟩
  rw [encode_of_hasForm fun c hc => (hpoint c hc).1]
  refine mapM_eq_ok.mpr ?_
  rw [List.forall₂_map_left_iff, List.forall₂_same]
  exact fun c hc => (hpoint c hc).2

lemma succeeds_decode {text : List Char} : Succeeds (decode text) ↔
    ∀ c ∈ text, c = '\n' ∨ c = '\r' ∨ ∃ row ∈ table, row.2 = c.toUpper := by
  rw [decode, succeeds_mapM]
  refine forall₂_congr fun c _ => ?_
  simp only [Succeeds, decodeChar_eq_ok]
  constructor
  · rintro ⟨d, ⟨hbreak, -⟩ | ⟨row, hrow, hc, -⟩⟩
    · exact hbreak.imp_right .inl
    · exact .inr (.inr ⟨row, hrow, hc⟩)
  · rintro (hc | hc | ⟨row, hrow, hc⟩)
    · exact ⟨c, .inl ⟨.inl hc, rfl⟩⟩
    · exact ⟨c, .inl ⟨.inr hc, rfl⟩⟩
    · exact ⟨_, .inr ⟨row, hrow, hc, rfl⟩⟩

/-- Six-dot cells and line ends come back from Braille ASCII as they were. What can be read is made
of characters of the table and line ends, and comes back with its letters as capitals. -/
theorem coding_round_trips :
    (∀ text : List Char,
      (∀ c ∈ text, (0x2800 ≤ c.toNat ∧ c.toNat ≤ 0x283f) ∨ c = '\n' ∨ c = '\r') →
        encode text >>= decode = .ok text) ∧
    (∀ text, Succeeds (decode text) ↔
      ∀ c ∈ text, c = '\n' ∨ c = '\r' ∨ ∃ row ∈ table, row.2 = c.toUpper) ∧
    ∀ text, Succeeds (decode text) → decode text >>= encode = .ok (text.map Char.toUpper) := by
  refine ⟨fun text h => decode_of_encode h, fun text => succeeds_decode, ?_⟩
  rintro text ⟨cells, hcells⟩
  rw [hcells]
  exact encode_of_decode hcells

/-- Two lines, the first of which ends in a carriage return, read from small letters. -/
theorem coding_round_trips_two_lines :
    let cells : List Char := Cell.row [145, 1456] ++ ['\r', '\n'] ++ Cell.row [0, 24]
    let text : List Char := ['d', '?', '\r', '\n', ' ', 'i']
    (∀ c ∈ cells, (0x2800 ≤ c.toNat ∧ c.toNat ≤ 0x283f) ∨ c = '\n' ∨ c = '\r') ∧
      encode cells >>= decode = .ok cells ∧ decode text = .ok cells ∧
      decode text >>= encode = .ok ['D', '?', '\r', '\n', ' ', 'I'] := by
  intro cells text
  have hall : cells.all fun c => (0x2800 ≤ c.toNat ∧ c.toNat ≤ 0x283f) ∨ c = '\n' ∨ c = '\r' := by
    decide +kernel
  have hcells : ∀ c ∈ cells, (0x2800 ≤ c.toNat ∧ c.toNat ≤ 0x283f) ∨ c = '\n' ∨ c = '\r' :=
    fun c hc => of_decide_eq_true (List.all_eq_true.mp hall c hc)
  have hdecode : decode text = .ok cells := by decide +kernel
  exact ⟨hcells, coding_round_trips.1 cells hcells, hdecode,
    coding_round_trips.2.2 text ⟨cells, hdecode⟩⟩

end BrailleAscii

end BrailleScore
