import BrailleScore.Proofs.PartSequence

/-!
# Pages refine plain lines

A page takes steps as a writer of plain lines does, who has nothing but a text. Whatever steps are
taken, the counters of the page agree with what stands on it, the number of a page stands behind
the last of its lines, and without the lines of these numbers the text is the plain one.
-/

namespace BrailleScore

namespace Page

/-- What a writer is told to do. -/
inductive Step where
  | write (t : List Char)
  | writeLine (t : List Char)
  | newline
  | indent (column : Nat)
  | reset
deriving DecidableEq, Repr

namespace Step

/-- The characters that the writer is given. -/
def given : Step → List Char
  | write t => t
  | writeLine t => t
  | _ => []

def onPage (p : Page) : Step → Page
  | write t => p.write t
  | writeLine t => p.writeLine t
  | newline => p.newline
  | indent column => p.indent column
  | reset => p.reset

/-- The step of a writer whose pages are never full. -/
def onText (t : List Char) : Step → List Char
  | write u => t ++ u
  | writeLine u => t ++ u ++ ['\n']
  | newline => t ++ ['\n']
  | indent column => t ++ List.replicate (column - (Layout.lastLine t).length) ' '
  | reset => []

def onScroll (s : Scroll) : Step → Scroll
  | write t => s.write t
  | writeLine t => (s.write t).endLine
  | newline => s.endLine
  | indent column => s.write (List.replicate (column - s.current.length) ' ')
  | reset => {}

end Step

/-- The places of the numbers of the finished pages among the lines, counted from one. -/
def numberPlaces (p : Page) : List Nat :=
  (List.range' 1 (p.number - 1)).map fun k => k * (p.size.height + 1)

/-- The text without the lines at these places. -/
def body (p : Page) : List Char :=
  ['\n'].intercalate <| (((p.text.splitOn '\n').zipIdx 1).filter fun line =>
    line.2 ∉ p.numberPlaces).map Prod.fst

/-- The page is a plain text with the numbers of its pages put in, and it has counted right. -/
structure Refines (p : Page) (plain : List Char) : Prop where
  line_lt : p.line < p.size.height
  column_eq : p.column = (Layout.lastLine p.text).length
  breaks : p.text.count '\n' = (p.number - 1) * (p.size.height + 1) + p.line
  numbers : ∀ k, 1 ≤ k → k < p.number →
    (p.text.splitOn '\n')[k * (p.size.height + 1) - 1]? = some (numberLine p.size.width k)
  body_eq : p.body = plain

end Page

/-! ### Lines that are not broken -/

/-- What is written is free of line ends. -/
structure Scroll.Unbroken (s : Scroll) : Prop where
  finished : ∀ l ∈ s.finished, ∃ t, l = .music t ∧ '\n' ∉ t
  current : '\n' ∉ s.current

namespace Line

lemma length_paged (height : Nat) (ls : List Line) :
    (paged height 0 ls).length = ls.length + ls.length / height := by
  induction ls using List.reverseRecOn with
  | nil => simp [paged]
  | append_singleton ls l ih =>
    rw [paged_append, paged_singleton, List.length_append, ih, List.length_cons, Nat.zero_add,
      List.length_append, List.length_singleton, pageEnd]
    split
    next hfull =>
      rw [Nat.succ_div_of_mod_eq_zero hfull, List.length_singleton]
      omega
    next hfull =>
      rw [Nat.succ_div_of_mod_ne_zero hfull, List.length_nil]
      omega

lemma count_finish {width : Nat} {ls : List Line} (h : ∀ l ∈ ls, '\n' ∉ l.text width) :
    (finish width ls).count '\n' = ls.length := by
  induction ls with
  | nil => rfl
  | cons l ls ih =>
    obtain ⟨hl, hls⟩ := List.forall_mem_cons.mp h
    have hcons : finish width (l :: ls) = l.text width ++ '\n' :: finish width ls := by
      simp [finish]
    rw [hcons, List.count_append, List.count_eq_zero.mpr hl, List.count_cons_self, ih hls,
      List.length_cons, Nat.zero_add]

/-- Without the lines behind every `height` others, the lines of the pages are those that were
written. -/
theorem filter_paged {α : Type} (f : Line → α) {height : Nat} (hheight : 1 ≤ height) (count : Nat)
    (ls : List Line) :
    ((((paged height count ls).map f).zipIdx (count + count / height + 1)).filter fun line =>
      ¬ (height + 1) ∣ line.2).map Prod.fst = ls.map f := by
  induction ls generalizing count with
  | nil => rfl
  | cons l ls ih =>
    have hlt := Nat.mod_lt count hheight
    have hcount := add_div_eq height count
    -- The line itself is not numbered, since less than `height` lines are on its page so far.
    have hline : ¬ (height + 1) ∣ count + count / height + 1 := by
      rintro ⟨k, hk⟩
      apply @ne_multiple (count / height) k (count % height + 1) (height + 1) (by omega) (by omega)
      rw [Nat.mul_comm k, ← hk, hcount, Nat.add_assoc]
    have hrest := ih (count + 1)
    rw [paged, List.map_cons, List.zipIdx_cons, List.filter_cons_of_pos (by simpa using hline),
      List.map_append, List.zipIdx_append, List.filter_append, pageEnd]
    by_cases hfull : (count + 1) % height = 0
    · -- The page is full, so the next place is that of its number.
      have hdiv := Nat.succ_div_of_mod_eq_zero hfull
      have hend : (height + 1) ∣ count + count / height + 1 + 1 := by
        refine ⟨count / height + 1, ?_⟩
        have hnext := add_div_eq height (count + 1)
        rw [hfull, hdiv] at hnext
        rw [Nat.mul_comm]
        omega
      have hplace : count + 1 + (count + 1) / height + 1 = count + count / height + 1 + 1 + 1 := by
        omega
      rw [hplace] at hrest
      simpa [hfull, hend] using hrest
    · have hdiv := Nat.succ_div_of_mod_ne_zero hfull
      have hplace : count + 1 + (count + 1) / height + 1 = count + count / height + 1 + 1 := by
        omega
      rw [hplace] at hrest
      simpa [hfull] using hrest

end Line

namespace Scroll

lemma length_pageLines (height : Nat) (s : Scroll) : (s.pageLines height).length =
    s.finished.length / height * (height + 1) + s.finished.length % height + 1 := by
  rw [pageLines, List.length_append, Line.length_paged, Line.add_div_eq]
  rfl

lemma filter_pageLines {α : Type} (f : Line → α) {height : Nat} (hheight : 1 ≤ height)
    (s : Scroll) :
    ((((s.pageLines height).map f).zipIdx 1).filter fun line =>
      ¬ (height + 1) ∣ line.2).map Prod.fst = s.finished.map f ++ [f (.music s.current)] := by
  have hfinished := Line.filter_paged f hheight 0 s.finished
  have hlt := Nat.mod_lt s.finished.length hheight
  have hcount := Line.add_div_eq height s.finished.length
  have hlast : ¬ (height + 1) ∣ 1 + (s.finished.length + s.finished.length / height) := by
    rintro ⟨k, hk⟩
    apply @Line.ne_multiple (s.finished.length / height) k (s.finished.length % height + 1)
      (height + 1) (by omega) (by omega)
    rw [Nat.mul_comm k, ← hk, hcount]
    omega
  rw [Nat.zero_div] at hfinished
  rw [pageLines, List.map_append, List.zipIdx_append, List.filter_append, List.map_append,
    hfinished, List.length_map, Line.length_paged]
  simp [hlast]

end Scroll

namespace Scroll.Unbroken

variable {s : Scroll}

lemma empty : Unbroken {} :=
  ⟨fun _ hl => absurd hl List.not_mem_nil, fun hc => absurd hc List.not_mem_nil⟩

lemma write (h : s.Unbroken) {t : List Char} (ht : '\n' ∉ t) : (s.write t).Unbroken := by
  refine ⟨h.finished, fun hc => ?_⟩
  obtain hc | hc := List.mem_append.mp hc
  · exact h.current hc
  · exact ht hc

lemma endLine (h : s.Unbroken) : s.endLine.Unbroken :=
  ⟨List.forall_mem_append.mpr ⟨h.finished, List.forall_mem_singleton.mpr ⟨_, rfl, h.current⟩⟩,
    empty.current⟩

lemma number_not_mem (h : s.Unbroken) (k : Nat) : .number k ∉ s.finished := by
  intro hk
  obtain ⟨t, ht, -⟩ := h.finished _ hk
  cases ht

lemma not_mem_paged (h : s.Unbroken) (height width : Nat) :
    ∀ l ∈ Line.paged height 0 s.finished, '\n' ∉ l.text width := by
  intro l hl
  cases l with
  | heading name =>
    have hname : name ∈ s.finished.filterMap Line.heading? := by
      rw [← Line.filterMap_heading?_paged height 0]
      exact List.mem_filterMap.mpr ⟨_, hl, rfl⟩
    obtain ⟨l, hl, hheading⟩ := List.mem_filterMap.mp hname
    obtain ⟨t, rfl, -⟩ := h.finished l hl
    cases hheading
  | music t =>
    obtain ⟨u, hu, hends⟩ := h.finished _ (Line.music_mem_paged hl)
    cases hu
    exact hends
  | number k => exact Page.not_mem_numberLine (by decide) (by decide) width k

lemma not_mem_pageLines (h : s.Unbroken) (height width : Nat) :
    ∀ t ∈ (s.pageLines height).map (Line.text width), '\n' ∉ t := by
  rw [List.forall_mem_map]
  exact List.forall_mem_append.mpr
    ⟨h.not_mem_paged height width, List.forall_mem_singleton.mpr h.current⟩

/-- Pages without lines are never full, so what is written stands there without any number. -/
lemma text_of_height_zero (h : s.Unbroken) (width width' : Nat) : s.text ⟨width, 0⟩ =
    ['\n'].intercalate (s.finished.map (Line.text width') ++ [s.current]) := by
  have hlines : s.finished.map (Line.text width) = s.finished.map (Line.text width') := by
    apply List.map_congr_left
    intro l hl
    obtain ⟨t, rfl, -⟩ := h.finished l hl
    rfl
  rw [text_eq_intercalate, pageLines, Line.paged_height_zero, List.map_append, hlines]
  rfl

end Scroll.Unbroken

/-! ### The steps of both writers -/

namespace Page

/-- The page and the plain text have been written by the same steps. -/
structure Keeps (p : Page) (plain : List Char) (s : Scroll) : Prop where
  shows : p.Shows s
  unbroken : s.Unbroken
  plain_eq : plain = s.endless

variable {p : Page} {plain : List Char} {s : Scroll}

lemma size_onPage (p : Page) (step : Step) : (step.onPage p).size = p.size := by
  cases step with
  | write t => rfl
  | writeLine t => exact Pass.size_newline _
  | newline => exact Pass.size_newline p
  | indent column => rfl
  | reset => rfl

lemma Keeps.write (h : p.Keeps plain s) {t : List Char} (ht : '\n' ∉ t) :
    (p.write t).Keeps (plain ++ t) (s.write t) := by
  refine ⟨h.shows.write t, h.unbroken.write ht, ?_⟩
  rw [Scroll.endless_write, h.plain_eq]

lemma Keeps.newline (h : p.Keeps plain s) : p.newline.Keeps (plain ++ ['\n']) s.endLine := by
  refine ⟨h.shows.newline rfl, h.unbroken.endLine, ?_⟩
  rw [Scroll.endless_endLine, h.plain_eq]

theorem Keeps.step (h : p.Keeps plain s) {step : Step} (hstep : '\n' ∉ step.given) :
    (step.onPage p).Keeps (step.onText plain) (step.onScroll s) := by
  cases step with
  | write t => exact h.write hstep
  | writeLine t => exact (h.write hstep).newline
  | newline => exact h.newline
  | indent column =>
    have hlast : (Layout.lastLine plain).length = p.column := by
      rw [h.plain_eq, Scroll.endless, Scroll.lastLine_text _ h.unbroken.current, h.shows.column]
    have hspaces : '\n' ∉ List.replicate (column - p.column) ' ' := by simp
    rw [Step.onText, Step.onScroll, hlast, ← h.shows.column]
    exact h.write hspaces
  | reset => exact ⟨.blank p.size, .empty, rfl⟩

theorem Keeps.steps (h : p.Keeps plain s) {steps : List Step}
    (hsteps : ∀ step ∈ steps, '\n' ∉ step.given) : (steps.foldl Step.onPage p).Keeps
      (steps.foldl Step.onText plain) (steps.foldl Step.onScroll s) := by
  induction steps generalizing p plain s with
  | nil => exact h
  | cons step steps ih =>
    obtain ⟨hstep, hsteps⟩ := List.forall_mem_cons.mp hsteps
    exact ih (h.step hstep) hsteps

/-- The places of the numbers are the multiples that there are lines for. -/
lemma Shows.mem_numberPlaces (h : p.Shows s) (hheight : 1 ≤ p.size.height) {i : Nat} (hpos : 1 ≤ i)
    (hle : i ≤ (s.pageLines p.size.height).length) :
    i ∈ p.numberPlaces ↔ (p.size.height + 1) ∣ i := by
  have hlt := Nat.mod_lt s.finished.length hheight
  rw [Scroll.length_pageLines] at hle
  rw [numberPlaces, List.mem_map, h.number, Nat.add_sub_cancel]
  constructor
  · rintro ⟨k, -, rfl⟩
    exact Nat.dvd_mul_left _ _
  · rintro ⟨k, rfl⟩
    refine ⟨k, List.mem_range'_1.mpr ⟨Nat.pos_of_mul_pos_left hpos, ?_⟩, Nat.mul_comm _ _⟩
    by_contra hlarge
    have hpages : s.finished.length / p.size.height + 1 ≤ k := by omega
    have hrows := Nat.mul_le_mul_right (p.size.height + 1) hpages
    rw [Nat.succ_mul, Nat.mul_comm k] at hrows
    omega

lemma Keeps.splitOn_text (h : p.Keeps plain s) : p.text.splitOn '\n' =
    (s.pageLines p.size.height).map (Line.text p.size.width) := by
  rw [h.shows.text]
  exact Scroll.splitOn_text_of_not_mem _ (h.unbroken.not_mem_pageLines _ _)

lemma Keeps.count_breaks (h : p.Keeps plain s) :
    p.text.count '\n' = (p.number - 1) * (p.size.height + 1) + p.line := by
  have hcurrent := List.count_eq_zero.mpr h.unbroken.current
  have hfinished := Line.count_finish (h.unbroken.not_mem_paged p.size.height p.size.width)
  rw [h.shows.text, Scroll.text, List.count_append, hcurrent, hfinished, Line.length_paged,
    Line.add_div_eq, h.shows.number, h.shows.line, Nat.add_sub_cancel, Nat.add_zero]

lemma Keeps.getElem?_eq_numberLine (h : p.Keeps plain s) (hheight : 1 ≤ p.size.height) {k : Nat}
    (hpos : 1 ≤ k) (hlt : k < p.number) :
    (p.text.splitOn '\n')[k * (p.size.height + 1) - 1]? = some (numberLine p.size.width k) := by
  have hnumber := h.shows.number
  have hpages : k * (p.size.height + 1) ≤
      s.finished.length / p.size.height * (p.size.height + 1) :=
    Nat.mul_le_mul_right _ (by omega)
  have hone : 1 ≤ k * (p.size.height + 1) := Nat.mul_pos hpos (Nat.succ_pos _)
  have hcount := Line.add_div_eq p.size.height s.finished.length
  have hplace : (Line.paged p.size.height 0 s.finished)[k * (p.size.height + 1) - 1]? =
      some (.number k) := by
    rw [Line.getElem?_paged_eq_number hheight h.unbroken.number_not_mem, Line.length_paged,
      Nat.zero_div]
    omega
  obtain ⟨hinside, -⟩ := List.getElem?_eq_some_iff.mp hplace
  rw [h.splitOn_text, List.getElem?_map, Scroll.pageLines, List.getElem?_append_left hinside,
    hplace]
  rfl

lemma Keeps.body_eq (h : p.Keeps plain s) (hheight : 1 ≤ p.size.height) : p.body = plain := by
  have hplaces : ((p.text.splitOn '\n').zipIdx 1).filter (fun line => line.2 ∉ p.numberPlaces) =
      ((p.text.splitOn '\n').zipIdx 1).filter fun line => ¬ (p.size.height + 1) ∣ line.2 := by
    apply List.filter_congr
    rintro ⟨t, i⟩ hline
    obtain ⟨hpos, hle, -⟩ := List.mem_zipIdx hline
    rw [h.splitOn_text, List.length_map] at hle
    have hplace := h.shows.mem_numberPlaces hheight hpos (by omega)
    exact decide_eq_decide.mpr (not_congr hplace)
  rw [body, hplaces, h.splitOn_text, Scroll.filter_pageLines _ hheight, h.plain_eq]
  exact (h.unbroken.text_of_height_zero 0 p.size.width).symm

theorem Keeps.refines (h : p.Keeps plain s) (hheight : 1 ≤ p.size.height) : p.Refines plain where
  line_lt := by
    rw [h.shows.line]
    exact Nat.mod_lt _ hheight
  column_eq := by
    rw [h.shows.text, Scroll.lastLine_text _ h.unbroken.current, h.shows.column]
  breaks := h.count_breaks
  numbers _ hpos hlt := h.getElem?_eq_numberLine hheight hpos hlt
  body_eq := h.body_eq hheight

lemma keeps_blank (size : Options.PageSize) : (blank size).Keeps [] {} :=
  ⟨.blank size, .empty, rfl⟩

lemma size_steps (p : Page) (steps : List Step) : (steps.foldl Step.onPage p).size = p.size := by
  induction steps generalizing p with
  | nil => rfl
  | cons step steps ih => rw [List.foldl_cons, ih, size_onPage]

lemma prefix_onPage (p : Page) {step : Step} (hstep : step ≠ .reset) :
    p.text <+: (step.onPage p).text := by
  cases step with
  | write t => exact p.prefix_write t
  | writeLine t => exact (p.prefix_write t).trans (prefix_newline _)
  | newline => exact p.prefix_newline
  | indent column => exact p.prefix_write _
  | reset => exact absurd rfl hstep

/-- Whatever is done with pages of at least one line, they are the plain text of the same steps
with the numbers of the pages put in; pages without lines, which are never full, are that text. No
step takes back what was written, unless the writer begins again. -/
theorem steps_refines (size : Options.PageSize) (hheight : 1 ≤ size.height) (steps : List Step)
    (hsteps : ∀ step ∈ steps, '\n' ∉ step.given) :
    (steps.foldl Step.onPage (blank size)).Refines (steps.foldl Step.onText []) ∧
      (steps.foldl Step.onPage (blank ⟨size.width, 0⟩)).text = steps.foldl Step.onText [] ∧
      ∀ (p : Page) (step : Step), step ≠ .reset → p.text <+: (step.onPage p).text := by
  refine ⟨?_, ?_, fun p step => p.prefix_onPage⟩
  · apply ((keeps_blank size).steps hsteps).refines
    rw [size_steps]
    exact hheight
  · have hkeeps := (keeps_blank ⟨size.width, 0⟩).steps hsteps
    have hsize : (steps.foldl Step.onPage (blank ⟨size.width, 0⟩)).size = ⟨size.width, 0⟩ :=
      size_steps _ _
    rw [hkeeps.shows.text, hkeeps.plain_eq, hsize, hkeeps.unbroken.text_of_height_zero _ 0]
    exact (hkeeps.unbroken.text_of_height_zero 0 0).symm

/-- Pages of one line, the first begun twice. -/
theorem steps_refines_height_one :
    let size : Options.PageSize := ⟨4, 1⟩
    let steps : List Step := [.writeLine "x".toList, .reset, .writeLine "abc".toList, .indent 3,
      .newline, .write "d".toList, .indent 2, .write "e".toList]
    1 ≤ size.height ∧ (∀ step ∈ steps, '\n' ∉ step.given) ∧
      steps.foldl Step.onText [] = "abc\n   \nd e".toList ∧
      (steps.foldl Step.onPage (blank size)).text = "abc\n   1\n   \n   2\nd e".toList ∧
      (steps.foldl Step.onPage (blank size)).Refines (steps.foldl Step.onText []) := by
  intro size steps
  have hheight : 1 ≤ size.height := by decide
  have hsteps : ∀ step ∈ steps, '\n' ∉ step.given := by decide
  exact ⟨hheight, hsteps, by decide, by decide, (steps_refines size hheight steps hsteps).1⟩

end Page

end BrailleScore
