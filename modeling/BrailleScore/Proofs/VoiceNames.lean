import BrailleScore.Proofs.MeasureVoices
import BrailleScore.Proofs.OffsetOrder

/-!
# Voices that exchange their names

A voice bears its name twice, once itself and once on each of its entries. Exchanging the names of
two voices of a measure changes nothing else, and it is undone by doing it again: the voices of a
measure agree with their entries about their names. Since the names differ, two voices of a measure
share no entry at their beginning, neither before nor afterwards. What two lists of events share at
their beginning is counted up to the first difference, with offsets compared as ratios.
-/

namespace BrailleScore

/-! ### Equal events -/

namespace Event

/-- The events are equal but for the terms in which their offsets are written. -/
inductive Same : Event → Event → Prop
  | refl (e : Event) : Same e e
  | clef {a b : Offset} (h : a.ratio = b.ratio) (c : Clef) (staff : String) :
      Same (.clef a c staff) (.clef b c staff)
  | key {a b : Offset} (h : a.ratio = b.ratio) (k : KeySignature) (staff : Option String) :
      Same (.key a k staff) (.key b k staff)

lemma Same.symm {e f : Event} (h : e.Same f) : f.Same e := by
  cases h with
  | refl => exact .refl e
  | clef h c staff => exact .clef h.symm c staff
  | key h k staff => exact .key h.symm k staff

theorem same_iff {e f : Event} : e.same f ↔ e.Same f := by
  fun_cases same e f with
  | case1 a c staff b c' staff' =>
    simp only [Bool.and_eq_true, decide_eq_true_eq, Offset.same_iff]
    constructor
    · rintro ⟨⟨h, rfl⟩, rfl⟩
      exact .clef h c staff
    · intro h
      cases h <;> simp_all
  | case2 a k staff b k' staff' =>
    simp only [Bool.and_eq_true, decide_eq_true_eq, Offset.same_iff]
    constructor
    · rintro ⟨⟨h, rfl⟩, rfl⟩
      exact .key h k staff
    · intro h
      cases h <;> simp_all
  | case3 e f hclef hkey =>
    rw [decide_eq_true_eq]
    constructor
    · rintro rfl
      exact .refl e
    · intro h
      cases h with
      | refl => rfl
      | clef h c staff => exact absurd rfl (hclef _ _ _ _ _ _ rfl)
      | key h k staff => exact absurd rfl (hkey _ _ _ _ _ _ rfl)

lemma same_comm (e f : Event) : e.same f = f.same e :=
  Bool.eq_iff_iff.mpr (by rw [same_iff, same_iff]; exact ⟨Same.symm, Same.symm⟩)

end Event

/-! ### One name -/

namespace Entry

/-- The entries are the same but for the voice that they are in. -/
inductive SameButVoice : Entry → Entry → Prop
  | note (n : Note) (name : String) : SameButVoice (.note n) (.note { n with voice := name })
  | rest (r : Rest) (name : String) : SameButVoice (.rest r) (.rest { r with voice := name })

@[simp] lemma voice_withVoice (name : String) (e : Entry) : (e.withVoice name).voice = name := by
  cases e <;> rfl

@[simp] lemma pitch_withVoice (name : String) (e : Entry) : (e.withVoice name).pitch = e.pitch := by
  cases e <;> rfl

@[simp] lemma isSilent_withVoice (name : String) (e : Entry) :
    (e.withVoice name).isSilent = e.isSilent := by
  cases e <;> rfl

@[simp] lemma withVoice_withVoice (name later : String) (e : Entry) :
    (e.withVoice name).withVoice later = e.withVoice later := by
  cases e <;> rfl

@[simp] lemma withVoice_voice (e : Entry) : e.withVoice e.voice = e := by
  cases e <;> rfl

lemma sameButVoice_withVoice (name : String) (e : Entry) : e.SameButVoice (e.withVoice name) := by
  cases e with
  | note n => exact .note n name
  | rest r => exact .rest r name

end Entry

namespace Voice

variable {v w : Voice} {name : String}

/-- All entries are in the voice that they stand in. -/
def IsNamed (v : Voice) : Prop := ∀ e ∈ v.entries, e.voice = v.name

/-- The voice has taken on a name, itself and on each entry, and is the same in all else. -/
structure TakesName (name : String) (v v' : Voice) : Prop where
  name_eq : v'.name = name
  entries : List.Forall₂ (fun e e' => e'.voice = name ∧ e.SameButVoice e') v.entries v'.entries
  isSilent_eq : v'.isSilent = v.isSilent
  averagePitch_eq : v'.averagePitch = v.averagePitch

lemma midis_renamed (name : String) (v : Voice) : (v.renamed name).midis = v.midis := by
  rw [midis, midis, renamed, List.filterMap_map]
  apply List.filterMap_congr
  intro e _
  rw [Function.comp_apply, Entry.pitch_withVoice]

lemma takesName_renamed (name : String) (v : Voice) : TakesName name v (v.renamed name) where
  name_eq := rfl
  entries := by
    rw [renamed, List.forall₂_map_right_iff, List.forall₂_same]
    exact fun e _ => ⟨e.voice_withVoice name, e.sameButVoice_withVoice name⟩
  isSilent_eq := by
    simp only [isSilent, renamed, List.all_map, Function.comp_def, Entry.isSilent_withVoice]
  averagePitch_eq := by
    rw [averagePitch, averagePitch, midiSum, midiSum, midis_renamed]

lemma isNamed_renamed (name : String) (v : Voice) : (v.renamed name).IsNamed := by
  intro e he
  obtain ⟨e, -, rfl⟩ := List.mem_map.mp he
  exact e.voice_withVoice name

lemma renamed_renamed (h : v.IsNamed) (name : String) : (v.renamed name).renamed v.name = v := by
  have hentries : (v.entries.map (Entry.withVoice name)).map (Entry.withVoice v.name) =
      v.entries := by
    have hid : ∀ e ∈ v.entries, (Entry.withVoice v.name ∘ Entry.withVoice name) e = id e := by
      intro e he
      rw [Function.comp_apply, Entry.withVoice_withVoice, ← h e he, Entry.withVoice_voice, id]
    rw [List.map_map, List.map_congr_left hid, List.map_id]
  rw [renamed, renamed, hentries]

/-- Doing it again gives back both voices, if they agree with their entries about their names. -/
lemma swapNames_swapNames (hv : v.IsNamed) (hw : w.IsNamed) :
    (v.swapNames w).1.swapNames (v.swapNames w).2 = (v, w) :=
  Prod.ext (renamed_renamed hv w.name) (renamed_renamed hw v.name)

/-! ### A common start -/

section

variable {α : Type} {same : α → α → Bool} {R : α → α → Prop} {as bs : List α}

/-- The longest start that the lists have in common, element by element, has `n` elements. -/
def IsLongestStart (R : α → α → Prop) (as bs : List α) (n : Nat) : Prop :=
  ∃ start start', start.length = n ∧ start <+: as ∧ start' <+: bs ∧ List.Forall₂ R start start' ∧
    ∀ other other', other <+: as → other' <+: bs → List.Forall₂ R other other' → other <+: start

lemma isLongestStart_zero (h : ∀ a ∈ as.head?, ∀ b ∈ bs.head?, ¬ R a b) :
    IsLongestStart R as bs 0 := by
  refine ⟨[], [], rfl, List.nil_prefix, List.nil_prefix, .nil, fun other other' has hbs hR => ?_⟩
  cases hR with
  | nil => exact List.nil_prefix
  | @cons a b _ _ hab _ =>
    obtain ⟨as', rfl⟩ := has
    obtain ⟨bs', rfl⟩ := hbs
    exact absurd hab (h a rfl b rfl)

lemma eq_nil_or_eq_nil (h : ∀ a as' b bs', as = a :: as' → bs = b :: bs' → False) :
    as = [] ∨ bs = [] := by
  cases as with
  | nil => exact .inl rfl
  | cons a as =>
    cases bs with
    | nil => exact .inr rfl
    | cons b bs => exact absurd rfl (h a as b bs rfl)

/-- Whatever the lists are made of, counting stops at the first difference. -/
theorem isLongestStart_commonStart (h : ∀ a b, same a b ↔ R a b) (as bs : List α) :
    IsLongestStart R as bs (commonStart same as bs) := by
  fun_induction commonStart same as bs with
  | case1 a as b bs hsame ih =>
    obtain ⟨start, start', hlength, has, hbs, hR, hlongest⟩ := ih
    refine ⟨a :: start, b :: start', congrArg Nat.succ hlength,
      List.cons_prefix_cons.mpr ⟨rfl, has⟩, List.cons_prefix_cons.mpr ⟨rfl, hbs⟩,
      .cons ((h a b).mp hsame) hR, fun other other' hother hother' hothers => ?_⟩
    cases hothers with
    | nil => exact List.nil_prefix
    | cons _ hrest =>
      obtain ⟨rfl, htail⟩ := List.cons_prefix_cons.mp hother
      obtain ⟨rfl, htail'⟩ := List.cons_prefix_cons.mp hother'
      exact List.cons_prefix_cons.mpr ⟨rfl, hlongest _ _ htail htail' hrest⟩
  | case2 a as b bs hsame =>
    apply isLongestStart_zero
    simpa [← h] using hsame
  | case3 as bs hends =>
    apply isLongestStart_zero
    obtain rfl | rfl := eq_nil_or_eq_nil hends
    · simp
    · simp

lemma commonStart_comm (h : ∀ a b, same a b = same b a) (as bs : List α) :
    commonStart same as bs = commonStart same bs as := by
  fun_induction commonStart same as bs with
  | case1 a as b bs hsame ih => rw [commonStart, if_pos (h a b ▸ hsame), ih]
  | case2 a as b bs hsame => rw [commonStart, if_neg (h a b ▸ hsame)]
  | case3 as bs hends =>
    obtain rfl | rfl := eq_nil_or_eq_nil hends
    · cases bs <;> rfl
    · cases as <;> rfl

lemma commonStart_map {β : Type} (f : β → α) (as bs : List β) :
    commonStart same (as.map f) (bs.map f) = commonStart (fun a b => same (f a) (f b)) as bs := by
  induction as generalizing bs with
  | nil => rfl
  | cons a as ih =>
    cases bs with
    | nil => rfl
    | cons b bs => rw [List.map_cons, List.map_cons, commonStart, commonStart, ih]

end

lemma isLongestStart_sharedStart (v w : Voice) :
    IsLongestStart Eq v.entries w.entries (v.sharedStart w) := by
  rw [sharedStart, events, events, commonStart_map]
  apply isLongestStart_commonStart
  simp [Event.same]

lemma sharedStart_eq_zero (hv : v.IsNamed) (hw : w.IsNamed) (hne : v.name ≠ w.name) :
    v.sharedStart w = 0 := by
  unfold sharedStart events
  cases hvs : v.entries with
  | nil => rfl
  | cons a as =>
    cases hws : w.entries with
    | nil => rfl
    | cons b bs =>
      have ha : a.voice = v.name := hv a (hvs ▸ List.mem_cons_self)
      have hb : b.voice = w.name := hw b (hws ▸ List.mem_cons_self)
      rw [List.map_cons, List.map_cons, commonStart, if_neg]
      simp only [Event.same, decide_eq_true_eq, Event.entry.injEq]
      rintro rfl
      exact hne (ha.symm.trans hb)

end Voice

namespace Measure

variable {m : Measure} {v w : Voice} {i j : Nat}

lemma isNamed_of_voices (hv : m.voices[i]? = some v) : v.IsNamed := by
  intro e he
  rw [m.isVoiced_voices.entries_eq v (List.mem_of_getElem? hv)] at he
  exact of_decide_eq_true (List.mem_filter.mp he).2

lemma name_ne_of_voices (hij : i ≠ j) (hv : m.voices[i]? = some v) (hw : m.voices[j]? = some w) :
    v.name ≠ w.name := by
  intro h
  have hi : (m.voices.map Voice.name)[i]? = some v.name := by rw [List.getElem?_map, hv]; rfl
  have hj : (m.voices.map Voice.name)[j]? = some v.name := by rw [List.getElem?_map, hw, h]; rfl
  obtain ⟨hlt, -⟩ := List.getElem?_eq_some_iff.mp hi
  exact hij ((List.getElem?_inj hlt m.isVoiced_voices.names.nodup).mp (hi.trans hj.symm))

/-- Two voices of a measure that exchange their names change in nothing else and get them back by
doing it again. They never have a common start; that of any two voices, and of any two lists of
events, is the longest one, from whichever of them it is looked for. -/
theorem swapNames_of_voices (m : Measure) {i j : Nat} {v w : Voice} (hij : i ≠ j)
    (hv : m.voices[i]? = some v) (hw : m.voices[j]? = some w) :
    let swapped := v.swapNames w
    Voice.TakesName w.name v swapped.1 ∧ Voice.TakesName v.name w swapped.2 ∧
      swapped.1.swapNames swapped.2 = (v, w) ∧
      v.sharedStart w = 0 ∧ swapped.1.sharedStart swapped.2 = 0 ∧
      (∀ x y : Voice, Voice.IsLongestStart Eq x.entries y.entries (x.sharedStart y) ∧
        y.sharedStart x = x.sharedStart y) ∧
      ∀ es fs : List Event,
        Voice.IsLongestStart Event.Same es fs (Voice.commonStart Event.same es fs) ∧
          Voice.commonStart Event.same fs es = Voice.commonStart Event.same es fs := by
  intro swapped
  have hnamed := isNamed_of_voices hv
  have hnamed' := isNamed_of_voices hw
  have hne := name_ne_of_voices hij hv hw
  have hcomm (es fs : List Event) := Voice.commonStart_comm Event.same_comm es fs
  refine ⟨v.takesName_renamed w.name, w.takesName_renamed v.name,
    Voice.swapNames_swapNames hnamed hnamed', Voice.sharedStart_eq_zero hnamed hnamed' hne, ?_,
    fun x y => ⟨Voice.isLongestStart_sharedStart x y, hcomm y.events x.events⟩,
    fun es fs => ⟨Voice.isLongestStart_commonStart (fun _ _ => Event.same_iff) es fs, hcomm fs es⟩⟩
  exact Voice.sharedStart_eq_zero (v.isNamed_renamed w.name) (w.isNamed_renamed v.name) hne.symm

/-- A note and a rest in one voice, and an equal rest between them in another. -/
theorem swapNames_of_two_voices :
    let note (voice : String) : Entry :=
      .note { pitch := some ⟨.c, 0, 4⟩, duration := { base := .quarter }, fingering := [1], voice }
    let rest (voice : String) : Entry := .rest { duration := { base := .quarter }, voice }
    let m : Measure := ⟨[.startBar 1, .entry (note "1"), .entry (rest "2"), .entry (rest "1")]⟩
    let v : Voice := ⟨"1", [note "1", rest "1"]⟩
    let w : Voice := ⟨"2", [rest "2"]⟩
    0 ≠ 1 ∧ m.voices[0]? = some v ∧ m.voices[1]? = some w ∧
      Voice.TakesName "2" v ⟨"2", [note "2", rest "2"]⟩ ∧
      Voice.TakesName "1" w ⟨"1", [rest "1"]⟩ ∧
      Voice.swapNames ⟨"2", [note "2", rest "2"]⟩ ⟨"1", [rest "1"]⟩ = (v, w) ∧
      Voice.sharedStart ⟨"2", [note "2", rest "2"]⟩ ⟨"1", [rest "1"]⟩ = 0 := by
  intro note rest m v w
  have hv : m.voices[0]? = some v := by decide
  have hw : m.voices[1]? = some w := by decide
  obtain ⟨htakes, htakes', htwice, -, hshared, -⟩ := swapNames_of_voices m (by decide) hv hw
  exact ⟨by decide, hv, hw, htakes, htakes', htwice, hshared⟩

end Measure

end BrailleScore
