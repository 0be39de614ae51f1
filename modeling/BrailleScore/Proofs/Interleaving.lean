import BrailleScore.Proofs.PageLines
import BrailleScore.Proofs.TimelineEdits

/-!
# The order of events in a timeline

What is written of a timeline depends on the order of the staves in each segment, on the order of
the voices in each measure of a staff, and on the notes and rests of each voice in each measure.
It does not depend on how the voices are interleaved in the timeline, nor on changes of clef and
key.
-/

namespace BrailleScore

open Fault

variable {content : Options.Content} {table : Tuplet.Table}

/-! ### What is written of a segment -/

/-- The measures have the same voices in the same order. -/
structure Measure.Alike (m m' : Measure) : Prop where
  names : m.voiceNames = m'.voiceNames
  voice : ∀ name, m.voice name = m'.voice name

namespace Measure.Alike

variable {m m' : Measure} {memory memory' : Memory}

lemma script_eq (h : m.Alike m') (hmemory : ∀ name, memory.last name = memory'.last name) :
    m.script content table memory = m'.script content table memory' := by
  have hvoices : m.voices = m'.voices := by
    rw [voices_eq, voices_eq, h.names]
    exact List.map_congr_left fun name _ => h.voice name
  rw [script, script, hvoices]
  simp only [hmemory]

lemma last_eq (h : m.Alike m') (hmemory : ∀ name, memory.last name = memory'.last name)
    (name : String) : Memory.last (m.entries.foldl Memory.remember memory) name =
      Memory.last (m'.entries.foldl Memory.remember memory') name := by
  have hentries := congrArg Voice.entries (h.voice name)
  change m.entries.filter _ = m'.entries.filter _ at hentries
  rw [Memory.last_foldl_remember, Memory.last_foldl_remember, hentries, hmemory]

end Measure.Alike

/-- Staves whose measures are alike are written in the same way. -/
theorem Staff.script_eq_of_alike {s s' : Staff}
    (h : List.Forall₂ Measure.Alike s.measures s'.measures) :
    s.script content table = s'.script content table := by
  -- What is carried along: both memories answer alike.
  have hfrom (ms ms' : List Measure) (h : List.Forall₂ Measure.Alike ms ms')
      (memory memory' : Memory) (hmemory : ∀ name, memory.last name = memory'.last name)
      (position : Nat → Position) (start : Nat) :
      eachFrom position (fun m => m.2.script content table m.1) start (memory.before ms) =
        eachFrom position (fun m => m.2.script content table m.1) start (memory'.before ms') := by
    induction h generalizing memory memory' start with
    | nil => rfl
    | cons hm _ ih =>
      rw [Memory.before, Memory.before, eachFrom, eachFrom, hm.script_eq hmemory,
        ih _ _ (hm.last_eq hmemory)]
  exact hfrom _ _ h [] [] (fun _ => rfl) _ 0

/-- The segments have the same staves in the same order, with the same voices. -/
structure Segment.Alike (s s' : Segment) : Prop where
  staffCount : s.staffCount = s'.staffCount
  staffNames : s.staffNames = s'.staffNames
  measures : ∀ name ∈ s.staffNames,
    List.Forall₂ Measure.Alike (s.staffNamed name).measures (s'.staffNamed name).measures

lemma Segment.Alike.mapM_script {s s' : Segment} (h : s.Alike s') :
    (s.staffNames.map s.staffNamed).mapM (Staff.script content table) =
      (s'.staffNames.map s'.staffNamed).mapM (Staff.script content table) := by
  have hnames (names : List String) (hnames : names ⊆ s.staffNames) :
      (names.map s.staffNamed).mapM (Staff.script content table) =
        (names.map s'.staffNamed).mapM (Staff.script content table) := by
    induction names with
    | nil => rfl
    | cons name names ih =>
      obtain ⟨hname, hrest⟩ := List.cons_subset.mp hnames
      rw [List.map_cons, List.map_cons, List.mapM_cons, List.mapM_cons, ih hrest,
        Staff.script_eq_of_alike (h.measures name hname)]
  rw [← h.staffNames]
  exact hnames _ (List.Subset.refl _)

theorem Segment.Alike.script_eq {s s' : Segment} (h : s.Alike s') :
    s.script content table = s'.script content table := by
  have hscript := @mapM_script content table s s' h
  unfold Segment.script
  rw [Segment.staves_eq, Segment.staves_eq, ← h.staffCount, ← h.staffNames]
  rw [← h.staffNames] at hscript
  split
  · rfl
  · split
    · rfl
    · split
      · rfl
      · exact hscript

/-! ### One change of the interleaving -/

/-- The staves appear in the same order, and so do the voices in each measure of a staff. -/
structure Segment.SameOrder (s s' : Segment) : Prop where
  staves : s.staffNames = s'.staffNames
  voices : ∀ name ∈ s.staffNames, (s.staffNamed name).measures.map Measure.voiceNames =
    (s'.staffNamed name).measures.map Measure.voiceNames

/-- The staff has its place in the segment that the events end in. -/
def Segment.Binds (events : List Event) (name : String) : Prop :=
  ∀ segments, cut events = .ok segments →
    ∃ s, segments.getLast? = some s ∧ name ∈ s.staffNames

/-- A change of clef or key. -/
def Event.isChange : Event → Bool
  | clef .. => true
  | key .. => true
  | _ => false

lemma Event.isBar_of_isChange {x : Event} (h : x.isChange = true) : x.isBar = false := by
  cases x with
  | clef offset clef staff => rfl
  | key offset key staff => rfl
  | _ => cases h

lemma Event.keeps_of_isChange {x : Event} (h : x.isChange = true) (q : Entry → Bool) :
    x.keeps q = false := by
  cases x with
  | clef offset clef staff => rfl
  | key offset key staff => rfl
  | _ => cases h

/-- The second timeline comes from the first by one change of the interleaving. -/
inductive Timeline.Interleaved : List Event → List Event → Prop
  /-- Two adjacent notes or rests of different voices change places, and neither staves nor voices
  appear in another order for that. -/
  | swap (before : List Event) (e f : Entry) (after : List Event)
      (hvoice : e.staff ≠ f.staff ∨ e.voice ≠ f.voice)
      (horder : ∀ segments segments',
        Segment.cut (before ++ ([Event.entry e, Event.entry f] ++ after)) = .ok segments →
        Segment.cut (before ++ ([Event.entry f, Event.entry e] ++ after)) = .ok segments' →
        List.Forall₂ Segment.SameOrder segments segments') :
      Timeline.Interleaved (before ++ ([Event.entry e, Event.entry f] ++ after))
        (before ++ ([Event.entry f, Event.entry e] ++ after))
  /-- A change of clef or key is put into a measure. It concerns all staves, or one that has its
  place already. -/
  | insert (before : List Event) (x : Event) (after : List Event) (hchange : x.isChange = true)
      (hinside : before.getLast? ≠ some .endBar)
      (hbound : ∀ name, x.staff? = some name → Segment.Binds before name) :
      Timeline.Interleaved (before ++ after) (before ++ x :: after)
  /-- Such a change is left out. -/
  | delete (before : List Event) (x : Event) (after : List Event) (hchange : x.isChange = true)
      (hinside : before.getLast? ≠ some .endBar)
      (hbound : ∀ name, x.staff? = some name → Segment.Binds before name) :
      Timeline.Interleaved (before ++ x :: after) (before ++ after)

/-! ### What the change leaves alone -/

namespace Segment

variable {first mid mid' rest : List Event}

/-- Measures are alike whose voices appear in the same order, with the same notes and rests. -/
lemma forall₂_alike {ms ms' : List Measure}
    (hnames : ms.map Measure.voiceNames = ms'.map Measure.voiceNames)
    (hentries : ∀ voice, ms.map (fun m => m.entries.filter fun e => e.voice = voice) =
      ms'.map fun m => m.entries.filter fun e => e.voice = voice) :
    List.Forall₂ Measure.Alike ms ms' := by
  induction ms generalizing ms' with
  | nil =>
    rw [List.map_nil, eq_comm, List.map_eq_nil_iff] at hnames
    rw [hnames]
    exact .nil
  | cons m ms ih =>
    cases ms' with
    | nil => cases hnames
    | cons m' ms' =>
      obtain ⟨hname, hnames⟩ := List.cons.inj hnames
      have hentry (voice : String) := (List.cons.inj (hentries voice)).1
      have hentries (voice : String) := (List.cons.inj (hentries voice)).2
      have hvoice (voice : String) : m.voice voice = m'.voice voice :=
        congrArg (Voice.mk voice) (hentry voice)
      exact .cons ⟨hname, hvoice⟩ (ih hnames hentries)

/-- Segments are alike that differ in one place, if each voice keeps its notes and rests. -/
theorem alike_of_edit (hmid : ∀ e ∈ mid, e.isBar = false) (hmid' : ∀ e ∈ mid', e.isBar = false)
    (hvoices : ∀ name voice,
      mid.filter (Event.keeps fun e => e.staff = name && e.voice = voice) =
        mid'.filter (Event.keeps fun e => e.staff = name && e.voice = voice))
    (horder : SameOrder ⟨first ++ (mid ++ rest)⟩ ⟨first ++ (mid' ++ rest)⟩) :
    Alike ⟨first ++ (mid ++ rest)⟩ ⟨first ++ (mid' ++ rest)⟩ := by
  have hdeclared (mid : List Event) (hmid : ∀ e ∈ mid, e.isBar = false) :
      mid.findSome? Event.declared? = none := by
    rw [List.findSome?_eq_none_iff]
    intro e he
    have hbar := hmid e he
    cases e with
    | startBar staves => cases hbar
    | _ => rfl
  constructor
  · unfold staffCount
    rw [List.findSome?_append, List.findSome?_append, List.findSome?_append,
      List.findSome?_append, hdeclared mid hmid, hdeclared mid' hmid']
  · exact horder.staves
  · intro name hname
    apply forall₂_alike (horder.voices name hname)
    intro voice
    rw [map_entries_measures, map_entries_measures]
    simp only [List.filter_append, hvoices]

/-- A name that was there before is found in its old place. -/
lemma eraseDups_insert {names more : List String} {name : String} (h : name ∈ names) :
    (names ++ name :: more).eraseDups = (names ++ more).eraseDups := by
  have hremove : (name :: more).removeAll names = more.removeAll names := by
    rw [List.removeAll, List.filter_cons_of_neg (by simpa using h)]
    rfl
  rw [List.eraseDups_append, List.eraseDups_append, hremove]

lemma sameOrder_insert {x : Event} (hchange : x.isChange = true)
    (hbound : ∀ name, x.staff? = some name → name ∈ (⟨first⟩ : Segment).staffNames) :
    SameOrder ⟨first ++ rest⟩ ⟨first ++ x :: rest⟩ := by
  have hdropped (q : Entry → Bool) : x.keeps q = false := Event.keeps_of_isChange hchange q
  constructor
  · unfold staffNames
    rw [List.filterMap_append, List.filterMap_append, List.filterMap_cons]
    cases hstaff : x.staff? with
    | none => rfl
    | some name =>
      have hname := hbound name hstaff
      rw [staffNames, List.mem_eraseDups] at hname
      exact (eraseDups_insert hname).symm
  · intro name _
    have hentries := map_entries_measures ⟨first ++ rest⟩ name fun _ => true
    have hentries' := map_entries_measures ⟨first ++ x :: rest⟩ name fun _ => true
    have hfilter : (first ++ x :: rest).filter (Event.keeps fun e => e.staff = name && true) =
        (first ++ rest).filter (Event.keeps fun e => e.staff = name && true) := by
      rw [List.filter_append, List.filter_append, List.filter_cons_of_neg (by simp [hdropped])]
    rw [hfilter, ← hentries] at hentries'
    simp only [List.filter_true] at hentries'
    have hnames := congrArg (List.map fun es => (es.map Entry.voice).eraseDups) hentries'
    rw [List.map_map, List.map_map] at hnames
    exact hnames.symm

end Segment

/-! ### Transcriptions -/

lemma of_forall₂_replaced {α : Type} {R : α → α → Prop} {a b : α} {before after : List α}
    (h : List.Forall₂ R (before ++ a :: after) (before ++ b :: after)) : R a b := by
  induction before with
  | nil =>
    cases h with
    | cons hab _ => exact hab
  | cons c before ih =>
    cases h with
    | cons _ hrest => exact ih hrest

/-- Parts whose timelines differ in one place have the same outcome if their segments are alike. -/
theorem Part.outcome_script_of_edit {before mid mid' after : List Event}
    (hmid : ∀ e ∈ mid, e.isBar = false) (hmid' : ∀ e ∈ mid', e.isBar = false)
    (hbefore : before.getLast? = some .endBar → mid ≠ [] ∧ mid' ≠ [])
    (halike : ∀ earlier first rest later,
      Segment.cut (before ++ (mid ++ after)) = .ok (earlier ++ ⟨first ++ (mid ++ rest)⟩ :: later) →
      Segment.cut (before ++ (mid' ++ after)) =
        .ok (earlier ++ ⟨first ++ (mid' ++ rest)⟩ :: later) →
      Segment.cut before = .ok (earlier ++ [⟨first⟩]) →
      Segment.Alike ⟨first ++ (mid ++ rest)⟩ ⟨first ++ (mid' ++ rest)⟩)
    (name : String) (tuplets : Tuplet.Table) :
    outcome (Part.script content ⟨name, tuplets, before ++ (mid ++ after)⟩) =
      outcome (Part.script content ⟨name, tuplets, before ++ (mid' ++ after)⟩) := by
  have hedit := Segment.cutFrom_edit hmid hmid' hbefore after 0 0 0 none
  unfold Part.script
  unfold Segment.cut at halike ⊢
  dsimp only
  generalize Segment.cutFrom 0 none (before ++ (mid ++ after)) = x at hedit halike ⊢
  generalize Segment.cutFrom 0 none (before ++ (mid' ++ after)) = x' at hedit halike ⊢
  generalize Segment.cutFrom 0 none before = x'' at hedit halike
  cases hedit with
  | fault hkind hposition => exact congrArg Except.error (Prod.ext hkind hposition)
  | segments earlier first rest later =>
    have hscript := @Segment.Alike.script_eq content tuplets _ _
      (halike earlier first rest later rfl rfl rfl)
    have hsegments := outcome_each_replaced (fun i => { segment := some i })
      (congrArg outcome hscript) earlier later
    exact @outcome_bind _ _ _ _ (fun scripts => pure (⟨name, scripts⟩ : Script.Part)) _ hsegments
      fun _ => rfl

/-- Of two notes or rests of different voices, at most one belongs to the voice in question. -/
lemma Event.filter_keeps_swap {e f : Entry} (h : e.staff ≠ f.staff ∨ e.voice ≠ f.voice)
    (staff voice : String) :
    [entry e, entry f].filter (keeps fun e => e.staff = staff && e.voice = voice) =
      [entry f, entry e].filter (keeps fun e => e.staff = staff && e.voice = voice) := by
  by_cases he : (entry e).keeps (fun e => e.staff = staff && e.voice = voice) = true
  · by_cases hf : (entry f).keeps (fun e => e.staff = staff && e.voice = voice) = true
    · simp only [keeps, Bool.and_eq_true, decide_eq_true_eq] at he hf
      obtain ⟨rfl, rfl⟩ := he
      obtain ⟨hstaff, hvoice⟩ := hf
      obtain hne | hne := h
      · exact absurd hstaff.symm hne
      · exact absurd hvoice.symm hne
    · rw [List.filter_cons_of_pos he, List.filter_cons_of_neg hf, List.filter_cons_of_neg hf,
        List.filter_cons_of_pos he]
  · by_cases hf : (entry f).keeps (fun e => e.staff = staff && e.voice = voice) = true
    · rw [List.filter_cons_of_neg he, List.filter_cons_of_pos hf, List.filter_cons_of_pos hf,
        List.filter_cons_of_neg he]
    · rw [List.filter_cons_of_neg he, List.filter_cons_of_neg hf, List.filter_cons_of_neg hf,
        List.filter_cons_of_neg he]

lemma Part.outcome_script_swap {before after : List Event} {e f : Entry}
    (hvoice : e.staff ≠ f.staff ∨ e.voice ≠ f.voice)
    (horder : ∀ segments segments',
      Segment.cut (before ++ ([Event.entry e, Event.entry f] ++ after)) = .ok segments →
      Segment.cut (before ++ ([Event.entry f, Event.entry e] ++ after)) = .ok segments' →
      List.Forall₂ Segment.SameOrder segments segments') (name : String) (tuplets : Tuplet.Table) :
    outcome (Part.script content
        ⟨name, tuplets, before ++ ([Event.entry e, Event.entry f] ++ after)⟩) =
      outcome (Part.script content
        ⟨name, tuplets, before ++ ([Event.entry f, Event.entry e] ++ after)⟩) := by
  have hbars (e f : Entry) : ∀ x ∈ [Event.entry e, Event.entry f], x.isBar = false := by
    simp [Event.isBar]
  apply outcome_script_of_edit (hbars e f) (hbars f e)
  · intro _
    exact ⟨List.cons_ne_nil _ _, List.cons_ne_nil _ _⟩
  · intro earlier first rest later hcut hcut' _
    apply Segment.alike_of_edit (hbars e f) (hbars f e) _
      (of_forall₂_replaced (horder _ _ hcut hcut'))
    intro staff voice
    exact Event.filter_keeps_swap hvoice staff voice

lemma Part.outcome_script_insert {before after : List Event} {x : Event}
    (hchange : x.isChange = true) (hinside : before.getLast? ≠ some .endBar)
    (hbound : ∀ name, x.staff? = some name → Segment.Binds before name) (name : String)
    (tuplets : Tuplet.Table) : outcome (Part.script content ⟨name, tuplets, before ++ after⟩) =
      outcome (Part.script content ⟨name, tuplets, before ++ x :: after⟩) := by
  have hnil : ∀ e ∈ ([] : List Event), e.isBar = false := fun e he => absurd he List.not_mem_nil
  have hbar : ∀ e ∈ [x], e.isBar = false := by
    intro e he
    rw [List.mem_singleton.mp he]
    exact Event.isBar_of_isChange hchange
  apply outcome_script_of_edit hnil hbar (fun h => absurd h hinside)
  intro earlier first rest later _ _ hfirst
  have hnames (name : String) (hname : x.staff? = some name) :
      name ∈ (⟨first⟩ : Segment).staffNames := by
    obtain ⟨s, hlast, hmem⟩ := hbound name hname _ hfirst
    rw [List.getLast?_concat] at hlast
    cases hlast
    exact hmem
  apply Segment.alike_of_edit hnil hbar _ (Segment.sameOrder_insert hchange hnames)
  intro staff voice
  rw [List.filter_nil, List.filter_cons_of_neg, List.filter_nil]
  rw [Event.keeps_of_isChange hchange]
  exact Bool.false_ne_true

theorem Part.outcome_script_of_interleaved {events events' : List Event}
    (h : Timeline.Interleaved events events') (name : String) (tuplets : Tuplet.Table) :
    outcome (Part.script content ⟨name, tuplets, events⟩) =
      outcome (Part.script content ⟨name, tuplets, events'⟩) := by
  cases h with
  | swap before e f after hvoice horder => exact Part.outcome_script_swap hvoice horder name tuplets
  | insert before x after hchange hinside hbound =>
    exact Part.outcome_script_insert hchange hinside hbound name tuplets
  | delete before x after hchange hinside hbound =>
    exact (Part.outcome_script_insert hchange hinside hbound name tuplets).symm

/-- The second score has one part whose timeline comes from that of the first by one change of the
interleaving. -/
inductive Score.Interleaved : Score → Score → Prop
  | part (title : Option String) (before : List Part) (p : Part) (events : List Event)
      (after : List Part) (h : Timeline.Interleaved p.events events) :
      Score.Interleaved ⟨title, before ++ p :: after⟩
        ⟨title, before ++ { p with events := events } :: after⟩

/-- A change of the interleaving makes no difference to the text of a transcription and to what is
counted, nor to the kind and the position of its fault. -/
theorem Transcriber.transcribe_interleaved (options : Options) {s s' : Score}
    (h : s.Interleaved s') :
    outcome ((new options).transcribe s).1 = outcome ((new options).transcribe s').1 ∧
      ((new options).transcribe s).2.last.tally = ((new options).transcribe s').2.last.tally := by
  have hscript : outcome (s.script options.content) = outcome (s'.script options.content) := by
    obtain ⟨title, before, p, events, after, h⟩ := h
    have hpart := @Part.outcome_script_of_interleaved options.content _ _ h p.name p.tuplets
    exact outcome_each_replaced _ hpart before after
  rw [answer_transcribe_new, answer_transcribe_new, tally_transcribe_new, tally_transcribe_new]
  constructor
  · exact outcome_map _ hscript
  · generalize s.script options.content = x at hscript
    generalize s'.script options.content = x' at hscript
    cases x with
    | ok script =>
      cases x' with
      | ok script' =>
        cases hscript
        rfl
      | error f => cases hscript
    | error f =>
      cases x' with
      | ok script' => cases hscript
      | error f' => rfl

/-- Two notes of different staves change places, and the upper staff gets a bass clef. -/
theorem Transcriber.transcribe_interleaved_two_staves :
    let note (step : Step) (staff : String) : Entry :=
      .note { pitch := some ⟨step, 0, 4⟩, duration := { base := .quarter }, staff }
    let score (events : List Event) : Score := { parts := [{ name := "P", events }] }
    let start : List Event := [.startBar 2, .entry (note .c "1")]
    let lower := Event.entry (note .d "2")
    let upper := Event.entry (note .e "1")
    let clef := Event.clef {} ⟨.f, 4⟩ "1"
    let rest : List Event := [.entry (note .f "2"), .endBar]
    let plain := score (start ++ ([lower, upper] ++ rest))
    let swapped := score (start ++ ([upper, lower] ++ rest))
    let cleft := score (start ++ clef :: ([lower, upper] ++ rest))
    plain.Interleaved swapped ∧ plain.Interleaved cleft ∧
      outcome ((new {}).transcribe plain).1 = outcome ((new {}).transcribe swapped).1 ∧
      outcome ((new {}).transcribe plain).1 = outcome ((new {}).transcribe cleft).1 := by
  intro note score start lower upper clef rest plain swapped cleft
  have hswap : plain.Interleaved swapped := by
    apply Score.Interleaved.part none [] _ _ []
    apply Timeline.Interleaved.swap start (note .d "2") (note .e "1") rest (.inl (by decide))
    intro segments segments' h h'
    cases h
    cases h'
    exact .cons ⟨by decide, by decide +kernel⟩ .nil
  have hinsert : plain.Interleaved cleft := by
    apply Score.Interleaved.part none [] _ _ []
    apply Timeline.Interleaved.insert start clef _ rfl (by decide)
    intro name hname segments h
    cases hname
    cases h
    exact ⟨_, rfl, by decide +kernel⟩
  exact ⟨hswap, hinsert, (transcribe_interleaved {} hswap).1, (transcribe_interleaved {} hinsert).1⟩

end BrailleScore
