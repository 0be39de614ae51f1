import BrailleScore.Proofs.PlacedScript

/-!
# What a pass writes

A pass lays out and counts a voice as soon as it is known. Where it succeeds, it leaves what the
layout and the tally of the whole script are. So the memory of last pitches that is handed from
voice to voice and from measure to measure tells the same as a search backwards through the
timeline.
-/

namespace BrailleScore

open Fault

variable {α β : Type}

/-- Lays out further pieces and counts further notes and rests. -/
def Transcript.extend (t : Transcript) (pieces : List Layout.Piece) (notes : List (List Sign)) :
    Transcript :=
  ⟨pieces.foldl Layout.place t.page, notes.foldl Tally.add t.tally⟩

lemma Transcript.extend_extend (t : Transcript) (pieces pieces' : List Layout.Piece)
    (notes notes' : List (List Sign)) :
    (t.extend pieces notes).extend pieces' notes' =
      t.extend (pieces ++ pieces') (notes ++ notes') := by
  simp [extend, List.foldl_append]

namespace Pass

/-- What a pass answers and leaves, where it succeeds. -/
def done (x : Pass α) (t : Transcript) : Except Fault (α × Transcript) :=
  match x.run.run t with
  | (.ok a, left) => .ok (a, left)
  | (.error f, _) => .error f

lemma run_bind (x : Pass α) (f : α → Pass β) (t : Transcript) :
    (x >>= f).run.run t = match x.run.run t with
      | (.ok a, left) => (f a).run.run left
      | (.error e, left) => (.error e, left) := by
  simp only [bind, ExceptT.run, StateT.run, ExceptT.bind, ExceptT.mk, StateT.bind,
    ExceptT.bindCont]
  obtain ⟨_ | _, _⟩ := x t <;> rfl

lemma run_adapt (x : Pass α) (g : Fault → Fault) (t : Transcript) :
    (ExceptT.adapt g x).run.run t = ((x.run.run t).1.mapError g, (x.run.run t).2) :=
  rfl

@[simp] lemma done_pure (a : α) (t : Transcript) : (pure a : Pass α).done t = .ok (a, t) := rfl

lemma done_bind (x : Pass α) (f : α → Pass β) (t : Transcript) :
    (x >>= f).done t = x.done t >>= fun r => (f r.1).done r.2 := by
  simp only [done, run_bind]
  obtain ⟨_ | _, _⟩ := x.run.run t <;> rfl

@[simp] lemma done_place (piece : Layout.Piece) (t : Transcript) :
    (place piece).done t = .ok ((), t.extend [piece] []) := rfl

@[simp] lemma done_count (items : List Script.Item) (t : Transcript) :
    (count items).done t = .ok ((), t.extend [] (items.filterMap Script.Item.note?)) := rfl

lemma done_lift (x : Except Fault α) (t : Transcript) :
    (lift x).done t = x >>= fun a => pure (a, t) := by
  cases x <;> rfl

lemma done_adapt (x : Pass α) (p : Position) (t : Transcript) :
    done (ExceptT.adapt (Fault.within p) x) t = locate p (x.done t) := by
  simp only [done, run_adapt]
  obtain ⟨_ | _, _⟩ := x.run.run t <;> rfl

lemma locate_bind_pure (p : Position) (x : Except Fault α) (f : α → β) :
    locate p (x >>= fun a => pure (f a)) = locate p x >>= fun a => pure (f a) := by
  cases x <;> rfl

lemma ok_bind (a : α) (f : α → Except Fault β) : (Except.ok a >>= f) = f a := rfl

/-- A pass over a list writes what is told of its elements, one after the other. -/
theorem done_eachFrom {f : α → Pass Unit} {g : α → Except Fault β} {pieces : β → List Layout.Piece}
    {notes : β → List (List Sign)}
    (h : ∀ a t, (f a).done t = g a >>= fun b => pure ((), t.extend (pieces b) (notes b)))
    (position : Nat → Position) (start : Nat) (as : List α) (t : Transcript) :
    (Pass.eachFrom position (fun _ => f) start () as).done t =
      Fault.eachFrom position g start as >>= fun bs =>
        pure ((), t.extend (bs.flatMap pieces) (bs.flatMap notes)) := by
  induction as generalizing start t with
  | nil => rfl
  | cons a as ih =>
    rw [Pass.eachFrom, Fault.eachFrom, done_bind, done_adapt, h, locate_bind_pure]
    simp only [bind_assoc, pure_bind, ih, Transcript.extend_extend, List.flatMap_cons]

variable {scribe : Scribe} {style : Options.Style}

abbrev notesOf (w : Script.Voice) : List (List Sign) := w.filterMap Script.Item.note?

theorem done_items {name : String} {memory : Memory} {ps : List Place}
    (h : Linked (memory.last name) ps) (hname : ∀ p ∈ ps, p.entry.voice = name) (t : Transcript) :
    (items scribe name memory (ps.map Place.entry)).done t =
      voiceScript scribe ps >>= fun w =>
        pure ((w, (ps.map Place.entry).foldl Memory.remember memory), t.extend [] (notesOf w)) := by
  -- What is carried along: the memory knows the last pitch of the next place.
  induction ps generalizing memory t with
  | nil => rfl
  | cons p ps ih =>
    obtain ⟨hp, hps⟩ := List.forall_mem_cons.mp hname
    generalize hlast : memory.last name = last at h
    cases h with
    | cons h =>
      have hnext : (memory.remember p.entry).last name = p.entry.sounding.or p.last := by
        rw [Memory.last_remember, if_pos hp, hlast]
      rw [← hnext] at h
      simp only [List.map_cons, items, List.foldl_cons, hlast, voiceScript_cons, done_bind,
        done_lift, done_count, done_pure, bind_assoc, pure_bind, ok_bind, ih h hps,
        Transcript.extend_extend, List.nil_append, notesOf, List.filterMap_append]
      rfl

/-! ### Voices and measures -/

/-- The voices of a measure without the space behind it. -/
def accordPieces (style : Options.Style) (hand : Option Hand) : Script.Measure → List Layout.Piece
  | [] => []
  | first :: others => .voice (Layout.voiceText style hand first) ::
      others.flatMap fun v => [Layout.inAccord, .voice (Layout.voiceText style none v)]

lemma measurePieces_eq (style : Options.Style) (hand : Option Hand) (m : Script.Measure) :
    Layout.measurePieces style hand m = accordPieces style hand m ++ [.glue [' ']] := by
  cases m <;> rfl

/-- The entries of one voice say nothing of the last pitches of the others. -/
lemma last_foldl_remember_of_ne {memory : Memory} {es : List Entry} {name other : String}
    (hes : ∀ e ∈ es, e.voice = name) (hne : other ≠ name) :
    (es.foldl Memory.remember memory).last other = memory.last other := by
  have hnone : (es.filter fun e => e.voice = other) = [] := by
    rw [List.filter_eq_nil_iff]
    intro e he hother
    exact hne ((of_decide_eq_true hother).symm.trans (hes e he))
  rw [Memory.last_foldl_remember, hnone]
  rfl

lemma voice_of_mem_placesOf {p : Place} {ps : List Place} {name : String}
    (h : p ∈ placesOf ps name) : p.entry.voice = name :=
  of_decide_eq_true (List.mem_filter.mp h).2

lemma done_voice {ps : List Place} {name : String} {carry : Carry}
    (h : Linked (carry.memory.last name) (placesOf ps name)) (t : Transcript) :
    (voice scribe style carry ⟨name, (placesOf ps name).map Place.entry⟩).done t =
      voiceScript scribe (placesOf ps name) >>= fun w =>
        pure (⟨none, ((placesOf ps name).map Place.entry).foldl Memory.remember carry.memory⟩,
          t.extend [.voice (Layout.voiceText style carry.hand w)] (notesOf w)) := by
  rw [voice, done_bind, done_items h fun _ => voice_of_mem_placesOf]
  simp only [bind_assoc, pure_bind, done_bind, done_place, ok_bind, done_pure,
    Transcript.extend_extend, List.nil_append, List.append_nil]
  rfl

theorem done_voices {ps : List Place} {names : List String} (hnames : names.Nodup) (carry : Carry)
    (h : ∀ name ∈ names, Linked (carry.memory.last name) (placesOf ps name)) (t : Transcript) :
    (voices scribe style carry (names.map fun name =>
      ⟨name, (placesOf ps name).map Place.entry⟩)).done t =
      (names.map (placesOf ps)).mapM (voiceScript scribe) >>= fun ws =>
        pure (⟨if ws.isEmpty then carry.hand else none,
          (names.flatMap fun name => (placesOf ps name).map Place.entry).foldl Memory.remember
            carry.memory⟩, t.extend (accordPieces style carry.hand ws) (notesOf ws.flatten)) := by
  induction names generalizing carry t with
  | nil => rfl
  | cons name names ih =>
    obtain ⟨hname, hrest⟩ := List.nodup_cons.mp hnames
    obtain ⟨hfirst, hothers⟩ := List.forall_mem_cons.mp h
    have hentries : ∀ e ∈ (placesOf ps name).map Place.entry, e.voice = name :=
      List.forall_mem_map.mpr fun _ => voice_of_mem_placesOf
    cases names with
    | nil =>
      rw [List.map_cons, List.map_nil, voices, done_voice hfirst, List.map_cons, List.map_nil,
        List.mapM_cons, List.mapM_nil]
      simp [accordPieces, notesOf]
    | cons next names =>
      -- The later voices have other names, so their last pitches are as they were.
      have hlater : ∀ other ∈ next :: names, Linked
          ((((placesOf ps name).map Place.entry).foldl Memory.remember carry.memory).last other)
            (placesOf ps other) := by
        intro other hother
        rw [last_foldl_remember_of_ne hentries fun heq => hname (heq ▸ hother)]
        exact hothers other hother
      have ih (t : Transcript) := ih hrest ⟨none, _⟩ hlater t
      simp only [List.map_cons] at ih ⊢
      rw [voices, List.mapM_cons, List.mapM_cons, done_bind, done_voice hfirst]
      simp only [bind_assoc, pure_bind, done_bind, done_place, ok_bind, ih, List.mapM_cons,
        Transcript.extend_extend]
      simp [accordPieces, notesOf, List.foldl_append, List.filterMap_append]

lemma recalls_flatMap_placesOf {memory : Memory} {earlier : List Entry}
    (h : memory.Recalls earlier) (ps : List Place) :
    (((voiceNames ps).flatMap fun name => (placesOf ps name).map Place.entry).foldl Memory.remember
      memory).Recalls (earlier ++ ps.map Place.entry) := by
  intro voice
  have hregrouped :
      (((voiceNames ps).flatMap (placesOf ps)).filter fun p => p.entry.voice = voice) =
        ps.filter fun p => p.entry.voice = voice :=
    filter_flatMap_filter _ (nodup_voiceNames ps) (fun p hp => voice_mem_voiceNames hp) voice
  have hentries (l : List Place) : ((l.map Place.entry).filter fun e => e.voice = voice) =
      (l.filter fun p => p.entry.voice = voice).map Place.entry := by
    rw [List.filter_map]
    rfl
  rw [h.foldl _ voice, ← List.map_flatMap, List.filter_append, List.filter_append, hentries,
    hentries, hregrouped]

theorem done_measure {carry : Carry} {m : Measure} {earlier : List Entry} {ps : List Place}
    (hm : m.entries = ps.map Place.entry) (hcarry : carry.memory.Recalls earlier)
    (h : Follows earlier ps) (t : Transcript) :
    (measure scribe style carry m).done t =
      (placesByVoice ps).mapM (voiceScript scribe) >>= fun ws =>
        pure (⟨if ws.isEmpty then carry.hand else none, ((voiceNames ps).flatMap fun name =>
          (placesOf ps name).map Place.entry).foldl Memory.remember carry.memory⟩,
          t.extend (Layout.measurePieces style carry.hand ws) (notesOf ws.flatten)) := by
  have hlinked : ∀ name ∈ voiceNames ps,
      Linked (carry.memory.last name) (placesOf ps name) := fun name _ => by
    rw [hcarry name]
    exact h.linked name
  rw [measure, voices_of_entries hm, done_bind, done_voices (nodup_voiceNames ps) carry hlinked,
    ← placesByVoice]
  simp only [bind_assoc, pure_bind, done_bind, done_place, ok_bind, done_pure,
    Transcript.extend_extend, List.append_nil, ← measurePieces_eq]
  rfl

/-! ### Staves, segments and parts -/

/-- A staff that begins with a memory of its earlier entries writes what its places tell. -/
theorem done_measures {position : Nat → Position} {ms : List Measure} {pss : List (List Place)}
    (hms : Hold ms pss) {carry : Carry} {earlier : List Entry}
    (hcarry : carry.memory.Recalls earlier) (h : Follows earlier pss.flatten) (start : Nat)
    (t : Transcript) :
    ((Pass.eachFrom position (measure scribe style) start carry ms).done t >>= fun r =>
      pure r.2) =
      Fault.eachFrom position (fun ps => (placesByVoice ps).mapM (voiceScript scribe)) start pss >>=
        fun ws => pure (t.extend (Layout.measuresPieces style carry.hand ws)
          (notesOf ws.flatten.flatten)) := by
  induction hms generalizing carry earlier start t with
  | nil => rfl
  | @cons m ps ms pss hm _ ih =>
    obtain ⟨hps, hpss⟩ := follows_append.mp h
    rw [Pass.eachFrom, Fault.eachFrom, done_bind, done_adapt, done_measure hm hcarry hps,
      locate_bind_pure]
    simp only [bind_assoc, pure_bind]
    congr 1
    funext ws
    -- The memory was filled voice by voice, but in each voice in the order of time.
    rw [ih (recalls_flatMap_placesOf hcarry ps) hpss]
    simp only [Transcript.extend_extend, Layout.measuresPieces, List.flatten_cons, notesOf,
      List.flatten_append, List.filterMap_append]

theorem done_staff (s : Segment) (name : String) (hand : Option Hand) (t : Transcript) :
    (staff scribe style hand (s.staffNamed name)).done t =
      staffScript scribe ((List.range s.measureCount).map fun measure =>
        placesByVoice (s.placesIn name measure)) >>= fun w =>
          pure ((), t.extend (Layout.staffPieces style hand w) (notesOf w.flatten.flatten)) := by
  have hfollows : Follows [] ((List.range s.measureCount).map (s.placesIn name)).flatten := by
    rw [← List.flatMap_def, s.flatMap_placesIn]
    exact s.follows_places name
  have hmeasures := @done_measures scribe style (fun i => { measure := some i }) _ _
    (s.hold_measures name) ⟨hand, []⟩ [] Memory.recalls_nil hfollows 0 (t.extend [.staff] [])
  have hforget (x : Except Fault (Carry × Transcript)) :
      (x >>= fun r => (Except.ok ((), r.2) : Except Fault _)) =
        (x >>= fun r => pure r.2) >>= fun left => pure ((), left) := by
    cases x <;> rfl
  rw [staff, done_bind, done_place, ok_bind, done_bind]
  simp only [done_pure]
  rw [hforget, hmeasures]
  simp only [bind_assoc, pure_bind, Transcript.extend_extend, List.nil_append]
  change each _ _ _ >>= _ = _
  rw [staffScript, each_map, each_map]
  rfl

def handOf (hands : Bool) (index : Nat) : Option Hand :=
  if hands then some (if index = 0 then .right else .left) else none

/-- The staves of a segment from one on. -/
def stavesPieces (style : Options.Style) (hands : Bool) : Nat → Script.Segment → List Layout.Piece
  | _, [] => []
  | index, w :: ws =>
    Layout.staffPieces style (handOf hands index) w ++ stavesPieces style hands (index + 1) ws

lemma stavesPieces_false (style : Options.Style) (index : Nat) (ws : Script.Segment) :
    stavesPieces style false index ws = ws.flatMap (Layout.staffPieces style none) := by
  induction ws generalizing index with
  | nil => rfl
  | cons w ws ih => rw [stavesPieces, ih, List.flatMap_cons]; rfl

lemma stavesPieces_eq_segmentPieces (style : Options.Style) (ws : Script.Segment) :
    stavesPieces style (ws.length = 2 && style.handSigns) 0 ws = Layout.segmentPieces style ws := by
  match ws with
  | [] => rfl
  | [_] => simp [stavesPieces_false, Layout.segmentPieces]
  | [upper, lower] =>
    cases h : style.handSigns <;>
      simp [stavesPieces, Layout.segmentPieces, handOf, h]
  | _ :: _ :: _ :: _ => simp [stavesPieces_false, Layout.segmentPieces]

theorem done_staves (s : Segment) (hands : Bool) (index : Nat) (names : List String)
    (t : Transcript) : (staves scribe style hands index (names.map s.staffNamed)).done t =
      (names.map fun name => (List.range s.measureCount).map fun measure =>
        placesByVoice (s.placesIn name measure)).mapM (staffScript scribe) >>= fun ws =>
          pure ((), t.extend (stavesPieces style hands index ws)
            (notesOf ws.flatten.flatten.flatten)) := by
  induction names generalizing index t with
  | nil => rfl
  | cons name names ih =>
    rw [List.map_cons, List.map_cons, staves, List.mapM_cons, done_bind, ← handOf, done_staff]
    simp only [bind_assoc, pure_bind, ih, Transcript.extend_extend, stavesPieces,
      List.flatten_cons, List.flatten_append, notesOf, List.filterMap_append]

theorem done_segment (s : Segment) (t : Transcript) :
    (segment scribe style s).done t = s.placedScript scribe >>= fun w =>
      pure ((), t.extend (Layout.segmentPieces style w) (notesOf w.flatten.flatten.flatten)) := by
  rw [segment, done_bind, done_lift, Segment.placedScript]
  cases hstaves : s.staves with
  | error f => rfl
  | ok found =>
    simp only [ok_bind, pure_bind]
    obtain ⟨hcount, rfl⟩ | ⟨-, hlength, rfl⟩ := Segment.staves_eq_ok.mp hstaves
    · rw [Segment.arrangement, hcount]
      rfl
    · rw [done_staves, Segment.arrangement, ← hlength, List.take_length, List.length_map]
      cases hwritten : (s.staffNames.map fun name => (List.range s.measureCount).map fun measure =>
          placesByVoice (s.placesIn name measure)).mapM (staffScript scribe) with
      | error f => rfl
      | ok ws =>
        have hws := (mapM_eq_ok.mp hwritten).length_eq
        rw [List.length_map] at hws
        rw [ok_bind, ok_bind, hws, stavesPieces_eq_segmentPieces]

lemma notes_eq_flatMap (w : Script.Part) :
    w.notes = w.segments.flatMap fun s => notesOf s.flatten.flatten.flatten := by
  simp only [Script.Part.notes, notesOf, List.flatten_eq_flatMap, List.filterMap_flatMap,
    List.flatMap_assoc, id]

theorem done_part {scribe : Tuplet.Table → Scribe} (p : Part) (t : Transcript) :
    (part style scribe p).done t = p.placedScript scribe >>= fun w =>
      pure ((), t.extend (Layout.partPieces style w) w.notes) := by
  have hsegments := @done_eachFrom _ _ _ _ _ _ (@done_segment (scribe p.tuplets) style)
    (fun i => { segment := some i }) 0
  rw [part, done_bind, done_place, ok_bind, done_bind, done_lift, Part.placedScript]
  simp only [bind_assoc, pure_bind, hsegments, Transcript.extend_extend, notes_eq_flatMap]
  rfl

theorem done_score {scribe : Tuplet.Table → Scribe} (s : Score) (t : Transcript) :
    (score style scribe s).done t = s.placedScript scribe >>= fun w =>
      pure ((), t.extend (Layout.pieces style w) (w.flatMap Script.Part.notes)) :=
  done_eachFrom done_part _ 0 s.parts t

/-! ### The size of the page -/

/-- The pass never changes the size of the page, whether it succeeds or not. -/
def KeepsSize (x : Pass α) : Prop := ∀ t, (x.run.run t).2.page.size = t.page.size

lemma keepsSize_pure (a : α) : KeepsSize (pure a) := fun _ => rfl

lemma keepsSize_lift (x : Except Fault α) : KeepsSize (lift x) := fun _ => rfl

lemma keepsSize_count (items : List Script.Item) : KeepsSize (count items) := fun _ => rfl

lemma keepsSize_bind {x : Pass α} {f : α → Pass β} (hx : KeepsSize x)
    (hf : ∀ a, KeepsSize (f a)) : KeepsSize (x >>= f) := by
  intro t
  have hleft := hx t
  rw [run_bind]
  generalize x.run.run t = r at hleft ⊢
  obtain ⟨e | a, left⟩ := r
  · exact hleft
  · exact (hf a left).trans hleft

lemma keepsSize_adapt {x : Pass α} (hx : KeepsSize x) (g : Fault → Fault) :
    KeepsSize (ExceptT.adapt g x) := by
  intro t
  rw [run_adapt]
  exact hx t

lemma size_newline (p : Page) : p.newline.size = p.size := by
  unfold Page.newline
  dsimp only
  split <;> rfl

lemma size_place (p : Page) (piece : Layout.Piece) : (Layout.place p piece).size = p.size := by
  have hfresh : p.freshLine.size = p.size := by
    unfold Page.freshLine
    split
    · exact size_newline p
    · rfl
  cases piece with
  | heading name => exact (size_newline _).trans hfresh
  | staff => exact hfresh
  | voice text =>
    rw [Layout.place]
    split
    · exact size_newline p
    · rfl
  | glue text => rfl

lemma keepsSize_place (piece : Layout.Piece) : KeepsSize (place piece) :=
  fun t => size_place t.page piece

lemma keepsSize_eachFrom {σ : Type} {f : σ → α → Pass σ} (hf : ∀ s a, KeepsSize (f s a))
    (position : Nat → Position) (start : Nat) (handed : σ) (as : List α) :
    KeepsSize (Pass.eachFrom position f start handed as) := by
  induction as generalizing start handed with
  | nil => exact keepsSize_pure _
  | cons a as ih => exact keepsSize_bind (keepsSize_adapt (hf handed a) _) fun _ => ih _ _

lemma keepsSize_items (name : String) (memory : Memory) (es : List Entry) :
    KeepsSize (items scribe name memory es) := by
  induction es generalizing memory with
  | nil => exact keepsSize_pure _
  | cons e es ih =>
    exact keepsSize_bind (keepsSize_lift _) fun _ => keepsSize_bind (keepsSize_count _) fun _ =>
      keepsSize_bind (ih _) fun _ => keepsSize_pure _

lemma keepsSize_voice (carry : Carry) (v : Voice) : KeepsSize (voice scribe style carry v) :=
  keepsSize_bind (keepsSize_items _ _ _) fun _ => keepsSize_bind (keepsSize_place _) fun _ =>
    keepsSize_pure _

lemma keepsSize_voices (carry : Carry) (vs : List Voice) :
    KeepsSize (voices scribe style carry vs) := by
  induction vs generalizing carry with
  | nil => exact keepsSize_pure _
  | cons v vs ih =>
    cases vs with
    | nil => exact keepsSize_voice carry v
    | cons next others =>
      exact keepsSize_bind (keepsSize_voice carry v) fun _ =>
        keepsSize_bind (keepsSize_place _) fun _ => ih _

lemma keepsSize_measure (carry : Carry) (m : Measure) : KeepsSize (measure scribe style carry m) :=
  keepsSize_bind (keepsSize_voices _ _) fun _ => keepsSize_bind (keepsSize_place _) fun _ =>
    keepsSize_pure _

lemma keepsSize_staff (hand : Option Hand) (s : Staff) : KeepsSize (staff scribe style hand s) :=
  keepsSize_bind (keepsSize_place _) fun _ =>
    keepsSize_bind (keepsSize_eachFrom keepsSize_measure _ _ _ _) fun _ => keepsSize_pure _

lemma keepsSize_staves (hands : Bool) (index : Nat) (found : List Staff) :
    KeepsSize (staves scribe style hands index found) := by
  induction found generalizing index with
  | nil => exact keepsSize_pure _
  | cons s found ih => exact keepsSize_bind (keepsSize_staff _ _) fun _ => ih _

lemma keepsSize_segment (s : Segment) : KeepsSize (segment scribe style s) :=
  keepsSize_bind (keepsSize_lift _) fun _ => keepsSize_staves _ _ _

lemma keepsSize_part {scribe : Tuplet.Table → Scribe} (p : Part) :
    KeepsSize (part style scribe p) :=
  keepsSize_bind (keepsSize_place _) fun _ => keepsSize_bind (keepsSize_lift _) fun _ =>
    keepsSize_eachFrom (fun _ => keepsSize_segment) _ _ _ _

theorem keepsSize_score {scribe : Tuplet.Table → Scribe} (s : Score) :
    KeepsSize (score style scribe s) :=
  keepsSize_eachFrom (fun _ => keepsSize_part) _ _ _ _

end Pass

namespace Transcriber

/-- What a transcriber answers and keeps is told by the script that is read off the timeline. -/
theorem transcribeWith_eq (scribe : Options.Content → Tuplet.Table → Scribe) (t : Transcriber)
    (s : Score) : t.transcribeWith scribe s =
      match s.placedScript (scribe t.options.content) with
      | .ok script =>
        let pages := Layout.pages t.last.page.size (Layout.pieces t.options.style script)
        (.ok pages.text, { t with last := ⟨pages, script.tally⟩ })
      | .error f => (.error f, { t with last := ⟨Page.blank t.last.page.size, {}⟩ }) := by
  have hdone := @Pass.done_score t.options.style (scribe t.options.content) s t.last.reset
  have hsize := @Pass.keepsSize_score t.options.style (scribe t.options.content) s t.last.reset
  unfold transcribeWith
  unfold Pass.done at hdone
  generalize (Pass.score t.options.style (scribe t.options.content) s).run.run t.last.reset = r
    at hdone hsize ⊢
  obtain ⟨e | u, left⟩ := r
  · cases hscript : s.placedScript (scribe t.options.content) with
    | ok script =>
      rw [hscript] at hdone
      cases hdone
    | error f =>
      rw [hscript] at hdone
      cases hdone
      have hsize : left.page.size = t.last.page.size := hsize
      simp only [Transcript.reset, Page.reset, Tally.clear, hsize]
  · cases hscript : s.placedScript (scribe t.options.content) with
    | ok script =>
      rw [hscript] at hdone
      cases hdone
      rfl
    | error f =>
      rw [hscript] at hdone
      cases hdone

/-- Walking the score once is the same as laying out its script. -/
theorem transcribe_eq_run {t : Transcriber} (h : t.last.page.size = t.options.page) (s : Score) :
    t.transcribe s = t.run s := by
  rw [transcribe, transcribeWith_eq, run, Score.transcribe, s.script_eq_placedScript, h]
  cases s.placedScript (Entry.script t.options.content) <;> rfl

/-- A transcription succeeds exactly when its score is transcribable, whatever the last run left. -/
theorem transcribe_succeeds_iff (t : Transcriber) (s : Score) :
    ((∃ text, (t.transcribe s).1 = .ok text) ↔ s.Transcribable t.options.content) ∧
      ((∃ text, (t.run s).1 = .ok text) ↔ s.Transcribable t.options.content) := by
  rw [← Score.succeeds_script, transcribe, transcribeWith_eq, ← s.script_eq_placedScript, run,
    Score.transcribe]
  cases s.script t.options.content <;> simp [Succeeds, Except.map]

end Transcriber

end BrailleScore
