import BrailleScore.Proofs.PassOutcome
import BrailleScore.Proofs.TallyCount
import BrailleScore.Proofs.WrittenPlaces

/-!
# Every note is written and counted once

A successful transcription writes each note and rest of a score as one item of one voice and counts
it once, however the staves and voices of the timeline are interleaved.
-/

namespace BrailleScore

open Fault

/-- The signs of the note or rest at a place. -/
def Place.signs (content : Options.Content) (p : Place) : Except Fault (List Sign) :=
  p.entry.signs content p.last

/-! ### Written voice by voice -/

/-- The items of a voice hold one note or rest for each of the places, in the same order. -/
def ItemsHold (content : Options.Content) (ps : List Place) (v : Script.Voice) : Prop :=
  List.Forall₂ (fun p note => p.signs content = .ok note) ps (v.filterMap Script.Item.note?)

/-- The segment is written as `w`: each of its notes and rests stands at one place of one voice of
one measure of one staff, and voices keep the order of time. -/
structure Segment.WrittenAs (content : Options.Content) (s : Segment) (w : Script.Segment) :
    Prop where
  voices : List.Forall₂ (List.Forall₂ (List.Forall₂ (ItemsHold content))) s.arrangement w
  once : s.written.Perm s.rendered
  distinct : s.rendered.Nodup
  order : ∀ voice ∈ s.arrangement.flatten.flatten, voice.Sublist s.places

structure Part.WrittenAs (content : Options.Content) (p : Part) (w : Script.Part) : Prop where
  name : w.name = p.name
  segments : ∃ segments, Segment.cut p.events = .ok segments ∧
    List.Forall₂ (Segment.WrittenAs content) segments w.segments

variable {content : Options.Content} {table : Tuplet.Table}

/-- A note or rest is written as one item, behind the signs of the tuplets that begin on it. -/
lemma Entry.script_eq_ok_signs {last : Option Pitch} {e : Entry} {items : List Script.Item}
    (h : e.script content table last = .ok items) :
    ∃ note, e.signs content last = .ok note ∧ items.filterMap Script.Item.note? = [note] := by
  cases e with
  | rest r =>
    obtain rfl := Except.ok.inj h
    exact ⟨r.signs, rfl, rfl⟩
  | note n =>
    simp only [script, bind_eq_ok, pure_eq_ok] at h
    obtain ⟨tuplets, -, signs, hsigns, rfl⟩ := h
    refine ⟨signs, hsigns, ?_⟩
    have htuplets : (tuplets.map Script.Item.tuplet).filterMap Script.Item.note? = [] := by
      simp [List.filterMap_eq_nil_iff, Script.Item.note?]
    rw [List.filterMap_append, htuplets]
    rfl

lemma VoiceWrittenBy.itemsHold {ps : List Place} {v : Script.Voice}
    (h : VoiceWrittenBy (Entry.script content table) ps v) : ItemsHold content ps v := by
  obtain ⟨items, hitems, rfl⟩ := h
  induction hitems with
  | nil => exact .nil
  | cons hfirst _ ih =>
    obtain ⟨note, hnote, hsingle⟩ := Entry.script_eq_ok_signs hfirst
    rw [ItemsHold, List.flatten_cons, List.filterMap_append, hsingle]
    exact .cons hnote ih

theorem Segment.writtenAs {s : Segment} {w : Script.Segment}
    (h : s.placedScript (Entry.script content table) = .ok w) : s.WrittenAs content w := by
  obtain ⟨hvoices, honce, hdistinct, horder⟩ := Segment.writtenBy h
  refine ⟨hvoices.imp fun _ _ hstaff => hstaff.imp fun _ _ hmeasure => ?_, honce, hdistinct, horder⟩
  exact hmeasure.imp fun _ _ => VoiceWrittenBy.itemsHold

theorem Part.writtenAs {p : Part} {w : Script.Part}
    (h : p.placedScript (Entry.script content) = .ok w) : p.WrittenAs content w := by
  simp only [placedScript, bind_eq_ok, pure_eq_ok] at h
  obtain ⟨segments, hcut, scripts, hscripts, rfl⟩ := h
  exact ⟨rfl, segments, hcut, (mapM_eq_ok.mp (each_eq_ok.mp hscripts)).imp fun _ _ =>
    Segment.writtenAs⟩

/-! ### Counted over the whole score -/

/-- The notes are those of the places, up to their order. -/
def Amounts (content : Options.Content) (ps : List Place) (notes : List (List Sign)) : Prop :=
  ∃ timed, List.Forall₂ (fun p note => p.signs content = .ok note) ps timed ∧ timed.Perm notes

lemma amounts_flatMap {α β : Type} {f : α → List Place} {g : β → List (List Sign)}
    {as : List α} {bs : List β} (h : List.Forall₂ (fun a b => Amounts content (f a) (g b)) as bs) :
    Amounts content (as.flatMap f) (bs.flatMap g) := by
  induction h with
  | nil => exact ⟨[], .nil, .nil⟩
  | cons hab _ ih =>
    obtain ⟨first, hfirst, hperm⟩ := hab
    obtain ⟨more, hmore, hperms⟩ := ih
    exact ⟨first ++ more, List.rel_append hfirst hmore, hperm.append hperms⟩

lemma Segment.WrittenAs.amounts {s : Segment} {w : Script.Segment} (h : s.WrittenAs content w) :
    Amounts content s.rendered (w.flatten.flatten.flatten.filterMap Script.Item.note?) := by
  have hvoices : List.Forall₂ (List.Forall₂ fun p note => p.signs content = .ok note)
      s.arrangement.flatten.flatten (w.flatten.flatten.map (List.filterMap Script.Item.note?)) :=
    List.forall₂_map_right_iff.mpr (List.rel_flatten (List.rel_flatten h.voices))
  -- The notes in the order of writing, to be brought into the order of time.
  have hnotes := List.rel_flatten hvoices
  rw [← List.filterMap_flatten] at hnotes
  obtain ⟨timed, htimed, hperm⟩ := List.perm_comp_forall₂ h.once.symm hnotes
  exact ⟨timed, htimed, hperm⟩

lemma Part.WrittenAs.amounts {p : Part} {w : Script.Part} (h : p.WrittenAs content w) :
    Amounts content p.places w.notes := by
  obtain ⟨-, segments, hcut, hsegments⟩ := h
  rw [places, hcut, Pass.notes_eq_flatMap]
  exact amounts_flatMap (hsegments.imp fun _ _ => Segment.WrittenAs.amounts)

/-- A successful transcription writes each note and rest of the score as one item of its voice,
and counts it once. -/
theorem Transcriber.transcribe_counts_notes {t : Transcriber} {s : Score} {text : List Char}
    (h : (t.transcribe s).1 = .ok text) :
    ∃ (script : Script) (notes : List (List Sign)),
      text = (Layout.pages t.last.page.size (Layout.pieces t.options.style script)).text ∧
      List.Forall₂ (Part.WrittenAs t.options.content) s.parts script ∧
      s.places.mapM (Place.signs t.options.content) = .ok notes ∧
      (t.transcribe s).2.last.tally.total = s.places.length ∧
      (∀ b, (t.transcribe s).2.last.tally.count b = notes.count b) ∧
      (t.transcribe s).2.last.tally.distinct = notes.toFinset.card := by
  rw [transcribe, transcribeWith_eq] at h ⊢
  cases hscript : s.placedScript (Entry.script t.options.content) with
  | error f =>
    rw [hscript] at h
    cases h
  | ok script =>
    rw [hscript] at h
    have hparts : List.Forall₂ (Part.WrittenAs t.options.content) s.parts script :=
      (mapM_eq_ok.mp (each_eq_ok.mp hscript)).imp fun _ _ => Part.writtenAs
    obtain ⟨notes, hnotes, hperm⟩ := amounts_flatMap (hparts.imp fun _ _ => Part.WrittenAs.amounts)
    obtain ⟨htotal, hcount, hdistinct⟩ := Tally.ofList_spec (script.flatMap Script.Part.notes)
    refine ⟨script, notes, (Except.ok.inj h).symm, hparts, mapM_eq_ok.mpr hnotes, ?_,
      fun b => ?_, ?_⟩
    · exact htotal.trans (hperm.length_eq.symm.trans hnotes.length_eq.symm)
    · exact (hcount b).trans (hperm.count_eq b).symm
    · exact hdistinct.trans (congrArg Finset.card (List.toFinset_eq_of_perm _ _ hperm.symm))

/-- Four notes of two staves and two voices, in an order that crosses both. -/
theorem transcribe_counts_four_crossing :
    let note (step : Step) (staff voice : String) : Event :=
      .entry (.note { pitch := some ⟨step, 0, 4⟩, duration := { base := .quarter }, staff, voice })
    let s : Score := { parts := [{ name := "Piano", events := [.startBar 2, note .c "1" "1",
      note .c "2" "1", note .c "1" "2", note .d "1" "1", .endBar, .startBar 2, note .c "2" "1"] }] }
    ∃ text, ((Transcriber.new {}).transcribe s).1 = .ok text ∧
      let tally := ((Transcriber.new {}).transcribe s).2.last.tally
      tally.total = 4 ∧ tally.count [.octave 4, .note .c .quarter] = 3 ∧ tally.distinct = 2 := by
  intro note s
  obtain ⟨-, notes, -, -, hnotes, htotal, hcount, hdistinct⟩ :=
    Transcriber.transcribe_counts_notes (t := Transcriber.new {}) (s := s) rfl
  have hsigns : s.places.mapM (Place.signs {}) = .ok [[.octave 4, .note .c .quarter],
      [.octave 4, .note .c .quarter], [.octave 4, .note .c .quarter], [.note .d .quarter]] := by
    decide +kernel
  obtain rfl := Except.ok.inj (hnotes.symm.trans hsigns)
  refine ⟨_, rfl, htotal, ?_, ?_⟩
  · rw [hcount]
    decide +kernel
  · rw [hdistinct]
    decide +kernel

end BrailleScore
