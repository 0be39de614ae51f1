import BrailleScore.Proofs.PlacedScript

/-!
# Each place is written once

The notes and rests of a score are those in front of the last end bar of a segment that declares
staves. In the script that a scribe writes, each of them has its items at one place of one voice,
behind those of the notes and rests before it in that voice.
-/

namespace BrailleScore

open Fault

/-! ### The notes and rests of a score -/

/-- The notes and rests that are written. Segments without staves are skipped. -/
def Segment.rendered (s : Segment) : List Place := if 1 ≤ s.staffCount then s.places else []

/-- The notes and rests in front of the last end bars of the segments that have staves. -/
def Part.places (p : Part) : List Place :=
  match Segment.cut p.events with
  | .ok segments => segments.flatMap Segment.rendered
  | .error _ => []

def Score.places (s : Score) : List Place := s.parts.flatMap Part.places

/-! ### Written voice by voice -/

/-- The voice consists of the items that the scribe writes for each of the places in turn. -/
def VoiceWrittenBy (scribe : Scribe) (ps : List Place) (v : Script.Voice) : Prop :=
  ∃ items, List.Forall₂ (fun p items => scribe p.last p.entry = .ok items) ps items ∧
    items.flatten = v

/-- The segment is written as `w`: each of its notes and rests stands at one place of one voice of
one measure of one staff, and voices keep the order of time. -/
structure Segment.WrittenBy (scribe : Scribe) (s : Segment) (w : Script.Segment) : Prop where
  voices : List.Forall₂ (List.Forall₂ (List.Forall₂ (VoiceWrittenBy scribe))) s.arrangement w
  once : s.written.Perm s.rendered
  distinct : s.rendered.Nodup
  order : ∀ voice ∈ s.arrangement.flatten.flatten, voice.Sublist s.places

structure Part.WrittenBy (scribe : Tuplet.Table → Scribe) (p : Part) (w : Script.Part) :
    Prop where
  name : w.name = p.name
  segments : ∃ segments, Segment.cut p.events = .ok segments ∧
    List.Forall₂ (Segment.WrittenBy (scribe p.tuplets)) segments w.segments

variable {scribe : Scribe}

lemma voiceScript_eq_ok {ps : List Place} {v : Script.Voice} :
    voiceScript scribe ps = .ok v ↔ VoiceWrittenBy scribe ps v := by
  simp only [voiceScript, map_eq_bind, bind_eq_ok, mapM_eq_ok, pure_eq_ok, VoiceWrittenBy]

lemma staffScript_eq_ok {measures : List (List (List Place))} {w : Script.Staff} :
    staffScript scribe measures = .ok w ↔
      List.Forall₂ (List.Forall₂ (VoiceWrittenBy scribe)) measures w := by
  simp only [staffScript, each_eq_ok, mapM_eq_ok, voiceScript_eq_ok]

theorem Segment.writtenBy {s : Segment} {w : Script.Segment} (h : s.placedScript scribe = .ok w) :
    s.WrittenBy scribe w := by
  obtain ⟨staves, hstaves, hscript⟩ := bind_eq_ok.mp h
  refine ⟨(mapM_eq_ok.mp hscript).imp fun _ _ => staffScript_eq_ok.mp, ?_, ?_,
    fun _ => sublist_of_mem_arrangement⟩
  · unfold rendered
    obtain ⟨hcount, -⟩ | ⟨hcount, hlength, -⟩ := staves_eq_ok.mp hstaves
    · simp [written, arrangement, hcount]
    · rw [if_pos (Nat.one_le_iff_ne_zero.mpr hcount)]
      exact written_perm_places hlength
  · unfold rendered
    split
    · exact nodup_places
    · exact List.nodup_nil

theorem Part.writtenBy {scribe : Tuplet.Table → Scribe} {p : Part} {w : Script.Part}
    (h : p.placedScript scribe = .ok w) : p.WrittenBy scribe w := by
  simp only [placedScript, bind_eq_ok, pure_eq_ok] at h
  obtain ⟨segments, hcut, scripts, hscripts, rfl⟩ := h
  exact ⟨rfl, segments, hcut, (mapM_eq_ok.mp (each_eq_ok.mp hscripts)).imp fun _ _ =>
    Segment.writtenBy⟩

/-- A script holds what the scribe writes, part by part. -/
theorem Score.writtenBy {scribe : Tuplet.Table → Scribe} {s : Score} {script : Script}
    (h : s.placedScript scribe = .ok script) :
    List.Forall₂ (Part.WrittenBy scribe) s.parts script :=
  (mapM_eq_ok.mp (each_eq_ok.mp h)).imp fun _ _ => Part.writtenBy

end BrailleScore
