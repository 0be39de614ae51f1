import Mathlib.Data.List.Forall2
import Mathlib.Data.List.Nodup
import BrailleScore.Document.Draft
import BrailleScore.Proofs.DecimalDigits

/-!
# What a draft stands for

A draft describes a score: its words name the kinds of the score, its names are spelled out, and
where it has gaps the score has the defaults. No draft describes two scores.
-/

namespace BrailleScore

/-- The text is a word for `a`, white space around it aside. -/
def Vocabulary.Names {α : Type} (v : Vocabulary α) (text : String) (a : α) : Prop :=
  (Text.trim text, a) ∈ v.words

namespace Draft

/-- What is given stands for the value. Where nothing is given, the value is the default. -/
inductive Given {α β : Type} (Stands : α → β → Prop) (default : β) : Option α → β → Prop
  | given {a : α} {b : β} (h : Stands a b) : Given Stands default (some a) b
  | missing : Given Stands default none default

/-- A name is a text, or the decimal numeral of a number. -/
inductive Name.Spells : Name → String → Prop
  | text (s : String) : Spells (.text s) s
  | number (n : Int64) : Spells (.number n) (toString n.toInt)

structure Pitch.Describes (d : Pitch) (p : BrailleScore.Pitch) : Prop where
  step : Step.vocabulary.Names d.step p.step
  alter : p.alter = d.alter
  octave : p.octave = d.octave

/-- The pitch of a note has a step and an octave, or it has nothing at all. -/
def Note.DescribesPitch (d : Note) : Option BrailleScore.Pitch → Prop
  | none => d.step = none ∧ d.octave = none ∧ d.alter = none
  | some p => ∃ step octave, d.step = some step ∧ d.octave = some octave ∧
      Pitch.Describes ⟨step, d.alter.getD 0, octave⟩ p

structure Note.Describes (d : Note) (n : BrailleScore.Note) : Prop where
  pitch : d.DescribesPitch n.pitch
  display : Option.Rel Pitch.Describes d.display n.display
  tuplet : n.tuplet = d.tuplet
  value : NoteValue.vocabulary.Names d.value n.duration.base
  accidental : Option.Rel Accidental.vocabulary.Names d.accidental n.accidental
  ornaments : List.Forall₂ Ornament.vocabulary.Names d.ornaments n.ornaments
  articulations : List.Forall₂ Articulation.vocabulary.Names d.articulations n.articulations
  dots : n.duration.dots = d.dots
  tieStart : n.tieStart = d.tieStart
  slurs : n.slurs = d.slurs
  fingering : n.fingering = d.fingering
  grace : n.grace = d.grace
  tupletStarts : n.tupletStarts = d.tupletStarts
  staff : Given Name.Spells "1" d.staff n.staff
  voice : Given Name.Spells "1" d.voice n.voice

/-- Changes without an offset stand at the start. A change of key without a staff concerns all
staves, anything else without a staff or voice stands on the first. -/
inductive Event.Describes : Event → BrailleScore.Event → Prop
  | startBar (staves : Nat) : Describes (.startBar staves) (.startBar staves)
  | endBar : Describes .endBar .endBar
  | note {d : Note} {n : BrailleScore.Note} (h : d.Describes n) :
    Describes (.note d) (.entry (.note n))
  | rest {value : String} {base : NoteValue} {staff voice : Option Name} {onStaff inVoice : String}
    (hvalue : NoteValue.vocabulary.Names value base) (hstaff : Given Name.Spells "1" staff onStaff)
    (hvoice : Given Name.Spells "1" voice inVoice) (dots : Nat) :
    Describes (.rest value dots staff voice) (.entry (.rest ⟨⟨base, dots⟩, onStaff, inVoice⟩))
  | clef {offset : Option Offset} {since : Offset} {text : String} {sign : ClefSign}
    {staff : Option Name} {onStaff : String} (hoffset : Given Eq ⟨0, 1, by decide⟩ offset since)
    (hsign : ClefSign.vocabulary.Names text sign) (hstaff : Given Name.Spells "1" staff onStaff)
    (line : Nat) : Describes (.clef offset text line staff) (.clef since ⟨sign, line⟩ onStaff)
  | key {offset : Option Offset} {since : Offset} {staff : Option Name} {onStaff : Option String}
    (hoffset : Given Eq ⟨0, 1, by decide⟩ offset since)
    (hstaff : Option.Rel Name.Spells staff onStaff) (fifths : Int8) :
    Describes (.key offset fifths staff) (.key since ⟨fifths⟩ onStaff)

structure Part.Describes (d : Part) (p : BrailleScore.Part) : Prop where
  name : p.name = d.name
  tuplets : p.tuplets.toList = d.tuplets
  events : List.Forall₂ Event.Describes d.events p.events

structure Score.Describes (d : Score) (s : BrailleScore.Score) : Prop where
  title : s.title = d.title
  parts : List.Forall₂ Part.Describes d.parts s.parts

end Draft

/-! ### One score only -/

open Relator

/-- Words that occur once have one meaning. -/
lemma Vocabulary.rightUnique_names {α : Type} {v : Vocabulary α}
    (h : (v.words.map Prod.fst).Nodup) : RightUnique v.Names := by
  intro text a b ha hb
  have hpair : (Text.trim text, a) = (Text.trim text, b) :=
    List.inj_on_of_nodup_map h ha hb rfl
  exact (Prod.mk.inj hpair).2

lemma rightUnique_optionRel {α β : Type} {R : α → β → Prop} (h : RightUnique R) :
    RightUnique (Option.Rel R) := by
  intro a b c hb hc
  cases hb with
  | none =>
    cases hc
    rfl
  | some hb =>
    cases hc with
    | some hc => rw [h hb hc]

namespace Draft

lemma rightUnique_given {α β : Type} {R : α → β → Prop} {default : β} (h : RightUnique R) :
    RightUnique (Given R default) := by
  intro a b c hb hc
  cases hb with
  | missing =>
    cases hc
    rfl
  | given hb =>
    cases hc with
    | given hc => exact h hb hc

lemma Name.rightUnique_spells : RightUnique Spells := by
  intro name s t hs ht
  cases hs <;> cases ht <;> rfl

lemma Pitch.rightUnique_describes : RightUnique Describes := by
  intro d p q hp hq
  have hstep : p.step = q.step :=
    Vocabulary.rightUnique_names (v := Step.vocabulary) (by decide) hp.step hq.step
  have halter : p.alter = q.alter := hp.alter.trans hq.alter.symm
  have hoctave : p.octave = q.octave := hp.octave.trans hq.octave.symm
  cases p
  cases q
  congr

lemma Note.rightUnique_describesPitch : RightUnique DescribesPitch := by
  intro d p q hp hq
  cases p with
  | none =>
    obtain ⟨hstep, -, -⟩ := hp
    cases q with
    | none => rfl
    | some q =>
      obtain ⟨step, -, hstep', -⟩ := hq
      cases hstep.symm.trans hstep'
  | some p =>
    obtain ⟨step, octave, hstep, hoctave, hp⟩ := hp
    cases q with
    | none =>
      obtain ⟨hstep', -, -⟩ := hq
      cases hstep.symm.trans hstep'
    | some q =>
      obtain ⟨step', octave', hstep', hoctave', hq⟩ := hq
      obtain rfl := Option.some.inj (hstep.symm.trans hstep')
      obtain rfl := Option.some.inj (hoctave.symm.trans hoctave')
      rw [Pitch.rightUnique_describes hp hq]

lemma Note.rightUnique_describes : RightUnique Describes := by
  intro d n m hn hm
  have hpitch := rightUnique_describesPitch hn.pitch hm.pitch
  have hdisplay := rightUnique_optionRel Pitch.rightUnique_describes hn.display hm.display
  have hbase : n.duration.base = m.duration.base :=
    Vocabulary.rightUnique_names (v := NoteValue.vocabulary) (by decide) hn.value hm.value
  have haccidental := rightUnique_optionRel
    (Vocabulary.rightUnique_names (v := Accidental.vocabulary) (by decide))
    hn.accidental hm.accidental
  have hornaments := (Vocabulary.rightUnique_names (v := Ornament.vocabulary)
    (by decide)).forall₂ hn.ornaments hm.ornaments
  have harticulations := (Vocabulary.rightUnique_names (v := Articulation.vocabulary)
    (by decide)).forall₂ hn.articulations hm.articulations
  have hstaff := rightUnique_given Name.rightUnique_spells hn.staff hm.staff
  have hvoice := rightUnique_given Name.rightUnique_spells hn.voice hm.voice
  have hdots := hn.dots.trans hm.dots.symm
  have htuplet := hn.tuplet.trans hm.tuplet.symm
  have htieStart := hn.tieStart.trans hm.tieStart.symm
  have hslurs := hn.slurs.trans hm.slurs.symm
  have hfingering := hn.fingering.trans hm.fingering.symm
  have hgrace := hn.grace.trans hm.grace.symm
  have hstarts := hn.tupletStarts.trans hm.tupletStarts.symm
  obtain ⟨_, _, ⟨_, _⟩, _⟩ := n
  obtain ⟨_, _, ⟨_, _⟩, _⟩ := m
  congr

lemma Event.rightUnique_describes : RightUnique Describes := by
  intro d e f he hf
  have hoffset : RightUnique (Given (Eq (α := Offset)) ⟨0, 1, by decide⟩) :=
    rightUnique_given fun _ _ _ h h' => h.symm.trans h'
  have hname : RightUnique (Given Name.Spells "1") := rightUnique_given Name.rightUnique_spells
  cases he with
  | startBar =>
    cases hf
    rfl
  | endBar =>
    cases hf
    rfl
  | note hn =>
    cases hf with
    | note hm => rw [Note.rightUnique_describes hn hm]
  | rest hvalue hstaff hvoice =>
    cases hf with
    | rest hvalue' hstaff' hvoice' =>
      rw [Vocabulary.rightUnique_names (by decide) hvalue hvalue', hname hstaff hstaff',
        hname hvoice hvoice']
  | clef hsince hsign hstaff =>
    cases hf with
    | clef hsince' hsign' hstaff' =>
      rw [hoffset hsince hsince', Vocabulary.rightUnique_names (by decide) hsign hsign',
        hname hstaff hstaff']
  | key hsince hstaff =>
    cases hf with
    | key hsince' hstaff' =>
      rw [hoffset hsince hsince', rightUnique_optionRel Name.rightUnique_spells hstaff hstaff']

lemma Part.rightUnique_describes : RightUnique Describes := by
  intro d p q hp hq
  have hname := hp.name.trans hq.name.symm
  have htuplets : p.tuplets.latestFirst = q.tuplets.latestFirst :=
    List.reverse_injective (hp.tuplets.trans hq.tuplets.symm)
  have hevents := Event.rightUnique_describes.forall₂ hp.events hq.events
  obtain ⟨_, ⟨_⟩, _⟩ := p
  obtain ⟨_, ⟨_⟩, _⟩ := q
  congr

/-- A draft describes at most one score. -/
theorem Score.rightUnique_describes : RightUnique Describes := by
  intro d s t hs ht
  have htitle := hs.title.trans ht.title.symm
  have hparts := Part.rightUnique_describes.forall₂ hs.parts ht.parts
  cases s
  cases t
  congr

end Draft

end BrailleScore
