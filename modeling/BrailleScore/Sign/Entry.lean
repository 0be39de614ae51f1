import BrailleScore.Sign.Stream

/-!
The signs of one note or rest, in the order in which braille writes them: grace sign, ornaments,
articulations, accidental, octave mark, the cell of step and value (or of a rest), augmentation
dots, fingering, and a tie or else a slur.
-/

namespace BrailleScore

namespace Pitch

/-- An octave mark is written unless the pitch is less than a fourth away from the last one, or a
fourth or fifth away within the same octave. The first pitch is always marked. -/
def needsOctaveMark (p : Pitch) : Option Pitch → Bool
  | none => true
  | some last =>
    let d := p.distance last
    !(d < 5 || (5 ≤ d && d ≤ 7 && p.octave = last.octave))

/-- The octave mark, where one is needed. -/
def octaveMarks (p : Pitch) (last : Option Pitch) : Except Fault (List Sign) :=
  if p.needsOctaveMark last then do
    let mark ← Sign.octaveMark p.octave
    pure [mark]
  else .ok []

end Pitch

namespace Note

def leadingSigns (n : Note) : List Sign :=
  (if n.grace then [.grace] else []) ++ n.ornaments.map .ornament ++
    n.articulations.map .articulation ++ n.accidental.toList.map .accidental

/-- The cell of the note with its octave mark, or the cell of a rest for a note without pitch. -/
def bodySigns (n : Note) (last : Option Pitch) : Except Fault (List Sign) :=
  match n.sounding with
  | none => .ok [.rest n.duration.base]
  | some p => do
    let marks ← p.octaveMarks last
    pure (marks ++ [.note p.step n.duration.base])

def fingeringSigns (n : Note) (showFingering : Bool) : Except Fault (List Sign) :=
  if showFingering && !n.fingering.isEmpty then do
    let sign ← Sign.fingeringOf n.fingering
    pure [sign]
  else .ok []

/-- The tie, or else the slur, that leads to the next note. -/
def linkingSigns (n : Note) : List Sign :=
  if n.tieStart then [.tie] else if n.continuesSlur then [.slur] else []

/-- All signs of a note. `last` is the last pitch that sounded in the voice. -/
def signs (n : Note) (last : Option Pitch) (showFingering : Bool) : Except Fault (List Sign) := do
  let body ← n.bodySigns last
  let fingering ← n.fingeringSigns showFingering
  pure (n.leadingSigns ++ body ++ List.replicate n.duration.dots .dot ++ fingering ++
    n.linkingSigns)

end Note

def Rest.signs (r : Rest) : List Sign :=
  .rest r.duration.base :: List.replicate r.duration.dots .dot

end BrailleScore
