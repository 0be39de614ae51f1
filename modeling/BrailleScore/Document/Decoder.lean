import BrailleScore.Document.Draft
import BrailleScore.Options

/-!
Documents are decoded by rules of their own, which are left open here. What has been decoded is
resolved.
-/

namespace BrailleScore

/-- What documents stand for, or why they stand for nothing. -/
structure Decoder where
  timeline : String → Except String Draft.Score
  options : String → Except String Options.Choices

/-- The score of a timeline document. What is wrong with the document itself is found before any
word in it is looked up. -/
def Score.load (decoder : Decoder) (text : String) : Except Fault Score :=
  match decoder.timeline text with
  | .error reason => Fault.raise (.unreadableTimeline reason)
  | .ok draft => draft.resolve

/-- The options of a document. White space alone is not decoded, it makes no choices. -/
def Options.load (decoder : Decoder) (text : String) : Except Fault Options :=
  if Text.isBlankText text then .ok {}
  else match decoder.options text with
    | .error reason => Fault.raise (.unreadableOptions reason)
    | .ok choices => ofChoices choices

end BrailleScore
