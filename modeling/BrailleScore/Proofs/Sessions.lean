import BrailleScore.Proofs.PassOutcome

/-!
# One score after the other

A transcriber may transcribe many scores. Each run writes on the pages and counts in the tally that
the last run left, but of all this only the size of the page lives on: every run is like the first
one of a new transcriber, and a run that fails leaves as little as no run at all.
-/

namespace BrailleScore

namespace Transcriber

/-- Transcribes scores one after the other. Each answer comes with the transcriber as it is then. -/
def session (t : Transcriber) : List Score → List (Except Fault (List Char) × Transcriber)
  | [] => []
  | s :: rest =>
    let answer := t.transcribe s
    answer :: answer.2.session rest

/-- The pages have the size that the options ask for. -/
def Fits (t : Transcriber) : Prop := t.last.page.size = t.options.page

lemma fits_new (options : Options) : (new options).Fits := rfl

@[simp] lemma options_transcribe (t : Transcriber) (s : Score) :
    (t.transcribe s).2.options = t.options := by
  rw [transcribe, transcribeWith_eq]
  split <;> rfl

lemma size_pages (size : Options.PageSize) (pieces : List Layout.Piece) :
    (Layout.pages size pieces).size = size := by
  have hplace (p : Page) : (pieces.foldl Layout.place p).size = p.size := by
    induction pieces generalizing p with
    | nil => rfl
    | cons piece pieces ih => exact (ih _).trans (Pass.size_place p piece)
  exact hplace (Page.blank size)

lemma Fits.transcribe {t : Transcriber} (h : t.Fits) (s : Score) : (t.transcribe s).2.Fits := by
  unfold Fits at h ⊢
  rw [options_transcribe, ← h, Transcriber.transcribe, transcribeWith_eq]
  split
  · exact size_pages _ _
  · rfl

/-- What was transcribed before makes no difference to a run. -/
theorem Fits.transcribe_eq {t : Transcriber} (h : t.Fits) (s : Score) :
    t.transcribe s = (new t.options).transcribe s := by
  have hnew := fits_new t.options
  unfold Fits at h hnew
  rw [Transcriber.transcribe, Transcriber.transcribe, transcribeWith_eq, transcribeWith_eq, h, hnew]
  rfl

theorem Fits.session_eq {t : Transcriber} (h : t.Fits) (scores : List Score) :
    t.session scores = scores.map (new t.options).transcribe := by
  induction scores generalizing t with
  | nil => rfl
  | cons s scores ih =>
    have hrest := ih (h.transcribe s)
    rw [options_transcribe] at hrest
    rw [session, hrest, List.map_cons, h.transcribe_eq]

/-- A run that fails leaves an empty first page and nothing counted. -/
theorem last_of_transcribe_error {t : Transcriber} {s : Score} {f : Fault}
    (h : (t.transcribe s).1 = .error f) :
    (t.transcribe s).2.last = ⟨Page.blank t.last.page.size, {}⟩ := by
  rw [transcribe, transcribeWith_eq] at h ⊢
  split at h
  · cases h
  · rfl

/-- The runs of a session are those of new transcribers with the same options, and each run that
fails leaves no text, no counts and an empty first page. -/
theorem session_independent (options : Options) (scores : List Score) :
    (new options).session scores = scores.map (new options).transcribe ∧
      ∀ answer ∈ (new options).session scores, ∀ f, answer.1 = .error f →
        answer.2.last.text = [] ∧ answer.2.last.tally = {} ∧
          answer.2.last.page = Page.blank options.page := by
  have hsession := (fits_new options).session_eq scores
  refine ⟨hsession, fun answer hanswer f hf => ?_⟩
  rw [hsession] at hanswer
  obtain ⟨s, -, rfl⟩ := List.mem_map.mp hanswer
  rw [last_of_transcribe_error hf]
  exact ⟨rfl, rfl, rfl⟩

/-- A run that breaks off in the middle of a measure, between two that do not. -/
example :
    let note (octave : Int8) : Event :=
      .entry (.note { pitch := some ⟨.c, 0, octave⟩, duration := { base := .quarter } })
    let score (octaves : List Int8) : Score :=
      { parts := [{ events := .startBar 1 :: octaves.map note ++ [.endBar] }] }
    ((new {}).session [score [4], score [4, 9], score [5, 4]]).map
      (fun answer => (answer.1.toOption.isSome, answer.2.last.tally.total)) =
        [(true, 1), (false, 0), (true, 2)] := by
  decide +kernel

end Transcriber

end BrailleScore
