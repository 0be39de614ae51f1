import BrailleScore.Command
import BrailleScore.Proofs.FileEdits
import BrailleScore.Proofs.Loading
import BrailleScore.Proofs.OptionChoices
import BrailleScore.Proofs.Sessions
import BrailleScore.Yaml.Decoder

/-!
# Calls of the program

A call either fails and prints nothing, or it delivers the whole transcription of the files as they
were before the call: on the standard output, or as the content of one file. The last holds also
where the call writes to a file that it has read. A call that fails leaves all files as they are,
unless it finds no room in a file that it has opened. All this is said of any decoder of documents
and of any lawful file system.
-/

namespace BrailleScore

lemma Transcriber.answer_transcribe (options : Options) (s : Score) :
    ((new options).transcribe s).1 = (s.transcribe options).map Transcript.text := by
  rw [transcribe_eq_run (fits_new options), run]
  change _ = (s.transcribe (new options).options).map Transcript.text
  cases s.transcribe (new options).options <;> rfl

namespace Command

/-- The first argument asks for Braille ASCII. -/
def asksAscii (args : List String) : Bool := args.head? = some "--brf"

/-- The arguments that are names of files. -/
def fileNames (args : List String) : List String := if asksAscii args then args.tail else args

section Meaning

variable {State File : Type} (decoder : Decoder) (fs : FileSystem State File) (files : State)

/-- The document under the given path gives the options. Without a path they are as given when
nothing is chosen. -/
def Chooses (options : Options) : Option String → Prop
  | none => Options.Choices.Give {} options
  | some path => ∃ document choices, fs.read files path = .ok document ∧
      Options.Chosen decoder document choices ∧ choices.Give options

/-- The document under the given path is decoded as a draft without faults, which describes the
score. -/
def Tells (score : Score) (path : String) : Prop :=
  ∃ document draft, fs.read files path = .ok document ∧ decoder.timeline document = .ok draft ∧
    draft.faults = [] ∧ draft.Describes score

/-- The timeline and the options that the files hold are transcribed as the text. -/
def Transcribes (timeline : String) (choices : Option String) (text : List Char) : Prop :=
  ∃ score options, Tells decoder fs files score timeline ∧
    Chooses decoder fs files options choices ∧
      ((Transcriber.new options).transcribe score).1 = .ok text

/-- The text is shown as it is or in Braille ASCII. -/
def Shows (ascii : Bool) (text shown : List Char) : Prop :=
  if ascii then BrailleAscii.encode text = .ok shown else shown = text

/-- The arguments name one to three files, and what these hold is to be shown as the text. -/
def AsksFor (args : List String) (shown : List Char) : Prop :=
  (fileNames args).length ≤ 3 ∧ ∃ timeline text, (fileNames args)[0]? = some timeline ∧
    Transcribes decoder fs files timeline (fileNames args)[1]? text ∧
      Shows (asksAscii args) text shown

/-- The call prints a text and a line end, or it has the text for the whole content of its output
file and names this file. It leaves all other files as they were. -/
inductive Outcome.Delivers (shown : List Char) : Option String → Outcome State → Prop
  | printed : Delivers shown none { exit := 0, output := String.ofList shown ++ "\n", files }
  | saved {path : String} {file : File} {after : State}
    (h : fs.Replaced files path (String.ofList shown) file after) :
    Delivers shown (some path)
      { exit := 0, messages := "Wrote braille to " ++ path ++ "\n", files := after }

/-- The call prints nothing. No file changes but perhaps, for want of room in it, the file that it
was to write. -/
structure Outcome.Fails (target : Option String) (o : Outcome State) : Prop where
  exit : o.exit = 1
  output : o.output = ""
  spoilt : ∀ file, fs.content? o.files file ≠ fs.content? files file →
    ∃ path, target = some path ∧ fs.locate? o.files path = some file
  unchanged : fs.HasRoom → fs.Unchanged files o.files

end Meaning

/-! ### Arguments -/

lemma ofArgs?_eq (args : List String) :
    Invocation.ofArgs? args = Invocation.ofNames? (asksAscii args) (fileNames args) := by
  unfold Invocation.ofArgs?
  split
  · rfl
  case h_2 hnot =>
    have hascii : asksAscii args = false := by
      cases args with
      | nil => rfl
      | cons arg names =>
        have hne : arg ≠ "--brf" := by
          rintro rfl
          exact hnot names rfl
        simp [asksAscii, hne]
    simp [fileNames, hascii]

lemma ofNames?_eq_some {ascii : Bool} {names : List String} {i : Invocation} :
    Invocation.ofNames? ascii names = some i ↔ names.length ≤ 3 ∧ ascii = i.ascii ∧
      names[0]? = some i.timeline ∧ names[1]? = i.options ∧ names[2]? = i.output := by
  obtain ⟨ascii', timeline, options, output⟩ := i
  match names with
  | [] => simp [Invocation.ofNames?]
  | [_] => simp [Invocation.ofNames?]
  | [_, _] => simp [Invocation.ofNames?]
  | [_, _, _] => simp [Invocation.ofNames?]
  | _ :: _ :: _ :: _ :: _ => simp [Invocation.ofNames?]

/-! ### The text of a call -/

lemma mapError_eq_ok {ε ε' α : Type} {x : Except ε α} {f : ε → ε'} {a : α} :
    x.mapError f = .ok a ↔ x = .ok a := by
  cases x <;> simp [Except.mapError]

section Runs

variable {State File : Type} {decoder : Decoder} {fs : FileSystem State File} {files : State}
  {args : List String} {shown : List Char}

lemma content_eq_ok {read : String → Except String String} {path text : String} :
    content read path = .ok text ↔ read path = .ok text := by
  rw [content, mapError_eq_ok]

lemma tells_iff {score : Score} {path : String} : Tells decoder fs files score path ↔
    ∃ document, fs.read files path = .ok document ∧ Score.load decoder document = .ok score := by
  simp only [Tells, Score.load_eq_ok, exists_and_left]

lemma chooses_some_iff {options : Options} {path : String} :
    Chooses decoder fs files options (some path) ↔ ∃ document,
      fs.read files path = .ok document ∧ Options.load decoder document = .ok options := by
  simp only [Chooses, Options.load_eq_ok, exists_and_left]

lemma inputs_eq_ok {i : Invocation} {options : Options} {score : Score} :
    i.inputs decoder (fs.read files) = .ok (options, score) ↔
      Tells decoder fs files score i.timeline ∧ Chooses decoder fs files options i.options := by
  have hpure {o : Options} {s : Score} : (pure (o, s) : Except String (Options × Score)) =
      .ok (options, score) ↔ o = options ∧ s = score := by
    simp [pure, Except.pure]
  unfold Invocation.inputs
  rw [tells_iff]
  cases i.options with
  | none =>
    simp only [Fault.bind_eq_ok, content_eq_ok, mapError_eq_ok, hpure]
    constructor
    · rintro ⟨document, hdocument, _, ⟨⟩, _, hscore, rfl, rfl⟩
      exact ⟨⟨document, hdocument, hscore⟩, Options.Choices.give_default⟩
    · rintro ⟨⟨document, hdocument, hscore⟩, hoptions⟩
      exact ⟨document, hdocument, {}, rfl, score, hscore,
        Options.Choices.give_default.unique hoptions, rfl⟩
  | some path =>
    rw [chooses_some_iff]
    simp only [Fault.bind_eq_ok, content_eq_ok, mapError_eq_ok, hpure]
    constructor
    · rintro ⟨document, hdocument, text, htext, _, hoptions, _, hscore, rfl, rfl⟩
      exact ⟨⟨document, hdocument, hscore⟩, text, htext, hoptions⟩
    · rintro ⟨⟨document, hdocument, hscore⟩, text, htext, hoptions⟩
      exact ⟨document, hdocument, text, htext, options, hoptions, score, hscore, rfl, rfl⟩

/-- A call has the text that its files are transcribed as, in the form that it asks for. -/
theorem answer_eq_ok {i : Invocation} : i.answer decoder (fs.read files) = .ok shown ↔
    ∃ text, Transcribes decoder fs files i.timeline i.options text ∧ Shows i.ascii text shown := by
  have hform (options : Options) (score : Score) :
      (if i.ascii then score.transcribeAscii options
        else (score.transcribe options).map Transcript.text) = .ok shown ↔
      ∃ text, ((Transcriber.new options).transcribe score).1 = .ok text ∧
        Shows i.ascii text shown := by
    unfold Score.transcribeAscii Shows
    rw [Transcriber.answer_transcribe]
    cases score.transcribe options with
    | error f => cases i.ascii <;> simp [bind, Except.bind, Except.map]
    | ok transcript => cases i.ascii <;> simp [bind, Except.bind, Except.map, eq_comm]
  unfold Invocation.answer Transcribes
  simp only [Fault.bind_eq_ok, mapError_eq_ok, Prod.exists, inputs_eq_ok, hform]
  constructor
  · rintro ⟨options, score, ⟨hscore, hoptions⟩, text, htext, hshown⟩
    exact ⟨text, ⟨score, options, hscore, hoptions, htext⟩, hshown⟩
  · rintro ⟨text, ⟨score, options, hscore, hoptions, htext⟩, hshown⟩
    exact ⟨options, score, ⟨hscore, hoptions⟩, text, htext, hshown⟩

lemma asksFor_iff : AsksFor decoder fs files args shown ↔ ∃ i, Invocation.ofArgs? args = some i ∧
    i.output = (fileNames args)[2]? ∧ i.answer decoder (fs.read files) = .ok shown := by
  rw [ofArgs?_eq]
  constructor
  · rintro ⟨hlength, timeline, text, htimeline, htext, hshown⟩
    let i : Invocation := ⟨asksAscii args, timeline, (fileNames args)[1]?, (fileNames args)[2]?⟩
    have hi : Invocation.ofNames? (asksAscii args) (fileNames args) = some i :=
      ofNames?_eq_some.mpr ⟨hlength, rfl, htimeline, rfl, rfl⟩
    exact ⟨i, hi, rfl, answer_eq_ok.mpr ⟨text, htext, hshown⟩⟩
  · rintro ⟨i, hi, -, hanswer⟩
    obtain ⟨hlength, hascii, htimeline, hoptions, -⟩ := ofNames?_eq_some.mp hi
    obtain ⟨text, htext, hshown⟩ := answer_eq_ok.mp hanswer
    exact ⟨hlength, i.timeline, text, htimeline, hoptions ▸ htext, hascii ▸ hshown⟩

/-- The files hold what is transcribed in one way only. -/
lemma Transcribes.unique {timeline : String} {choices : Option String} {text text' : List Char}
    (h : Transcribes decoder fs files timeline choices text)
    (h' : Transcribes decoder fs files timeline choices text') : text = text' := by
  let i : Invocation := { ascii := false, timeline, options := choices }
  have hanswer {text : List Char} (h : Transcribes decoder fs files timeline choices text) :
      i.answer decoder (fs.read files) = .ok text := answer_eq_ok.mpr ⟨text, h, rfl⟩
  exact Except.ok.inj ((hanswer h).symm.trans (hanswer h'))

/-! ### The outcome of a call -/

lemma Outcome.fails_failure (target : Option String) (message : String) :
    (Outcome.failure files message).Fails fs files target :=
  ⟨rfl, rfl, fun _ h => absurd rfl h, fun _ _ => rfl⟩

lemma run_of_usage (hi : Invocation.ofArgs? args = none) :
    run decoder fs args files = .failure files usage := by
  simp only [run, hi]

lemma run_of_error {i : Invocation} {message : String} (hi : Invocation.ofArgs? args = some i)
    (h : i.answer decoder (fs.read files) = .error message) :
    run decoder fs args files = .failure files message := by
  simp only [run, hi, h]

lemma run_of_ok {i : Invocation} (hi : Invocation.ofArgs? args = some i)
    (h : i.answer decoder (fs.read files) = .ok shown) :
    run decoder fs args files = deliver fs files shown i.output := by
  simp only [run, hi, h]

lemma output_of_ofArgs? {i : Invocation} (hi : Invocation.ofArgs? args = some i) :
    i.output = (fileNames args)[2]? := by
  rw [ofArgs?_eq] at hi
  exact (ofNames?_eq_some.mp hi).2.2.2.2.symm

lemma deliver_cases (hfs : fs.Lawful) (files : State) (shown : List Char)
    (output : Option String) : (deliver fs files shown output).Fails fs files output ∨
      (deliver fs files shown output).Delivers fs files shown output := by
  cases output with
  | none => exact .inr .printed
  | some path =>
    simp only [deliver]
    rcases hwrite : fs.write files path (String.ofList shown) with ⟨reason | ⟨⟩, after⟩
    · exact .inl ⟨rfl, rfl, fun file hfile => ⟨path, rfl, hfs.spoilt hwrite hfile⟩,
        fun hroom => hfs.unchanged hroom hwrite⟩
    · obtain ⟨file, hfile⟩ := hfs.replaced hwrite
      exact .inr (.saved hfile)

lemma exit_deliver {output : Option String} : (deliver fs files shown output).exit = 0 ↔
    ∀ path, output = some path → fs.Takes files path (String.ofList shown) := by
  cases output with
  | none => simp [deliver]
  | some path =>
    simp only [deliver, Option.some.injEq, forall_eq', ← FileSystem.write_eq_ok]
    rcases fs.write files path (String.ofList shown) with ⟨reason | ⟨⟩, after⟩
    · simp [Outcome.failure]
    · simp

/-- A call fails, or it delivers what it asks for. -/
theorem run_cases (hfs : fs.Lawful) (args : List String) (files : State) :
    (run decoder fs args files).Fails fs files (fileNames args)[2]? ∨
      ∃ shown, AsksFor decoder fs files args shown ∧
        (run decoder fs args files).Delivers fs files shown (fileNames args)[2]? := by
  cases hi : Invocation.ofArgs? args with
  | none =>
    left
    rw [run_of_usage hi]
    exact Outcome.fails_failure _ usage
  | some i =>
    cases hanswer : i.answer decoder (fs.read files) with
    | error message =>
      left
      rw [run_of_error hi hanswer]
      exact Outcome.fails_failure _ message
    | ok shown =>
      have houtput := output_of_ofArgs? hi
      have hasks : AsksFor decoder fs files args shown :=
        asksFor_iff.mpr ⟨i, hi, houtput, hanswer⟩
      rw [run_of_ok hi hanswer, ← houtput]
      obtain hfails | hdelivers := deliver_cases hfs files shown i.output
      · exact .inl hfails
      · exact .inr ⟨shown, hasks, hdelivers⟩

lemma Outcome.Delivers.exit {o : Outcome State} {output : Option String}
    (h : o.Delivers fs files shown output) : o.exit = 0 := by
  cases h <;> rfl

lemma delivers_of_exit (hfs : fs.Lawful) (h : (run decoder fs args files).exit = 0) :
    ∃ shown, AsksFor decoder fs files args shown ∧
      (run decoder fs args files).Delivers fs files shown (fileNames args)[2]? := by
  obtain hfails | hdelivers := run_cases hfs args files
  · cases h.symm.trans hfails.exit
  · exact hdelivers

/-- A call succeeds when its files can be transcribed and its output file takes the text. -/
theorem exit_eq_zero_iff : (run decoder fs args files).exit = 0 ↔
    ∃ shown, AsksFor decoder fs files args shown ∧
      ∀ path, (fileNames args)[2]? = some path → fs.Takes files path (String.ofList shown) := by
  simp only [asksFor_iff]
  constructor
  · intro h
    cases hi : Invocation.ofArgs? args with
    | none =>
      rw [run_of_usage hi] at h
      cases h
    | some i =>
      cases hanswer : i.answer decoder (fs.read files) with
      | error message =>
        rw [run_of_error hi hanswer] at h
        cases h
      | ok shown =>
        have houtput := output_of_ofArgs? hi
        rw [run_of_ok hi hanswer, exit_deliver, houtput] at h
        exact ⟨shown, ⟨i, rfl, houtput, hanswer⟩, h⟩
  · rintro ⟨shown, ⟨i, hi, houtput, hanswer⟩, htakes⟩
    rw [run_of_ok hi hanswer, exit_deliver, houtput]
    exact htakes

end Runs

/-- A call fails, which changes no file if there is room for all texts, or it delivers the
transcription of the files as they were before it. It succeeds just if there is such a
transcription and its output file takes it. With the flag for Braille ASCII what is delivered is
the export of what is delivered without the flag. -/
theorem run_all_or_nothing {State File : Type} (decoder : Decoder) {fs : FileSystem State File}
    (hfs : fs.Lawful) (args : List String) (files : State) :
    ((run decoder fs args files).Fails fs files (fileNames args)[2]? ∨
      ∃ shown, AsksFor decoder fs files args shown ∧
        (run decoder fs args files).Delivers fs files shown (fileNames args)[2]?) ∧
    ((run decoder fs args files).exit = 0 ↔ ∃ shown, AsksFor decoder fs files args shown ∧
      ∀ path, (fileNames args)[2]? = some path → fs.Takes files path (String.ofList shown)) ∧
    (args.head? ≠ some "--brf" → (run decoder fs args files).exit = 0 →
      (run decoder fs ("--brf" :: args) files).exit = 0 → ∃ text ascii,
        BrailleAscii.encode text = .ok ascii ∧
          (run decoder fs args files).Delivers fs files text args[2]? ∧
            (run decoder fs ("--brf" :: args) files).Delivers fs files ascii args[2]?) := by
  refine ⟨run_cases hfs args files, exit_eq_zero_iff, fun hflag hplain hascii => ?_⟩
  have hno : asksAscii args = false := by simp [asksAscii, hflag]
  have hnames : fileNames args = args := by simp [fileNames, hno]
  obtain ⟨text, ⟨-, timeline, source, htimeline, hsource, hshows⟩, hdelivers⟩ :=
    delivers_of_exit hfs hplain
  obtain ⟨ascii, ⟨-, timeline', source', htimeline', hsource', hshows'⟩, hdelivers'⟩ :=
    delivers_of_exit hfs hascii
  rw [hnames] at htimeline hsource hdelivers
  rw [hno] at hshows
  obtain rfl : text = source := hshows
  obtain rfl := Option.some.inj (htimeline.symm.trans htimeline')
  obtain rfl := hsource.unique hsource'
  exact ⟨text, ascii, hshows', hdelivers, hdelivers'⟩

/-- A score with a part but no events. -/
def emptyPart : Files := Files.ofList [("p.yaml", "parts:\n  - name: P"), ("o.yaml", "")]

/-- Two calls write to their own timeline, under another name of it, and a third one finds none. -/
theorem run_emptyPart :
    Files.system.Lawful ∧ Files.system.HasRoom ∧
    (run Yaml.decoder Files.system ["p.yaml", "o.yaml", "./p.yaml"] emptyPart).exit = 0 ∧
    (run Yaml.decoder Files.system ["--brf", "p.yaml", "o.yaml", "./p.yaml"] emptyPart).exit = 0 ∧
    (∃ text ascii, BrailleAscii.encode text = .ok ascii ∧
      (run Yaml.decoder Files.system ["p.yaml", "o.yaml", "./p.yaml"] emptyPart).Delivers
        Files.system emptyPart text (some "./p.yaml") ∧
      (run Yaml.decoder Files.system ["--brf", "p.yaml", "o.yaml", "./p.yaml"] emptyPart).Delivers
        Files.system emptyPart ascii (some "./p.yaml")) ∧
    (run Yaml.decoder Files.system ["q.yaml", "o.yaml", "p.yaml"] emptyPart).exit = 1 ∧
    Files.system.Unchanged emptyPart
      (run Yaml.decoder Files.system ["q.yaml", "o.yaml", "p.yaml"] emptyPart).files := by
  have hplain :
      (run Yaml.decoder Files.system ["p.yaml", "o.yaml", "./p.yaml"] emptyPart).exit = 0 := by
    decide +kernel
  have hascii : (run Yaml.decoder Files.system ["--brf", "p.yaml", "o.yaml", "./p.yaml"]
      emptyPart).exit = 0 := by
    decide +kernel
  have hmissing :
      (run Yaml.decoder Files.system ["q.yaml", "o.yaml", "p.yaml"] emptyPart).exit = 1 := by
    decide +kernel
  refine ⟨Files.lawful_system, Files.hasRoom_system, hplain, hascii, ?_, hmissing, ?_⟩
  · exact (run_all_or_nothing Yaml.decoder Files.lawful_system ["p.yaml", "o.yaml", "./p.yaml"]
      emptyPart).2.2 (by decide) hplain hascii
  · obtain hfails | ⟨_, -, hdelivers⟩ := (run_all_or_nothing Yaml.decoder Files.lawful_system
      ["q.yaml", "o.yaml", "p.yaml"] emptyPart).1
    · exact hfails.unchanged Files.hasRoom_system
    · cases hmissing.symm.trans hdelivers.exit

/-- The text is the whole of the timeline afterwards. -/
example : run Yaml.decoder Files.system ["p.yaml", "o.yaml", "./p.yaml"] emptyPart =
    { exit := 0, messages := "Wrote braille to ./p.yaml\n"
      files := Files.ofList [("p.yaml", "P\n"), ("o.yaml", "")] } := by
  decide +kernel

/-- A path may go through folders around the one that it begins in. -/
example : (run Yaml.decoder Files.system ["../home/p.yaml", "/home/o.yaml", "/p.brl"] emptyPart).files
    = { emptyPart with entries := emptyPart.entries ++ [(["p.brl".toList], "P\n")] } := by
  decide +kernel

end Command

end BrailleScore
