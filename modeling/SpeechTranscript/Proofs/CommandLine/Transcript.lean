import SpeechTranscript.Proofs.CommandLine.Format
import SpeechTranscript.Proofs.Transcription.Course

/-!
# What the program makes of its input

The transcript an invocation asks for is there only if every check passes on the way: the request
makes sense, the input is read and parsed, the transcription of what is in it is completed and
passes the check of quality if one is asked for, and the session is exported.

* `Accepted`, `accepted_iff`: a request that passes, and what is to be done for it.
* `Transcribed`, `transcribed_iff`: the transcript of an accepted request, as the program
  renders it.
-/

namespace SpeechTranscript

/-! ## Requests -/

namespace Invocation

/-- The options an invocation chooses. -/
def options (i : Invocation) (recording : Option Duration) : Options where
  recording
  model := i.model
  mergeAdjacent := !i.noMerge
  mergeGap := i.mergeGap
  skipOverlapping := i.skipOverlapping
  parameters := .ofList i.parameters

/-- A request that makes sense, and what is to be done for it. -/
structure Accepted (i : Invocation) (t : FileTree) (job : Job) : Prop where
  input_there : t.has i.input
  mergeGap : i.mergeGap.isFinite ∧ 0 ≤ i.mergeGap
  positive : ∀ seconds ∈ i.recording, seconds.isFinite ∧ 0 < seconds
  format : i.AsksFor job.format
  language : Language.Names (Text.trim i.language.toList) job.language
  /-- The length of the recording is the number of seconds given, and there is none without it. -/
  recording : job.options.recording.map (·.seconds) = i.recording
  options : job.options = i.options job.options.recording

/-- The numbers given make sense and the input is there exactly if nothing is found wrong. -/
theorem check_eq_ok_iff {i : Invocation} {there : Bool} :
    i.check there = .ok () ↔ there ∧ (i.mergeGap.isFinite ∧ 0 ≤ i.mergeGap) ∧
      ∀ seconds ∈ i.recording, seconds.isFinite ∧ 0 < seconds := by
  unfold check
  cases there with
  | false => simp
  | true =>
    by_cases hgap : i.mergeGap.isFinite ∧ 0 ≤ i.mergeGap
    · cases hrecording : i.recording <;> simp [hgap]
    · -- a gap that makes no sense is refused whatever recording is given
      have hbad : (i.mergeGap.isFinite && decide (0 ≤ i.mergeGap)) = false := by
        rw [Bool.eq_false_iff]
        exact fun h => hgap (by simpa using h)
      rw [hbad]
      exact ⟨nofun, fun h => absurd h.2.1 hgap⟩

/-- The length of a recording is the given number of seconds, which has to be one of a duration. -/
theorem recording?_eq_ok_iff {i : Invocation} {recording : Option Duration} :
    i.recording? = .ok recording ↔ recording.map (·.seconds) = i.recording := by
  unfold recording?
  cases i.recording with
  | none => rw [Option.map_eq_none_iff, Except.ok.injEq, eq_comm]
  | some seconds =>
    rw [Option.map_eq_some_iff]
    simp only [← Duration.ofSeconds_eq_ok_iff]
    cases Duration.ofSeconds seconds with
    | error cause => simp [Except.map]
    | ok given => simp [Except.map, eq_comm]

/-- The job made of an invocation has the format asked for, the language named and the options
chosen, and there is none if one of them makes no sense. -/
theorem prepare_eq_ok_iff {i : Invocation} {job : Job} :
    i.prepare = .ok job ↔ i.AsksFor job.format ∧
      Language.Names (Text.trim i.language.toList) job.language ∧
      job.options.recording.map (·.seconds) = i.recording ∧
      job.options = i.options job.options.recording := by
  rw [← chooseFormat_eq_ok_iff, ← Language.ofCode_eq_ok_iff, ← recording?_eq_ok_iff]
  unfold prepare
  -- the three readers run one after another, and any of them can refuse
  cases hformat : chooseFormat i.format i.output with
  | error refusal => exact ⟨nofun, nofun⟩
  | ok format =>
    cases hlanguage : Language.ofCode i.language with
    | error cause => exact ⟨nofun, nofun⟩
    | ok language =>
      cases hrecording : i.recording? with
      | error cause => exact ⟨nofun, nofun⟩
      | ok recording =>
        constructor
        · intro h
          cases h
          exact ⟨rfl, rfl, rfl, rfl⟩
        · -- a job is no more than what the three have given
          rintro ⟨hf, hl, hr, ho⟩
          obtain ⟨format', language', options⟩ := job
          cases hf
          cases hl
          dsimp only at hr ho
          cases hr
          rw [ho]
          rfl

/-- A request is accepted exactly if the checks pass and a job is made of it. -/
theorem accepted_iff {i : Invocation} {t : FileTree} {job : Job} :
    (do i.check (t.has i.input); i.prepare) = .ok job ↔ i.Accepted t job := by
  constructor
  · intro h
    cases hcheck : i.check (t.has i.input) with
    | error fault =>
      rw [hcheck] at h
      cases h
    | ok =>
      rw [hcheck] at h
      obtain ⟨hthere, hgap, hpositive⟩ := check_eq_ok_iff.1 hcheck
      obtain ⟨hformat, hlanguage, hrecording, hoptions⟩ := prepare_eq_ok_iff.1 h
      exact ⟨hthere, hgap, hpositive, hformat, hlanguage, hrecording, hoptions⟩
  · intro h
    rw [check_eq_ok_iff.2 ⟨h.input_there, h.mergeGap, h.positive⟩]
    exact prepare_eq_ok_iff.2 ⟨h.format, h.language, h.recording, h.options⟩

end Invocation

/-! ## What is in the input -/

/-- Bytes are a text exactly if they are the bytes of that text. -/
theorem fromUTF8?_eq_some_iff {bytes : ByteArray} {text : String} :
    String.fromUTF8? bytes = some text ↔ bytes = text.toUTF8 := by
  unfold String.fromUTF8?
  constructor
  · intro h
    split at h
    · cases h
      rfl
    · cases h
  · rintro rfl
    exact dif_pos text.isValidUTF8

/-- The text of a file is read exactly if its bytes are those of a text. -/
theorem SegmentFile.textOf_eq_ok_iff {content : Except String ByteArray} {text : String} :
    textOf content = .ok text ↔ content = .ok text.toUTF8 := by
  unfold textOf
  rw [bind_eq_ok_iff]
  constructor
  · rintro ⟨bytes, rfl, h⟩
    split at h
    · rename_i found hfound
      cases h
      rw [fromUTF8?_eq_some_iff.1 hfound]
    · cases h
  · rintro rfl
    exact ⟨_, rfl, by rw [fromUTF8?_eq_some_iff.2 rfl]; rfl⟩

/-- The utterances of a file are those that its bytes list, read as a text. -/
theorem SegmentFile.utterances_eq_ok_iff {path : String} {content : Except String ByteArray}
    {utterances : List Utterance} : SegmentFile.utterances path content = .ok utterances ↔
      ∃ text : String, content = .ok text.toUTF8 ∧ Dump.read text.toList = .ok utterances := by
  simp only [← textOf_eq_ok_iff]
  unfold SegmentFile.utterances
  cases textOf content with
  | error cause => simp
  | ok text =>
    show (Dump.read text.toList).mapError _ = _ ↔ _
    cases hread : Dump.read text.toList <;> simp [Except.mapError, hread]

/-! ## Transcripts -/

/-- The transcription of utterances that a job asks for. -/
def Job.transcription (job : Job) (id audioId : String) (started finished : Instant)
    (source : Except String (List Utterance)) : Outcome :=
  Transcription.execute job.options source (fun _ => true) started finished
    (job.options.newSession id audioId job.language)

namespace Invocation

/-- What has to go well for a transcript: the request is accepted, the input is read and parsed, the
transcription of what is in it is completed and passes the check if one is asked for, and the
session is exported. -/
structure Succeeds (i : Invocation) (t : FileTree) (job : Job) (utterances : List Utterance)
    (outcome : Outcome) (transcript : String) : Prop where
  accepted : i.Accepted t job
  parsed : ∃ text : String, t.read i.input = .ok text.toUTF8 ∧
    Dump.read text.toList = .ok utterances
  result : outcome.result = .ok .completed
  completed : outcome.course.session.status = .completed
  quality : i.requireQuality → outcome.course.session.passesQuality
  exported : outcome.course.session.exportAs job.format (some .standard) = .ok transcript

/-- The transcript that an invocation asks for, of a session with this name and these times. -/
def Transcribed (i : Invocation) (t : FileTree) (id : String) (started finished : Instant)
    (transcript : String) : Prop :=
  ∃ job utterances, i.Succeeds t job utterances
    (job.transcription id (audioIdOf i.input) started finished (.ok utterances)) transcript

section Transcripts

variable {i : Invocation} {t : FileTree} {job : Job} {outcome : Outcome} {transcript id : String}
  {started finished : Instant} {content : Except String ByteArray}

/-- A transcript is rendered exactly if the transcription was completed, passes the check if one is
asked for, and is exported. -/
theorem render_eq_ok_iff : i.render job outcome = .ok transcript ↔
    outcome.result = .ok .completed ∧
      (i.requireQuality → outcome.course.session.passesQuality) ∧
      outcome.course.session.exportAs job.format (some .standard) = .ok transcript := by
  unfold render
  cases outcome.result with
  | error failure => exact ⟨nofun, nofun⟩
  | ok status =>
    show (if status ≠ .completed then _ else if _ then _ else _) = Except.ok transcript ↔ _
    by_cases hstatus : status = .completed
    · rw [if_neg (not_not.2 hstatus), hstatus]
      -- the check refuses a session only if it is asked for and does not pass
      have hrefuses : (i.requireQuality && !outcome.course.session.passesQuality) = true ↔
          ¬(i.requireQuality → outcome.course.session.passesQuality) := by
        simp
      split
      · rename_i hquality
        exact ⟨nofun, fun h => absurd h.2.1 (hrefuses.1 hquality)⟩
      · rename_i hquality
        have hquality := not_not.1 fun h => hquality (hrefuses.2 h)
        cases outcome.course.session.exportAs job.format (some .standard) with
        | error refusal => exact ⟨nofun, nofun⟩
        | ok text =>
          constructor
          · intro h
            cases h
            exact ⟨rfl, hquality, rfl⟩
          · rintro ⟨-, -, htext⟩
            cases htext
            rfl
    · rw [if_pos hstatus]
      exact ⟨nofun, fun h => absurd (Except.ok.inj h.1) hstatus⟩

/-- The transcript of an accepted request is what the program renders. -/
theorem transcribed_iff (haccepted : i.Accepted t job)
    (hread : content.toOption = (t.read i.input).toOption) :
    i.Transcribed t id started finished transcript ↔
      i.render job (job.transcription id (audioIdOf i.input) started finished
        (SegmentFile.utterances i.input content)) = .ok transcript := by
  -- the host and the tree agree on what can be read, but not on why something can not
  have hcontent (bytes : ByteArray) : content = .ok bytes ↔ t.read i.input = .ok bytes := by
    cases content <;> cases hfile : t.read i.input <;> rw [hfile] at hread <;>
      simp_all [Except.toOption]
  rw [render_eq_ok_iff]
  constructor
  · rintro ⟨job', utterances, h⟩
    -- an invocation asks for one job only
    obtain rfl : job' = job :=
      Except.ok.inj ((accepted_iff.2 h.accepted).symm.trans (accepted_iff.2 haccepted))
    obtain ⟨text, hbytes, hparsed⟩ := h.parsed
    rw [SegmentFile.utterances_eq_ok_iff.2 ⟨text, (hcontent _).2 hbytes, hparsed⟩]
    exact ⟨h.result, h.quality, h.exported⟩
  · rintro ⟨hresult, hquality, hexported⟩
    -- a transcription without utterances does not end well
    obtain ⟨hcompleted, utterances, hsource⟩ := Transcription.status_of_execute hresult
    obtain ⟨text, hbytes, hparsed⟩ := SegmentFile.utterances_eq_ok_iff.1 hsource
    rw [hsource] at hresult hquality hexported hcompleted
    exact ⟨job, utterances, haccepted, ⟨text, (hcontent _).1 hbytes, hparsed⟩, hresult, hcompleted,
      hquality, hexported⟩

end Transcripts

end Invocation

end SpeechTranscript
