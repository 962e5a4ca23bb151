import SpeechTranscript.Export.Basic
import SpeechTranscript.Proofs.Json.Told
import SpeechTranscript.Proofs.Recognition.Layouts
import SpeechTranscript.Proofs.Session.Scores

/-!
# The JSON export read back

The JSON export goes from a document to a text on one line, back to a document, and from there to a
text over several lines, which is read once more: as a document, or as a dump of recognizer output.
The document is in canonical form from the start; every string is escaped and every finite number
written so that it is read back as it was; and the score over all segments and the times of a
completed session are finite. The score of a segment may be no number, and is then written as
`null`. Such an export is still read as a document, but it lists no utterances.

* `fits_told_document`, `ordered_document`: what is told of the document can be written, and has its
  members in order.
* `exported_documentText`: what the text of a document is read as.
* `readsBack_run_iff`: what the export of a completed session is read as.
-/

namespace SpeechTranscript

/-! ## The standard encoder -/

namespace Encoder

theorem standard_compact (value : Json) :
    standard.compact value = some value.canonical.compact := rfl

/-- To spread a text it reads the text and writes what it has read. -/
theorem standard_pretty (text : String) (indent : ℕ) :
    standard.pretty text indent = (reformat text indent).toOption := rfl

end Encoder

/-! ## Looking into a document -/

namespace Json

/-- The value at the end of a path of names. -/
def at? (value : Json) : List String → Option Json
  | [] => some value
  | name :: path =>
    match value with
    | .object members => (members.find? (·.1 == name)).bind (·.2.at? path)
    | _ => none

end Json

/-- A text of a value is read as the utterances that the value lists. -/
theorem Dump.read_form {value : Json} {text : List Char} (hfits : Json.Fits Json.deepest value)
    (h : Json.Form value text) : read text =
      match ofJson? value with
      | none => .error .shape
      | some utterances => .ok utterances := by
  rw [read, Json.readFirst_form hfits h]
  simp only [Except.mapError, bind, Except.bind]
  cases ofJson? value <;> rfl

/-! ## Segments -/

namespace Segment

variable (segment : Segment)

/-- What a recognizer would have said of a segment, without speaker, language and number. -/
def toUtterance : Utterance where
  start := segment.start.seconds
  stop := segment.stop.seconds
  text := segment.text.content
  confidence := segment.confidence.value
  speaker := none
  language := none
  sequence := none

/-- A segment is built with its names in order. -/
theorem canonical_toJson : segment.toJson.canonical = segment.toJson := by
  refine Json.canonical_object ?_ ?_
  · show ["confidence", "end", "start", "text"].Pairwise (· < ·)
    decide +kernel
  · intro member hmember
    simp only [List.mem_cons, List.not_mem_nil, or_false] at hmember
    rcases hmember with rfl | rfl | rfl | rfl <;> rfl

/-- What is told of a segment: the score is left out if it is not finite. -/
theorem told_toJson : segment.toJson.told = .object [
    ("confidence", .told (.float segment.confidence.value)),
    ("end", .float segment.stop.seconds),
    ("start", .float segment.start.seconds),
    ("text", .string segment.text.content)] := by
  simp only [toJson, Json.told, Json.toldMembers, segment.start.isFinite, segment.stop.isFinite,
    if_true]

/-- What is told of a segment has one level, and no number in it that has no text. -/
theorem fits_told_toJson (depth : ℕ) : Json.Fits (depth + 1) segment.toJson.told := by
  rw [told_toJson, Json.Fits]
  simp only [List.forall_mem_cons, Json.Fits, Json.fits_told_float, segment.start.isFinite,
    segment.stop.isFinite, true_and]
  exact List.forall_mem_nil _

/-- A segment with a finite score is read as the utterance it would have come from. -/
theorem ofJson?_told_toJson (h : segment.confidence.value.isFinite = true) :
    Utterance.ofJson? segment.toJson.told = some segment.toUtterance := by
  rw [told_toJson, Json.told_float_of_finite h]
  simp [Utterance.ofJson?, Utterance.ofFields?, Utterance.fieldNames, Field.named,
    Field.required?, Field.optional?, Json.toFloat?, Json.toString?, toUtterance]

/-- A segment without a finite score is read as nothing: `null` is no number, and the score may be
missing, but not `null`. -/
theorem ofJson?_told_toJson_of_not_finite (h : ¬segment.confidence.value.isFinite = true) :
    Utterance.ofJson? segment.toJson.told = none := by
  rw [told_toJson, Json.told_float_of_not_finite h]
  simp [Utterance.ofJson?, Utterance.ofFields?, Utterance.fieldNames, Field.named,
    Field.required?, Field.optional?, Json.toFloat?, Json.toString?]

end Segment

namespace Timeline

/-- A timeline of segments whose scores are finite numbers. -/
def FiniteScores (timeline : Timeline) : Prop :=
  ∀ segment ∈ timeline, segment.confidence.value.isFinite = true

/-- Of what operations on scores can give, the finite numbers are the proper scores. -/
theorem finiteScores_iff {timeline : Timeline}
    (h : ∀ segment ∈ timeline, segment.confidence.Possible) :
    timeline.FiniteScores ↔ timeline.Scored := by
  refine forall₂_congr fun segment hsegment => ⟨fun hfinite => ?_, fun hproper => hproper.isFinite⟩
  refine (h segment hsegment).resolve_right fun hnumber => ?_
  rw [Double.not_isNaN_of_isFinite hfinite] at hnumber
  contradiction

/-- A list of segments with finite scores is read as what a recognizer would have said of them. -/
theorem listOfJson?_told {timeline : Timeline} (h : timeline.FiniteScores) :
    Utterance.listOfJson? (.array (timeline.map (·.toJson.told))) =
      some (timeline.map (·.toUtterance)) := by
  show (timeline.map (·.toJson.told)).mapM Utterance.ofJson? = _
  induction timeline with
  | nil => rfl
  | cons segment rest ih =>
    obtain ⟨hsegment, hrest⟩ := List.forall_mem_cons.1 h
    rw [List.map_cons, List.mapM_cons, segment.ofJson?_told_toJson hsegment, ih hrest]
    rfl

/-- One score that is not finite is enough for nothing to be listed. -/
theorem listOfJson?_told_of_not_finite {timeline : Timeline} (h : ¬timeline.FiniteScores) :
    Utterance.listOfJson? (.array (timeline.map (·.toJson.told))) = none := by
  refine Option.eq_none_iff_forall_not_mem.2 fun utterances hlisted => h fun segment hsegment => ?_
  by_contra hscore
  obtain ⟨utterance, hutterance⟩ :=
    exists_mapM_eq_some_iff.1 ⟨utterances, hlisted⟩ _ (List.mem_map_of_mem hsegment)
  rw [segment.ofJson?_told_toJson_of_not_finite hscore] at hutterance
  cases hutterance

end Timeline

/-! ## The document -/

namespace Session

section Document

variable (s : Session)

theorem canonical_knownOrNull (x : Option Float) : (knownOrNull x).canonical = knownOrNull x := by
  cases x <;> rfl

/-- The metadata are built with their names in order. -/
theorem canonical_metadata : s.metadata.canonical = s.metadata := by
  refine Json.canonical_object ?_ ?_
  · show ["model_version", "processed_at", "processing_duration_seconds"].Pairwise (· < ·)
    decide +kernel
  · intro member hmember
    simp only [List.mem_cons, List.not_mem_nil, or_false] at hmember
    rcases hmember with rfl | rfl | rfl
    · rfl
    · exact canonical_knownOrNull _
    · exact canonical_knownOrNull _

/-- The document is built in canonical form. -/
theorem canonical_document : s.document.canonical = s.document := by
  refine Json.canonical_object ?_ ?_
  · show ["full_text", "language", "metadata", "overall_confidence", "segments",
      "transcription_id"].Pairwise (· < ·)
    decide +kernel
  · intro member hmember
    simp only [List.mem_cons, List.not_mem_nil, or_false] at hmember
    rcases hmember with rfl | rfl | rfl | rfl | rfl | rfl
    · rfl
    · rfl
    · exact canonical_metadata s
    · rfl
    · refine Json.canonical_array fun item hitem => ?_
      obtain ⟨segment, -, rfl⟩ := List.mem_map.1 hitem
      exact segment.canonical_toJson
    · rfl

theorem ordered_document : Json.Ordered s.document :=
  canonical_document s ▸ Json.ordered_canonical s.document

/-- What is told of the document. The score over all segments is always a number. -/
theorem told_document (hconfidence : s.confidence.Proper) : s.document.told = .object [
    ("full_text", .string ((s.finalText.map (·.content)).getD "")),
    ("language", .string s.language.code),
    ("metadata", s.metadata.told),
    ("overall_confidence", .float s.confidence.value),
    ("segments", .array (s.segments.map (·.toJson.told))),
    ("transcription_id", .string s.id)] := by
  simp only [document, Json.told, Json.toldMembers, Json.toldItems_eq_map, hconfidence.isFinite,
    if_true, List.map_map]
  rfl

/-- What is told of the metadata has one level. -/
theorem fits_told_metadata (depth : ℕ) : Json.Fits (depth + 1) s.metadata.told := by
  have hknown (x : Option Float) : Json.Fits depth (knownOrNull x).told := by
    cases x with
    | none => simp [knownOrNull, Json.told, Json.Fits]
    | some x => exact Json.fits_told_float depth x
  simp only [metadata, Json.told, Json.toldMembers]
  rw [Json.Fits]
  simp only [List.forall_mem_cons, Json.Fits, hknown, true_and]
  exact List.forall_mem_nil _

variable {s}

/-- What is told of the document can be written. It has three levels. -/
theorem fits_told_document (hconfidence : s.confidence.Proper) (depth : ℕ) :
    Json.Fits (depth + 3) s.document.told := by
  have hsegments : Json.Fits (depth + 2) (.array (s.segments.map (·.toJson.told))) := by
    rw [Json.Fits]
    intro item hitem
    obtain ⟨segment, -, rfl⟩ := List.mem_map.1 hitem
    exact segment.fits_told_toJson depth
  have hmetadata := s.fits_told_metadata (depth + 1)
  have hscore : Json.Fits (depth + 2) (.float s.confidence.value) := by
    simp [Json.Fits, hconfidence.isFinite]
  have hstring : ∀ text, Json.Fits (depth + 2) (.string text) := fun text => by
    simp [Json.Fits]
  rw [told_document s hconfidence, Json.Fits]
  simp only [List.forall_mem_cons, hsegments, hmetadata, hscore, hstring, true_and]
  exact List.forall_mem_nil _

/-- The standard encoder writes the document over several lines. What it reads on the way is what
the text on one line tells, which looks the same when it is written anew. -/
theorem documentText_standard (h : Json.Fits Json.deepest s.document.told) :
    s.documentText .standard = s.document.pretty documentIndent := by
  have hreformat : Encoder.reformat s.document.compact documentIndent =
      .ok (s.document.told.pretty documentIndent) := by
    rw [Encoder.reformat, ← Json.compact_told, Json.read_compact h, Json.ok_bind,
      s.ordered_document.told.canonical_eq]
    rfl
  rw [documentText, Encoder.standard_compact, canonical_document]
  dsimp only
  rw [Encoder.standard_pretty, hreformat, Json.pretty_told]
  rfl

end Document

/-! ## Reading the export back -/

/-- What a document tells of a completed session whatever its scores are: its text as it is
exported, the score over all segments, and times that are numbers, none of them unknown. -/
structure Outlines (document : Json) (s : Session) : Prop where
  full_text : ∃ plain, s.exportAs .txt none = .ok plain ∧
    document.at? ["full_text"] = some (.string plain)
  overall_confidence : document.at? ["overall_confidence"] = some (.float s.confidence.value)
  times : ∀ name ∈ ["processed_at", "processing_duration_seconds"],
    ∃ x : Float, x.isFinite = true ∧ document.at? ["metadata", name] = some (.float x)

/-- What a document tells if all scores are numbers: times and scores that are numbers for all
segments as well. -/
structure Tells (document : Json) (s : Session) : Prop extends Outlines document s where
  segments : ∃ items, document.at? ["segments"] = some (.array items) ∧
    ∀ item ∈ items, ∀ name ∈ ["start", "end", "confidence"],
      ∃ x : Float, x.isFinite = true ∧ item.at? [name] = some (.float x)

/-- What a text tells of a completed session when it is read: as recognizer output the segments, and
as a document the whole text, the score over all segments, and times and scores that are numbers. -/
structure ReadsBack (s : Session) (text : String) : Prop where
  /-- One utterance for each segment, in order. -/
  utterances : Dump.read text.toList = .ok (s.segments.map (·.toUtterance))
  document : ∃ document, Json.read text.toList = .ok document ∧ Tells document s

/-- What the export of a completed session is read as. -/
structure Exported (s : Session) (text : String) : Prop where
  outlined : ∃ document, Json.read text.toList = .ok document ∧ Outlines document s
  readsBack_iff : ReadsBack s text ↔ s.segments.FiniteScores
  refused : ¬s.segments.FiniteScores → Dump.read text.toList = .error .shape

section ReadsBack

variable {s : Session} {reason : Option String}

/-- What is told of a document of a completed session outlines the session. Both of its times are
known, and times on the calendar are finite numbers of seconds. -/
theorem outlines_told_document (hs : OnCalendar s) (hconsistent : Consistent reason s)
    (hconfidence : s.confidence.Proper) (hcompleted : s.status = .completed) :
    Outlines s.document.told s where
  full_text := by
    refine ⟨s.plainText, ?_, ?_⟩
    · rw [exportAs, if_pos hcompleted]
    · simp [told_document s hconfidence, Json.at?, plainText]
  overall_confidence := by simp [told_document s hconfidence, Json.at?]
  times := by
    obtain ⟨started, hstarted⟩ :=
      Option.isSome_iff_exists.1 (hconsistent.started (.inr hcompleted))
    obtain ⟨finished, hfinished⟩ :=
      Option.isSome_iff_exists.1 (hconsistent.finished_iff.2 (.inl hcompleted))
    -- both times are known, so the processing time is
    have htime : s.processingTime? = some (finished.since started) := by
      rw [processingTime?, hstarted, hfinished]
      rfl
    have hseconds := (hs.finished finished hfinished).isFinite
    intro name hname
    simp only [List.mem_cons, List.not_mem_nil, or_false] at hname
    rcases hname with rfl | rfl
    · refine ⟨finished.unixSeconds, hseconds, ?_⟩
      simp [told_document s hconfidence, metadata, Json.at?, hfinished, knownOrNull, Json.told,
        Json.toldMembers, hseconds]
    · refine ⟨(finished.since started).seconds, (finished.since started).isFinite, ?_⟩
      simp [told_document s hconfidence, metadata, Json.at?, htime, knownOrNull, Json.told,
        Json.toldMembers, (finished.since started).isFinite]

/-- What is told of a segment with a finite score has no `null` in it. -/
theorem exists_at?_told_toJson {segment : Segment}
    (h : segment.confidence.value.isFinite = true) :
    ∀ name ∈ ["start", "end", "confidence"],
      ∃ x : Float, x.isFinite = true ∧ segment.toJson.told.at? [name] = some (.float x) := by
  intro name hname
  rw [segment.told_toJson, Json.told_float_of_finite h]
  simp only [List.mem_cons, List.not_mem_nil, or_false] at hname
  rcases hname with rfl | rfl | rfl
  · exact ⟨segment.start.seconds, segment.start.isFinite, by simp [Json.at?]⟩
  · exact ⟨segment.stop.seconds, segment.stop.isFinite, by simp [Json.at?]⟩
  · exact ⟨segment.confidence.value, h, by simp [Json.at?]⟩

/-- The text of a document is read as what is told of the document. As a dump it lists the segments
if all of their scores are finite, and nothing if not. -/
theorem exported_documentText (hs : OnCalendar s) (hconsistent : Consistent reason s)
    (hcompleted : s.status = .completed) : Exported s (s.documentText .standard) := by
  have hconfidence : s.confidence.Proper := by
    rw [hconsistent.confidence_eq]
    exact Timeline.proper_confidence _
  have hfits : Json.Fits Json.deepest s.document.told := by
    rw [show Json.deepest = 124 + 3 from rfl]
    exact fits_told_document hconfidence 124
  have houtlines := outlines_told_document hs hconsistent hconfidence hcompleted
  have hread := Json.read_pretty documentIndent hfits
  have hdump := Dump.read_form hfits (Json.form_spread documentIndent 0 s.document.told)
  have hlisted : Dump.ofJson? s.document.told =
      Utterance.listOfJson? (.array (s.segments.map (·.toJson.told))) := by
    rw [told_document s hconfidence]
    simp [Dump.ofJson?, Field.named, Field.required?]
  rw [hlisted] at hdump
  rw [documentText_standard hfits, ← Json.pretty_told]
  -- the document is read either way; the scores decide what it lists
  by_cases hscores : s.segments.FiniteScores
  · rw [Timeline.listOfJson?_told hscores] at hdump
    refine ⟨⟨_, hread, houtlines⟩, iff_of_true ⟨?_, _, hread, houtlines, ?_⟩ hscores,
      fun hnot => absurd hscores hnot⟩
    · rw [Json.pretty, String.toList_ofList]
      exact hdump
    · refine ⟨s.segments.map (·.toJson.told), by simp [told_document s hconfidence, Json.at?], ?_⟩
      intro item hitem
      obtain ⟨segment, hsegment, rfl⟩ := List.mem_map.1 hitem
      exact exists_at?_told_toJson (hscores segment hsegment)
  · rw [Timeline.listOfJson?_told_of_not_finite hscores] at hdump
    have hrefused : Dump.read (s.document.told.pretty documentIndent).toList = .error .shape := by
      rw [Json.pretty, String.toList_ofList]
      exact hdump
    refine ⟨⟨_, hread, houtlines⟩, iff_of_false (fun h => ?_) hscores, fun _ => hrefused⟩
    have hutterances := h.utterances
    rw [hrefused] at hutterances
    cases hutterances

end ReadsBack

/-- The JSON export of every completed session that steps at times on the calendar lead to tells its
text, the score over all segments and its times. All of it reads back exactly if the scores of all
segments are finite numbers, and if not, it lists no utterances. For scores that operations on
scores can give, it reads back exactly if those of all segments accepted in the run are proper. -/
theorem readsBack_run_iff (id audioId : String) (language : Language) (parameters : Parameters)
    (steps : List (Instant × Command)) (hsteps : ∀ step ∈ steps, step.1.OnCalendar)
    (hcompleted :
      (((new id audioId language).withParameters parameters).run steps).status = .completed) :
    ∃ text, (((new id audioId language).withParameters parameters).run steps).exportAs .json
        (some .standard) = .ok text ∧
      Exported (((new id audioId language).withParameters parameters).run steps) text ∧
      ((∀ segment ∈ accepted ((new id audioId language).withParameters parameters) steps,
          segment.confidence.Possible) →
        (ReadsBack (((new id audioId language).withParameters parameters).run steps) text ↔
          ∀ segment ∈ accepted ((new id audioId language).withParameters parameters) steps,
            segment.confidence.Proper)) := by
  have hcalendar := onCalendar_run (onCalendar_new id audioId language parameters) hsteps
  obtain ⟨reason, hconsistent⟩ := (Consistent.new id audioId language parameters).exists_run steps
  have hexported := exported_documentText hcalendar hconsistent hcompleted
  refine ⟨_, by rw [exportAs, if_pos hcompleted], hexported, fun hpossible => ?_⟩
  -- merging keeps proper scores proper, and a score of a merged segment that is proper has come
  -- from proper ones
  rw [hexported.readsBack_iff, Timeline.finiteScores_iff,
    scored_run_iff id audioId language parameters steps hpossible]
  exact forall_segments_run (fun _ _ => Segment.possible_mergeWithin)
    (fun _ hmem => absurd hmem List.not_mem_nil) hpossible

/-- A segment with a text and a score, for a run to add. -/
def remark (start stop : Float) (text : String) (confidence : Float) (number : UInt32)
    (h : ((Utterance.mk start stop text confidence none none none).toSegment
      number).toOption.isSome = true) : Segment :=
  ((Utterance.mk start stop text confidence none none none).toSegment number).toOption.get h

/-- Two segments to be merged, with text that has to be escaped, and one apart from them. -/
def remarks : List (Instant × Command) :=
  [(⟨1700000000000000⟩, .start none "large"),
    (⟨1700000001000000⟩, .addAll [
      remark 0 1 "\"Zürich\"" 0.1 0 (by decide +kernel),
      remark 1.05 2.2 "\\ line\u0085 🎙" 0.95 1 (by decide +kernel)]),
    (⟨1700000002000000⟩, .add (remark 10 86399.9 "end\x01" 1 2 (by decide +kernel))),
    (⟨1700000003000000⟩, .merge 100),
    (⟨1700000004123456⟩, .complete)]

/-- Escaped texts, a merged pair and scores that are no short decimals read back. -/
theorem readsBack_remarks :
    ∃ text, (((new "s" "audio" .auto).withParameters .empty).run remarks).exportAs .json
        (some .standard) = .ok text ∧
      ReadsBack (((new "s" "audio" .auto).withParameters .empty).run remarks) text := by
  obtain ⟨text, hexport, -, hiff⟩ := readsBack_run_iff "s" "audio" .auto .empty remarks
    (by decide +kernel) (by decide +kernel)
  exact ⟨text, hexport, (hiff (by decide +kernel)).2 (by decide +kernel)⟩

/-- One segment with a mean of two certain scores whose weights are together too large for a
double. -/
def unscoredRemark : List (Instant × Command) :=
  [(⟨1700000000000000⟩, .start none "large"),
    (⟨1700000001000000⟩, .add { remark 0 1 "hello" 1 0 (by decide +kernel) with
      confidence := .weighted .certain 1e308 .certain 1e308 }),
    (⟨1700000002000000⟩, .complete)]

/-- Its score is written as `null`, and the export lists no utterances. -/
theorem not_readsBack_unscoredRemark :
    (((new "s" "audio" .auto).withParameters .empty).run unscoredRemark).status = .completed ∧
    ∃ text, (((new "s" "audio" .auto).withParameters .empty).run unscoredRemark).exportAs .json
        (some .standard) = .ok text ∧
      Dump.read text.toList = .error .shape ∧
      ¬ReadsBack (((new "s" "audio" .auto).withParameters .empty).run unscoredRemark) text := by
  have hcompleted :
      (((new "s" "audio" .auto).withParameters .empty).run unscoredRemark).status = .completed := by
    decide +kernel
  -- the mean of the two scores is no number
  have hscores : ¬(((new "s" "audio" .auto).withParameters .empty).run
      unscoredRemark).segments.FiniteScores := by
    unfold Timeline.FiniteScores
    decide +kernel
  obtain ⟨reason, hconsistent⟩ := (Consistent.new "s" "audio" .auto .empty).exists_run unscoredRemark
  have hexported := exported_documentText
    (onCalendar_run (onCalendar_new "s" "audio" .auto .empty) (by decide +kernel)) hconsistent
    hcompleted
  exact ⟨hcompleted, _, by rw [exportAs, if_pos hcompleted], hexported.refused hscores,
    mt hexported.readsBack_iff.1 hscores⟩

end Session

end SpeechTranscript
