import SpeechTranscript.Proofs.Session.Consistency
import SpeechTranscript.Proofs.Text.Cap
import SpeechTranscript.Proofs.Timeline.Text

/-!
# The cap on texts and final texts

Texts come from checked construction and are worked on by operations of which two do not check the
length again. The final text of a session is one of them: the joined texts pass the check, and then
they are formatted.

* `capped_iff`: when texts and final texts keep to the cap.
* `not_capped_swollen`: some that do not.
-/

namespace SpeechTranscript.Session

section Final

variable {s : Session} {reason : Option String}

/-- The texts of a session joined, as final text. -/
def joined (s : Session) : Text := ⟨s.segments.joinedTexts, true⟩

/-- The full text is there exactly if the texts joined together keep to the limit. What the format
adds to them is not counted. -/
theorem fullText_eq_ok_iff {timeline : Timeline} {text : Text} (h : timeline ≠ []) :
    timeline.fullText = .ok text ↔
      Text.Capped ⟨timeline.joinedTexts, true⟩ ∧
        text = Text.formatted ⟨timeline.joinedTexts, true⟩ := by
  rw [Timeline.fullText, if_neg (by simpa using h), bind_eq_ok_iff]
  constructor
  · rintro ⟨plain, hplain, hformatted⟩
    obtain ⟨rfl, hcapped⟩ := Text.ofContent_eq_ok_iff.1 (orRefuse_eq_ok_iff.1 hplain)
    cases hformatted
    exact ⟨hcapped, rfl⟩
  · rintro ⟨hcapped, rfl⟩
    exact ⟨_, orRefuse_eq_ok_iff.2 (Text.ofContent_eq_ok_iff.2 ⟨rfl, hcapped⟩), rfl⟩

/-- The final text is the joined texts formatted, and these have passed the check. -/
theorem Consistent.finalText_eq (h : Consistent reason s) {text : Text}
    (htext : s.finalText = some text) : s.joined.Capped ∧ text = s.joined.formatted := by
  have hcompleted := h.finalText_iff.1 (by rw [htext]; rfl)
  have hfull : s.fullText = .ok text := by rw [fullText, htext]
  rw [h.fullText_eq, fullText_eq_ok_iff (h.segments_of_completed hcompleted)] at hfull
  exact hfull

/-- The final text keeps to the cap exactly if the joined texts leave room for its capitals. -/
theorem Consistent.capped_finalText_iff (h : Consistent reason s) :
    (∀ text, s.finalText = some text → text.Capped) ↔
      (s.status = .completed → s.joined.Fits .format) := by
  constructor
  · intro hcapped hcompleted
    obtain ⟨text, htext⟩ := Option.isSome_iff_exists.1 (h.finalText_iff.2 hcompleted)
    obtain ⟨hjoined, rfl⟩ := h.finalText_eq htext
    exact (Text.capped_edited_iff hjoined .format).1 (hcapped _ htext)
  · intro hfits text htext
    obtain ⟨hjoined, rfl⟩ := h.finalText_eq htext
    have hcompleted := h.finalText_iff.1 (by rw [htext]; rfl)
    exact (Text.capped_edited_iff hjoined .format).2 (hfits hcompleted)

/-- A final text is longer than a text may be by no more than its capitals add. -/
theorem Consistent.charCount_finalText_le (h : Consistent reason s) {text : Text}
    (htext : s.finalText = some text) : text.charCount ≤ longestText + s.joined.growth := by
  obtain ⟨hjoined, rfl⟩ := h.finalText_eq htext
  rw [Text.charCount_formatted]
  exact Nat.add_le_add_right ((Text.length_layout_le s.joined).trans hjoined) _

end Final

/-! ## Single segments -/

section Single

/-- A segment of ten seconds with a text. -/
def speech (text : Text) : Segment where
  id := "segment_0"
  start := .zero
  stop := ⟨10, by decide +kernel, by decide +kernel⟩
  text
  confidence := .certain
  sequence := 0
  speaker := none
  language := none
  start_lt_stop := by decide +kernel
  blank_of_short := fun h => absurd h (by decide +kernel)

/-- A session with a single segment. -/
def speaking (text : Text) : List (Instant × Command) :=
  [(⟨0⟩, .start none "m"), (⟨0⟩, .add (speech text)), (⟨0⟩, .complete)]

/-- The full text of one segment is its text, formatted. -/
theorem fullText_speech {text : Text} (hsome : text.isEmpty = false) (hfinal : text.isFinal = true)
    (hcapped : text.Capped) : Timeline.fullText [speech text] = .ok text.formatted := by
  have hspoken : (!(speech text).isEmpty) = true := by
    show (!text.isEmpty) = true
    rw [hsome]
    rfl
  have hkept : [speech text].filter (fun s => !s.isEmpty) = [speech text] :=
    List.filter_eq_self.2 (List.forall_mem_singleton.2 hspoken)
  have hjoined : Timeline.joinedTexts [speech text] = text.content := by
    rw [Timeline.joinedTexts, hkept, List.map_singleton, String.intercalate_singleton]
    rfl
  have hsame : (⟨text.content, true⟩ : Text) = text := by rw [← hfinal]
  rw [fullText_eq_ok_iff (List.cons_ne_nil _ _), hjoined, hsame]
  exact ⟨hcapped, rfl⟩

theorem accept_nil (segment : Segment) : Timeline.accept [] segment = .ok [segment] :=
  Timeline.accept_eq_ok_iff.2 ⟨nofun, (List.perm_singleton.1 Timeline.place_perm).symm⟩

variable {s : Session}

theorem after_add_first (h : s.status = .processing) (hnone : s.segments = []) (now : Instant)
    (segment : Segment) : (s.after (now, .add segment)).status = .processing ∧
      (s.after (now, .add segment)).segments = [segment] := by
  rw [after, afterwards, perform, addSegment_of_processing h, hnone, accept_nil]
  exact ⟨h, rfl⟩

/-- A session of one segment ends with the text of the segment, formatted. -/
theorem finalText_speaking {text : Text} (hsome : text.isEmpty = false)
    (hfinal : text.isFinal = true) (hcapped : text.Capped) :
    ((new "s" "audio" .auto).run (speaking text)).finalText = some text.formatted := by
  obtain ⟨hprocessing, hsegments⟩ :=
    after_add_first (s := (new "s" "audio" .auto).begun none "m" ⟨0⟩) rfl rfl ⟨0⟩ (speech text)
  change ((((new "s" "audio" .auto).begun none "m" ⟨0⟩).after (⟨0⟩, .add (speech text))).after
    (⟨0⟩, .complete)).finalText = _
  generalize ((new "s" "audio" .auto).begun none "m" ⟨0⟩).after (⟨0⟩, .add (speech text)) = s at *
  have htext := fullText_speech hsome hfinal hcapped
  rw [← hsegments] at htext
  have hne : s.segments ≠ [] := hsegments ▸ List.cons_ne_nil _ _
  rw [after, afterwards, perform, complete_of_processing hprocessing hne htext]
  rfl

end Single

/-! ## The cap -/

section Cap

variable {t : Text} {content : String} {isFinal : Bool}

/-- All texts made by operations from one of checked construction keep to the cap exactly if each
operation fits the text that it is made on. The final text of a session after any run does exactly
if its joined texts leave room for the capitals, and in any case only these carry it past the cap.
-/
theorem capped_iff (h : Text.ofContent content isFinal = .ok t) (edits : List Text.Edit)
    (id audioId : String) (language : Language) (parameters : Parameters)
    (steps : List (Instant × Command)) :
    let s := ((new id audioId language).withParameters parameters).run steps
    ((∀ u ∈ edits.scanl Text.edited t, u.Capped) ↔ t.FitsAlong edits) ∧
      ((∀ text, s.finalText = some text → text.Capped) ↔
        (s.status = .completed → s.joined.Fits .format)) ∧
      ∀ text, s.finalText = some text → text.charCount ≤ longestText + s.joined.growth := by
  intro s
  obtain ⟨reason, hconsistent⟩ := (Consistent.new id audioId language parameters).exists_run steps
  exact ⟨Text.capped_along_iff (Text.ofContent_eq_ok_iff.1 h).2 edits,
    hconsistent.capped_finalText_iff, fun _ => hconsistent.charCount_finalText_le⟩

/-- Some operations on a short text, and a session with a word that grows by its capital. -/
theorem capped_sample :
    Text.ofContent "ab. ßc" true = .ok ⟨"ab. ßc", true⟩ ∧
      (∀ u ∈ [Text.Edit.append "\tNew paragraph. x", .format, .truncate 3 ".."].scanl Text.edited
        ⟨"ab. ßc", true⟩, u.Capped) ∧
      ∀ text, (((new "s" "audio" .auto).withParameters .empty).run
        (speaking ⟨"ßa", true⟩)).finalText = some text → text.Capped := by
  have hmade : Text.ofContent "ab. ßc" true = .ok ⟨"ab. ßc", true⟩ := by decide +kernel
  obtain ⟨hedits, hfinal, -⟩ := capped_iff hmade
    [Text.Edit.append "\tNew paragraph. x", .format, .truncate 3 ".."] "s" "audio" .auto .empty
    (speaking ⟨"ßa", true⟩)
  exact ⟨hmade, hedits.2 (by decide +kernel), hfinal.2 fun _ => by decide +kernel⟩

/-- A word that is one character longer with a capital. -/
def swollen (n : ℕ) : Text := ⟨String.ofList ('ß' :: List.replicate n 'a'), true⟩

theorem chars_swollen (n : ℕ) : (swollen n).chars = 'ß' :: List.replicate n 'a' :=
  String.toList_ofList

theorem charCount_swollen (n : ℕ) : (swollen n).charCount = n + 1 := by
  show (String.ofList _).length = _
  rw [String.length_ofList, List.length_cons, List.length_replicate]

theorem isWord_swollen (n : ℕ) : Text.IsWord (swollen n).chars := by
  rw [chars_swollen]
  refine ⟨List.cons_ne_nil _ _, List.forall_mem_cons.2 ⟨by decide, fun c hc => ?_⟩⟩
  rw [List.eq_of_mem_replicate hc]
  decide

/-- Formatting makes it one longer. -/
theorem charCount_formatted_swollen (n : ℕ) : (swollen n).formatted.charCount = n + 2 := by
  have hupper : Text.upper 'ß' = ['S', 'S'] := by decide
  have hplain : 'N' ∉ (swollen n).chars := by
    rw [chars_swollen]
    simp
  rw [Text.charCount_formatted_of_isWord (isWord_swollen n) hplain, chars_swollen, Text.capitalized,
    hupper, List.length_append, List.length_replicate]
  simp
  omega

/-- Formatting makes a text of a million characters longer, cutting takes any ending, and a session
is completed with a final text that is longer than a text may be. -/
theorem not_capped_swollen :
    (swollen 999999).Capped ∧ ¬ (swollen 999999).formatted.Capped ∧
      ¬ (Text.truncate ⟨"ab", true⟩ 1 (String.ofList (List.replicate 1000001 'x'))).Capped ∧
      ∃ text, ((new "s" "audio" .auto).run (speaking (swollen 999999))).finalText = some text ∧
        ¬ text.Capped := by
  have hcapped : (swollen 999999).Capped := by
    rw [Text.Capped, charCount_swollen]
    decide
  have hlong : ¬ (swollen 999999).formatted.Capped := by
    rw [Text.Capped, charCount_formatted_swollen]
    decide
  have hspoken : (swollen 999999).isEmpty = false := by
    rw [Text.isEmpty, chars_swollen, Text.allBlank, List.all_cons]
    rfl
  refine ⟨hcapped, hlong, ?_, _, finalText_speaking hspoken rfl hcapped, hlong⟩
  rw [Text.Capped, Text.charCount_truncate, String.length_ofList, List.length_replicate]
  decide

end Cap

end SpeechTranscript.Session
