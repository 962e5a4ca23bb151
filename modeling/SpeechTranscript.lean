import SpeechTranscript.Main
import SpeechTranscript.Session.Command
import SpeechTranscript.Segment.Split
import SpeechTranscript.Proofs.Timeline.Separation
import SpeechTranscript.Proofs.Session.Separation
import SpeechTranscript.Proofs.Timeline.Text
import SpeechTranscript.Proofs.Transcription.Merging
import SpeechTranscript.Proofs.Session.Consistency
import SpeechTranscript.Proofs.Session.Atomicity
import SpeechTranscript.Proofs.Session.History
import SpeechTranscript.Proofs.Transcription.Outcome
import SpeechTranscript.Proofs.Export.Document
import SpeechTranscript.Proofs.Subtitle.Reading
import SpeechTranscript.Proofs.Transcription.Subtitles
import SpeechTranscript.Proofs.Transcription.Numbering
import SpeechTranscript.Proofs.Transcription.Reports
import SpeechTranscript.Proofs.Session.Reliability
import SpeechTranscript.Proofs.Session.Merging
import SpeechTranscript.Proofs.Session.Cap
import SpeechTranscript.Proofs.CommandLine.Program
import SpeechTranscript.Proofs.Timeline.Adjacency
import SpeechTranscript.Proofs.Timeline.Uniting
import SpeechTranscript.Proofs.Session.MergeLaws
import SpeechTranscript.Proofs.Session.Batches
import SpeechTranscript.Proofs.Timeline.Placing
import SpeechTranscript.Proofs.Transcription.Sifting
import SpeechTranscript.Proofs.Transcription.Documents
import SpeechTranscript.Proofs.Session.Subtitles
import SpeechTranscript.Proofs.Segment.Halves
import SpeechTranscript.Proofs.Segment.Rejoining
import SpeechTranscript.Proofs.Segment.Symmetry
import SpeechTranscript.Proofs.Session.MergeRefusals
import SpeechTranscript.Proofs.Text.Sentences
import SpeechTranscript.Proofs.Export.Reformatting
import SpeechTranscript.Proofs.Recognition.Layouts
import SpeechTranscript.Proofs.Segment.Interval
import SpeechTranscript.Proofs.Session.Quality
import SpeechTranscript.Proofs.Language.Spelling
import SpeechTranscript.Proofs.Duration.Human
import SpeechTranscript.Proofs.Text.Truncation
import SpeechTranscript.Proofs.Confidence.Means
