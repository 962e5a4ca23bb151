import Mathlib
import SpeechTranscript.Proofs.CommandLine.FileTree
import SpeechTranscript.Proofs.CommandLine.Transcript

/-!
# How the program ends

The program writes once and last. If it ends well, the request was sound, the dump in the input was
read, its transcription was completed and passed what was asked of it, and the transcript of that
very session was handed out, with no file changed but the output. If it does not end well, no file
has changed and nothing stands on standard output.

* `Host.OnFiles`: a host whose files are those of a tree, and whose writes leave the tree as it is
  when they fail.
* `Ended`, `Settled`: how a run ends, well or not.
* `settled_run`: so does every run on arguments that make an invocation.
-/

namespace SpeechTranscript

/-! ## Hosts -/

section Hosts

variable {σ α β : Type}

/-- An answer that an action gives in one state or another. -/
def Gives (action : StateM σ α) (answer : α) : Prop := ∃ s, (action.run s).1 = answer

/-- A host on files as a tree has them. It finds and reads what the tree has, and what it writes is
written to the tree. A write may fail for a reason that is not in the tree, and leaves the tree as
it was if it fails. -/
structure Host.OnFiles (host : Host (StateM σ)) (tree : σ → FileTree) : Prop where
  has : ∀ {path s there s'}, (host.has path).run s = (there, s') →
    there = (tree s).has path ∧ tree s' = tree s
  read : ∀ {path s content s'}, (host.read path).run s = (content, s') →
    content.toOption = ((tree s).read path).toOption ∧ tree s' = tree s
  written : ∀ {path text s s'}, (host.write path text).run s = (.ok (), s') →
    (tree s).write path text = .ok (tree s')
  unwritten : ∀ {path text s cause s'}, (host.write path text).run s = (.error cause, s') →
    tree s' = tree s
  now : ∀ {s time s'}, host.now.run s = (time, s') → tree s' = tree s
  freshId : ∀ {s id s'}, host.freshId.run s = (id, s') → tree s' = tree s

/-- The host of a tree writes as the tree does, and keeps the tree if that fails. -/
theorem run_write_host (now : Instant) (id path text : String) (t : FileTree) :
    ((FileTree.host now id).write path text).run t =
      match t.write path text with
      | .ok t' => (.ok (), t')
      | .error fault => (.error fault.text, t) := by
  cases heq : t.write path text with
  | ok t' | error fault =>
    simp only [FileTree.host, StateT.run_bind, StateT.run_get, pure_bind, heq]
    rfl

/-- The host of a tree is a host on the files of that tree. -/
theorem onFiles_host (now : Instant) (id : String) :
    (FileTree.host now id).OnFiles (fun t => t) where
  has h := by
    cases h
    exact ⟨rfl, rfl⟩
  read {path t content t'} h := by
    cases h
    refine ⟨?_, rfl⟩
    show ((t.read path).mapError _).toOption = _
    cases t.read path <;> rfl
  written {path text t t'} h := by
    rw [run_write_host] at h
    split at h
    · rename_i hwrite
      cases h
      exact hwrite
    · cases h
  unwritten {path text t cause t'} h := by
    rw [run_write_host] at h
    split at h
    · cases h
    · cases h
      rfl
  now h := by
    cases h
    rfl
  freshId h := by
    cases h
    rfl

/-- An action after another starts where that one ends. -/
theorem exists_of_run_bind {action : StateM σ α} {next : α → StateM σ β} {s s' : σ} {b : β}
    (h : (action >>= next).run s = (b, s')) :
    ∃ a s₁, action.run s = (a, s₁) ∧ (next a).run s₁ = (b, s') := ⟨_, _, rfl, h⟩

end Hosts

/-! ## Runs -/

namespace Program

section Runs

variable {σ : Type} {host : Host (StateM σ)} {tree : σ → FileTree} {i : Invocation} {job : Job}
  {s s' : σ} {report : Report} {err transcript id : String} {started finished : Instant}

/-- What it means that a transcript was handed out: it is the text of the output if there is one,
else all that stands on standard output but for the end of the line. -/
def Delivered (output : Option String) (transcript : String) (report : Report)
    (t t' : FileTree) : Prop :=
  match output with
  | none => report.out = transcript ++ "\n" ∧ t' = t
  | some path => report.out = "" ∧ FileTree.Written path transcript t t'

/-- What it means that the host does not write a transcript to the output. -/
def Unwritten (host : Host (StateM σ)) (tree : σ → FileTree) (output : Option String)
    (transcript : String) (t : FileTree) : Prop :=
  ∃ path cause s, output = some path ∧ tree s = t ∧
    ((host.write path transcript).run s).1 = .error cause

/-- How a run ends that finds one tree and leaves another, with a session of this name and these
times. -/
inductive Ended (host : Host (StateM σ)) (tree : σ → FileTree) (i : Invocation) (id : String)
    (started finished : Instant) (t : FileTree) (report : Report) (t' : FileTree) : Prop where
  | transcribed (transcript : String) (code : report.code = 0)
      (made : i.Transcribed t id started finished transcript)
      (delivered : Delivered i.output transcript report t t')
  | failed (code : report.code = 1) (silent : report.out = "") (unchanged : t' = t)
      (cause : ∀ transcript, i.Transcribed t id started finished transcript →
        Unwritten host tree i.output transcript t)

/-- How a run ends. The name of the session and its times are the host's. -/
def Settled (host : Host (StateM σ)) (tree : σ → FileTree) (i : Invocation) (t : FileTree)
    (report : Report) (t' : FileTree) : Prop :=
  ∃ id started finished, Gives host.freshId id ∧ Gives host.now started ∧
    Gives host.now finished ∧ Ended host tree i id started finished t report t'

/-- A transcript is handed out and the run ends well, or nothing is changed and it does not. -/
theorem run_deliver (hhost : host.OnFiles tree) {output : Option String}
    (h : (deliver host output err transcript).run s = (report, s')) :
    report.code = 0 ∧ Delivered output transcript report (tree s) (tree s') ∨
      report.code = 1 ∧ report.out = "" ∧ tree s' = tree s ∧
        Unwritten host tree output transcript (tree s) := by
  cases output with
  | none =>
    cases h
    exact .inl ⟨rfl, rfl, rfl⟩
  | some path =>
    -- the host says whether it has written the transcript
    obtain ⟨answer, s₁, hwrite, h⟩ := exists_of_run_bind h
    cases answer with
    | ok =>
      cases h
      exact .inl ⟨rfl, rfl, FileTree.written_of_write (hhost.written hwrite)⟩
    | error cause =>
      cases h
      exact .inr ⟨rfl, rfl, hhost.unwritten hwrite, path, cause, s, rfl, rfl,
        congrArg Prod.fst hwrite⟩

/-- An accepted request is settled. What decides it is whether there is a transcript to render and
then whether it can be written. -/
theorem settled_transcribe (hhost : host.OnFiles tree) (haccepted : i.Accepted (tree s) job)
    (h : (transcribe host i job).run s = (report, s')) :
    Settled host tree i (tree s) report (tree s') := by
  obtain ⟨id, s₁, hid, h⟩ := exists_of_run_bind h
  obtain ⟨started, s₂, hstarted, h⟩ := exists_of_run_bind h
  obtain ⟨content, s₃, hread, h⟩ := exists_of_run_bind h
  obtain ⟨finished, s₄, hfinished, h⟩ := exists_of_run_bind h
  -- nothing before the write changes the tree, so the input is read as it was at the start
  have htree₂ : tree s₂ = tree s := (hhost.now hstarted).trans (hhost.freshId hid)
  obtain ⟨hcontent, htree₃⟩ := hhost.read hread
  have htree : tree s₄ = tree s := (hhost.now hfinished).trans (htree₃.trans htree₂)
  rw [htree₂] at hcontent
  refine ⟨id, started, finished, ⟨s, congrArg Prod.fst hid⟩, ⟨s₁, congrArg Prod.fst hstarted⟩,
    ⟨s₃, congrArg Prod.fst hfinished⟩, ?_⟩
  have hmade (transcript : String) : i.Transcribed (tree s) id started finished transcript ↔ _ :=
    Invocation.transcribed_iff haccepted hcontent
  unfold Job.transcription at hmade
  dsimp only at h
  split at h
  · rename_i fault hrender
    cases h
    -- there is no transcript of this invocation that could have been written
    refine .failed rfl rfl htree fun transcript hthere => ?_
    rw [hmade, hrender] at hthere
    cases hthere
  · rename_i transcript hrender
    have hended := run_deliver hhost h
    rw [htree] at hended
    rcases hended with ⟨hcode, hdelivered⟩ | ⟨hcode, hsilent, hunchanged, hunwritten⟩
    · exact .transcribed transcript hcode ((hmade transcript).2 hrender) hdelivered
    · -- the one transcript there is could not be written
      refine .failed hcode hsilent hunchanged fun other hother => ?_
      rw [hmade, hrender] at hother
      cases hother
      exact hunwritten

/-- A run is settled, whether or not the request is accepted. -/
theorem settled_perform (hhost : host.OnFiles tree)
    (h : (perform host i).run s = (report, s')) :
    Settled host tree i (tree s) report (tree s') := by
  obtain ⟨there, s₁, hthere, h⟩ := exists_of_run_bind h
  obtain ⟨rfl, htree⟩ := hhost.has hthere
  split at h
  · rename_i fault hfault
    cases h
    refine ⟨_, _, _, ⟨s, rfl⟩, ⟨s, rfl⟩, ⟨s, rfl⟩, .failed rfl rfl htree ?_⟩
    -- a refused request has no transcript
    rintro transcript ⟨job, utterances, hsucceeds⟩
    rw [Invocation.accepted_iff.2 hsucceeds.accepted] at hfault
    cases hfault
  · rename_i job hjob
    rw [← htree] at hjob ⊢
    exact settled_transcribe hhost (Invocation.accepted_iff.1 hjob) h

/-- A run of the program on arguments that make an invocation is settled. It has an exit code of zero
only with the transcript that the invocation asks for, which it hands out, and it changes no file if
it has another. -/
theorem settled_run {args : List String} (hhost : host.OnFiles tree)
    (h : Invocation.ofArguments args = .ok i) (s : σ) :
    ∃ report s', (run host args).run s = (.done report, s') ∧
      Settled host tree i (tree s) report (tree s') := by
  refine ⟨((perform host i).run s).1, ((perform host i).run s).2, ?_, settled_perform hhost rfl⟩
  unfold run
  rw [h]
  rfl

end Runs

/-! ### A run on a dump of one utterance -/

def helloDump : String := "[[0, 1.5, \"hello there\"]]"

/-- The system with the dump in its working folder. -/
def helloTree : FileTree :=
  { FileTree.empty with files := [(FileTree.workingFolder ++ ["dump.json"], helloDump.toUTF8)] }

def helloInvocation : Invocation where
  input := "dump.json"
  output := some "text.txt"
  format := none
  language := Language.autoCode
  model := Options.standard.model
  mergeGap := Options.standardMergeGap
  noMerge := false
  recording := none
  skipOverlapping := false
  requireQuality := true
  parameters := []

def helloJob : Job where
  format := .txt
  language := .auto
  options := helloInvocation.options none

theorem find_hello : helloTree.find helloInvocation.input =
    .ok (.file (FileTree.workingFolder ++ [helloInvocation.input]) helloDump.toUTF8) :=
  FileTree.find_of_plain (by decide +kernel) helloTree

theorem read_hello : helloTree.read helloInvocation.input = .ok helloDump.toUTF8 := by
  rw [FileTree.read, find_hello]
  rfl

/-- The output can be written, whatever the text is. -/
theorem write_hello (text : String) : ∃ t, helloTree.write "text.txt" text = .ok t := by
  have hname : FileTree.Plain "text.txt" := by decide +kernel
  have hplace : helloTree.find "text.txt" =
      .ok (.free (FileTree.workingFolder ++ ["text.txt"])) := FileTree.find_of_plain hname helloTree
  rw [FileTree.find, ← FileTree.partsToWrite_of_plain hname] at hplace
  rw [FileTree.write, hplace]
  exact ⟨_, rfl⟩

/-- The request passes, and no format is named for it. -/
theorem accepted_hello : helloInvocation.Accepted helloTree helloJob where
  input_there := by rw [FileTree.has, find_hello]
  mergeGap := by decide +kernel
  positive := by decide +kernel
  format := Invocation.chooseFormat_eq_ok_iff.1 (by decide +kernel)
  language := Language.ofCode_eq_ok_iff.1 (by decide +kernel)
  recording := rfl
  options := rfl

/-- The only transcript of the dump is its one text with a capital letter. -/
theorem transcribed_hello_iff (transcript : String) :
    helloInvocation.Transcribed helloTree "hello" ⟨0⟩ ⟨0⟩ transcript ↔
      transcript = "Hello there" := by
  have hrender : helloInvocation.render helloJob
      (helloJob.transcription "hello" (audioIdOf helloInvocation.input) ⟨0⟩ ⟨0⟩
        (SegmentFile.utterances helloInvocation.input (.ok helloDump.toUTF8))) =
      .ok "Hello there" := by decide +kernel
  have hread : (Except.ok helloDump.toUTF8 : Except String ByteArray).toOption =
      (helloTree.read helloInvocation.input).toOption := by
    rw [read_hello]
    rfl
  rw [Invocation.transcribed_iff accepted_hello hread, hrender, Except.ok.injEq, eq_comm]

/-- The program makes a file of the dump. -/
theorem settled_hello : ∃ report t',
    (run (FileTree.host ⟨0⟩ "hello") ["dump.json", "text.txt", "--require-quality"]).run
        helloTree = (.done report, t') ∧
      report.code = 0 ∧ FileTree.Written "text.txt" "Hello there" helloTree t' := by
  have harguments : Invocation.ofArguments ["dump.json", "text.txt", "--require-quality"] =
      .ok helloInvocation := by decide +kernel
  obtain ⟨report, t', hrun, id, started, finished, ⟨_, rfl⟩, ⟨_, rfl⟩, ⟨_, rfl⟩, hsettled⟩ :=
    settled_run (onFiles_host ⟨0⟩ "hello") harguments helloTree
  refine ⟨report, t', hrun, ?_⟩
  cases hsettled with
  | transcribed transcript code made delivered =>
    obtain rfl := (transcribed_hello_iff transcript).1 made
    exact ⟨code, delivered.2⟩
  | failed code silent unchanged cause =>
    -- a failure would need an output that cannot be written
    obtain ⟨path, fault, t, hpath, rfl, hfault⟩ := cause _ ((transcribed_hello_iff _).2 rfl)
    obtain ⟨written, hwritten⟩ := write_hello "Hello there"
    cases hpath
    rw [run_write_host, hwritten] at hfault
    cases hfault

end Program

end SpeechTranscript
