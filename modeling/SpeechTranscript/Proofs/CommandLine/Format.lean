import SpeechTranscript.CommandLine.Program
import SpeechTranscript.Proofs.Language.Tag

/-!
# The format asked for

A transcript is written in the format that is named; if none is named, in the one that the extension
of the output names; and as plain text if that names none either. What a name, a file name and an
extension are is told here by how they stand in the text, and the readers of all three agree.

* `FilePath.extension?_eq_some_iff`: the extension at the end of a path.
* `ExportFormat.read?_eq_some_iff`: the texts that name a format.
* `Invocation.chooseFormat_eq_ok_iff`: the format of an invocation.
-/

namespace SpeechTranscript

/-! ## File names and extensions -/

namespace FilePath

/-- A path that ends in a name. Only empty parts and parts that say `.` come after it, and it is no
such part itself, nor does it say `..`. -/
def EndsIn (path : String) (name : List Char) : Prop :=
  ∃ front back, path.toList = ['/'].intercalate (front ++ name :: back) ∧
    (∀ part ∈ front ++ name :: back, '/' ∉ part) ∧ (∀ part ∈ back, part = [] ∨ part = ['.']) ∧
    name ∉ [[], ['.'], ['.', '.']]

/-- A path to a file name that goes on after its last dot, which something stands before. -/
def HasExtension (path : String) (ending : List Char) : Prop :=
  ∃ stem, EndsIn path (stem ++ '.' :: ending) ∧ stem ≠ [] ∧ '.' ∉ ending

section Names

variable {path : String} {name ending : List Char} {pieces : List (List Char)}

/-- The parts of a path are what stands between its slashes. -/
theorem parts_eq_iff (hpieces : pieces ≠ []) : parts path = pieces ↔
    path.toList = ['/'].intercalate pieces ∧ ∀ part ∈ pieces, '/' ∉ part := by
  have hparts : parts path = path.toList.splitOn '/' := Text.splitWhere_eq_splitOnP _ _
  constructor
  · rintro rfl
    refine ⟨by rw [hparts, List.intercalate_splitOn], fun part hpart hslash => ?_⟩
    simpa using Text.not_of_mem_splitWhere hpart hslash
  · rintro ⟨hpath, hplain⟩
    rw [hparts, hpath, List.splitOn_intercalate '/' hplain hpieces]

/-- The parts that can be a file name, or lead up. -/
def counts (part : List Char) : Bool := part != [] && part != ['.']

theorem counts_eq_false_iff {part : List Char} :
    counts part = false ↔ part = [] ∨ part = ['.'] := by
  rw [counts, Bool.and_eq_false_iff, bne_eq_false_iff_eq, bne_eq_false_iff_eq]

/-- The file name of a path is the name that the path ends in. -/
theorem fileName?_eq_some_iff : fileName? path = some name ↔ EndsIn path name := by
  -- the last part that counts, unless it leads up
  have hname : fileName? path = some name ↔
      ((parts path).filter counts).getLast? = some name ∧ name ≠ ['.', '.'] := by
    have hcounts : ((parts path).filter fun part => part != [] && part != ['.']) =
        (parts path).filter counts := rfl
    rw [fileName?, hcounts]
    cases ((parts path).filter counts).getLast? with
    | none => simp
    | some last => by_cases hup : last = ['.', '.'] <;> grind
  rw [hname]
  constructor
  · rintro ⟨hlast, hup⟩
    -- the last part that counts, with those before it and those after it
    obtain ⟨earlier, hfilter⟩ := List.getLast?_eq_some_iff.1 hlast
    obtain ⟨front, rest, hparts, -, hrest⟩ := List.filter_eq_append_iff.1 hfilter
    obtain ⟨skipped, back, rfl, -, hcounts, hback⟩ := List.filter_eq_cons_iff.1 hrest
    rw [← List.append_assoc] at hparts
    obtain ⟨hpath, hplain⟩ := (parts_eq_iff (by simp)).1 hparts
    refine ⟨front ++ skipped, back, hpath, hplain, fun part hpart => ?_, ?_⟩
    · have hnot := List.filter_eq_nil_iff.1 hback part hpart
      exact counts_eq_false_iff.1 (Bool.eq_false_of_not_eq_true hnot)
    · have hsome : ¬(name = [] ∨ name = ['.']) := fun h => by
        rw [counts_eq_false_iff.2 h] at hcounts
        contradiction
      simpa [hup] using hsome
  · rintro ⟨front, back, hpath, hplain, hback, hname⟩
    simp only [List.mem_cons, List.not_mem_nil, or_false, not_or] at hname
    have hcounts : counts name = true := by
      rw [← Bool.not_eq_false, counts_eq_false_iff]
      exact fun h => h.elim hname.1 hname.2.1
    have hnone : back.filter counts = [] := List.filter_eq_nil_iff.2 fun part hpart => by
      rw [counts_eq_false_iff.2 (hback part hpart)]
      exact Bool.false_ne_true
    rw [(parts_eq_iff (by simp)).2 ⟨hpath, hplain⟩, List.filter_append,
      List.filter_cons_of_pos hcounts, hnone]
    exact ⟨List.getLast?_concat, hname.2.2⟩

/-- What stands behind a dot and has none in it is what is read back from the end. -/
theorem cutAtDot_append (stem : List Char) (h : '.' ∉ ending) : cutAtDot (stem ++ '.' :: ending) =
    if stem = [] then (stem ++ '.' :: ending, none) else (stem, some ending) := by
  -- read from the end, what comes before the first dot is the ending
  have htail : (stem ++ '.' :: ending).reverse.takeWhile (· != '.') = ending.reverse := by
    rw [List.reverse_append, List.reverse_cons, List.append_assoc,
      List.takeWhile_append_of_pos fun c hc => ?_]
    · rw [List.singleton_append, List.takeWhile_cons_of_neg (by simp), List.append_nil]
    · rw [bne_iff_ne]
      rintro rfl
      exact h (List.mem_reverse.1 hc)
  have hlength : (stem ++ '.' :: ending).length = stem.length + ending.length + 1 := by
    rw [List.length_append, List.length_cons, Nat.add_assoc]
  have hstem : (stem ++ '.' :: ending).take (stem.length + ending.length + 1 - ending.length - 1) =
      stem := by
    rw [show stem.length + ending.length + 1 - ending.length - 1 = stem.length by omega,
      List.take_left]
  unfold cutAtDot
  dsimp only
  rw [htail, List.length_reverse, hlength, hstem, List.reverse_reverse,
    decide_eq_true (by omega : ending.length < stem.length + ending.length + 1), Bool.true_and]
  by_cases hnil : stem = [] <;> simp [hnil]

/-- A name without a dot is not cut. -/
theorem cutAtDot_of_notMem (h : '.' ∉ name) : cutAtDot name = (name, none) := by
  have hall : name.reverse.takeWhile (· != '.') = name.reverse :=
    List.takeWhile_eq_self_iff.2 fun c hc => by
      rw [bne_iff_ne]
      rintro rfl
      exact h (List.mem_reverse.1 hc)
  unfold cutAtDot
  dsimp only
  rw [hall, List.length_reverse, decide_eq_false (lt_irrefl _), Bool.false_and]
  rfl

/-- A name is cut at its last dot, unless it starts with that. -/
theorem cutAtDot_eq_some_iff : (cutAtDot name).2 = some ending ↔
    ∃ stem, name = stem ++ '.' :: ending ∧ stem ≠ [] ∧ '.' ∉ ending := by
  constructor
  · intro h
    by_cases hdot : '.' ∈ name
    · -- the last dot of a name is the first from its end
      obtain ⟨rest, front, hname, hrest⟩ :=
        List.eq_append_cons_of_mem (List.mem_reverse.2 hdot)
      obtain rfl : name = front.reverse ++ '.' :: rest.reverse := by
        rw [← List.reverse_reverse name, hname]
        simp
      have hplain : '.' ∉ rest.reverse := fun hmem => hrest (List.mem_reverse.1 hmem)
      rw [cutAtDot_append _ hplain] at h
      split at h
      · contradiction
      · rename_i hstem
        cases h
        exact ⟨_, rfl, hstem, hplain⟩
    · rw [cutAtDot_of_notMem hdot] at h
      contradiction
  · rintro ⟨stem, rfl, hstem, hending⟩
    rw [cutAtDot_append stem hending, if_neg hstem]

/-- The extension of a path is that of the file name it ends in. -/
theorem extension?_eq_some_iff {text : String} :
    extension? path = some text ↔ HasExtension path text.toList := by
  constructor
  · intro h
    obtain ⟨name, hname, h⟩ := Option.bind_eq_some_iff.1 h
    obtain ⟨ending, hending, h⟩ := Option.bind_eq_some_iff.1 h
    cases h
    obtain ⟨stem, rfl, hstem, hdot⟩ := cutAtDot_eq_some_iff.1 hending
    rw [HasExtension, String.toList_ofList]
    exact ⟨stem, fileName?_eq_some_iff.1 hname, hstem, hdot⟩
  · rintro ⟨stem, hends, hstem, hdot⟩
    refine Option.bind_eq_some_iff.2 ⟨_, fileName?_eq_some_iff.2 hends,
      Option.bind_eq_some_iff.2 ⟨_, cutAtDot_eq_some_iff.2 ⟨stem, rfl, hstem, hdot⟩, ?_⟩⟩
    rw [String.ofList_toList]
    rfl

end Names

end FilePath

/-! ## Names of formats -/

namespace ExportFormat

/-- The name of a format in small letters. -/
def spelling : ExportFormat → List Char
  | .txt => ['t', 'x', 't']
  | .srt => ['s', 'r', 't']
  | .vtt => ['v', 't', 't']
  | .json => ['j', 's', 'o', 'n']

/-- A text that names a format: its name in any case of letters. Dots may stand before it, and blanks
around it. -/
def Named (format : ExportFormat) (name : String) : Prop :=
  ∃ before dots letters after, name.toList = before ++ (dots ++ letters) ++ after ∧
    Text.allBlank before = true ∧ Text.allBlank after = true ∧ (∀ c ∈ dots, c = '.') ∧
    Language.SameLetters letters format.spelling

section Named

variable {format other : ExportFormat} {name : String} {letters : List Char} {c : Char}

theorem toList_extension (format : ExportFormat) : format.extension.toList = format.spelling := by
  cases format <;> decide

theorem isAlpha_spelling (format : ExportFormat) : ∀ c ∈ format.spelling, c.isAlpha = true := by
  rw [← List.all_eq_true]
  cases format <;> decide

theorem map_toLower_spelling (format : ExportFormat) :
    format.spelling.map Char.toLower = format.spelling := by
  cases format <;> decide

theorem spelling_ne_nil (format : ExportFormat) : format.spelling ≠ [] := by
  cases format <;> decide

theorem isAlpha_of_sameLetters (h : Language.SameLetters letters format.spelling) :
    ∀ c ∈ letters, c.isAlpha = true :=
  Language.SameLetters.isAlpha h.symm format.isAlpha_spelling

/-- No two formats have one name, so the first format that a name fits is the one that it names. -/
theorem find?_extension (h : Language.SameLetters letters format.spelling) :
    all.find? (fun format => format.extension.toList == letters.map Char.toLower) =
      some format := by
  rw [Language.SameLetters, map_toLower_spelling] at h
  simp only [toList_extension, h]
  cases format <;> decide

/-- A format is read from the texts that name it. -/
theorem read?_eq_some_iff : read? name = some format ↔ format.Named name := by
  constructor
  · intro h
    obtain ⟨before, after, hname, hbefore, hafter⟩ := Text.exists_eq_append_trim name.toList
    have hdots := List.takeWhile_append_dropWhile (p := (· == '.')) (l := Text.trim name.toList)
    refine ⟨before, _, _, after, by rw [hdots]; exact hname, hbefore, hafter, fun c hc => ?_, ?_⟩
    · exact beq_iff_eq.1 (List.mem_takeWhile_imp (p := (· == '.')) hc)
    · have hfound := List.find?_some h
      rw [beq_iff_eq, toList_extension] at hfound
      rw [Language.SameLetters, map_toLower_spelling]
      exact hfound.symm
  · rintro ⟨before, dots, letters, after, hname, hbefore, hafter, hdots, hletters⟩
    have halpha := isAlpha_of_sameLetters hletters
    have hsome : letters ≠ [] := by
      rintro rfl
      have hnil := List.length_eq_zero_iff.1 hletters.length_eq.symm
      exact spelling_ne_nil format hnil
    -- nothing to be trimmed is among the dots and letters
    have hplain : ∀ c ∈ dots ++ letters, Text.isBlank c = false := by
      intro c hc
      rcases List.mem_append.1 hc with hc | hc
      · rw [hdots c hc]
        rfl
      · exact Text.isBlank_of_isAlphanum (Language.isAlphanum_of_isAlpha (halpha c hc))
    have htrim : Text.trim name.toList = dots ++ letters := by
      rw [hname]
      exact (Text.trimmed_of_forall hplain).trim_append (by simp [hsome]) hbefore hafter
    -- a letter ends the dots
    have hdrop : (dots ++ letters).dropWhile (· == '.') = letters := by
      rw [List.dropWhile_append_of_pos fun c hc => beq_iff_eq.2 (hdots c hc)]
      refine List.dropWhile_eq_self_iff.2 fun hpos hdot => ?_
      have hfirst := halpha _ (List.getElem_mem hpos)
      rw [beq_iff_eq.1 hdot] at hfirst
      contradiction
    unfold read?
    dsimp only
    rw [htrim, hdrop]
    exact find?_extension hletters

/-- A format that is named is read in the same way, and any other name is refused. -/
theorem ofName_eq_ok_iff : ofName name = .ok format ↔ format.Named name := by
  rw [← read?_eq_some_iff, ofName]
  cases read? name with
  | none => exact ⟨nofun, nofun⟩
  | some found => exact by rw [Except.ok.injEq, Option.some.injEq]

end Named

end ExportFormat

/-! ## The format of an invocation -/

namespace Invocation

/-- The format that an invocation asks for: the one it names, else the one that the extension of its
output names, else plain text. -/
inductive AsksFor (i : Invocation) : ExportFormat → Prop where
  | named {name : String} {format : ExportFormat} (given : i.format = some name)
      (names : format.Named name) : AsksFor i format
  | byOutput {output text : String} {format : ExportFormat} (free : i.format = none)
      (goesTo : i.output = some output) (ending : FilePath.HasExtension output text.toList)
      (names : format.Named text) : AsksFor i format
  | plain (free : i.format = none)
      (other : ∀ (output text : String) (format : ExportFormat), i.output = some output →
        FilePath.HasExtension output text.toList → ¬ format.Named text) : AsksFor i .txt

/-- The format that is read off an output. -/
theorem read?_extension_eq_some_iff {output : Option String} {format : ExportFormat} :
    (output.bind FilePath.extension?).bind ExportFormat.read? = some format ↔
      ∃ path text, output = some path ∧ FilePath.HasExtension path text.toList ∧
        format.Named text := by
  simp only [Option.bind_eq_some_iff, FilePath.extension?_eq_some_iff,
    ExportFormat.read?_eq_some_iff]
  constructor
  · rintro ⟨text, ⟨path, houtput, hending⟩, hnames⟩
    exact ⟨path, text, houtput, hending, hnames⟩
  · rintro ⟨path, text, houtput, hending, hnames⟩
    exact ⟨text, ⟨path, houtput, hending⟩, hnames⟩

/-- The format chosen for an invocation is the one it asks for, and there is none if it names
something else. -/
theorem chooseFormat_eq_ok_iff {i : Invocation} {format : ExportFormat} :
    chooseFormat i.format i.output = .ok format ↔ i.AsksFor format := by
  cases hname : i.format with
  | some name =>
    constructor
    · intro h
      exact .named hname (ExportFormat.ofName_eq_ok_iff.1 h)
    · intro h
      cases h with
      | named given names =>
        cases hname.symm.trans given
        exact ExportFormat.ofName_eq_ok_iff.2 names
      | byOutput free | plain free => cases hname.symm.trans free
  | none =>
    show Except.ok (((i.output.bind FilePath.extension?).bind ExportFormat.read?).getD .txt) =
      .ok format ↔ _
    rw [Except.ok.injEq]
    -- the output either says which format, and then only one, or it says none
    cases hfound : (i.output.bind FilePath.extension?).bind ExportFormat.read? with
    | some found =>
      obtain ⟨output, text, houtput, hending, hnames⟩ := read?_extension_eq_some_iff.1 hfound
      constructor
      · rintro rfl
        exact .byOutput hname houtput hending hnames
      · intro h
        cases h with
        | named given => cases hname.symm.trans given
        | byOutput free goesTo ending names =>
          have hsame := read?_extension_eq_some_iff.2 ⟨_, _, goesTo, ending, names⟩
          rw [hfound] at hsame
          exact Option.some.inj hsame
        | plain free other => exact absurd hnames (other _ _ _ houtput hending)
    | none =>
      have hnothing {format : ExportFormat} :=
        mt (@read?_extension_eq_some_iff i.output format).2 (by rw [hfound]; exact nofun)
      constructor
      · rintro rfl
        exact .plain hname fun output text format houtput hending hnames =>
          hnothing ⟨output, text, houtput, hending, hnames⟩
      · intro h
        cases h with
        | named given => cases hname.symm.trans given
        | byOutput free goesTo ending names =>
          exact absurd ⟨_, _, goesTo, ending, names⟩ hnothing
        | plain => rfl

end Invocation

end SpeechTranscript
