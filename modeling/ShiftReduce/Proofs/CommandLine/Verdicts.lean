/-
  The verdicts of the command that reads a program, with its steps and without.

  Both ways of running it print the same tree, the steps before it, and both fail on a source
  that has no tree. They differ where the parser has recovered from errors: without the steps
  these make the command fail (`code_parseReport`), and with the steps they do not
  (`code_traceReport`). So the verdict depends on the flag for the steps exactly where there
  is a tree and an error (`verdicts_of_file`).
-/
import Mathlib.Data.String.Basic
import ShiftReduce.CommandLine.Command
import ShiftReduce.CommandLine.FileTree
import ShiftReduce.Proofs.Pascal.Tracing

namespace ShiftReduce

namespace CommandReport

variable (report : CommandReport)

@[simp] theorem code_fail (message : String) (causes : List String) :
    (report.fail message causes).code = 1 := rfl

@[simp] theorem output_fail (message : String) (causes : List String) :
    (report.fail message causes).output = report.output := rfl

@[simp] theorem code_failWith (failure : Pascal.Failure) : (report.failWith failure).code = 1 := by
  unfold failWith
  split <;> rfl

@[simp] theorem code_withDiagnostics (diagnostics : List Diagnostic) :
    (report.withDiagnostics diagnostics).code = report.code := rfl

@[simp] theorem output_withDiagnostics (diagnostics : List Diagnostic) :
    (report.withDiagnostics diagnostics).output = report.output := rfl

end CommandReport

/-! ### Paths -/

namespace FileTree

open String

/-- Behind the slashes, a text goes into one piece. -/
theorem splitOnAux_slash (before after : List Char) (plain : '/' ∉ after) :
    splitOnAux (ofList (before ++ after)) "/" 0 ⟨utf8Len before⟩ 0 [] =
      [ofList (before ++ after)] := by
  induction after generalizing before with
  | nil =>
    have whole := extract_of_valid [] before []
    simp only [List.nil_append, utf8Len_nil, Nat.zero_add] at whole
    rw [splitOnAux, if_pos ((atEnd_of_valid before []).mpr rfl)]
    simpa using whole
  | cons c after ih =>
    have other : c ≠ '/' := fun eq => plain (eq ▸ List.mem_cons_self)
    have slash : Pos.Raw.get "/" 0 = '/' := by decide
    have moved : Pos.Raw.next (ofList (before ++ c :: after))
        (Pos.Raw.unoffsetBy ⟨utf8Len before⟩ 0) = ⟨utf8Len (before ++ [c])⟩ := by
      rw [utf8Len_append, utf8Len_cons, utf8Len_nil, Nat.zero_add]
      exact next_of_valid before c after
    have rest := ih (before ++ [c]) fun mem => plain (List.mem_cons_of_mem _ mem)
    rw [List.append_assoc, List.singleton_append] at rest
    rw [splitOnAux, if_neg (by rw [atEnd_of_valid]; exact nofun), get_of_valid, slash,
      if_neg (by simpa using other), moved]
    exact rest

/-- A path without a slash is a name. -/
theorem names_of_plain {path : String} (plain : '/' ∉ path.toList) (isSome : path ≠ "") :
    names path = [path] := by
  have pieces : splitOnAux path "/" 0 0 0 [] = [path] := by
    have pieces := splitOnAux_slash [] path.toList plain
    rwa [List.nil_append, ofList_toList] at pieces
  unfold names splitOn
  rw [if_neg (by decide), pieces]
  simpa using isSome

end FileTree

namespace Command

variable {source : String} {program : Pascal.Program}

/-! ### Reports on a source -/

/-- The command succeeds if the source is read without an error. -/
theorem code_parseReport (source : String) :
    (parseReport source).code =
      if (Pascal.parse source).toOption.any Pascal.Program.isClean then 0 else 1 := by
  unfold parseReport
  cases Pascal.parse source with
  | error failure => simp [Except.toOption]
  | ok program => cases clean : program.isClean <;> simp [Except.toOption, clean]

/-- With the steps it succeeds if the source has a tree. -/
theorem code_traceReport (source : String) :
    (traceReport source).code = if (Pascal.parse source).toOption.isSome then 0 else 1 := by
  unfold traceReport
  rw [Pascal.parse_eq]
  cases Pascal.parseTraced source with
  | error error => simp [Except.toOption]
  | ok traced => cases result : traced.result <;> simp [Except.toOption, Except.map, result]

/-- What is printed of a program is its tree. -/
theorem output_parseReport (ok : Pascal.parse source = .ok program) :
    (parseReport source).output = program.tree.layout := by
  unfold parseReport
  rw [ok]
  cases clean : program.isClean <;> simp [clean]

/-- With the steps, these are printed before the tree. -/
theorem exists_output_traceReport (ok : Pascal.parse source = .ok program) :
    ∃ rows, (traceReport source).output = rows ++ program.tree.layout := by
  obtain ⟨tokens, _, scanned, _⟩ := Pascal.exists_tokens_of_parse ok
  obtain ⟨traced, isTraced, _⟩ := Pascal.exists_parseTraced_of_tokenize scanned
  rw [Pascal.parse_eq, isTraced] at ok
  change traced.result.map (fun tree => Pascal.Program.mk tree traced.diagnostics) = .ok program
    at ok
  unfold traceReport
  rw [isTraced]
  cases result : traced.result with
  | error failure =>
    rw [result] at ok
    cases ok
  | ok tree =>
    rw [result] at ok
    obtain rfl := Except.ok.inj ok
    exact ⟨_, by simp only [result]; rfl⟩

/-! ### Running on a file -/

theorem fromUTF8?_toUTF8 (text : String) : String.fromUTF8? text.toUTF8 = some text := by
  unfold String.fromUTF8?
  exact dif_pos text.isValidUTF8

/-- A command that reads a file reports on the text in it, and changes no file. -/
theorem runArgs_of_read {tree : FileTree} {file : String} {trace : Bool} {args : List String}
    (isFile : tree.read file = .ok source.toUTF8) (asks : ofArgs? args = some (.parse file trace)) :
    (runArgs args : StateM FileTree CommandReport) tree =
      (if trace then traceReport source else parseReport source, tree) := by
  have text : (Files.readText file : StateM FileTree (Except FileError String)) tree =
      (.ok source, tree) := by
    unfold Files.readText
    simp only [Files.read, Bind.bind, StateT.bind, isFile, fromUTF8?_toUTF8]
    rfl
  unfold runArgs
  rw [asks]
  simp only [run, Bind.bind, StateT.bind, text]
  rfl

/-- The exit code of a command that reads a file with a program in it. -/
theorem code_runArgs {tree : FileTree} {file : String} {trace : Bool} {args : List String}
    (isFile : tree.read file = .ok source.toUTF8) (asks : ofArgs? args = some (.parse file trace))
    (ok : Pascal.parse source = .ok program) :
    ((runArgs args : StateM FileTree CommandReport) tree).1.code =
      if trace || program.isClean then 0 else 1 := by
  rw [runArgs_of_read isFile asks]
  cases trace with
  | false =>
    change (parseReport source).code = _
    rw [code_parseReport, ok]
    rfl
  | true =>
    change (traceReport source).code = _
    rw [code_traceReport, ok]
    rfl

/-- The verdict on a source depends on the steps exactly where the parser has recovered: the
command that prints only the tree then fails, and the one that prints the steps succeeds.
Whatever the source, neither changes a file, and where there is a tree, what is printed without
the steps is the end of what is printed with them. -/
theorem verdicts_of_file {tree : FileTree} {file : String} {plain stepwise : List String}
    (isFile : tree.read file = .ok source.toUTF8)
    (asksPlain : ofArgs? plain = some (.parse file false))
    (asksStepwise : ofArgs? stepwise = some (.parse file true)) :
    ∃ report traced : CommandReport,
      (runArgs plain : StateM FileTree CommandReport) tree = (report, tree) ∧
      (runArgs stepwise : StateM FileTree CommandReport) tree = (traced, tree) ∧
      (report.code ≠ traced.code ↔ ∃ program, Pascal.parse source = .ok program ∧
        program.isClean = false) ∧
      (∀ failure, Pascal.parse source = .error failure → report.code = 1 ∧ traced.code = 1) ∧
      ∀ program, Pascal.parse source = .ok program →
        report.code = (if program.isClean then 0 else 1) ∧ traced.code = 0 ∧
        ∃ rows, traced.output = rows ++ report.output := by
  refine ⟨parseReport source, traceReport source, runArgs_of_read isFile asksPlain,
    runArgs_of_read isFile asksStepwise, ?_, fun failure refused => ?_, fun program ok => ?_⟩
  · rw [code_parseReport, code_traceReport]
    cases parsed : Pascal.parse source with
    | error failure => simp [Except.toOption]
    | ok program => cases clean : program.isClean <;> simp [Except.toOption, clean]
  · rw [code_parseReport, code_traceReport, refused]
    exact ⟨rfl, rfl⟩
  · obtain ⟨rows, printed⟩ := exists_output_traceReport ok
    refine ⟨?_, ?_, rows, ?_⟩
    · rw [code_parseReport, ok]
      rfl
    · rw [code_traceReport, ok]
      rfl
    · rw [printed, output_parseReport ok]

/-! ### A recovered program -/

/-- A directory that has the broken program for its only file. -/
def brokenFiles : FileTree := FileTree.ofFiles [] [("input.pas", Pascal.broken.toUTF8)]

theorem read_brokenFiles : brokenFiles.read "input.pas" = .ok Pascal.broken.toUTF8 := by
  have noSlash : "input.pas".endsWith "/" = false := by decide +kernel
  have relative : "input.pas".startsWith "/" = false := by decide +kernel
  unfold FileTree.read FileTree.followAll
  rw [FileTree.names_of_plain (by decide) (by decide), if_neg (by decide), if_neg (by decide)]
  simp only [noSlash, relative]
  rfl

theorem ofArgs?_parse : ofArgs? ["parse", "input.pas"] = some (.parse "input.pas" false) := by
  decide +kernel

theorem ofArgs?_parse_trace :
    ofArgs? ["parse", "--trace", "input.pas"] = some (.parse "input.pas" true) := by
  decide +kernel

theorem exists_not_isClean_of_broken :
    ∃ program, Pascal.parse Pascal.broken = .ok program ∧ program.isClean = false := by
  obtain ⟨program, ok, count⟩ := Pascal.exists_program_broken
  refine ⟨program, ok, ?_⟩
  rw [Pascal.Program.isClean, List.isEmpty_eq_false_iff, ← List.length_pos_iff, count]
  decide

/-- The broken program is read with errors; these make the command fail without the steps. -/
theorem verdicts_of_broken : ∃ report traced : CommandReport,
    (runArgs ["parse", "input.pas"] : StateM FileTree CommandReport) brokenFiles =
      (report, brokenFiles) ∧
    (runArgs ["parse", "--trace", "input.pas"] : StateM FileTree CommandReport) brokenFiles =
      (traced, brokenFiles) ∧
    report.code ≠ traced.code ∧ ∃ rows, traced.output = rows ++ report.output := by
  obtain ⟨program, ok, notClean⟩ := exists_not_isClean_of_broken
  obtain ⟨report, traced, runs, runsStepwise, differ, _, reports⟩ :=
    verdicts_of_file read_brokenFiles ofArgs?_parse ofArgs?_parse_trace
  exact ⟨report, traced, runs, runsStepwise, differ.mpr ⟨program, ok, notClean⟩,
    (reports program ok).2.2⟩

/-- With the steps the command succeeds on the broken program, on which it fails without. -/
theorem steps_hide_errors :
    ((runArgs ["parse", "input.pas"] : StateM FileTree CommandReport) brokenFiles).1.code = 1 ∧
    ((runArgs ["parse", "--trace", "input.pas"] : StateM FileTree CommandReport)
      brokenFiles).1.code = 0 := by
  obtain ⟨program, ok, notClean⟩ := exists_not_isClean_of_broken
  rw [code_runArgs read_brokenFiles ofArgs?_parse ok,
    code_runArgs read_brokenFiles ofArgs?_parse_trace ok, notClean]
  exact ⟨rfl, rfl⟩

end Command

end ShiftReduce
