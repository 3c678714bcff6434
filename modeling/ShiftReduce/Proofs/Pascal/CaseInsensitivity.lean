/-
  The case of letters in a program.

  A scan of a source in small letters has the items of the source, in small letters
  (`lexemes_toLower`), and the parser does not read how a token is spelled
  (`table_ignoresSpelling`). So reading a source in small letters is reading it, but that the
  texts of its tokens are in small letters (`parse_toLower`). Sources that differ in the case of
  letters only are the same in small letters, and are read alike (`reads_alike`).
-/
import ShiftReduce.Proofs.Parser.Respelling
import ShiftReduce.Proofs.Pascal.LetterCase
import ShiftReduce.Proofs.Pascal.Recovered

namespace ShiftReduce.Pascal

/-! ### Tokens in small letters -/

/-- The tokens in small letters. -/
def smallLetters : Respelling Token where
  token := Token.lower
  text := String.toLower
  text_token := fun _ => rfl
  span_token := fun _ => rfl

/-- A list of statements grows in the same way. -/
theorem appendStatement_respell (nodes : List Tree) :
    appendStatement (nodes.map (Tree.respell smallLetters)) =
      (appendStatement nodes).respell smallLetters := by
  cases nodes with
  | nil => simp [appendStatement]
  | cons first added =>
    cases first with
    | leaf token => simp [appendStatement]
    | branch kind listed => cases kind <;> simp [appendStatement]

theorem table_ignoresSpelling : table.IgnoresSpelling smallLetters := by
  have grammar_table : table.grammar = grammar := (Grammar.automaton_of_table table_eq).grammar
  refine ⟨fun t token => ?_, fun rule isRule nodes => ?_, fun entry isIn => ?_⟩
  · rw [grammar_table]
    rfl
  · rw [grammar_table] at isRule
    rcases build_cases rule isRule with plain | ⟨appends, _⟩
    · rw [plain, Tree.respell_branch]
    · rw [appends, appendStatement_respell]
  · rw [placeholders_table] at isIn
    obtain rfl := List.mem_singleton.mp isIn
    exact Tree.respell_branch smallLetters _ _

/-! ### Results in small letters -/

/-- The program in small letters: its tree, and the texts that its diagnostics quote. -/
def Program.lower (program : Program) : Program :=
  ⟨program.tree.respell smallLetters, program.diagnostics.map (Diagnostic.respell smallLetters)⟩

/-- The failure with the texts that it quotes in small letters. -/
def Failure.lower : Failure → Failure
  | lexing error => lexing error.lower
  | aborted diagnostics => aborted (diagnostics.map (Diagnostic.respell smallLetters))
  | unfinished => unfinished

/-- Where the errors are that a parser has recovered from. -/
def Program.errorSpans (program : Program) : List (Option Span) :=
  program.diagnostics.map Diagnostic.span?

/-- Where the errors are that a failure tells. -/
def Failure.errorSpans : Failure → List (Option Span)
  | lexing error => [some error.span]
  | aborted diagnostics => diagnostics.map Diagnostic.span?
  | unfinished => []

theorem errorSpans_respell (diagnostics : List Diagnostic) :
    (diagnostics.map (Diagnostic.respell smallLetters)).map Diagnostic.span? =
      diagnostics.map Diagnostic.span? := by
  simp

theorem Program.errorSpans_lower (program : Program) :
    program.lower.errorSpans = program.errorSpans :=
  errorSpans_respell program.diagnostics

theorem Failure.errorSpans_lower (failure : Failure) :
    failure.lower.errorSpans = failure.errorSpans := by
  cases failure with
  | lexing error => rfl
  | aborted diagnostics => exact errorSpans_respell diagnostics
  | unfinished => rfl

/-! ### Reading -/

theorem parseProgram_lower (tokens : List Token) :
    parseProgram (tokens.map Token.lower) =
      ((parseProgram tokens).1.respell smallLetters,
        (parseProgram tokens).2.respell smallLetters) := by
  have length : budget (tokens.map Token.lower) = budget tokens := by
    rw [budget, budget, List.length_map]
  have respelled : table.parseTokens .program (budget tokens) (tokens.map Token.lower) = _ :=
    table_ignoresSpelling.parseTokens_respell .program (budget tokens) tokens {}
  unfold parseProgram
  rw [length, Table.drive_tokens, Table.drive_tokens, respelled, Machine.progress_respell]

theorem parse_of_error {source : String} {error : LexError}
    (scanned : tokenize source = .error error) : parse source = .error (.lexing error) := by
  unfold parse
  rw [scanned]
  rfl

/-- Reading a source in small letters is reading it, and then putting what was read in small
letters. -/
theorem parse_toLower (source : String) :
    parse source.toLower = ((parse source).mapError Failure.lower).map Program.lower := by
  have scanned := tokenize_toLower source
  cases isScanned : tokenize source with
  | error error =>
    rw [isScanned] at scanned
    rw [parse_of_error isScanned, parse_of_error scanned]
    rfl
  | ok tokens =>
    rw [isScanned] at scanned
    rw [parse_of_tokenize isScanned, parse_of_tokenize scanned, parseProgram_lower]
    -- from here on the table is out of sight, which would be evaluated otherwise
    generalize parseProgram tokens = result
    obtain ⟨outcome, m⟩ := result
    cases outcome <;> rfl

/-! ### Sources that differ in the case of letters -/

/-- Pascal does not depend on the case of letters. Sources that are the same in small letters have
the same items in small letters: as many tokens and errors, of the same kinds and at the same
places. If one of them is read as a program, so is the other, with the same tree in small letters
and errors at the same places; and if one is refused, so is the other, for the same reason in small
letters and with errors at the same places. -/
theorem reads_alike {source source' : String} (same : source.toLower = source'.toLower) :
    (lexemes source).map Lexeme.lower = (lexemes source').map Lexeme.lower ∧
      (∀ program, parse source = .ok program → ∃ program', parse source' = .ok program' ∧
        program.tree.respell smallLetters = program'.tree.respell smallLetters ∧
        program.errorSpans = program'.errorSpans) ∧
      ∀ failure, parse source = .error failure → ∃ failure', parse source' = .error failure' ∧
        failure.lower = failure'.lower ∧ failure.errorSpans = failure'.errorSpans := by
  have items : (lexemes source).map Lexeme.lower = (lexemes source').map Lexeme.lower := by
    rw [← lexemes_toLower, ← lexemes_toLower, same]
  have results : ((parse source).mapError Failure.lower).map Program.lower =
      ((parse source').mapError Failure.lower).map Program.lower := by
    rw [← parse_toLower, ← parse_toLower, same]
  refine ⟨items, fun program ok => ?_, fun failure refused => ?_⟩
  · rw [ok] at results
    cases ok' : parse source' with
    | error failure' =>
      rw [ok'] at results
      cases results
    | ok program' =>
      rw [ok'] at results
      have lowers : program.lower = program'.lower := Except.ok.inj results
      refine ⟨program', rfl, congrArg Program.tree lowers, ?_⟩
      rw [← program.errorSpans_lower, lowers, program'.errorSpans_lower]
  · rw [refused] at results
    cases refused' : parse source' with
    | error failure' =>
      rw [refused'] at results
      have lowers : failure.lower = failure'.lower := Except.error.inj results
      refine ⟨failure', rfl, lowers, ?_⟩
      rw [← failure.errorSpans_lower, lowers, failure'.errorSpans_lower]
    | ok program' =>
      rw [refused'] at results
      cases results

/-- The broken program with some letters in the other case. -/
def shouted : String := "Program P; BEGIN while A < 1 dO b := ; c := 2; ) enD."

/-- It is read with the same two errors. -/
theorem reads_shouted : broken.toLower = shouted.toLower ∧
    ∃ program program', parse broken = .ok program ∧ parse shouted = .ok program' ∧
      program.tree.respell smallLetters = program'.tree.respell smallLetters ∧
      program.errorSpans = program'.errorSpans ∧ program.errorSpans.length = 2 := by
  have same : broken.toLower = shouted.toLower := by
    rw [← String.toList_inj, toList_toLower, toList_toLower]
    decide +kernel
  obtain ⟨program, ok, count⟩ := exists_program_broken
  obtain ⟨_, reads, _⟩ := reads_alike same
  obtain ⟨program', ok', trees, spans⟩ := reads program ok
  refine ⟨same, program, program', ok, ok', trees, spans, ?_⟩
  rw [Program.errorSpans, List.length_map, count]

end ShiftReduce.Pascal
