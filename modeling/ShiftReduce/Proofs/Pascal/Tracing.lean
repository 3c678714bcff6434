/-
  Reading a Pascal source step by step is reading it.

  Both ways of reading cut the source into tokens and run the same parser on them, one with a
  record and one without. So they are refused for the same text that is no token, and else
  they come to the same tree or the same failure, with the same diagnostics
  (`recording_changes_nothing`). A parse never uses up its budget, so there is no third way
  for it to end.
-/
import ShiftReduce.Proofs.Parser.Tracing
import ShiftReduce.Proofs.Pascal.Budget

namespace ShiftReduce.Pascal

variable {source : String} {tokens : List Token}

/-- An outcome that is not the budget running out is a tree or a failure that tells. -/
theorem resultOf_cases {outcome : Outcome Token NodeKind} {diagnostics : List Diagnostic}
    (ends : outcome ≠ .unfinished)
    (tells : ∀ told, outcome = .aborted told → diagnostics = told) :
    (∃ tree, resultOf outcome = .ok tree) ∨ resultOf outcome = .error (.aborted diagnostics) := by
  cases outcome with
  | accepted tree => exact .inl ⟨tree, rfl⟩
  | aborted told =>
    obtain rfl := tells told rfl
    exact .inr rfl
  | unfinished => exact absurd rfl ends

/-- Read step by step, some tokens have the result that they have without the steps. -/
theorem exists_parseTraced_of_tokenize (scanned : tokenize source = .ok tokens) :
    ∃ traced, parseTraced source = .ok traced ∧
      traced.result = resultOf (parseProgram tokens).1 ∧
      traced.diagnostics = (parseProgram tokens).2.diagnostics := by
  obtain ⟨added, recorded⟩ := table.exists_drive_recording .program (budget tokens) tokens
  unfold parseTraced parseProgram
  rw [scanned, ok_bind, recorded]
  rcases table.drive .program (budget tokens) 0 { input := tokens } with ⟨outcome, progress⟩
  exact ⟨_, rfl, rfl, rfl⟩

theorem parseTraced_of_error {error : LexError} (scanned : tokenize source = .error error) :
    parseTraced source = .error error := by
  unfold parseTraced
  rw [scanned]
  rfl

/-- Reading a source is reading it step by step, less the steps. -/
theorem parse_eq (source : String) :
    parse source =
      match parseTraced source with
      | .error error => .error (.lexing error)
      | .ok traced => traced.result.map fun tree => ⟨tree, traced.diagnostics⟩ := by
  cases scanned : tokenize source with
  | error error =>
    rw [parseTraced_of_error scanned]
    unfold parse
    rw [scanned]
    rfl
  | ok tokens =>
    obtain ⟨traced, isTraced, result, diagnostics⟩ := exists_parseTraced_of_tokenize scanned
    rw [isTraced, parse_of_tokenize scanned, ← result, ← diagnostics]

/-- A parse has a tree, or it is aborted and tells all its diagnostics. -/
theorem result_cases {traced : Traced} (isTraced : parseTraced source = .ok traced) :
    (∃ tree, traced.result = .ok tree) ∨
      traced.result = .error (.aborted traced.diagnostics) := by
  cases scanned : tokenize source with
  | error error =>
    rw [parseTraced_of_error scanned] at isTraced
    cases isTraced
  | ok tokens =>
    obtain ⟨_, isTraced', result, diagnostics⟩ := exists_parseTraced_of_tokenize scanned
    obtain rfl := Except.ok.inj (isTraced'.symm.trans isTraced)
    rw [result, diagnostics]
    refine resultOf_cases (parseProgram_ne_unfinished tokens) fun told aborted => ?_
    -- with the call of the driver in sight, the table is not evaluated
    rw [parseProgram] at aborted ⊢
    exact table.diagnostics_of_aborted aborted

/-- Recording has no influence. Whatever the table, a parse with a record has the outcome of the
parse without, and comes to the same machine (with the same stack, input, statistics and
diagnostics), but that entries are added to its record. So a Pascal source is refused for the
same text that is no token however it is read; and else there is one tree, or one failure, with
the same diagnostics, and a failure tells all of them. -/
theorem recording_changes_nothing :
    (∀ {τ κ T N : Type} [Ordered τ] [Ordered κ] [DecidableEq κ] [DecidableEq N] [Named κ]
      [ShiftReduce.Token T] (table : ShiftReduce.Table τ κ T N) (goal : N) (budget : Nat)
      (m : Machine T N) (earlier : List (Snapshot T N)), ∃ added,
        table.parse goal budget (m.recording earlier) =
          ((table.parse goal budget m.silent).1,
            (table.parse goal budget m.silent).2.recording (earlier ++ added))) ∧
    ∀ source : String,
      (∀ error, parseTraced source = .error error ↔ parse source = .error (.lexing error)) ∧
      ∀ traced, parseTraced source = .ok traced →
        ((∃ tree, traced.result = .ok tree) ∨
          traced.result = .error (.aborted traced.diagnostics)) ∧
        (∀ program, parse source = .ok program ↔
          traced.result = .ok program.tree ∧ traced.diagnostics = program.diagnostics) ∧
        ∀ diagnostics, parse source = .error (.aborted diagnostics) ↔
          traced.result = .error (.aborted diagnostics) := by
  refine ⟨fun table goal budget m earlier => table.exists_parse_recording goal budget m earlier,
    fun source => ?_⟩
  rw [parse_eq]
  cases isTraced : parseTraced source with
  | error error => exact ⟨fun error' => by simp, nofun⟩
  | ok traced =>
    -- a traced parse comes to a tree, or tells all diagnostics
    rcases result_cases isTraced with ⟨tree, result⟩ | result
    · dsimp only
      rw [result]
      refine ⟨fun error => iff_of_false nofun nofun, ?_⟩
      rintro _ ⟨⟩
      refine ⟨.inl ⟨tree, result⟩, fun program => ?_, fun diagnostics => iff_of_false nofun ?_⟩
      · obtain ⟨tree', diagnostics'⟩ := program
        simp [result, Except.map]
      · rw [result]
        exact nofun
    · dsimp only
      rw [result]
      refine ⟨fun error => iff_of_false nofun nofun, ?_⟩
      rintro _ ⟨⟩
      refine ⟨.inr result, fun program => iff_of_false nofun ?_, fun diagnostics => ?_⟩
      · rw [result]
        rintro ⟨⟨⟩, _⟩
      · simp [result, Except.map]

/-- The broken program is read step by step to the same tree, with the same two errors. -/
theorem recording_broken : ∃ traced program, parseTraced broken = .ok traced ∧
    parse broken = .ok program ∧ program.diagnostics.length = 2 ∧
    traced.result = .ok program.tree ∧ traced.diagnostics = program.diagnostics := by
  obtain ⟨program, ok, count⟩ := exists_program_broken
  obtain ⟨tokens, _, scanned, _⟩ := exists_tokens_of_parse ok
  obtain ⟨_, isTraced, _⟩ := exists_parseTraced_of_tokenize scanned
  obtain ⟨_, agrees⟩ := recording_changes_nothing.2 broken
  obtain ⟨_, accepted, _⟩ := agrees _ isTraced
  obtain ⟨result, diagnostics⟩ := (accepted program).mp ok
  exact ⟨_, program, isTraced, ok, count, result, diagnostics⟩

end ShiftReduce.Pascal
