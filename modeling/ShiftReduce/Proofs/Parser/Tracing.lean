/-
  A parser does the same with a record and without.

  The record is written and never read. A step of a machine that keeps no record
  (`Machine.silent`) is the step of one that does, with the record left out
  (`step_silent`), and so is a whole parse (`parse_silent`). What a parse writes comes
  behind what was recorded before (`exists_history_of_parse`). So a parse that goes on with
  a record ends as it would without, and has only added to the record
  (`exists_parse_recording`).
-/
import ShiftReduce.Proofs.Parser.Trace

namespace ShiftReduce

variable {T N : Type}

/-! ### Leaving the record out -/

namespace Machine

variable (m : Machine T N)

/-- The machine without a record. -/
def silent : Machine T N := { m with history := none }

/-- The machine with these entries for its record, the earliest first. -/
def recording (entries : List (Snapshot T N)) : Machine T N :=
  { m with history := some entries.reverse }

@[simp] theorem stack_silent : m.silent.stack = m.stack := rfl

@[simp] theorem input_silent : m.silent.input = m.input := rfl

@[simp] theorem lastRecovery_silent : m.silent.lastRecovery = m.lastRecovery := rfl

@[simp] theorem silent_silent : m.silent.silent = m.silent := rfl

@[simp] theorem silent_recording (entries : List (Snapshot T N)) :
    (m.recording entries).silent = m.silent := rfl

@[simp] theorem diagnostics_recording (entries : List (Snapshot T N)) :
    (m.recording entries).diagnostics = m.diagnostics := rfl

/-- A machine is known by its record and by all the rest. -/
theorem eq_recording_of_silent {m m' : Machine T N} {entries : List (Snapshot T N)}
    (same : m.silent = m'.silent) (history : m.history = some entries.reverse) :
    m = m'.recording entries := by
  obtain ⟨stack, input, stats, diagnostics, lastRecovery, _⟩ := m
  obtain ⟨stack', input', stats', diagnostics', lastRecovery', _⟩ := m'
  injection same with sameStack sameInput sameStats sameDiagnostics sameRecovery
  subst sameStack sameInput sameStats sameDiagnostics sameRecovery history
  rfl

end Machine

/-- The step without a record. -/
def Step.silent : Step T N → Step T N
  | next m => .next m.silent
  | accepted tree m => .accepted tree m.silent
  | aborted m => .aborted m.silent

/-! ### Steps -/

variable {τ κ : Type} [Ordered τ] [Ordered κ] [DecidableEq κ] [Named κ] [Token T]

namespace Table

variable (table : Table τ κ T N)

omit [Named κ] [DecidableEq κ] in
theorem recoverAtEnd_silent (m : Machine T N) :
    table.recoverAtEnd m.silent = (table.recoverAtEnd m).silent := by
  unfold recoverAtEnd
  simp only [Machine.record_eq]
  rfl

theorem recoverAt_silent (m : Machine T N) (token : T) :
    table.recoverAt m.silent token = (table.recoverAt m token).silent := by
  unfold recoverAt
  simp only [Machine.record_eq, Machine.report, Machine.stack_silent, Machine.input_silent,
    Machine.lastRecovery_silent]
  by_cases stalled : m.lastRecovery = some m.input.length
  · rw [if_pos stalled, if_pos stalled]
    rfl
  · rw [if_neg stalled, if_neg stalled]
    cases table.rescue m.stack m.input <;> rfl

variable [DecidableEq N]

/-- A step without a record is the step with one, but for the record. -/
theorem step_silent (goal : N) (m : Machine T N) :
    table.step goal m.silent = (table.step goal m).silent := by
  unfold step
  simp only [Machine.record_eq, Machine.stack_silent, Machine.input_silent]
  cases table.move goal m.stack m.input with
  | accept tree => rfl
  | shift token state => rfl
  | reduce place rule =>
    dsimp only
    cases table.reduceStack rule m.stack <;> rfl
  | recover =>
    dsimp only
    cases m.input with
    | nil => exact table.recoverAtEnd_silent m
    | cons token rest => exact table.recoverAt_silent m token

/-! ### Runs -/

theorem run_silent (goal : N) (budget : Nat) (m : Machine T N) :
    table.run goal budget m.silent =
      ((table.run goal budget m).1, (table.run goal budget m).2.silent) := by
  induction budget generalizing m with
  | zero => rfl
  | succ budget ih =>
    rw [run, run, step_silent]
    cases table.step goal m with
    | next m' => exact ih m'
    | accepted tree m' => rfl
    | aborted m' => rfl

/-- So does a parse, from whatever it starts. -/
theorem parse_silent (goal : N) (budget : Nat) (m : Machine T N) :
    table.parse goal budget m.silent =
      ((table.parse goal budget m).1, (table.parse goal budget m).2.silent) := by
  unfold parse
  have starts : table.hasStart m.silent = table.hasStart m := rfl
  rw [starts]
  split
  · exact table.run_silent goal budget m
  · rfl

/-- A parse adds to the record and changes nothing in it. -/
theorem exists_history_of_parse (goal : N) (budget : Nat) (m : Machine T N) :
    ∃ added : List (Snapshot T N),
      (table.parse goal budget m).2.history = m.history.map (added.reverse ++ ·) := by
  by_cases starts : table.hasStart m = true
  · rw [parse, if_pos starts]
    obtain ⟨last, takes, ends⟩ := exists_ends_of_run table goal budget m
    obtain ⟨entries, records⟩ := takes.exists_records
    obtain ⟨closing, finishes⟩ := ends.exists_finishes
    refine ⟨entries ++ closing, ?_⟩
    rw [finishes.history, records.history, Option.map_map, List.reverse_append]
    congr 1
    funext earlier
    exact (List.append_assoc _ _ _).symm
  · refine ⟨[], ?_⟩
    rw [parse, if_neg starts]
    show m.history = m.history.map id
    rw [Option.map_id, id]

/-- A parse with a record has the outcome of the parse without, and comes to the same machine,
with some entries added to the record. -/
theorem exists_parse_recording (goal : N) (budget : Nat) (m : Machine T N)
    (earlier : List (Snapshot T N)) :
    ∃ added, table.parse goal budget (m.recording earlier) =
      ((table.parse goal budget m.silent).1,
        (table.parse goal budget m.silent).2.recording (earlier ++ added)) := by
  obtain ⟨added, history⟩ := table.exists_history_of_parse goal budget (m.recording earlier)
  have silent := table.parse_silent goal budget (m.recording earlier)
  rw [Machine.silent_recording] at silent
  refine ⟨added, Prod.ext ?_ (Machine.eq_recording_of_silent ?_ ?_)⟩
  · rw [silent]
  · rw [silent, Machine.silent_silent]
  · rw [history, List.reverse_append]
    rfl

/-- With a new record a table is driven to the same end. -/
theorem exists_drive_recording (goal : N) (budget : Nat) (tokens : List T) :
    ∃ history, table.drive goal budget 0 { input := tokens, history := some [] } =
      ((table.drive goal budget 0 { input := tokens }).1,
        { (table.drive goal budget 0 { input := tokens }).2 with history := history }) := by
  obtain ⟨added, recorded⟩ :=
    table.exists_parse_recording goal budget { stack := .base 0, input := tokens } []
  have drives := table.drive_eq goal budget 0 { input := tokens, history := some [] }
  rw [drive_tokens, drives]
  exact ⟨_, congrArg (fun result => (result.1, result.2.progress)) recorded⟩

/-- An aborted parse tells all its diagnostics. -/
theorem diagnostics_of_aborted {goal : N} {budget : Nat} {tokens : List T}
    {diagnostics : List Diagnostic}
    (aborts : (table.drive goal budget 0 { input := tokens }).1 = .aborted diagnostics) :
    (table.drive goal budget 0 { input := tokens }).2.diagnostics = diagnostics := by
  rw [drive_tokens] at aborts ⊢
  unfold parseTokens at aborts ⊢
  have accounts := table.accounts_of_parse goal budget { stack := .base 0, input := tokens }
  rw [aborts] at accounts
  obtain ⟨_, _, ends⟩ := accounts.reports
  exact ends.1.symm

end Table

end ShiftReduce
