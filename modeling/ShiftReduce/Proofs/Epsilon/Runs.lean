/-
  Running a parser without the empty texts.

  A parser looks at the body of a rule in one place: when a reduction fails, the
  diagnostic shows the rule. Apart from that text, parsers whose tables differ in
  the empty texts of their rule bodies do the same (`Table.parse_erased`). So an
  empty text in a rule body is either the reason why the grammar has no table, or
  it makes no difference (`Grammar.epsilon_refused_or_ignored`).
-/
import ShiftReduce.Proofs.Epsilon.Tables
import ShiftReduce.Proofs.Brackets
import ShiftReduce.Parser.Run

namespace ShiftReduce

variable {τ κ T N : Type}

/-! ### Diagnostics without rules -/

/-- The diagnostic without the text of a rule. -/
def Diagnostic.withoutRule : Diagnostic → Diagnostic
  | underflow _ held => .underflow "" held
  | noGoto _ key span => .noGoto "" key span
  | diagnostic => diagnostic

/-- The machine with the texts of rules taken out of its diagnostics. -/
def Machine.withoutRules (m : Machine T N) : Machine T N :=
  { m with diagnostics := m.diagnostics.map Diagnostic.withoutRule }

/-- The outcome with the texts of rules taken out of its diagnostics. -/
def Outcome.withoutRules : Outcome T N → Outcome T N
  | aborted diagnostics => aborted (diagnostics.map Diagnostic.withoutRule)
  | outcome => outcome

/-- The move with the empty texts taken out of the body of its rule. -/
def Move.erased : Move τ κ T N → Move τ κ T N
  | reduce place rule => reduce place rule.erased
  | move => move

/-- Whether two steps end in the same way: with the same machine and tree, or as aborted
steps with the same machine up to the texts of rules. -/
inductive Step.Alike : Step T N → Step T N → Prop
  | same (step : Step T N) : Alike step step
  | aborted {m m' : Machine T N} (same : m.withoutRules = m'.withoutRules) :
      Alike (.aborted m) (.aborted m')

theorem Machine.withoutRules_report (m : Machine T N) {diagnostic diagnostic' : Diagnostic}
    (same : diagnostic.withoutRule = diagnostic'.withoutRule) :
    (m.report diagnostic).withoutRules = (m.report diagnostic').withoutRules := by
  unfold withoutRules report
  rw [List.map_append, List.map_append, List.map_singleton, List.map_singleton, same]

namespace Table

variable [Ordered τ] [Ordered κ]

section Queries

variable (table : Table τ κ T N)

/-! ### Queries -/

@[simp] theorem expected_erased (state : Nat) :
    table.erased.expected state = table.expected state := rfl

theorem reducible_erased (state : Nat) :
    table.erased.reducible state = table.reducible state := rfl

theorem actionFor?_erased (state : Nat) (token : T) :
    table.erased.actionFor? state token = table.actionFor? state token := rfl

theorem reduction_erased (place : Nat) :
    table.erased.reduction place = (table.reduction place).erased := by
  have rules : table.erased.grammar.rule? place = (table.grammar.rule? place).map Rule.erased :=
    table.grammar.rule?_erased place
  rw [reduction, reduction, rules]
  cases table.grammar.rule? place <;> rfl

variable [DecidableEq κ]

@[simp] theorem goto?_erased (state : Nat) (key : κ) :
    table.erased.goto? state key = table.goto? state key := rfl

theorem unwind?_erased (start : Nat) (frames : List (Frame T N)) :
    table.erased.unwind? start frames = table.unwind? start frames := by
  induction frames with
  | nil => rfl
  | cons frame below ih =>
    rw [unwind?, unwind?, ih]
    rfl

theorem rescue_erased (stack : Stack T N) (input : List T) :
    table.erased.rescue stack input = table.rescue stack input := by
  unfold rescue
  rw [unwind?_erased]
  rfl

end Queries

/-! ### Moves -/

section Moves

variable (table : Table τ κ T N)

theorem moveOn_erased (stack : Stack T N) (token : T) :
    table.erased.moveOn stack token = (table.moveOn stack token).erased := by
  rw [moveOn, moveOn, choiceOn, choiceOn, actionFor?_erased]
  cases table.actionFor? stack.top token with
  | none => rfl
  | some entry =>
    obtain ⟨t, action⟩ := entry
    cases action with
    | shift state => rfl
    | reduce place => exact table.reduction_erased place

theorem moveAtEnd_erased [DecidableEq N] (goal : N) (stack : Stack T N) :
    table.erased.moveAtEnd goal stack = (table.moveAtEnd goal stack).erased := by
  unfold moveAtEnd choiceAtEnd
  cases stack.topNode?.filter fun tree => tree.kind? = some goal with
  | some tree => rfl
  | none =>
    dsimp only
    rw [reducible_erased]
    rcases table.reducible stack.top with _ | ⟨place, _ | ⟨place', rest⟩⟩
    · rfl
    · exact table.reduction_erased place
    · rfl

theorem move_erased [DecidableEq N] (goal : N) (stack : Stack T N) (input : List T) :
    table.erased.move goal stack input = (table.move goal stack input).erased := by
  cases input with
  | nil => exact table.moveAtEnd_erased goal stack
  | cons token rest => exact table.moveOn_erased stack token

end Moves

variable [DecidableEq κ] (table : Table τ κ T N)

variable [Named κ] [Token T]

/-- A reduction has the same result, or the same is told of its failure, up to the text of
the rule. -/
theorem reduceStack_erased (rule : Rule τ κ T N) (stack : Stack T N) :
    table.erased.reduceStack rule.erased stack = table.reduceStack rule stack ∨
      ∃ diagnostic diagnostic', table.reduceStack rule stack = .error diagnostic ∧
        table.erased.reduceStack rule.erased stack = .error diagnostic' ∧
        diagnostic'.withoutRule = diagnostic.withoutRule := by
  unfold reduceStack
  simp only [Rule.length_erased, Rule.key_erased, Rule.build_erased, goto?_erased]
  split
  · exact .inr ⟨_, _, rfl, rfl, rfl⟩
  · cases table.goto? (stack.drop rule.length).top rule.key with
    | some state => exact .inl rfl
    | none => exact .inr ⟨_, _, rfl, rfl, rfl⟩

theorem recoverAt_erased (m : Machine T N) (token : T) :
    table.erased.recoverAt m token = table.recoverAt m token := by
  unfold recoverAt
  simp only [rescue_erased, expected_erased]

/-! ### Runs -/

variable [DecidableEq N]

/-- A step does the same without the empty texts. -/
theorem step_erased (goal : N) (m : Machine T N) :
    (table.erased.step goal m).Alike (table.step goal m) := by
  unfold step
  rw [move_erased]
  cases table.move goal m.stack m.input with
  | accept tree => exact .same _
  | shift token state => exact .same _
  | reduce place rule =>
    dsimp only [Move.erased]
    generalize m.record (Machine.snapshot (.reduce place)) = m
    rcases table.reduceStack_erased rule m.stack with same | ⟨_, _, failed, failed', same⟩
    · rw [same]
      exact .same _
    · rw [failed, failed']
      exact .aborted (m.withoutRules_report same)
  | recover =>
    dsimp only [Move.erased]
    cases m.input with
    | nil => exact .same _
    | cons token rest =>
      dsimp only
      rw [recoverAt_erased]
      exact .same _

/-- So does a run. -/
theorem run_erased (goal : N) (budget : Nat) (m : Machine T N) :
    (table.erased.run goal budget m).1.withoutRules = (table.run goal budget m).1.withoutRules ∧
      (table.erased.run goal budget m).2.withoutRules =
        (table.run goal budget m).2.withoutRules := by
  induction budget generalizing m with
  | zero => exact ⟨rfl, rfl⟩
  | succ budget ih =>
    have alike := table.step_erased goal m
    rw [run, run]
    generalize table.step goal m = step, table.erased.step goal m = step' at alike
    cases alike with
    | same =>
      cases step with
      | next m => exact ih m
      | accepted tree m => exact ⟨rfl, rfl⟩
      | aborted m => exact ⟨rfl, rfl⟩
    | aborted same =>
      have diagnostics := congrArg Machine.diagnostics same
      exact ⟨congrArg Outcome.aborted diagnostics, same⟩

theorem parse_erased (goal : N) (budget : Nat) (m : Machine T N) :
    (table.erased.parse goal budget m).1.withoutRules =
        (table.parse goal budget m).1.withoutRules ∧
      (table.erased.parse goal budget m).2.withoutRules =
        (table.parse goal budget m).2.withoutRules := by
  have starts : table.erased.hasStart m = table.hasStart m := rfl
  unfold parse
  rw [starts]
  split
  · exact table.run_erased goal budget m
  · exact ⟨rfl, rfl⟩

end Table

/-! ### Empty texts in rule bodies -/

variable [Ordered τ] [Ordered κ] [DecidableEq τ] [DecidableEq κ] [DecidableEq N] [Named κ]
  [Token T]

/-- Empty texts in rule bodies are refused or ignored. A grammar has no table since some
item of a state expects the empty text, or taking the empty texts out of all rule bodies
changes nothing: the grammar is refused a table for the same reason in the same state, or it
has a table that is the same in everything but the rule bodies, and parsers with the two
tables do the same from any configuration on, for any goal, except that a diagnostic of a
failed reduction shows the rule. -/
theorem Grammar.epsilon_refused_or_ignored (g : Grammar τ κ T N) (start : κ)
    (placeholders : List (κ × Tree T N)) :
    (∃ state item, g.table start placeholders = .error (.blocked state (.epsilonExpected item)) ∧
      g.expected? item = some .epsilon) ∨
    (g.erased.table start placeholders = (g.table start placeholders).map Table.erased ∧
      ∀ table, g.table start placeholders = .ok table → ∀ goal budget (m : Machine T N),
        (table.erased.parse goal budget m).1.withoutRules =
            (table.parse goal budget m).1.withoutRules ∧
          (table.erased.parse goal budget m).2.withoutRules =
            (table.parse goal budget m).2.withoutRules) :=
  (g.table_erased start placeholders).imp_right fun same =>
    ⟨same, fun table _ => table.parse_erased⟩

omit [DecidableEq N] [Named κ] [Token T] in
/-- A grammar that has no table, but has one without the empty texts, is refused it since an
item expects the empty text. -/
theorem Grammar.exists_epsilonExpected_of_erased (g : Grammar τ κ T N) {start : κ}
    {placeholders : List (κ × Tree T N)} (refused : ¬ (g.table start placeholders).toOption.isSome)
    (kept : (g.erased.table start placeholders).toOption.isSome) :
    ∃ state item, g.table start placeholders = .error (.blocked state (.epsilonExpected item)) := by
  rcases g.table_erased start placeholders with ⟨state, item, blocked, _⟩ | same
  · exact ⟨state, item, blocked⟩
  · rw [same] at kept
    cases result : g.table start placeholders with
    | error failure =>
      rw [result] at kept
      exact absurd kept Bool.false_ne_true
    | ok table =>
      rw [result] at refused
      exact absurd rfl refused

namespace Brackets

/-- Balanced brackets with an empty text behind the last symbol of two rules. -/
def trailing : Grammar Mark Part Mark Part where
  alphabet := grammar.alphabet
  rules :=
    [rule .start [.nonterminal .text], rule .text [.nonterminal .list], rule .list [.epsilon],
      rule .list [.nonterminal .list, .nonterminal .group, .epsilon],
      rule .group [.terminal .opening, .nonterminal .list, .terminal .closing, .epsilon, .epsilon]]
  rules_ne_nil := List.cons_ne_nil _ _
  defined := defined_of_undefinedUse? rfl

/-- Balanced brackets with an empty text between two symbols of a rule. -/
def spaced : Grammar Mark Part Mark Part where
  alphabet := grammar.alphabet
  rules :=
    [rule .start [.nonterminal .text], rule .text [.nonterminal .list], rule .list [.epsilon],
      rule .list [.nonterminal .list, .nonterminal .group],
      rule .group [.terminal .opening, .epsilon, .nonterminal .list, .terminal .closing]]
  rules_ne_nil := List.cons_ne_nil _ _
  defined := defined_of_undefinedUse? rfl

/-- Without the empty texts behind them the rules are other rules, but the table and the
outcomes are the same. An empty text between symbols is refused. -/
theorem outcome_erased :
    trailing.erased.rules.map Rule.body ≠ trailing.rules.map Rule.body ∧
    (∃ table, trailing.table .start [] = .ok table ∧
      trailing.erased.table .start [] = .ok table.erased ∧
      ∀ goal budget marks, (table.erased.parseTokens goal budget marks).1.withoutRules =
        (table.parseTokens goal budget marks).1.withoutRules) ∧
    ∃ state item, spaced.table .start [] = .error (.blocked state (.epsilonExpected item)) := by
  refine ⟨by decide, ?_, ?_⟩
  · have isSome : (trailing.table .start []).toOption.isSome := by decide +kernel
    rcases trailing.epsilon_refused_or_ignored .start [] with ⟨_, _, refused, _⟩ | ⟨same, alike⟩
    · rw [refused] at isSome
      cases isSome
    · have built := eq_ok_get isSome
      rw [built] at same
      exact ⟨_, built, same, fun goal budget marks => (alike _ built goal budget _).1⟩
  · exact spaced.exists_epsilonExpected_of_erased (by decide +kernel) (by decide +kernel)

end Brackets

end ShiftReduce
