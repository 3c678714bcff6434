/-
  What the table of the Pascal subset decides.

  Two rules of the grammar leave open where a text that comes behind them
  belongs: an operator may take up an expression or leave it to the operator
  before (`infixRule`), and an `else` may belong to an `if` (`ifRule`,
  `ifElseRule`). These are the only choices that the table has made
  (`eq_of_decides`): operators go by precedence, and ties to the left; an `else`
  goes to the nearest `if`.
-/
import ShiftReduce.Pascal.Parser
import ShiftReduce.Proofs.Parser.Completeness
import ShiftReduce.Proofs.Precedence.Settled

namespace ShiftReduce.Pascal

/-- The derivations of the Pascal subset. -/
abbrev Derivation := ShiftReduce.Derivation Terminal Nonterminal Token NodeKind

/-! ### Rules with a choice -/

/-- The infix operators. -/
def operators : List Terminal := [.plus, .minus, .star, .slash, .caret]

/-- The right operand of an operator: a power has a factor for its exponent. -/
def rightOperand : Terminal → Nonterminal
  | .caret => .factor
  | _ => .expression

/-- The rule of an operator. -/
def infixRule (i : Terminal) : Rule := operatorRule i (rightOperand i)

/-- The rule for an expression that is a factor. -/
def factorRule : Rule where
  key := .expression
  kind := .expression
  parts := [non .factor]

/-- The rule for an `if` without an `else`. -/
def ifRule : Rule where
  key := .ifStatement
  kind := .if_
  parts := [tok .ifWord, non .boolExpression, tok .thenWord, non .statement]

/-- The rule for an `if` with an `else`. -/
def ifElseRule : Rule where
  key := .ifStatement
  kind := .ifElse
  parts := [tok .ifWord, non .boolExpression, tok .thenWord, non .statement, tok .elseWord,
    non .statement]

/-- The place of an operator's rule. -/
def operatorPlace : Terminal → Nat
  | .plus => 17
  | .minus => 18
  | .star => 19
  | .slash => 20
  | _ => 21

theorem rule?_operatorPlace {i : Terminal} (isOperator : i ∈ operators) :
    grammar.rule? (operatorPlace i) = some (infixRule i) := by
  simp only [operators, List.mem_cons, List.not_mem_nil, or_false] at isOperator
  rcases isOperator with rfl | rfl | rfl | rfl | rfl <;> rfl

theorem infixRule_inj {i j : Terminal} (same : infixRule i = infixRule j) : i = j := by
  have bodies := congrArg ShiftReduce.Rule.body same
  exact Symbol.terminal.inj (List.cons.inj (List.cons.inj bodies).2).1

theorem get_eq_of_rule? {place : Fin 26} {rule : Rule}
    (found : grammar.rule? place.val = some rule) : rules.get place = rule :=
  (List.getElem_eq_iff place.isLt).mpr found

/-- An operator stands in its own rule only. -/
theorem eq_infixRule {i : Terminal} (isOperator : i ∈ operators) {rule : Rule}
    (isRule : rule ∈ grammar.rules) (used : tok i ∈ rule.body) : rule = infixRule i := by
  have check : ∀ place : Fin 26, ∀ i ∈ operators, tok i ∈ (rules.get place).body →
      place.val = operatorPlace i := by decide
  obtain ⟨place, rfl⟩ := List.mem_iff_get.mp isRule
  have found := rule?_operatorPlace isOperator
  rw [← check place i isOperator used] at found
  exact get_eq_of_rule? found

/-- An `else` stands in its own rule only. -/
theorem eq_ifElseRule {rule : Rule} (isRule : rule ∈ grammar.rules)
    (used : tok .elseWord ∈ rule.body) : rule = ifElseRule := by
  have check : ∀ place : Fin 26, tok .elseWord ∈ (rules.get place).body → place.val = 12 := by
    decide
  obtain ⟨place, rfl⟩ := List.mem_iff_get.mp isRule
  have found : grammar.rule? 12 = some ifElseRule := rfl
  rw [← check place used] at found
  exact get_eq_of_rule? found

/-- The rules of expressions are those of the operators and that of factors. -/
theorem expression_cases {rule : Rule} (isRule : rule ∈ grammar.rules)
    (key : rule.key = .expression) : (∃ i ∈ operators, rule = infixRule i) ∨ rule = factorRule := by
  have check : ∀ place : Fin 26, (rules.get place).key = .expression →
      (∃ i ∈ operators, place.val = operatorPlace i) ∨ place.val = 22 := by decide
  obtain ⟨place, rfl⟩ := List.mem_iff_get.mp isRule
  rcases check place key with ⟨i, isOperator, here⟩ | here
  · have found := rule?_operatorPlace isOperator
    rw [← here] at found
    exact .inl ⟨i, isOperator, get_eq_of_rule? found⟩
  · have found : grammar.rule? 22 = some factorRule := rfl
    rw [← here] at found
    exact .inr (get_eq_of_rule? found)

theorem infixIn {i : Terminal} (isOperator : i ∈ operators) :
    grammar.InfixIn i (infixRule i) where
  body := ⟨.expression, rightOperand i, rfl⟩
  only _ isRule used := eq_infixRule isOperator isRule used

/-! ### The choices of the table -/

set_option maxRecDepth 100000 in
/-- No state has two rules to reduce; its resolutions are between an operator
and another, or let an `else` be read, and some do. -/
theorem states_checked :
    (∀ s ∈ table.states, s.reducible.length ≤ 1 ∧ ∀ r ∈ s.resolutions,
      (r.rule = 11 ∧ r.terminal = .elseWord ∧ r.shifts = true) ∨
        ∃ i ∈ operators, r.rule = operatorPlace i ∧ r.terminal ∈ operators ∧
          r.shifts = decide (i.precedence < r.terminal.precedence)) ∧
    ∃ s ∈ table.states, ∃ r ∈ s.resolutions,
      r.rule = 11 ∧ r.terminal = .elseWord ∧ r.shifts = true := by
  decide +kernel

theorem table_eq : grammar.table .start placeholders = .ok table := eq_ok_get table_exists

theorem automaton : grammar.Automaton .start table := Grammar.automaton_of_table table_eq

theorem single : table.Single := fun _ s isState =>
  (states_checked.1 s (List.mem_of_getElem? isState)).1

/-- A choice is one for the `else`, or goes by the precedence of two
operators. -/
theorem eq_of_decides {shifts : Bool} {rule : Rule} {t : Terminal}
    (decides : table.Decides shifts rule t) :
    (rule = ifRule ∧ t = .elseWord ∧ shifts = true) ∨
      ∃ i ∈ operators, rule = infixRule i ∧ t ∈ operators ∧
        (shifts = true ↔ i.precedence < t.precedence) := by
  obtain ⟨number, s, r, isState, isResolution, found, rfl, rfl⟩ := decides
  rw [automaton.grammar] at found
  have checked := (states_checked.1 s (List.mem_of_getElem? isState)).2 r isResolution
  rcases checked with ⟨place, isElse, shifts⟩ | ⟨i, isOperator, place, isOperator', shifts⟩
  · rw [place] at found
    exact .inl ⟨(Option.some.inj found).symm, isElse, shifts⟩
  · rw [place, rule?_operatorPlace isOperator] at found
    refine .inr ⟨i, isOperator, (Option.some.inj found).symm, isOperator', ?_⟩
    rw [shifts, decide_eq_true_iff]

/-- An `if` yields to an `else`. -/
theorem decides_else : table.Decides true ifRule .elseWord := by
  obtain ⟨s, member, r, isResolution, place, isElse, shifts⟩ := states_checked.2
  obtain ⟨number, isState⟩ := List.mem_iff_getElem?.mp member
  refine ⟨number, s, r, isState, isResolution, ?_, isElse, shifts⟩
  rw [automaton.grammar, place]
  rfl

/-- Only operators are beaten, and only by rules of operators. -/
theorem infixed : table.Infixed grammar := by
  intro rule t decides
  rcases eq_of_decides decides with ⟨_, _, shifts⟩ | ⟨i, isOperator, rfl, isOperator', _⟩
  · cases shifts
  · exact ⟨⟨i, infixIn isOperator⟩, infixRule t, infixIn isOperator'⟩

end ShiftReduce.Pascal
