/-
  Operator grammars: expressions over numbers, parentheses and infix operators.

  The grammar of an `Operators` has one rule for each operator, all of them with
  expressions on both sides, so it is ambiguous as soon as there is an operator.
  What the parser makes of an expression is settled by the precedences of the
  operators: `Operators.Prefers i j` says that between `i` on the left and `j` on
  the right an operand goes to `j`, and a derivation that respects this
  (`Operators.Respects`) is the one that is found.
-/
import ShiftReduce.Proofs.Parser.Completeness
import ShiftReduce.Proofs.Precedence.Infix
import ShiftReduce.Proofs.Precedence.Settled

namespace ShiftReduce

/-- The parts of an operator grammar. The operators, numbers and parentheses are
different terminals, and no token is accepted by two of them; programs have a
kind of their own. -/
structure Operators (τ κ T N : Type) where
  alphabet : τ → Terminal T
  operators : List τ
  number : τ
  opening : τ
  closing : τ
  start : κ
  program : κ
  expression : κ
  startKind : N
  programKind : N
  operatorKind : τ → N
  numberKind : N
  groupKind : N
  nodup : (number :: opening :: closing :: operators).Nodup
  keys : [start, program, expression].Nodup
  kinds : (∀ i ∈ operators, operatorKind i ≠ programKind) ∧ numberKind ≠ programKind ∧
    groupKind ≠ programKind
  distinct : ∀ t ∈ number :: opening :: closing :: operators,
    ∀ u ∈ number :: opening :: closing :: operators, ∀ token,
    (alphabet t).accepts token = true → (alphabet u).accepts token = true → t = u

namespace Operators

variable {τ κ T N : Type} (o : Operators τ κ T N)

/-! ### The grammar -/

/-- The start rule. -/
def startRule : Rule τ κ T N where
  key := o.start
  kind := o.startKind
  parts := [.nonterminal o.program]

/-- The rule of programs. -/
def programRule : Rule τ κ T N where
  key := o.program
  kind := o.programKind
  parts := [.nonterminal o.expression]

/-- The rule of an operator. -/
def operatorRule (i : τ) : Rule τ κ T N where
  key := o.expression
  kind := o.operatorKind i
  parts := [.nonterminal o.expression, .terminal i, .nonterminal o.expression]

/-- The rule of numbers. -/
def numberRule : Rule τ κ T N where
  key := o.expression
  kind := o.numberKind
  parts := [.terminal o.number]

/-- The rule of parentheses. -/
def groupRule : Rule τ κ T N where
  key := o.expression
  kind := o.groupKind
  parts := [.terminal o.opening, .nonterminal o.expression, .terminal o.closing]

theorem body_startRule : o.startRule.body = [.nonterminal o.program] := rfl

theorem body_operatorRule (i : τ) : (o.operatorRule i).body =
    [.nonterminal o.expression, .terminal i, .nonterminal o.expression] := rfl

theorem body_groupRule : o.groupRule.body =
    [.terminal o.opening, .nonterminal o.expression, .terminal o.closing] := rfl

/-- The rules, one for each operator among them. -/
def rules : List (Rule τ κ T N) :=
  o.startRule :: o.programRule :: o.operators.map o.operatorRule ++ [o.numberRule, o.groupRule]

theorem mem_rules {rule : Rule τ κ T N} : rule ∈ o.rules ↔ rule = o.startRule ∨
    rule = o.programRule ∨ (∃ i ∈ o.operators, rule = o.operatorRule i) ∨
    rule = o.numberRule ∨ rule = o.groupRule := by
  simp only [rules, List.cons_append, List.mem_cons, List.mem_append, List.mem_map,
    List.not_mem_nil, or_false, eq_comm]

/-- The grammar of the expressions. -/
def grammar : Grammar τ κ T N where
  alphabet := o.alphabet
  rules := o.rules
  rules_ne_nil := List.cons_ne_nil _ _
  defined := by
    have program : o.program ∈ o.rules.map Rule.key :=
      List.mem_map.mpr ⟨o.programRule, o.mem_rules.mpr (.inr (.inl rfl)), rfl⟩
    have expression : o.expression ∈ o.rules.map Rule.key :=
      List.mem_map.mpr ⟨o.numberRule, o.mem_rules.mpr (.inr (.inr (.inr (.inl rfl)))), rfl⟩
    intro rule isRule key used
    rcases o.mem_rules.mp isRule with rfl | rfl | ⟨i, _, rfl⟩ | rfl | rfl
    · obtain rfl := Symbol.nonterminal.inj (List.mem_singleton.mp used)
      exact program
    · obtain rfl := Symbol.nonterminal.inj (List.mem_singleton.mp used)
      exact expression
    · simp only [body_operatorRule, List.mem_cons, Symbol.nonterminal.injEq, reduceCtorEq,
        List.not_mem_nil, or_false, false_or, or_self] at used
      exact used ▸ expression
    · cases List.mem_singleton.mp used
    · simp only [body_groupRule, List.mem_cons, Symbol.nonterminal.injEq, reduceCtorEq,
        List.not_mem_nil, or_false, false_or] at used
      exact used ▸ expression

/-- No terminal has a binding of its own in the grammar. -/
theorem copyIn_grammar [DecidableEq τ] (items : ItemSet) (t : τ) :
    o.grammar.copyIn items t = o.alphabet t := by
  refine o.grammar.copyIn_of_plain (fun rule isRule part isPart => ?_) items t
  have bodies : rule.parts = rule.body.map BodyPart.plain := by
    rcases o.mem_rules.mp isRule with rfl | rfl | ⟨i, _, rfl⟩ | rfl | rfl <;> rfl
  rw [bodies] at isPart
  obtain ⟨symbol, _, rfl⟩ := List.mem_map.mp isPart
  rw [BodyPart.symbol_plain]

/-! ### Preference and spines -/

/-- Between the operators `i` on the left and `j` on the right an operand goes to
`j`: it binds tighter, or as tight and to the right. -/
def Prefers (i j : τ) : Prop :=
  (o.alphabet i).precedence < (o.alphabet j).precedence ∨
    ((o.alphabet j).precedence = (o.alphabet i).precedence ∧ (o.alphabet j).assoc = .right)

/-- The operator is on the left spine: at the root or on the left spine of the
left operand. Parentheses end a spine. -/
inductive LeftSpine (j : τ) : Derivation τ κ T N → Prop
  | here (left : Derivation τ κ T N) (token : T) (right : Derivation τ κ T N) :
      LeftSpine j (.branch (o.operatorRule j) [left, .leaf (j, token), right])
  | there (i : τ) (left : Derivation τ κ T N) (token : T) (right : Derivation τ κ T N)
      (deeper : LeftSpine j left) :
      LeftSpine j (.branch (o.operatorRule i) [left, .leaf (i, token), right])

/-- The operator is on the right spine. -/
inductive RightSpine (j : τ) : Derivation τ κ T N → Prop
  | here (left : Derivation τ κ T N) (token : T) (right : Derivation τ κ T N) :
      RightSpine j (.branch (o.operatorRule j) [left, .leaf (j, token), right])
  | there (i : τ) (left : Derivation τ κ T N) (token : T) (right : Derivation τ κ T N)
      (deeper : RightSpine j right) :
      RightSpine j (.branch (o.operatorRule i) [left, .leaf (i, token), right])

/-- In every node of an operator, the operators on the left spine of its right
operand are preferred to it, and it is not preferred to those on the right spine
of its left operand. -/
def Respects (D : Derivation τ κ T N) : Prop :=
  ∀ i left token right,
    Tree.Within (.branch (o.operatorRule i) [left, .leaf (i, token), right]) D →
    (∀ j, o.LeftSpine j right → o.Prefers i j) ∧ ∀ j, o.RightSpine j left → ¬ o.Prefers j i

/-- The token lists of the expressions. -/
inductive WellFormed : List T → Prop
  | number (token : T) (accepted : (o.alphabet o.number).accepts token = true) :
      WellFormed [token]
  | group (opening closing : T) (inner : List T)
      (opens : (o.alphabet o.opening).accepts opening = true)
      (closes : (o.alphabet o.closing).accepts closing = true) (wellFormed : WellFormed inner) :
      WellFormed (opening :: (inner ++ [closing]))
  | operation (i : τ) (left right : List T) (token : T) (isOperator : i ∈ o.operators)
      (accepted : (o.alphabet i).accepts token = true) (before : WellFormed left)
      (behind : WellFormed right) : WellFormed (left ++ token :: right)

end Operators

end ShiftReduce
