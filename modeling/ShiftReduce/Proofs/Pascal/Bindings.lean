/-
  Expressions of the Pascal subset, bound by precedence.

  An expression is a list of factors with operators between them, however it is
  derived (`exists_factors`). Bound by precedence, the list has a derivation that
  goes by the choices of the table (`exists_binds`), so two expressions with an
  operator between them can always be read as one (`exists_settled_operation`).
-/
import ShiftReduce.Proofs.Pascal.Shapes
import ShiftReduce.Proofs.Precedence.Infix

namespace ShiftReduce.Pascal

open ShiftReduce.Derivation (tokens_branch tokens_leaf)

/-! ### Factors and operators -/

/-- A factor that goes by the choices of the table. -/
structure Factor (D : Derivation) : Prop where
  derived : grammar.IsDerivation D
  root : D.root = non .factor
  settled : Settled D

/-- An operator with its token. -/
def Sign (entry : Terminal × Token) : Prop :=
  entry.1 ∈ operators ∧ (grammar.alphabet entry.1).accepts entry.2 = true

/-- The operator on the right binds tighter. -/
def Prefers (one other : Terminal × Token) : Prop := one.1.precedence < other.1.precedence

/-- An infix expression over factors. -/
abbrev Expression := Infix Derivation (Terminal × Token)

/-- A power takes a factor for its exponent, the other operators an expression. -/
theorem rightOperand_cases (i : Terminal) :
    (i = .caret ∧ rightOperand i = .factor) ∨ (i ≠ .caret ∧ rightOperand i = .expression) := by
  cases i <;> simp [rightOperand]

theorem tokens_operation (rule : Rule) (left right : Derivation) (entry : Terminal × Token) :
    ShiftReduce.Derivation.tokens (.branch rule [left, .leaf entry, right]) =
      left.tokens ++ entry.2 :: right.tokens := by
  rw [tokens_branch]
  simp only [List.flatMap_cons, List.flatMap_nil, List.append_nil,
    tokens_leaf, List.singleton_append]

/-- The tokens of an infix expression. -/
def tokensOf (t : Expression) : List Token :=
  t.yield ShiftReduce.Derivation.tokens fun entry => [entry.2]

/-! ### Derivations of infix expressions -/

/-- The derivation has the tokens of an infix expression, goes by the choices of
the table, and has no other operators on its edges. -/
structure Binds (key : Nonterminal) (t : Expression) (D : Derivation) : Prop where
  derived : grammar.IsDerivation D
  root : D.root = non key
  settled : Settled D
  tokens : D.tokens = tokensOf t
  leads : ∀ j, D.Leading j → ∃ entry ∈ t.leftSpine, entry.1 = j
  trails : ∀ j, D.Trailing (infixRule j) → ∃ entry ∈ t.rightSpine, entry.1 = j

theorem binds_factor {F : Derivation} (factor : Factor F) : Binds .factor (.operand F) F where
  derived := factor.derived
  root := factor.root
  settled := factor.settled
  tokens := rfl
  leads j leading := absurd leading ((factor_edges factor.derived factor.root).1 j)
  trails j trailing := absurd trailing ((factor_edges factor.derived factor.root).2 j)

/-- A factor is an expression. -/
theorem binds_operand {F : Derivation} (factor : Factor F) :
    Binds .expression (.operand F) (.branch factorRule [F]) := by
  obtain ⟨leads, trails⟩ := factor_edges factor.derived factor.root
  refine ⟨?_, rfl, ?_, ?_, fun j leading => ?_, fun j trailing => ?_⟩
  · have isRule : factorRule ∈ grammar.rules :=
      List.mem_of_getElem? (rfl : grammar.rules[22]? = some factorRule)
    refine .branch factorRule [F] isRule ?_ fun child isChild => ?_
    · rw [List.map_singleton, factor.root]
      rfl
    · obtain rfl := List.mem_singleton.mp isChild
      exact factor.derived
  · exact .singleton factor.settled fun t leading => absurd leading (leads t)
  · rw [tokens_branch, List.flatMap_singleton]
    rfl
  · cases leading with
    | there _ _ deeper => exact absurd deeper (leads j)
  · rcases trailing.of_branch with same | ⟨front, last, back, split, deeper, _⟩
    · cases congrArg ShiftReduce.Rule.body same
    · have isChild : last ∈ [F] := by
        rw [split]
        exact List.mem_append_right front List.mem_cons_self
      obtain rfl := List.mem_singleton.mp isChild
      exact absurd deeper (trails j)

/-- An operation binds its operands if the operators on their edges allow it. -/
theorem binds_node {left right : Expression} {entry : Terminal × Token} {L R : Derivation}
    (sign : Sign entry) (bindsLeft : Binds .expression left L)
    (bindsRight : Binds (rightOperand entry.1) right R)
    (leads : ∀ other ∈ right.leftSpine, Prefers entry other)
    (trails : ∀ other ∈ left.rightSpine, ¬ Prefers other entry) :
    Binds .expression (.node left entry right)
      (.branch (infixRule entry.1) [L, .leaf entry, R]) := by
  obtain ⟨isOperator, accepted⟩ := sign
  have derived : grammar.IsDerivation (.branch (infixRule entry.1) [L, .leaf entry, R]) := by
    refine .branch _ _ (List.mem_of_getElem? (rule?_operatorPlace isOperator)) ?_ ?_
    · rw [List.map_cons, List.map_cons, List.map_singleton, bindsLeft.root, bindsRight.root]
      rfl
    · simp only [List.forall_mem_cons]
      exact ⟨bindsLeft.derived, .leaf _ _ accepted, bindsRight.derived,
        List.forall_mem_nil _⟩
  refine ⟨derived, rfl, ?_, ?_, fun j leading => ?_, fun j trailing => ?_⟩
  · -- by its own rule the operation is settled as its edges allow
    refine settled_branch derived ?_ (fun i left' token right' same shape => ?_) ?_
    · simp only [List.forall_mem_cons]
      exact ⟨bindsLeft.settled, .leaf _, bindsRight.settled,
        List.forall_mem_nil _⟩
    · obtain rfl := infixRule_inj same
      simp only [List.cons.injEq] at shape
      obtain ⟨rfl, _, rfl, _⟩ := shape
      refine ⟨fun j _ leading => ?_, fun j _ trailing => ?_⟩
      · obtain ⟨other, member, rfl⟩ := bindsRight.leads j leading
        exact leads other member
      · obtain ⟨other, member, rfl⟩ := bindsLeft.trails j trailing
        exact trails other member
    · intro a b c inner e outer same
      cases congrArg ShiftReduce.Rule.key same
  · rw [tokens_operation, bindsLeft.tokens, bindsRight.tokens]
    unfold tokensOf
    rw [Infix.yield, List.append_assoc]
    rfl
  · cases leading with
    | here _ _ _ _ => exact ⟨_, List.mem_cons_self, rfl⟩
    | there _ _ deeper =>
      obtain ⟨other, member, same⟩ := bindsLeft.leads j deeper
      exact ⟨other, List.mem_cons_of_mem _ member, same⟩
  · rcases trailing.behind [L] rfl with same | ⟨last, inside, deeper⟩
    · exact ⟨_, List.mem_cons_self, infixRule_inj same⟩
    · obtain rfl := List.mem_singleton.mp inside
      obtain ⟨other, member, same⟩ := bindsRight.trails j deeper
      exact ⟨other, List.mem_cons_of_mem _ member, same⟩

/-- Nothing binds tighter than a power. -/
theorem precedence_le (t : Terminal) : t.precedence ≤ Terminal.precedence .caret := by
  cases t <;> decide

/-- What respects the precedences has a derivation that goes by the choices of
the table. -/
theorem exists_binds {t : Expression} (sound : t.All Factor Sign) (respects : t.Respects Prefers) :
    ∃ D, Binds .expression t D := by
  induction t with
  | operand F => exact ⟨_, binds_operand sound⟩
  | node left entry right ihLeft ihRight =>
    obtain ⟨before, sign, behind⟩ := sound
    obtain ⟨respectsLeft, respectsRight, leads, trails⟩ := respects
    obtain ⟨L, bindsLeft⟩ := ihLeft before respectsLeft
    rcases rightOperand_cases entry.1 with ⟨power, operand⟩ | ⟨_, operand⟩
    · -- nothing is preferred to a power, so its exponent has no operator
      cases right with
      | operand F =>
        have factor : Binds (rightOperand entry.1) (.operand F) F := by
          rw [operand]
          exact binds_factor behind
        exact ⟨_, binds_node sign bindsLeft factor leads trails⟩
      | node inner other _ =>
        have tighter : Prefers entry other := leads other List.mem_cons_self
        have most := precedence_le other.1
        rw [Prefers, power] at tighter
        omega
    · obtain ⟨R, bindsRight⟩ := ihRight behind respectsRight
      rw [← operand] at bindsRight
      exact ⟨_, binds_node sign bindsLeft bindsRight leads trails⟩

/-! ### Lists of factors -/

/-- The tokens are those of factors with operators between them. -/
def Factors (tokens : List Token) : Prop :=
  ∃ (first : Derivation) (others : List ((Terminal × Token) × Derivation)), Factor first ∧
    (∀ entry ∈ others, Sign entry.1 ∧ Factor entry.2) ∧
    tokens = first.tokens ++ others.flatMap fun entry => [entry.1.2] ++ entry.2.tokens

theorem Factor.factors {F : Derivation} (factor : Factor F) : Factors F.tokens :=
  ⟨F, [], factor, List.forall_mem_nil _, (List.append_nil _).symm⟩

/-- Lists of factors can be joined by an operator. -/
theorem Factors.append {left right : List Token} (before : Factors left) (behind : Factors right)
    {entry : Terminal × Token} (sign : Sign entry) : Factors (left ++ entry.2 :: right) := by
  obtain ⟨first, others, factor, sound, rfl⟩ := before
  obtain ⟨first', others', factor', sound', rfl⟩ := behind
  refine ⟨first, others ++ (entry, first') :: others', factor, ?_, ?_⟩
  · rw [List.forall_mem_append, List.forall_mem_cons]
    exact ⟨sound, ⟨sign, factor'⟩, sound'⟩
  · rw [List.flatMap_append, List.flatMap_cons, List.append_assoc, List.append_assoc]
    rfl

/-- Every list of factors has a derivation that goes by the choices of the
table. -/
theorem Factors.exists_settled {tokens : List Token} (factors : Factors tokens) :
    ∃ D : Derivation, grammar.IsDerivation D ∧ D.root = non .expression ∧ D.tokens = tokens ∧
      Settled D := by
  classical
  obtain ⟨first, others, factor, sound, rfl⟩ := factors
  have transfers : ∀ one other third, Prefers one other → ¬ Prefers one third →
      ¬ Prefers other third := by
    unfold Prefers
    omega
  obtain ⟨t, respects, isFirst, isRest⟩ := Infix.exists_respects transfers first others
  have all : t.All Factor Sign := by
    rw [Infix.all_iff, isFirst, isRest]
    exact ⟨factor, sound⟩
  obtain ⟨D, binds⟩ := exists_binds all respects
  refine ⟨D, binds.derived, binds.root, ?_, binds.settled⟩
  rw [binds.tokens, tokensOf, Infix.yield_eq, isFirst, isRest]

/-- An expression is a list of factors. -/
theorem factors_of_expression {D : Derivation} (derived : grammar.IsDerivation D)
    (root : D.root = non .expression) (settled : Settled D) : Factors D.tokens := by
  induction derived with
  | leaf t token _ => cases root
  | branch rule children isRule spelled below ih =>
    have derived := ShiftReduce.Grammar.IsDerivation.branch rule children isRule spelled below
    have key : rule.key = .expression := Symbol.nonterminal.inj root
    -- an operation joins the lists of its operands, the other rule starts one
    rcases expression_cases isRule key with ⟨i, isOperator, rfl⟩ | rfl
    · obtain ⟨left, token, right, rfl, accepted, ⟨_, leftRoot⟩, derivedRight, rightRoot⟩ :=
        exists_of_infixRule derived
      have isRight : right ∈ [left, .leaf (i, token), right] :=
        List.mem_cons_of_mem _ (List.mem_cons_of_mem _ List.mem_cons_self)
      have before := ih left List.mem_cons_self leftRoot (settled.of_child List.mem_cons_self)
      have sign : Sign (i, token) := ⟨isOperator, accepted⟩
      rw [tokens_operation]
      rcases rightOperand_cases i with ⟨_, operand⟩ | ⟨_, operand⟩
      · rw [operand] at rightRoot
        have factor : Factor right := ⟨derivedRight, rightRoot, settled.of_child isRight⟩
        exact before.append factor.factors sign
      · rw [operand] at rightRoot
        exact before.append (ih right isRight rightRoot (settled.of_child isRight)) sign
    · obtain ⟨F, rfl, factorRoot⟩ := List.map_eq_singleton_iff.mp spelled
      have factor : Factor F :=
        ⟨below F List.mem_cons_self, factorRoot, settled.of_child List.mem_cons_self⟩
      rw [tokens_branch, List.flatMap_singleton]
      exact factor.factors

/-- The operands of an operation can be bound by the choices of the table. -/
theorem exists_settled_operation {i : Terminal} (isOperator : i ∈ operators)
    {children : List Derivation} (derived : grammar.IsDerivation (.branch (infixRule i) children))
    (settled : ∀ child ∈ children, Settled child) :
    ∃ D : Derivation, grammar.IsDerivation D ∧ D.root = non .expression ∧
      D.tokens = ShiftReduce.Derivation.tokens (.branch (infixRule i) children) ∧ Settled D := by
  obtain ⟨left, token, right, rfl, accepted, ⟨derivedLeft, leftRoot⟩, derivedRight, rightRoot⟩ :=
    exists_of_infixRule derived
  simp only [List.forall_mem_cons] at settled
  have before := factors_of_expression derivedLeft leftRoot settled.1
  have sign : Sign (i, token) := ⟨isOperator, accepted⟩
  rw [tokens_operation]
  rcases rightOperand_cases i with ⟨_, operand⟩ | ⟨_, operand⟩
  · rw [operand] at rightRoot
    have factor : Factor right := ⟨derivedRight, rightRoot, settled.2.2.1⟩
    exact (before.append factor.factors sign).exists_settled
  · rw [operand] at rightRoot
    have behind := factors_of_expression derivedRight rightRoot settled.2.2.1
    exact (before.append behind sign).exists_settled

end ShiftReduce.Pascal
