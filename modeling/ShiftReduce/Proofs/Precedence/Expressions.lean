/-
  Operator grammars are parsed by precedence.

  An expression is read as operands, which are numbers and expressions in
  parentheses, with operators between them. Every way to bind the operators is a
  derivation; one of them respects the preferences (`exists_respects`), and the
  derivations that do so are settled for the table (`settled_of_respects`). So
  the parser reads them, and since a reading is determined by its tokens there
  is only one (`parseTokens_of_wellFormed`).
-/
import ShiftReduce.Proofs.Precedence.OperatorTable

namespace ShiftReduce

variable {τ κ T N : Type} {o : Operators τ κ T N}

namespace Operators

/-! ### Derivations of expressions -/

theorem operatorRule_inj {i j : τ} (same : o.operatorRule i = o.operatorRule j) : i = j := by
  have bodies := congrArg Rule.body same
  exact Symbol.terminal.inj (List.cons.inj (List.cons.inj bodies).2).1

/-- The derivations of expressions. -/
inductive IsExpression (o : Operators τ κ T N) : Derivation τ κ T N → Prop
  | number (token : T) (accepted : (o.alphabet o.number).accepts token = true) :
      IsExpression o (.branch o.numberRule [.leaf (o.number, token)])
  | group (opening closing : T) (inner : Derivation τ κ T N)
      (opens : (o.alphabet o.opening).accepts opening = true)
      (closes : (o.alphabet o.closing).accepts closing = true)
      (isExpression : IsExpression o inner) :
      IsExpression o
        (.branch o.groupRule [.leaf (o.opening, opening), inner, .leaf (o.closing, closing)])
  | operation (i : τ) (left right : Derivation τ κ T N) (token : T)
      (isOperator : i ∈ o.operators) (accepted : (o.alphabet i).accepts token = true)
      (before : IsExpression o left) (behind : IsExpression o right) :
      IsExpression o (.branch (o.operatorRule i) [left, .leaf (i, token), right])

namespace IsExpression

variable {D : Derivation τ κ T N}

theorem root (isExpression : o.IsExpression D) : D.root = .nonterminal o.expression := by
  cases isExpression <;> rfl

theorem isDerivation (isExpression : o.IsExpression D) : o.grammar.IsDerivation D := by
  induction isExpression with
  | number token accepted =>
    refine .branch _ _ (o.mem_rules.mpr (.inr (.inr (.inr (.inl rfl))))) rfl ?_
    intro child isChild
    obtain rfl := List.mem_singleton.mp isChild
    exact .leaf _ _ accepted
  | group opening closing inner opens closes isExpression ih =>
    refine .branch _ _ (o.mem_rules.mpr (.inr (.inr (.inr (.inr rfl))))) ?_ ?_
    · rw [List.map_cons, List.map_cons, isExpression.root]
      rfl
    · simp only [List.forall_mem_cons]
      exact ⟨.leaf _ _ opens, ih, .leaf _ _ closes, List.forall_mem_nil _⟩
  | operation i left right token isOperator accepted before behind ihLeft ihRight =>
    refine .branch _ _ (o.mem_rules.mpr (.inr (.inr (.inl ⟨i, isOperator, rfl⟩)))) ?_ ?_
    · rw [List.map_cons, List.map_cons, List.map_singleton, before.root, behind.root]
      rfl
    · simp only [List.forall_mem_cons]
      exact ⟨ihLeft, .leaf _ _ accepted, ihRight, List.forall_mem_nil _⟩

/-- There are at most two nodes for each token. -/
theorem size_le (isExpression : o.IsExpression D) : D.size ≤ 2 * D.tokens.length := by
  induction isExpression with
  | number token accepted => exact Nat.le_refl 2
  | group opening closing inner _ _ _ ih =>
    simp only [Derivation.tokens_branch, List.flatMap_cons, List.flatMap_nil, List.length_append,
      Derivation.tokens_leaf, List.length_cons, List.length_nil, Tree.size, Tree.forestSize]
    omega
  | operation i left right token _ _ _ _ ihLeft ihRight =>
    simp only [Derivation.tokens_branch, List.flatMap_cons, List.flatMap_nil, List.length_append,
      Derivation.tokens_leaf, List.length_cons, List.length_nil, Tree.size, Tree.forestSize]
    omega

end IsExpression

/-- Every derivation with an expression at the root is one of an expression. -/
theorem isExpression_of_isDerivation {D : Derivation τ κ T N} (derived : o.grammar.IsDerivation D)
    (root : D.root = .nonterminal o.expression) : o.IsExpression D := by
  induction derived with
  | leaf t token _ => cases root
  | branch rule children isRule spelled below ih =>
    have key : rule.key = o.expression := Symbol.nonterminal.inj root
    rcases o.mem_rules.mp isRule with rfl | rfl | ⟨i, isOperator, rfl⟩ | rfl | rfl
    · exact absurd key start_ne_expression
    · exact absurd key program_ne_expression
    · -- an operator: the body spells the operands and the sign between them
      obtain ⟨left, rest, rfl, leftRoot, spelled⟩ := List.map_eq_cons_iff.mp spelled
      obtain ⟨leaf, rest, rfl, leafRoot, spelled⟩ := List.map_eq_cons_iff.mp spelled
      obtain ⟨right, rfl, rightRoot⟩ := List.map_eq_singleton_iff.mp spelled
      simp only [List.forall_mem_cons] at below ih
      obtain ⟨token, rfl, accepted⟩ := below.2.1.exists_of_root_terminal leafRoot
      exact .operation i left right token isOperator accepted (ih.1 leftRoot) (ih.2.2.1 rightRoot)
    · -- a number: a single leaf
      obtain ⟨leaf, rfl, leafRoot⟩ := List.map_eq_singleton_iff.mp spelled
      obtain ⟨token, rfl, accepted⟩ :=
        (below leaf List.mem_cons_self).exists_of_root_terminal leafRoot
      exact .number token accepted
    · -- a group: an expression between parentheses
      obtain ⟨first, rest, rfl, firstRoot, spelled⟩ := List.map_eq_cons_iff.mp spelled
      obtain ⟨inner, rest, rfl, innerRoot, spelled⟩ := List.map_eq_cons_iff.mp spelled
      obtain ⟨last, rfl, lastRoot⟩ := List.map_eq_singleton_iff.mp spelled
      simp only [List.forall_mem_cons] at below ih
      obtain ⟨opening, rfl, opens⟩ := below.1.exists_of_root_terminal firstRoot
      obtain ⟨closing, rfl, closes⟩ := below.2.2.1.exists_of_root_terminal lastRoot
      exact .group opening closing inner opens closes (ih.2.1 innerRoot)

/-- A derivation of a program holds one of an expression. -/
theorem exists_isExpression {D : Derivation τ κ T N} (derived : o.grammar.IsDerivation D)
    (root : D.root = .nonterminal o.program) :
    ∃ E, D = .branch o.programRule [E] ∧ o.IsExpression E := by
  obtain ⟨rule, children, rfl, isRule, key, spelled, below⟩ :=
    derived.exists_of_root_nonterminal root
  rcases o.mem_rules.mp isRule with rfl | rfl | ⟨i, isOperator, rfl⟩ | rfl | rfl
  · exact absurd key start_ne_program
  · obtain ⟨E, rfl, inner⟩ := List.map_eq_singleton_iff.mp spelled
    exact ⟨E, rfl, isExpression_of_isDerivation (below E List.mem_cons_self) inner⟩
  · exact absurd key.symm program_ne_expression
  · exact absurd key.symm program_ne_expression
  · exact absurd key.symm program_ne_expression

/-! ### Spines and edges -/

/-- An operator that leads an expression is on its left spine. -/
theorem IsExpression.leftSpine {D : Derivation τ κ T N} (isExpression : o.IsExpression D) {j : τ}
    (leading : D.Leading j) : o.LeftSpine j D := by
  induction isExpression with
  | number token _ =>
    cases leading with
    | there _ _ deeper => cases deeper
  | group opening closing inner _ _ isExpression _ =>
    cases leading with
    | here _ _ token _ => cases isExpression
    | there _ _ deeper => cases deeper
  | operation i left right token _ _ _ _ ihLeft _ =>
    cases leading with
    | here _ _ _ _ => exact .here left token right
    | there _ _ deeper => exact .there i left token right (ihLeft deeper)

/-- An operator whose rule ends an expression is on its right spine. -/
theorem IsExpression.rightSpine {D : Derivation τ κ T N} (isExpression : o.IsExpression D) {j : τ}
    (trailing : D.Trailing (o.operatorRule j)) : o.RightSpine j D := by
  induction isExpression with
  | number token _ =>
    rcases trailing.behind [] rfl with same | ⟨last, inside, _⟩
    · cases congrArg Rule.body same
    · cases inside
  | group opening closing inner _ _ _ _ =>
    rcases trailing.behind [.leaf (o.opening, opening), inner] rfl with same | ⟨last, inside, _⟩
    · cases congrArg Rule.body same
    · cases inside
  | operation i left right token _ _ _ _ _ ihRight =>
    rcases trailing.behind [left] rfl with same | ⟨last, inside, deeper⟩
    · obtain rfl := operatorRule_inj same
      exact .here left token right
    · obtain rfl := List.mem_singleton.mp inside
      exact .there i left token last (ihRight deeper)

/-- Only nodes of operators have a left spine. -/
theorem LeftSpine.of_branch {j : τ} {rule : Rule τ κ T N} {children : List (Derivation τ κ T N)}
    (spine : o.LeftSpine j (.branch rule children)) :
    ∃ i left token right, rule = o.operatorRule i ∧ children = [left, .leaf (i, token), right] ∧
      (i = j ∨ o.LeftSpine j left) := by
  cases spine with
  | here left token right => exact ⟨j, left, token, right, rfl, rfl, .inl rfl⟩
  | there i left token right deeper => exact ⟨i, left, token, right, rfl, rfl, .inr deeper⟩

/-- Only nodes of operators have a right spine. -/
theorem RightSpine.of_branch {j : τ} {rule : Rule τ κ T N} {children : List (Derivation τ κ T N)}
    (spine : o.RightSpine j (.branch rule children)) :
    ∃ i left token right, rule = o.operatorRule i ∧ children = [left, .leaf (i, token), right] ∧
      (i = j ∨ o.RightSpine j right) := by
  cases spine with
  | here left token right => exact ⟨j, left, token, right, rfl, rfl, .inl rfl⟩
  | there i left token right deeper => exact ⟨i, left, token, right, rfl, rfl, .inr deeper⟩

/-! ### Respecting derivations -/

variable {D : Derivation τ κ T N}

theorem Respects.child {rule : Rule τ κ T N} {children : List (Derivation τ κ T N)}
    (respects : o.Respects (.branch rule children)) {child : Derivation τ κ T N}
    (isChild : child ∈ children) : o.Respects child :=
  fun i left token right within =>
    respects i left token right (.child rule children isChild within)

theorem respects_leaf (entry : τ × T) : o.Respects (.leaf entry) := by
  intro i left token right within
  cases within

/-- Only the operator of a branch has to be looked at, besides its children. -/
theorem respects_branch {rule : Rule τ κ T N} {children : List (Derivation τ κ T N)}
    (below : ∀ child ∈ children, o.Respects child)
    (own : ∀ i left token right, rule = o.operatorRule i →
      children = [left, .leaf (i, token), right] →
      (∀ j, o.LeftSpine j right → o.Prefers i j) ∧ ∀ j, o.RightSpine j left → ¬ o.Prefers j i) :
    o.Respects (.branch rule children) := by
  intro i left token right within
  cases within with
  | refl => exact own i left token right rfl rfl
  | child _ _ isChild inside => exact below _ isChild i left token right inside

/-- A program respects the preferences if its expression does. -/
theorem respects_program : o.Respects (.branch o.programRule [D]) ↔ o.Respects D := by
  refine ⟨fun respects => respects.child List.mem_cons_self, fun respects => ?_⟩
  refine respects_branch (fun child isChild => ?_) fun i left token right same => ?_
  · obtain rfl := List.mem_singleton.mp isChild
    exact respects
  · cases congrArg Rule.body same

/-- A program builds a node of its kind. -/
theorem kind?_build_program : (Derivation.build (.branch o.programRule [D])).kind? =
    some o.programKind := by
  rw [Derivation.build_branch]
  rfl

/-- Between equals the side decides, so what does not prefer an operator has
none below it that does. -/
theorem prefers_transfers (i j k : τ) (gives : o.Prefers i j) (keeps : ¬ o.Prefers i k) :
    ¬ o.Prefers j k := by
  unfold Prefers at *
  rw [not_or, not_and] at keeps ⊢
  refine ⟨?_, fun same => ?_⟩
  · omega
  · apply keeps.2
    omega

/-! ### Operands and operators -/

/-- A number or an expression in parentheses: no operator of it is on a spine. -/
structure Operand (o : Operators τ κ T N) (D : Derivation τ κ T N) : Prop where
  isExpression : o.IsExpression D
  respects : o.Respects D
  left : ∀ j, ¬ o.LeftSpine j D
  right : ∀ j, ¬ o.RightSpine j D

/-- An operator with a token that it accepts. -/
def Sign (o : Operators τ κ T N) (entry : τ × T) : Prop :=
  entry.1 ∈ o.operators ∧ (o.alphabet entry.1).accepts entry.2 = true

theorem operand_number {token : T} (accepted : (o.alphabet o.number).accepts token = true) :
    o.Operand (.branch o.numberRule [.leaf (o.number, token)]) where
  isExpression := .number token accepted
  respects := by
    refine respects_branch (fun child isChild => ?_) fun i left token right same => ?_
    · obtain rfl := List.mem_singleton.mp isChild
      exact respects_leaf _
    · cases congrArg Rule.body same
  left j spine := by
    obtain ⟨_, _, _, _, same, _⟩ := spine.of_branch
    cases congrArg Rule.body same
  right j spine := by
    obtain ⟨_, _, _, _, same, _⟩ := spine.of_branch
    cases congrArg Rule.body same

theorem operand_group {opening closing : T} (opens : (o.alphabet o.opening).accepts opening = true)
    (closes : (o.alphabet o.closing).accepts closing = true) (isExpression : o.IsExpression D)
    (respects : o.Respects D) :
    o.Operand
      (.branch o.groupRule [.leaf (o.opening, opening), D, .leaf (o.closing, closing)]) where
  isExpression := .group opening closing D opens closes isExpression
  respects := by
    refine respects_branch ?_ fun i left token right same => ?_
    · simp only [List.forall_mem_cons]
      exact ⟨respects_leaf _, respects, respects_leaf _,
        List.forall_mem_nil _⟩
    · cases congrArg Rule.body same
  left j spine := by
    obtain ⟨_, _, _, _, same, _⟩ := spine.of_branch
    cases congrArg Rule.body same
  right j spine := by
    obtain ⟨_, _, _, _, same, _⟩ := spine.of_branch
    cases congrArg Rule.body same

/-- The derivation of an infix expression over operands. -/
def assemble (o : Operators τ κ T N) : Infix (Derivation τ κ T N) (τ × T) → Derivation τ κ T N
  | .operand D => D
  | .node left entry right =>
    .branch (o.operatorRule entry.1) [o.assemble left, .leaf entry, o.assemble right]

variable {t : Infix (Derivation τ κ T N) (τ × T)}

theorem tokens_assemble (t : Infix (Derivation τ κ T N) (τ × T)) :
    (o.assemble t).tokens = t.yield Derivation.tokens fun entry => [entry.2] := by
  induction t with
  | operand D => rfl
  | node left entry right ihLeft ihRight =>
    rw [assemble, Derivation.tokens_branch, Infix.yield, ← ihLeft, ← ihRight]
    simp only [List.flatMap_cons, List.flatMap_nil, List.append_nil, List.append_assoc,
      Derivation.tokens_leaf]

theorem isExpression_assemble (sound : t.All o.Operand o.Sign) : o.IsExpression (o.assemble t) := by
  induction t with
  | operand D => exact sound.isExpression
  | node left entry right ihLeft ihRight =>
    obtain ⟨before, ⟨isOperator, accepted⟩, behind⟩ := sound
    exact .operation entry.1 _ _ entry.2 isOperator accepted (ihLeft before) (ihRight behind)

theorem leftSpine_assemble (sound : t.All o.Operand o.Sign) {j : τ}
    (spine : o.LeftSpine j (o.assemble t)) : ∃ entry ∈ t.leftSpine, entry.1 = j := by
  induction t with
  | operand D => exact absurd spine (sound.left j)
  | node left entry right ihLeft _ =>
    obtain ⟨i, _, _, _, same, shape, here | deeper⟩ := spine.of_branch
    · exact ⟨entry, List.mem_cons_self, (operatorRule_inj same).trans here⟩
    · simp only [List.cons.injEq] at shape
      obtain ⟨rfl, _⟩ := shape
      obtain ⟨found, member, same⟩ := ihLeft sound.1 deeper
      exact ⟨found, List.mem_cons_of_mem _ member, same⟩

theorem rightSpine_assemble (sound : t.All o.Operand o.Sign) {j : τ}
    (spine : o.RightSpine j (o.assemble t)) : ∃ entry ∈ t.rightSpine, entry.1 = j := by
  induction t with
  | operand D => exact absurd spine (sound.right j)
  | node left entry right _ ihRight =>
    obtain ⟨i, _, _, _, same, shape, here | deeper⟩ := spine.of_branch
    · exact ⟨entry, List.mem_cons_self, (operatorRule_inj same).trans here⟩
    · simp only [List.cons.injEq] at shape
      obtain ⟨_, _, rfl, _⟩ := shape
      obtain ⟨found, member, same⟩ := ihRight sound.2.2 deeper
      exact ⟨found, List.mem_cons_of_mem _ member, same⟩

theorem respects_assemble (sound : t.All o.Operand o.Sign)
    (respects : t.Respects fun one other => o.Prefers one.1 other.1) :
    o.Respects (o.assemble t) := by
  induction t with
  | operand D => exact sound.respects
  | node left entry right ihLeft ihRight =>
    obtain ⟨before, _, behind⟩ := sound
    obtain ⟨respectsLeft, respectsRight, leads, trails⟩ := respects
    refine respects_branch ?_ fun i left' token right' same shape => ?_
    · simp only [List.forall_mem_cons]
      exact ⟨ihLeft before respectsLeft, respects_leaf _, ihRight behind respectsRight,
        List.forall_mem_nil _⟩
    · -- the spines below the root are those of the infix expression
      obtain rfl := operatorRule_inj same
      simp only [List.cons.injEq] at shape
      obtain ⟨rfl, _, rfl, _⟩ := shape
      refine ⟨fun j spine => ?_, fun j spine => ?_⟩
      · obtain ⟨found, member, rfl⟩ := leftSpine_assemble behind spine
        exact leads found member
      · obtain ⟨found, member, rfl⟩ := rightSpine_assemble before spine
        exact trails found member

/-- An expression is a list of operands with operators between them, which a
respecting derivation binds. -/
theorem exists_respects_of_operands {first : Derivation τ κ T N}
    {others : List ((τ × T) × Derivation τ κ T N)} (isOperand : o.Operand first)
    (sound : ∀ entry ∈ others, o.Sign entry.1 ∧ o.Operand entry.2) :
    ∃ D, o.IsExpression D ∧ o.Respects D ∧
      D.tokens = first.tokens ++ others.flatMap fun entry => [entry.1.2] ++ entry.2.tokens := by
  classical
  obtain ⟨t, respects, isFirst, isRest⟩ := Infix.exists_respects
    (fun one other third => o.prefers_transfers one.1 other.1 third.1) first others
  have all : t.All o.Operand o.Sign := by
    rw [Infix.all_iff, isFirst, isRest]
    exact ⟨isOperand, sound⟩
  refine ⟨o.assemble t, isExpression_assemble all, respects_assemble all respects, ?_⟩
  rw [tokens_assemble, Infix.yield_eq, isFirst, isRest]

theorem exists_operands {tokens : List T} (wellFormed : o.WellFormed tokens) :
    ∃ (first : Derivation τ κ T N) (others : List ((τ × T) × Derivation τ κ T N)),
      o.Operand first ∧ (∀ entry ∈ others, o.Sign entry.1 ∧ o.Operand entry.2) ∧
      tokens = first.tokens ++ others.flatMap fun entry => [entry.1.2] ++ entry.2.tokens := by
  induction wellFormed with
  | number token accepted => exact ⟨_, [], operand_number accepted, List.forall_mem_nil _, rfl⟩
  | group opening closing inner opens closes _ ih =>
    -- what stands in parentheses is bound to one expression, which makes one operand
    obtain ⟨first, others, isOperand, sound, rfl⟩ := ih
    obtain ⟨D, isExpression, respects, tokens⟩ := exists_respects_of_operands isOperand sound
    refine ⟨_, [], operand_group opens closes isExpression respects, List.forall_mem_nil _, ?_⟩
    simp only [Derivation.tokens_branch, List.flatMap_cons, List.flatMap_nil, List.append_nil,
      Derivation.tokens_leaf, tokens, List.singleton_append]
  | operation i left right token isOperator accepted _ _ ihLeft ihRight =>
    -- the operator is put between the operands of both sides
    obtain ⟨first, others, isOperand, sound, rfl⟩ := ihLeft
    obtain ⟨first', others', isOperand', sound', rfl⟩ := ihRight
    refine ⟨first, others ++ ((i, token), first') :: others', isOperand, ?_, ?_⟩
    · rw [List.forall_mem_append, List.forall_mem_cons]
      exact ⟨sound, ⟨⟨isOperator, accepted⟩, isOperand'⟩, sound'⟩
    · simp only [List.flatMap_append, List.flatMap_cons, List.append_assoc,
        List.cons_append, List.nil_append]

/-! ### Parses of expressions -/

/-- Where one of three stands in a list of them. -/
theorem eq_of_append_cons_eq {α : Type} {a b c x : α} {front back : List α}
    (split : [a, b, c] = front ++ x :: back) :
    (x = a ∧ back = [b, c]) ∨ (x = b ∧ back = [c]) ∨ (x = c ∧ back = []) := by
  rcases front with _ | ⟨_, _ | ⟨_, _ | ⟨_, more⟩⟩⟩
  · obtain ⟨rfl, rfl⟩ := List.cons.inj split
    exact .inl ⟨rfl, rfl⟩
  · obtain ⟨rfl, rfl⟩ := List.cons.inj (List.cons.inj split).2
    exact .inr (.inl ⟨rfl, rfl⟩)
  · obtain ⟨rfl, rfl⟩ := List.cons.inj (List.cons.inj (List.cons.inj split).2).2
    exact .inr (.inr ⟨rfl, rfl⟩)
  · have count := congrArg List.length split
    simp only [List.length_cons, List.length_append, List.length_nil] at count
    omega

variable [Ordered τ] [DecidableEq τ] [Ordered κ] [DecidableEq κ] {table : Table τ κ T N}

/-- A derivation that respects the preferences is settled. -/
theorem settled_of_respects (built : o.grammar.Automaton o.start table)
    (isExpression : o.IsExpression D) (respects : o.Respects D) :
    D.Settled (table.Decides false) (table.Decides true) := by
  induction isExpression with
  | number token accepted => exact .singleton (.leaf _) fun t leading => nomatch leading
  | group opening closing inner opens closes isExpression ih =>
    have settled := ih (respects.child (List.mem_cons_of_mem _ List.mem_cons_self))
    refine .branch _ _ ?_ ?_ ?_
    · simp only [List.forall_mem_cons]
      exact ⟨.leaf _, settled, .leaf _, List.forall_mem_nil _⟩
    · intro front child back split t next inner' trailing decides
      rcases eq_of_append_cons_eq split with ⟨rfl, _⟩ | ⟨rfl, rfl⟩ | ⟨rfl, _⟩
      · cases trailing
      · -- behind the expression stands the closing parenthesis, which is no operator
        obtain rfl : o.closing = t := Option.some.inj next
        obtain ⟨_, _, _, isOperator, _⟩ := exists_of_decides built decides
        exact (ne_of_mem isOperator).2.2 rfl
      · cases trailing
    · intro front child split t leading
      rcases eq_of_append_cons_eq split with ⟨rfl, empty⟩ | ⟨rfl, empty⟩ | ⟨rfl, _⟩
      · cases leading
      · cases empty
      · cases leading
  | operation i left right token isOperator accepted before behind ihLeft ihRight =>
    have settledLeft := ihLeft (respects.child List.mem_cons_self)
    have settledRight :=
      ihRight (respects.child (List.mem_cons_of_mem _ (List.mem_cons_of_mem _ List.mem_cons_self)))
    obtain ⟨leads, trails⟩ := respects i left token right .refl
    refine .branch _ _ ?_ ?_ ?_
    · simp only [List.forall_mem_cons]
      exact ⟨settledLeft, .leaf _, settledRight, List.forall_mem_nil _⟩
    · intro front child back split t next inner trailing decides
      rcases eq_of_append_cons_eq split with ⟨rfl, rfl⟩ | ⟨rfl, _⟩ | ⟨_, rfl⟩
      · -- an operator that ends the left side does not lose to the one behind it
        obtain rfl : i = t := Option.some.inj next
        obtain ⟨j, _, rfl, _, prefers⟩ := exists_of_decides built decides
        exact trails j (before.rightSpine trailing) (prefers.mp rfl)
      · cases trailing
      · cases next
    · intro front child split t leading decides
      rcases eq_of_append_cons_eq split with ⟨_, empty⟩ | ⟨_, empty⟩ | ⟨rfl, _⟩
      · cases empty
      · cases empty
      · -- one that leads the right side is preferred to the one before it
        obtain ⟨j, _, same, _, prefers⟩ := exists_of_decides built decides
        obtain rfl := operatorRule_inj same
        exact Bool.false_ne_true (prefers.mpr (leads t (behind.leftSpine leading)))

variable [DecidableEq N]

/-- The parser reads every derivation of a program that respects the
preferences. -/
theorem exists_readsIn_of_respects (built : o.grammar.Automaton o.start table)
    (derived : o.grammar.IsDerivation D) (root : D.root = .nonterminal o.program)
    (respects : o.Respects D) :
    ∃ state, table.ReadsIn o.programKind D.size ⟨[], D.tokens⟩ ⟨[(D, state)], []⟩ := by
  -- no node of the kind of a program lies inside one, so the parser is not to stop early
  have only : ∀ rule ∈ o.grammar.rules, ∀ nodes, (rule.build nodes).kind? = some o.programKind →
      rule.key = o.start ∨ rule.key = o.program := by
    intro rule isRule nodes kind
    rcases o.mem_rules.mp isRule with rfl | rfl | ⟨i, isOperator, rfl⟩ | rfl | rfl
    · exact .inl rfl
    · exact .inr rfl
    · exact absurd (Option.some.inj kind) (o.kinds.1 i isOperator)
    · exact absurd (Option.some.inj kind) o.kinds.2.1
    · exact absurd (Option.some.inj kind) o.kinds.2.2
  have expected : ∃ item ∈ o.grammar.startSet o.start,
      o.grammar.expected? item = some (.nonterminal o.program) :=
    Grammar.exists_mem_startSet ⟨o.startRule, o.mem_rules.mpr (.inl rfl), rfl, rfl⟩
  -- at the end of the input a state has one rule to reduce
  have single : table.Single := fun number s isState =>
    built.length_reducible_le (fun path items reached => complete_unique reached) isState
  have settled : D.Settled (table.Decides false) (table.Decides true) := by
    obtain ⟨E, rfl, isExpression⟩ := exists_isExpression derived root
    have below := settled_of_respects built isExpression (respects_program.mp respects)
    -- the rule for a program is in no choice, since no operator stands in it
    refine .singleton below fun t leading decides => ?_
    obtain ⟨i, _, same, _⟩ := exists_of_decides built decides
    cases congrArg Rule.body same
  exact Table.exists_readsIn_of_settled built distinct_grammar single (infixed built) derived
    settled root (framed.silent_children only derived root) expected

/-- Every grammar of operators has a table, and with it the parser reads every
expression, as the one derivation that respects the preferences. -/
theorem parseTokens_of_wellFormed [Named κ] [Token T] (o : Operators τ κ T N) :
    (∃ table, o.grammar.table o.start [] = .ok table) ∧
    ∀ placeholders table, o.grammar.table o.start placeholders = .ok table →
    ∀ tokens, o.WellFormed tokens →
    ∃ D, (o.grammar.IsDerivation D ∧ D.root = .nonterminal o.program ∧ D.tokens = tokens ∧
        o.Respects D) ∧
      (∀ E, o.grammar.IsDerivation E → E.root = .nonterminal o.program → E.tokens = tokens →
        o.Respects E → E = D) ∧
      ∀ budget, 2 * tokens.length + 1 < budget → ∀ stats,
        ∃ m, table.parseTokens o.programKind budget tokens stats = (.accepted D.build, m) ∧
          m.diagnostics = [] := by
  refine ⟨exists_table, fun placeholders table ok tokens wellFormed => ?_⟩
  have built := Grammar.automaton_of_table ok
  -- the tokens are operands with operators between them, and some derivation of these respects
  obtain ⟨first, others, isOperand, sound, rfl⟩ := exists_operands wellFormed
  obtain ⟨D, isExpression, respects, same⟩ := exists_respects_of_operands isOperand sound
  rw [← same]
  have derived : o.grammar.IsDerivation (.branch o.programRule [D]) := by
    refine .branch _ _ (o.mem_rules.mpr (.inr (.inl rfl))) ?_ fun child isChild => ?_
    · rw [List.map_singleton, isExpression.root]
      rfl
    · obtain rfl := List.mem_singleton.mp isChild
      exact isExpression.isDerivation
  have tokens : Derivation.tokens (.branch o.programRule [D]) = D.tokens := by
    rw [Derivation.tokens_branch, List.flatMap_singleton]
  have respects := respects_program.mpr respects
  obtain ⟨state, reads⟩ := exists_readsIn_of_respects built derived rfl respects
  rw [tokens] at reads
  refine ⟨_, ⟨derived, rfl, tokens, respects⟩, ?_, fun budget enough stats => ?_⟩
  · -- two readings of the same tokens end with the same derivation
    intro E derived' root' tokens' respects'
    obtain ⟨state', reads'⟩ := exists_readsIn_of_respects built derived' root' respects'
    obtain ⟨E', rfl, _⟩ := exists_isExpression derived' root'
    rw [tokens'] at reads'
    exact Table.derivation_unique reads' reads kind?_build_program kind?_build_program
  · -- the budget covers the nodes, of which there are at most two for each token
    have size := isExpression.size_le
    refine Table.parseTokens_of_readsIn built reads kind?_build_program ?_ stats
    rw [Derivation.size_branch, List.map_singleton, List.sum_singleton]
    omega

end Operators

/-! ### Arithmetic -/

namespace Arithmetic

/-- The signs of arithmetic, which are terminals and tokens alike. -/
inductive Sign where
  | number | opening | closing | plus | minus | times | power
deriving DecidableEq, Repr

instance : Ordered Sign :=
  .ofRank Sign.ctorIdx fun a b h => by cases a <;> cases b <;> first | rfl | cases h

/-- How a sign is written. -/
def Sign.spelling : Sign → String
  | number => "n"
  | opening => "("
  | closing => ")"
  | plus => "+"
  | minus => "-"
  | times => "*"
  | power => "^"

instance : Token Sign := ⟨Sign.spelling, fun _ => default⟩

/-- How tightly a sign binds. -/
def Sign.precedence : Sign → Int
  | plus => -3
  | minus => -3
  | _ => 0

/-- Powers bind as tightly as products, but to the right. -/
def Sign.assoc : Sign → Assoc
  | power => .right
  | _ => .left

/-- The parts of arithmetic. -/
inductive Part where
  | start | program | expression
deriving DecidableEq, Repr

instance : Ordered Part :=
  .ofRank Part.ctorIdx fun a b h => by cases a <;> cases b <;> first | rfl | cases h

/-- The name of a part. -/
def Part.name : Part → String
  | start => "Start"
  | program => "Program"
  | expression => "Expression"

instance : Named Part := ⟨Part.name, Part.name⟩

/-- The operators of arithmetic. -/
def operators : Operators Sign Part Sign Part where
  alphabet sign :=
    { name := sign.spelling, precedence := sign.precedence, assoc := sign.assoc,
      accepts := fun token => token = sign }
  operators := [.plus, .minus, .times, .power]
  number := .number
  opening := .opening
  closing := .closing
  start := .start
  program := .program
  expression := .expression
  startKind := .start
  programKind := .program
  operatorKind _ := .expression
  numberKind := .expression
  groupKind := .expression
  nodup := by decide
  keys := by decide
  kinds := by decide
  distinct t _ u _ token accepted accepted' := by
    rw [← of_decide_eq_true accepted, of_decide_eq_true accepted']

/-- The expression `n - n * (n + n) ^ n`. -/
def sample : List Sign :=
  [.number, .minus, .number, .times, .opening, .number, .plus, .number, .closing, .power, .number]

theorem wellFormed_sample : operators.WellFormed sample := by
  have number : operators.WellFormed [.number] := .number _ rfl
  have sum := Operators.WellFormed.operation .plus _ _ .plus (by decide) rfl number number
  have power := Operators.WellFormed.operation .power _ _ .power (by decide) rfl
    (.group .opening .closing _ rfl rfl sum) number
  have product := Operators.WellFormed.operation .times _ _ .times (by decide) rfl number power
  exact .operation .minus _ _ .minus (by decide) rfl number product

/-- The sample is read in one way that respects the preferences. -/
theorem parseTokens_sample : ∃ table, operators.grammar.table .start [] = .ok table ∧
    ∃ D, (operators.grammar.IsDerivation D ∧ D.root = .nonterminal .program ∧
        D.tokens = sample ∧ operators.Respects D) ∧
      (∀ E, operators.grammar.IsDerivation E → E.root = .nonterminal .program →
        E.tokens = sample → operators.Respects E → E = D) ∧
      ∃ m, table.parseTokens .program 24 sample {} = (.accepted D.build, m) ∧
        m.diagnostics = [] := by
  obtain ⟨⟨table, ok⟩, reads⟩ := operators.parseTokens_of_wellFormed
  obtain ⟨D, respecting, unique, parses⟩ := reads [] table ok sample wellFormed_sample
  exact ⟨table, ok, D, respecting, unique, parses 24 (by decide) {}⟩

end Arithmetic

end ShiftReduce
