/-
  What derivations of the Pascal subset look like.

  Between two nonterminals of a rule there is always a terminal, so it can be
  told from the rule what comes behind a child. For most rules nothing depends
  on a choice then; what is left to look at is the operands of operators and the
  statement before an `else` (`settled_branch`).
-/
import ShiftReduce.Proofs.Pascal.Choices

namespace ShiftReduce.Pascal

open ShiftReduce.Derivation (eq_leaf_of_root root_mem_body)

/-- The derivation goes by the choices of the table. -/
abbrev Settled (D : Derivation) : Prop :=
  ShiftReduce.Derivation.Settled (table.Decides false) (table.Decides true) D

/-! ### Neighbours -/

/-- A symbol that is no nonterminal. -/
def isMark (symbol : Symbol Terminal Nonterminal) : Bool := symbol.nonterminal?.isNone

/-- Of two neighbours in a rule one is a terminal. -/
theorem exists_leaf_of_neighbours {rule : Rule} {front back : List Derivation} {a b : Derivation}
    (derived : grammar.IsDerivation (.branch rule (front ++ a :: b :: back))) :
    (∃ entry, a = .leaf entry) ∨ ∃ entry, b = .leaf entry := by
  have check : ∀ rule ∈ grammar.rules, rule.symbols.IsChain
      fun one other => isMark one = true ∨ isMark other = true := by decide
  obtain ⟨isRule, spelled, _⟩ := derived.of_branch
  have chain := check rule isRule
  rw [← spelled, List.map_append, List.map_cons, List.map_cons,
    List.isChain_append_cons_cons] at chain
  cases a with
  | leaf entry => exact .inl ⟨entry, rfl⟩
  | branch one children =>
    cases b with
    | leaf entry => exact .inr ⟨entry, rfl⟩
    | branch other children' =>
      rcases chain.2.1 with mark | mark
      · cases mark
      · cases mark

/-! ### Shapes -/

variable {D : Derivation} {children : List Derivation}

/-- The parts of an operation. -/
theorem exists_of_infixRule {i : Terminal}
    (derived : grammar.IsDerivation (.branch (infixRule i) children)) :
    ∃ left token right, children = [left, .leaf (i, token), right] ∧
      (grammar.alphabet i).accepts token = true ∧
      (grammar.IsDerivation left ∧ left.root = non .expression) ∧
      grammar.IsDerivation right ∧ right.root = non (rightOperand i) := by
  obtain ⟨_, spelled, below⟩ := derived.of_branch
  obtain ⟨left, rest, rfl, leftRoot, spelled⟩ := List.map_eq_cons_iff.mp spelled
  obtain ⟨sign, rest, rfl, signRoot, spelled⟩ := List.map_eq_cons_iff.mp spelled
  obtain ⟨right, rfl, rightRoot⟩ := List.map_eq_singleton_iff.mp spelled
  simp only [List.forall_mem_cons] at below
  obtain ⟨token, rfl, accepted⟩ := below.2.1.exists_of_root_terminal signRoot
  exact ⟨left, token, right, rfl, accepted, ⟨below.1, leftRoot⟩, below.2.2.1, rightRoot⟩

/-- The parts of an `if` without an `else`. -/
theorem exists_of_ifRule (derived : grammar.IsDerivation (.branch ifRule children)) :
    ∃ a b c inner, children = [a, b, c, inner] ∧ inner.root = non .statement := by
  obtain ⟨_, spelled, _⟩ := derived.of_branch
  obtain ⟨a, rest, rfl, _, spelled⟩ := List.map_eq_cons_iff.mp spelled
  obtain ⟨b, rest, rfl, _, spelled⟩ := List.map_eq_cons_iff.mp spelled
  obtain ⟨c, rest, rfl, _, spelled⟩ := List.map_eq_cons_iff.mp spelled
  obtain ⟨inner, rfl, root⟩ := List.map_eq_singleton_iff.mp spelled
  exact ⟨a, b, c, inner, rfl, root⟩

/-- The parts of an `if` with an `else`. -/
theorem exists_of_ifElseRule (derived : grammar.IsDerivation (.branch ifElseRule children)) :
    ∃ a b c inner token outer, children = [a, b, c, inner, .leaf (.elseWord, token), outer] ∧
      a.root = tok .ifWord ∧ b.root = non .boolExpression ∧ c.root = tok .thenWord ∧
      inner.root = non .statement ∧ outer.root = non .statement := by
  obtain ⟨_, spelled, _⟩ := derived.of_branch
  obtain ⟨a, rest, rfl, aRoot, spelled⟩ := List.map_eq_cons_iff.mp spelled
  obtain ⟨b, rest, rfl, bRoot, spelled⟩ := List.map_eq_cons_iff.mp spelled
  obtain ⟨c, rest, rfl, cRoot, spelled⟩ := List.map_eq_cons_iff.mp spelled
  obtain ⟨inner, rest, rfl, innerRoot, spelled⟩ := List.map_eq_cons_iff.mp spelled
  obtain ⟨e, rest, rfl, elseRoot, spelled⟩ := List.map_eq_cons_iff.mp spelled
  obtain ⟨outer, rfl, outerRoot⟩ := List.map_eq_singleton_iff.mp spelled
  obtain ⟨token, rfl⟩ := eq_leaf_of_root elseRoot
  exact ⟨a, b, c, inner, token, outer, rfl, aRoot, bRoot, cRoot, innerRoot, outerRoot⟩

/-- The statement before the `else` is the one in the `if`. -/
theorem eq_of_before_else {a b c inner e outer child : Derivation} {front back : List Derivation}
    {token : Token} (b_root : b.root = non .boolExpression) (c_root : c.root = tok .thenWord)
    (inner_root : inner.root = non .statement) (outer_root : outer.root = non .statement)
    (split : [a, b, c, inner, e, outer] = front ++ child :: .leaf (.elseWord, token) :: back) :
    child = inner := by
  rcases front with _ | ⟨_, _ | ⟨_, _ | ⟨_, _ | ⟨_, _ | ⟨_, more⟩⟩⟩⟩⟩
  · obtain ⟨rfl, _⟩ := List.cons.inj (List.cons.inj split).2
    cases b_root
  · simp only [List.cons_append, List.nil_append, List.cons.injEq] at split
    obtain ⟨_, _, rfl, _⟩ := split
    cases c_root
  · simp only [List.cons_append, List.nil_append, List.cons.injEq] at split
    obtain ⟨_, _, _, rfl, _⟩ := split
    cases inner_root
  · simp only [List.cons_append, List.nil_append, List.cons.injEq] at split
    exact split.2.2.2.1.symm
  · simp only [List.cons_append, List.nil_append, List.cons.injEq] at split
    obtain ⟨_, _, _, _, _, rfl, _⟩ := split
    cases outer_root
  · have count := congrArg List.length split
    simp only [List.length_cons, List.length_append, List.length_nil] at count
    omega

/-! ### Edges -/

/-- The keys of expressions and what they are made of. -/
def inner : List Nonterminal := [.boolExpression, .expression, .factor]

/-- On the right edge of an expression there are only rules for expressions. -/
theorem key_of_trailing {rule : Rule} (trailing : D.Trailing rule)
    (derived : grammar.IsDerivation D) {key : Nonterminal} (root : D.root = non key)
    (isInner : key ∈ inner) : rule.key ∈ inner := by
  have check : ∀ rule ∈ grammar.rules, rule.key ∈ inner →
      ∀ key ∈ rule.body.filterMap Symbol.nonterminal?, key ∈ inner := by decide
  induction trailing generalizing key with
  | here children =>
    obtain rfl := Symbol.nonterminal.inj root
    exact isInner
  | @there last outer front back trailing empty ih =>
    obtain ⟨isRule, spelled, below⟩ := derived.of_branch
    obtain rfl := Symbol.nonterminal.inj root
    have isChild : last ∈ front ++ last :: back := List.mem_append_right front List.mem_cons_self
    have used := root_mem_body spelled isChild
    cases last with
    | leaf entry => cases trailing
    | branch rule' children =>
      refine ih (below _ isChild) rfl ?_
      exact check outer isRule isInner _ (List.mem_filterMap.mpr ⟨_, used, rfl⟩)

/-- An expression is not open to an `else`. -/
theorem not_trailing_ifRule (derived : grammar.IsDerivation D) {key : Nonterminal}
    (root : D.root = non key) (isInner : key ∈ inner) : ¬ D.Trailing ifRule := by
  intro trailing
  have inside := key_of_trailing trailing derived root isInner
  revert inside
  decide

/-- No operator is on the edges of a factor. -/
theorem factor_edges (derived : grammar.IsDerivation D) (root : D.root = non .factor) :
    (∀ t, ¬ D.Leading t) ∧ ∀ i, ¬ D.Trailing (infixRule i) := by
  have check : ∀ rule ∈ grammar.rules, rule.key = .factor →
      rule.symbols = [tok .identifier] ∨ rule.symbols = [tok .integer] ∨
        rule.symbols = [tok .leftParen, non .expression, tok .rightParen] := by decide
  obtain ⟨rule, children, rfl, isRule, key, spelled, below⟩ :=
    derived.exists_of_root_nonterminal root
  have other : ∀ i, rule ≠ infixRule i := by
    rintro i rfl
    cases key
  -- a factor is one token, or an expression between brackets
  have single : ∀ t, children.map ShiftReduce.Derivation.root = [tok t] →
      (∀ t, ¬ ShiftReduce.Derivation.Leading t (.branch rule children)) ∧
        ∀ i, ¬ ShiftReduce.Derivation.Trailing (infixRule i) (.branch rule children) := by
    intro t one
    obtain ⟨leaf, rfl, leafRoot⟩ := List.map_eq_singleton_iff.mp one
    obtain ⟨token, rfl⟩ := eq_leaf_of_root leafRoot
    refine ⟨fun t leading => ?_, fun i trailing => ?_⟩
    · cases leading with
      | there _ _ deeper => cases deeper
    · rcases trailing.behind [] rfl with same | ⟨last, inside, _⟩
      · exact other i same
      · cases inside
  rcases check rule isRule key with symbols | symbols | symbols
  · exact single _ (spelled.trans symbols)
  · exact single _ (spelled.trans symbols)
  · rw [symbols] at spelled
    obtain ⟨first, rest, rfl, firstRoot, spelled⟩ := List.map_eq_cons_iff.mp spelled
    obtain ⟨middle, rest, rfl, middleRoot, spelled⟩ := List.map_eq_cons_iff.mp spelled
    obtain ⟨last, rfl, lastRoot⟩ := List.map_eq_singleton_iff.mp spelled
    obtain ⟨opening, rfl⟩ := eq_leaf_of_root firstRoot
    obtain ⟨closing, rfl⟩ := eq_leaf_of_root lastRoot
    refine ⟨fun t leading => ?_, fun i trailing => ?_⟩
    · cases leading with
      | here _ _ _ _ => cases middleRoot
      | there _ _ deeper => cases deeper
    · rcases trailing.behind [_, middle] rfl with same | ⟨last, inside, _⟩
      · exact other i same
      · cases inside

/-! ### Settled branches -/

/-- A branch is settled if its children are, unless it binds operands against
the precedence or gives an `else` away. -/
theorem settled_branch {rule : Rule} (derived : grammar.IsDerivation (.branch rule children))
    (below : ∀ child ∈ children, Settled child)
    (operands : ∀ i left token right, rule = infixRule i →
      children = [left, .leaf (i, token), right] →
      (∀ j ∈ operators, right.Leading j → i.precedence < j.precedence) ∧
        ∀ j ∈ operators, left.Trailing (infixRule j) → ¬ j.precedence < i.precedence)
    (closed : ∀ a b c inner e outer, rule = ifElseRule → children = [a, b, c, inner, e, outer] →
      ¬ inner.Trailing ifRule) : Settled (.branch rule children) := by
  obtain ⟨isRule, spelled, _⟩ := derived.of_branch
  refine .branch rule children below ?_ ?_
  · intro front child back split t next inner trailing decides
    subst split
    cases back with
    | nil => cases next
    | cons behind back =>
      -- what comes behind a child with an edge is a terminal of the rule
      rcases exists_leaf_of_neighbours derived with ⟨entry, rfl⟩ | ⟨⟨u, token⟩, rfl⟩
      · cases trailing
      obtain rfl : u = t := Option.some.inj next
      have used : tok u ∈ rule.body := root_mem_body spelled
        (List.mem_append_right front (List.mem_cons_of_mem child List.mem_cons_self))
      rcases eq_of_decides decides with ⟨rfl, rfl, _⟩ | ⟨i, isOperator, rfl, isOperator', prefers⟩
      · obtain rfl := eq_ifElseRule isRule used
        obtain ⟨a, b, c, inner, token', outer, shape, _, bRoot, cRoot, innerRoot, outerRoot⟩ :=
          exists_of_ifElseRule derived
        obtain rfl := eq_of_before_else bRoot cRoot innerRoot outerRoot shape.symm
        exact closed a b c child _ outer rfl shape trailing
      · obtain rfl := eq_infixRule isOperator' isRule used
        obtain ⟨left, token', right, shape, _⟩ := exists_of_infixRule derived
        have parts : ((front ++ [child]) ++ .leaf (u, token) :: back).map
            ShiftReduce.Derivation.root = (infixRule u).symbols := by
          rw [List.append_assoc]
          exact spelled
        obtain ⟨first, _, before, _⟩ := (infixIn isOperator').operands parts rfl
        obtain ⟨rfl, rest⟩ : front = [] ∧ [child] = [first] :=
          (List.append_eq_singleton_iff.mp before).resolve_right fun h => by cases h.2
        obtain rfl : child = left := (List.cons.inj shape).1
        exact (operands u child token' right rfl shape).2 i isOperator trailing (prefers.mp rfl)
  · intro front child split t leading decides
    rcases eq_of_decides decides with ⟨_, _, shifts⟩ | ⟨i, _, rfl, isOperator', prefers⟩
    · cases shifts
    · obtain ⟨left, token, right, rfl, _⟩ := exists_of_infixRule derived
      have split : [left, .leaf (i, token)] ++ [right] = front ++ [child] := split
      obtain ⟨_, last⟩ := List.append_inj' split rfl
      obtain rfl : right = child := (List.cons.inj last).1
      have tighter := (operands i left token right rfl rfl).1 t isOperator' leading
      exact Bool.false_ne_true (prefers.mpr tighter)

end ShiftReduce.Pascal
