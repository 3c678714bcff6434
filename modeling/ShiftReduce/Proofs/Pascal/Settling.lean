/-
  Every derivation of the Pascal subset can be brought in line with the choices
  of its table, with the same tokens (`exists_settled`).

  Operations are bound anew, by precedence. An `else` whose statement ends with
  an `if` that has none is moved to that `if`, or to the innermost if there are
  several (`exists_attached`).
-/
import ShiftReduce.Proofs.Pascal.Bindings

namespace ShiftReduce.Pascal

open ShiftReduce.Derivation (tokens_branch tokens_eq_map_leaves tokens_leaf)

variable {D : Derivation} {rule : Rule} {children back : List Derivation}

/-! ### Growing at the right edge -/

theorem tokens_eq_nil (empty : back.flatMap ShiftReduce.Derivation.terminals = []) :
    back.flatMap ShiftReduce.Derivation.tokens = [] := by
  have leaves : (back.flatMap Tree.leaves).map Prod.fst = [] := by
    rw [List.map_flatMap]
    exact empty
  rw [tokens_eq_map_leaves, List.map_eq_nil_iff.mp leaves]
  rfl

/-- If the last child with tokens has more of them, so has the branch. -/
theorem isDerivation_grown (front back : List Derivation) {last grown : Derivation}
    {more : List Token} (derived : grammar.IsDerivation (.branch rule (front ++ last :: back)))
    (empty : back.flatMap ShiftReduce.Derivation.terminals = [])
    (derivedGrown : grammar.IsDerivation grown) (root : grown.root = last.root)
    (tokens : grown.tokens = last.tokens ++ more) :
    grammar.IsDerivation (.branch rule (front ++ grown :: back)) ∧
      ShiftReduce.Derivation.tokens (.branch rule (front ++ grown :: back)) =
        ShiftReduce.Derivation.tokens (.branch rule (front ++ last :: back)) ++ more := by
  obtain ⟨isRule, spelled, below⟩ := derived.of_branch
  rw [List.forall_mem_append, List.forall_mem_cons] at below
  constructor
  · refine .branch rule _ isRule ?_ ?_
    · rw [← spelled, List.map_append, List.map_append, List.map_cons, List.map_cons, root]
    · rw [List.forall_mem_append, List.forall_mem_cons]
      exact ⟨below.1, derivedGrown, below.2.2⟩
  · simp only [tokens_branch, List.flatMap_append, List.flatMap_cons,
      tokens_eq_nil empty, tokens, List.append_nil, List.append_assoc]

/-! ### Moving an `else` -/

/-- In a settled derivation the statement before an `else` is not open to it. -/
theorem not_open_of_settled {a b c inner e outer : Derivation} {token : Token}
    (isElse : e = .leaf (.elseWord, token))
    (settled : Settled (.branch ifElseRule [a, b, c, inner, e, outer])) :
    ¬ inner.Trailing ifRule := by
  subst isElse
  intro trailing
  cases settled with
  | branch _ _ _ right _ =>
    exact right [a, b, c] inner _ rfl .elseWord rfl ifRule trailing decides_else

/-- What grows at its right edge stays settled: it is no operation, and an `else`
in it stays where it is. -/
theorem settled_grown (front back : List Derivation) {last grown : Derivation}
    (derived : grammar.IsDerivation (.branch rule (front ++ last :: back)))
    (settled : Settled (.branch rule (front ++ last :: back)))
    (opened : ShiftReduce.Derivation.Trailing ifRule (.branch rule (front ++ last :: back)))
    (derivedGrown : grammar.IsDerivation (.branch rule (front ++ grown :: back)))
    (settledGrown : Settled grown)
    (before : ∀ a b c inner e outer, rule = ifElseRule →
      front ++ grown :: back = [a, b, c, inner, e, outer] → ¬ inner.Trailing ifRule) :
    Settled (.branch rule (front ++ grown :: back)) := by
  refine settled_branch derivedGrown ?_ ?_ before
  · rw [List.forall_mem_append, List.forall_mem_cons]
    refine ⟨fun child isChild => ?_, settledGrown, fun child isChild => ?_⟩
    · exact settled.of_child (List.mem_append_left _ isChild)
    · exact settled.of_child (List.mem_append_right _ (List.mem_cons_of_mem _ isChild))
  · rintro i left token right rfl
    have isInner : Nonterminal.expression ∈ inner := by decide
    exact absurd opened (not_trailing_ifRule derived rfl isInner)

/-- An `if` takes an `else` if no `if` in its statement is open to it. -/
theorem settled_taken {a b c inner outer : Derivation} {token : Token}
    (derived : grammar.IsDerivation (.branch ifRule [a, b, c, inner]))
    (settled : Settled (.branch ifRule [a, b, c, inner])) (closed : ¬ inner.Trailing ifRule)
    (accepted : (grammar.alphabet .elseWord).accepts token = true)
    (derivedOuter : grammar.IsDerivation outer) (outerRoot : outer.root = non .statement)
    (settledOuter : Settled outer) :
    let E : Derivation := .branch ifElseRule [a, b, c, inner, .leaf (.elseWord, token), outer]
    grammar.IsDerivation E ∧ E.root = non .ifStatement ∧
      E.tokens = ShiftReduce.Derivation.tokens (.branch ifRule [a, b, c, inner]) ++
        token :: outer.tokens ∧ Settled E := by
  obtain ⟨_, spelled, below⟩ := derived.of_branch
  have taken : grammar.IsDerivation
      (.branch ifElseRule [a, b, c, inner, .leaf (.elseWord, token), outer]) := by
    have isRule : ifElseRule ∈ grammar.rules :=
      List.mem_of_getElem? (rfl : grammar.rules[12]? = some ifElseRule)
    refine .branch ifElseRule _ isRule ?_ ?_
    · have symbols : ifElseRule.symbols =
          ifRule.symbols ++ [tok .elseWord, non .statement] := rfl
      rw [symbols, ← spelled, ← outerRoot]
      rfl
    · simp only [List.forall_mem_cons] at below ⊢
      exact ⟨below.1, below.2.1, below.2.2.1, below.2.2.2.1, .leaf _ _ accepted, derivedOuter,
        List.forall_mem_nil _⟩
  have settledBelow : ∀ child ∈ [a, b, c, inner], Settled child :=
    fun child isChild => settled.of_child isChild
  refine ⟨taken, rfl, ?_, settled_branch taken ?_ ?_ ?_⟩
  · simp only [tokens_branch, List.flatMap_cons, List.flatMap_nil,
      List.append_nil, List.append_assoc, tokens_leaf,
      List.singleton_append]
  · simp only [List.forall_mem_cons] at settledBelow ⊢
    exact ⟨settledBelow.1, settledBelow.2.1, settledBelow.2.2.1, settledBelow.2.2.2.1, .leaf _,
      settledOuter, List.forall_mem_nil _⟩
  · intro i left token' right same
    cases congrArg ShiftReduce.Rule.key same
  · intro a' b' c' inner' e outer' _ shape
    simp only [List.cons.injEq] at shape
    exact shape.2.2.2.1 ▸ closed

/-- An `else` with its statement can be read into a statement that is open to
it. -/
theorem exists_attached (derived : grammar.IsDerivation D) (settled : Settled D)
    (opened : D.Trailing ifRule) {token : Token} {outer : Derivation}
    (accepted : (grammar.alphabet .elseWord).accepts token = true)
    (derivedOuter : grammar.IsDerivation outer) (outerRoot : outer.root = non .statement)
    (settledOuter : Settled outer) :
    ∃ E : Derivation, grammar.IsDerivation E ∧ E.root = D.root ∧
      E.tokens = D.tokens ++ token :: outer.tokens ∧ Settled E := by
  induction derived with
  | leaf t token _ => cases opened
  | branch rule children isRule spelled below ih =>
    have derived := ShiftReduce.Grammar.IsDerivation.branch rule children isRule spelled below
    by_cases isElse : rule = ifElseRule
    · -- the `else` that is there stays, so the new one is read behind it
      subst isElse
      obtain ⟨a, b, c, inner, token', last, rfl, _⟩ := exists_of_ifElseRule derived
      have closed := not_open_of_settled rfl settled
      have deeper : last.Trailing ifRule := by
        rcases opened.behind [a, b, c, inner] rfl with same | ⟨other, inside, deeper⟩
        · cases congrArg ShiftReduce.Rule.kind same
        · obtain rfl := List.mem_singleton.mp inside
          exact deeper
      have isChild : last ∈ [a, b, c, inner, .leaf (.elseWord, token'), last] := by simp
      obtain ⟨E, derivedE, root, tokens, settledE⟩ :=
        ih last isChild (settled.of_child isChild) deeper
      obtain ⟨grown, moreTokens⟩ := isDerivation_grown [a, b, c, inner, .leaf (.elseWord, token')]
        [] derived rfl derivedE root tokens
      refine ⟨_, grown, rfl, moreTokens,
        settled_grown _ [] derived settled opened grown settledE ?_⟩
      intro a' b' c' inner' e outer' _ shape
      simp only [List.cons_append, List.nil_append, List.cons.injEq] at shape
      exact shape.2.2.2.1 ▸ closed
    by_cases isIf : rule = ifRule
    · subst isIf
      obtain ⟨a, b, c, inner, rfl, innerRoot⟩ := exists_of_ifRule derived
      have isChild : inner ∈ [a, b, c, inner] := by simp
      by_cases deeper : inner.Trailing ifRule
      · obtain ⟨E, derivedE, root, tokens, settledE⟩ :=
          ih inner isChild (settled.of_child isChild) deeper
        obtain ⟨grown, moreTokens⟩ :=
          isDerivation_grown [a, b, c] [] derived rfl derivedE root tokens
        refine ⟨_, grown, rfl, moreTokens,
          settled_grown _ [] derived settled opened grown settledE ?_⟩
        intro a' b' c' inner' e outer' same
        cases congrArg ShiftReduce.Rule.kind same
      · -- this is the innermost `if`: it takes the `else`
        exact ⟨_, settled_taken derived settled deeper accepted derivedOuter outerRoot settledOuter⟩
    · rcases opened.of_branch with same | ⟨front, last, back, rfl, deeper, empty⟩
      · exact absurd same isIf
      have isChild : last ∈ front ++ last :: back := List.mem_append_right front List.mem_cons_self
      obtain ⟨E, derivedE, root, tokens, settledE⟩ :=
        ih last isChild (settled.of_child isChild) deeper
      obtain ⟨grown, moreTokens⟩ :=
        isDerivation_grown front back derived empty derivedE root tokens
      refine ⟨_, grown, rfl, moreTokens,
        settled_grown front back derived settled opened grown settledE ?_⟩
      intro a b c inner e outer' same
      exact absurd same isElse

/-! ### Settling derivations -/

/-- An `else` can be given to the nearest `if`. -/
theorem exists_settled_else {children : List Derivation}
    (derived : grammar.IsDerivation (.branch ifElseRule children))
    (settled : ∀ child ∈ children, Settled child) :
    ∃ E : Derivation, grammar.IsDerivation E ∧ E.root = non .ifStatement ∧
      E.tokens = ShiftReduce.Derivation.tokens (.branch ifElseRule children) ∧ Settled E := by
  obtain ⟨a, b, c, inner, token, outer, rfl, aRoot, bRoot, cRoot, innerRoot, outerRoot⟩ :=
    exists_of_ifElseRule derived
  by_cases opened : inner.Trailing ifRule
  · -- the `else` belongs to an `if` in the statement before it
    obtain ⟨_, _, below⟩ := derived.of_branch
    simp only [List.forall_mem_cons] at below settled
    obtain ⟨derivedA, derivedB, derivedC, derivedInner, derivedElse, derivedOuter, _⟩ := below
    have accepted : (grammar.alphabet .elseWord).accepts token = true :=
      derivedElse.accepts_of_mem (List.mem_singleton_self _)
    obtain ⟨E, derivedE, rootE, tokensE, settledE⟩ := exists_attached derivedInner
      settled.2.2.2.1 opened accepted derivedOuter outerRoot settled.2.2.2.2.2.1
    have moved : grammar.IsDerivation (.branch ifRule [a, b, c, E]) := by
      have isRule : ifRule ∈ grammar.rules :=
        List.mem_of_getElem? (rfl : grammar.rules[11]? = some ifRule)
      refine .branch ifRule _ isRule ?_ ?_
      · simp only [List.map_cons, List.map_nil, aRoot, bRoot, cRoot, rootE, innerRoot]
        rfl
      · simp only [List.forall_mem_cons]
        exact ⟨derivedA, derivedB, derivedC, derivedE, List.forall_mem_nil _⟩
    refine ⟨_, moved, rfl, ?_, settled_branch moved ?_ ?_ ?_⟩
    · simp only [tokens_branch, List.flatMap_cons, List.flatMap_nil,
        List.append_nil, tokens_leaf, tokensE, List.singleton_append]
    · simp only [List.forall_mem_cons]
      exact ⟨settled.1, settled.2.1, settled.2.2.1, settledE, List.forall_mem_nil _⟩
    · intro i left token' right same
      cases congrArg ShiftReduce.Rule.key same
    · intro a' b' c' inner' e outer' same
      cases congrArg ShiftReduce.Rule.kind same
  · refine ⟨_, derived, rfl, rfl, settled_branch derived settled ?_ ?_⟩
    · intro i left token' right same
      cases congrArg ShiftReduce.Rule.key same
    · intro a' b' c' inner' e outer' _ shape
      simp only [List.cons.injEq] at shape
      exact shape.2.2.2.1 ▸ opened

/-- Every derivation can be brought in line with the choices of the table. -/
theorem exists_settled (derived : grammar.IsDerivation D) :
    ∃ E : Derivation, grammar.IsDerivation E ∧ E.root = D.root ∧ E.tokens = D.tokens ∧
      Settled E := by
  induction derived with
  | leaf t token accepted => exact ⟨_, .leaf t token accepted, rfl, rfl, .leaf _⟩
  | branch rule children isRule spelled below ih =>
    have nonempty : Nonempty Derivation := ⟨.branch rule children⟩
    -- settle the children first; then only the rule of the branch can be at odds
    choose! settle derivedSettled root tokens settled using ih
    have roots : (children.map settle).map ShiftReduce.Derivation.root = rule.symbols := by
      rw [← spelled, List.map_map]
      exact List.map_congr_left root
    have sameTokens : (children.map settle).flatMap ShiftReduce.Derivation.tokens =
        children.flatMap ShiftReduce.Derivation.tokens := by
      rw [List.flatMap_map]
      exact List.flatMap_congr tokens
    have derived : grammar.IsDerivation (.branch rule (children.map settle)) := by
      refine .branch rule _ isRule roots ?_
      rw [List.forall_mem_map]
      exact derivedSettled
    have settledBelow : ∀ child ∈ children.map settle, Settled child := by
      rw [List.forall_mem_map]
      exact settled
    rw [tokens_branch, ← sameTokens]
    generalize children.map settle = children' at derived settledBelow
    by_cases operation : ∃ i ∈ operators, rule = infixRule i
    · obtain ⟨i, isOperator, rfl⟩ := operation
      obtain ⟨E, derivedE, rootE, tokensE, settledE⟩ :=
        exists_settled_operation isOperator derived settledBelow
      rw [tokens_branch] at tokensE
      exact ⟨E, derivedE, rootE, tokensE, settledE⟩
    have plain : ∀ i, rule ≠ infixRule i := by
      rintro i rfl
      rcases expression_cases isRule rfl with isOperation | same
      · exact operation isOperation
      · cases congrArg ShiftReduce.Rule.body same
    by_cases isElse : rule = ifElseRule
    · subst isElse
      obtain ⟨E, derivedE, rootE, tokensE, settledE⟩ := exists_settled_else derived settledBelow
      rw [tokens_branch] at tokensE
      exact ⟨E, derivedE, rootE, tokensE, settledE⟩
    refine ⟨_, derived, rfl, tokens_branch _ _,
      settled_branch derived settledBelow ?_ ?_⟩
    · intro i left token right same
      exact absurd same (plain i)
    · intro a b c inner e outer same
      exact absurd same isElse

end ShiftReduce.Pascal
