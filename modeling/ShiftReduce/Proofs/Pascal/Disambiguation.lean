/-
  How the trees of the Pascal subset are disambiguated.

  The grammar leaves open which `if` an `else` belongs to and which operator an
  operand goes to. In every tree that is returned the `else` belongs to the nearest
  `if`, and operands go by precedence, and to the left among equals
  (`disambiguated_of_parse`). A tree is built by a derivation that the parser reads
  without an error, from the tokens that it has kept. These tokens also have a
  derivation that goes by the choices of the table, and the parser reads that one;
  so it is the same (`exists_settled_of_accepted`). What this says of derivations
  (`not_open_of_settled`, `precedence_of_settled`) is then read off their trees.
-/
import ShiftReduce.Proofs.Pascal.Recovered

namespace ShiftReduce.Pascal

open ShiftReduce.Derivation (build_branch)

variable {D : Derivation} {tokens : List Token} {tree : Tree} {m : Progress Token NodeKind}

/-! ### Trees -/

/-- The last statement of the tree is an `if` without an `else`: there is one down the last
statements in wrappers, loops and `if`s. -/
inductive EndsWithIf : Tree → Prop
  | here (children : List Tree) : EndsWithIf (.branch .if_ children)
  | there (kind : NodeKind) (front : List Tree) (last : Tree)
      (isEdge : kind ∈ [NodeKind.statement, .while_, .forUp, .forDown, .if_, .ifElse])
      (deeper : EndsWithIf last) : EndsWithIf (.branch kind (front ++ [last]))

/-- The operator is on the left spine of the expression: at its root, or on the left spine of
the left operand. A factor ends a spine, so parentheses do. -/
inductive LeftSpine (operator : Token) : Tree → Prop
  | here (left right : Tree) : LeftSpine operator (.branch .expression [left, .leaf operator, right])
  | there (left : Tree) (other : Token) (right : Tree) (deeper : LeftSpine operator left) :
      LeftSpine operator (.branch .expression [left, .leaf other, right])

/-- The operator is on the right spine of the expression. -/
inductive RightSpine (operator : Token) : Tree → Prop
  | here (left right : Tree) : RightSpine operator (.branch .expression [left, .leaf operator, right])
  | there (left : Tree) (other : Token) (right : Tree) (deeper : RightSpine operator right) :
      RightSpine operator (.branch .expression [left, .leaf other, right])

/-- The level that an infix operator binds at. -/
def level? : TokenKind → Option Nat
  | .operator .plus | .operator .minus => some 0
  | .operator .star | .operator .slash => some 1
  | .operator .caret => some 2
  | _ => none

/-- The tree is disambiguated: no statement before an `else` ends with an `if` that could take
it; every infix operator binds less tightly than those on the left spine of its right operand,
and no more tightly than those on the right spine of its left operand. -/
structure Disambiguated (tree : Tree) : Prop where
  nearest : ∀ children, Tree.Within (.branch .ifElse children) tree →
    ∃ ifToken condition thenToken inner elseToken outer,
      children = [.leaf ifToken, condition, .leaf thenToken, inner, .leaf elseToken, outer] ∧
        (ifToken.kind = .keyword .ifWord ∧ thenToken.kind = .keyword .thenWord ∧
          elseToken.kind = .keyword .elseWord) ∧ ¬ EndsWithIf inner
  bound : ∀ left middle right, Tree.Within (.branch .expression [left, middle, right]) tree →
    ∃ operator level, middle = .leaf operator ∧ level? operator.kind = some level ∧
      (∀ other, LeftSpine other right → ∃ higher, level? other.kind = some higher ∧
        level < higher) ∧
      ∀ other, RightSpine other left → ∃ least, level? other.kind = some least ∧ level ≤ least

/-! ### Derivations that are read -/

/-- What is accepted is built by the derivation of a program that goes by the choices of the
table. -/
theorem exists_settled_of_accepted (accepted : parseProgram tokens = (.accepted tree, m)) :
    ∃ D : Derivation, grammar.IsDerivation D ∧ D.root = non .program ∧ Settled D ∧ D.build = tree ∧
      D.tokens.Sublist tokens := by
  obtain ⟨D, n, state, derived, root, builds, kept, reads⟩ := exists_readsIn_of_accepted accepted
  obtain ⟨E, derivedE, rootE, sameTokens, settled⟩ := exists_settled derived
  have rootE : E.root = non .program := rootE.trans root
  obtain ⟨state', reads'⟩ := exists_readsIn_settled derivedE settled rootE
  rw [sameTokens] at reads'
  -- both are readings of the same tokens
  obtain rfl : D = E := Table.derivation_unique reads reads' (kind?_build_program derived root)
    (kind?_build_program derivedE rootE)
  exact ⟨D, derived, root, settled, builds, kept⟩

/-- The tree of a parse with recoveries is also that of a parse without, of some of the tokens. -/
theorem exists_clean_of_accepted (accepted : parseProgram tokens = (.accepted tree, m)) :
    ∃ kept m', kept.Sublist tokens ∧ parseProgram kept = (.accepted tree, m') ∧
      m'.diagnostics = [] := by
  obtain ⟨D, derived, root, settled, rfl, isKept⟩ := exists_settled_of_accepted accepted
  obtain ⟨m', parsed, clean⟩ := exists_parseProgram_settled derived settled root
  exact ⟨D.tokens, m', isKept, parsed, clean⟩

/-- The table chooses between any two operators by their precedence, but has nothing to choose
behind a power. -/
theorem operators_checked : ∀ i ∈ operators, ∀ j ∈ operators, i ≠ .caret →
    ∃ s ∈ table.states, ∃ r ∈ s.resolutions, r.rule = operatorPlace i ∧ r.terminal = j ∧
      r.shifts = decide (i.precedence < j.precedence) := by
  decide +kernel

/-- Of two operators the table has chosen one by their precedence, unless the first is a power,
which has no operand that the other could take. -/
theorem decides_operator {i j : Terminal} (isOperator : i ∈ operators) (isOther : j ∈ operators)
    (notPower : i ≠ .caret) :
    table.Decides (decide (i.precedence < j.precedence)) (infixRule i) j := by
  obtain ⟨s, member, r, isResolution, place, terminal, shifts⟩ :=
    operators_checked i isOperator j isOther notPower
  obtain ⟨number, isState⟩ := List.mem_iff_getElem?.mp member
  refine ⟨number, s, r, isState, isResolution, ?_, terminal, shifts⟩
  rw [automaton.grammar, place, rule?_operatorPlace isOperator]

/-- In a settled operation the operators that lead the right operand bind tighter, and those on
the right edge of the left operand at least as tightly. -/
theorem precedence_of_settled {i : Terminal} (isOperator : i ∈ operators) {left right : Derivation}
    {token : Token} (derivedRight : grammar.IsDerivation right)
    (rightRoot : right.root = non (rightOperand i))
    (settled : Settled (.branch (infixRule i) [left, .leaf (i, token), right])) :
    (∀ j ∈ operators, right.Leading j → i.precedence < j.precedence) ∧
      ∀ j ∈ operators, left.Trailing (infixRule j) → i.precedence ≤ j.precedence := by
  cases settled with
  | branch _ _ _ yields beats =>
    refine ⟨fun j isOther leading => ?_, fun j isOther trailing => ?_⟩
    · rcases rightOperand_cases i with ⟨_, operand⟩ | ⟨notPower, _⟩
      · -- the exponent of a power is a factor
        rw [operand] at rightRoot
        exact absurd leading ((factor_edges derivedRight rightRoot).1 j)
      · by_contra keeps
        have decides := decides_operator isOperator isOther notPower
        rw [decide_eq_false keeps] at decides
        exact beats [left, .leaf (i, token)] right rfl j leading decides
    · by_cases power : j = .caret
      · rw [power]
        exact precedence_le i
      · by_contra looser
        have decides := decides_operator isOther isOperator power
        rw [decide_eq_true (Int.not_le.mp looser)] at decides
        exact yields [] left [.leaf (i, token), right] rfl i rfl _ trailing decides

/-! ### Trees and their derivations -/

/-- A branch is built by a rule of its kind, from what the children build. -/
theorem exists_of_build {kind : NodeKind} {children : List Tree} (derived : grammar.IsDerivation D)
    (other : kind ≠ .statements) (built : D.build = .branch kind children) :
    ∃ rule parts, D = .branch rule parts ∧ rule ∈ grammar.rules ∧ rule.kind = kind ∧
      children = parts.map ShiftReduce.Derivation.build := by
  cases derived with
  | leaf t token _ => cases built
  | branch rule parts isRule _ _ =>
    rw [build_branch] at built
    rcases build_cases rule isRule with plain | ⟨appends, _⟩
    · rw [plain] at built
      obtain ⟨sameKind, same⟩ := ShiftReduce.Tree.branch.inj built
      exact ⟨rule, parts, rfl, isRule, sameKind, same.symm⟩
    · have lists := kind?_appendStatement (parts.map ShiftReduce.Derivation.build)
      rw [← appends, built] at lists
      exact absurd (Option.some.inj lists) other

/-- An `if` is built by its own rule only, with an `else` or without. -/
theorem eq_of_kind_if {rule : Rule} (isRule : rule ∈ grammar.rules) :
    (rule.kind = .if_ → rule = ifRule) ∧ (rule.kind = .ifElse → rule = ifElseRule) := by
  have check : ∀ place : Fin 26, ((rules.get place).kind = .if_ → place.val = 11) ∧
      ((rules.get place).kind = .ifElse → place.val = 12) := by decide
  obtain ⟨place, rfl⟩ := List.mem_iff_get.mp isRule
  refine ⟨fun kind => ?_, fun kind => ?_⟩
  · have found : grammar.rule? 11 = some ifRule := rfl
    rw [← (check place).1 kind] at found
    exact get_eq_of_rule? found
  · have found : grammar.rule? 12 = some ifElseRule := rfl
    rw [← (check place).2 kind] at found
    exact get_eq_of_rule? found

/-- An expression of three parts is built by the rule of an operator. -/
theorem exists_operation_of_build {l middle r : Tree} (derived : grammar.IsDerivation D)
    (built : D.build = .branch .expression [l, middle, r]) :
    ∃ i ∈ operators, ∃ (left : Derivation) (token : Token) (right : Derivation),
      D = .branch (infixRule i) [left, .leaf (i, token), right] ∧ token.kind = i.kind ∧
      (grammar.IsDerivation left ∧ left.build = l) ∧ middle = .leaf token ∧
      (grammar.IsDerivation right ∧ right.root = non (rightOperand i)) ∧ right.build = r := by
  have check : ∀ rule ∈ grammar.rules, rule.kind = .expression → rule.key = .expression := by decide
  obtain ⟨rule, parts, rfl, isRule, kind, same⟩ := exists_of_build derived (by decide) built
  rcases expression_cases isRule (check rule isRule kind) with ⟨i, isOperator, rfl⟩ | rfl
  · obtain ⟨left, token, right, rfl, accepted, ⟨derivedLeft, _⟩, derivedRight⟩ :=
      exists_of_infixRule derived
    obtain ⟨rfl, rfl, rfl⟩ : l = left.build ∧ middle = .leaf token ∧ r = right.build := by
      simpa [ShiftReduce.Derivation.build] using same
    exact ⟨i, isOperator, left, token, right, rfl, of_decide_eq_true accepted, ⟨derivedLeft, rfl⟩,
      rfl, derivedRight, rfl⟩
  · -- a factor by itself has one part
    have count := congrArg List.length (derived.of_branch.2.1)
    have parts := congrArg List.length same
    rw [List.length_map] at count parts
    cases parts.trans count

/-- A tree that ends with an `if` is built with the rule of an `if` on the right edge. -/
theorem trailing_of_endsWithIf (ends : EndsWithIf tree) (derived : grammar.IsDerivation D)
    (built : D.build = tree) : D.Trailing ifRule := by
  induction ends generalizing D with
  | here children =>
    obtain ⟨rule, parts, rfl, isRule, kind, _⟩ := exists_of_build derived (by decide) built
    rw [(eq_of_kind_if isRule).1 kind]
    exact .here parts
  | there kind front last isEdge _ ih =>
    have other : kind ≠ .statements := by
      rintro rfl
      revert isEdge
      decide
    obtain ⟨rule, parts, rfl, _, _, same⟩ := exists_of_build derived other built
    obtain ⟨before, behind, rfl, _, isLast⟩ := List.append_eq_map_iff.mp same
    obtain ⟨part, rfl, builtPart⟩ := List.map_eq_singleton_iff.mp isLast
    have isPart : part ∈ before ++ [part] := List.mem_append_right before List.mem_cons_self
    exact .there rule before [] (ih (derived.of_branch.2.2 part isPart) builtPart) rfl

/-- An operator on the left spine leads the derivation. -/
theorem leading_of_leftSpine {operator : Token} (spine : LeftSpine operator tree)
    (derived : grammar.IsDerivation D) (built : D.build = tree) :
    ∃ j ∈ operators, operator.kind = j.kind ∧ D.Leading j := by
  induction spine generalizing D with
  | here left right =>
    obtain ⟨j, isOperator, L, token, R, rfl, kind, _, same, _⟩ :=
      exists_operation_of_build derived built
    obtain rfl := ShiftReduce.Tree.leaf.inj same
    exact ⟨j, isOperator, kind, .here _ L operator [R]⟩
  | there left other right _ ih =>
    obtain ⟨_, _, L, token, R, rfl, _, ⟨derivedLeft, builtLeft⟩, _⟩ :=
      exists_operation_of_build derived built
    obtain ⟨j, isOperator, kind, leading⟩ := ih derivedLeft builtLeft
    exact ⟨j, isOperator, kind, .there _ _ leading⟩

/-- The rule of an operator on the right spine is on the right edge of the derivation. -/
theorem trailing_of_rightSpine {operator : Token} (spine : RightSpine operator tree)
    (derived : grammar.IsDerivation D) (built : D.build = tree) :
    ∃ j ∈ operators, operator.kind = j.kind ∧ D.Trailing (infixRule j) := by
  induction spine generalizing D with
  | here left right =>
    obtain ⟨j, isOperator, L, token, R, rfl, kind, _, same, _⟩ :=
      exists_operation_of_build derived built
    obtain rfl := ShiftReduce.Tree.leaf.inj same
    exact ⟨j, isOperator, kind, .here _⟩
  | there left other right _ ih =>
    obtain ⟨i, _, L, token, R, rfl, _, _, _, ⟨derivedRight, _⟩, builtRight⟩ :=
      exists_operation_of_build derived built
    obtain ⟨j, isOperator, kind, trailing⟩ := ih derivedRight builtRight
    exact ⟨j, isOperator, kind, .there _ [L, .leaf (i, token)] [] trailing rfl⟩

/-- The level of an operator is its precedence. -/
theorem level?_kind : ∀ i ∈ operators, level? i.kind = some i.precedence.toNat ∧
    0 ≤ i.precedence := by
  decide

/-! ### Trees of sources -/

/-- The tree of a settled derivation is disambiguated. -/
theorem disambiguated_build (derived : grammar.IsDerivation D) (settled : Settled D) :
    Disambiguated D.build where
  nearest := by
    intro children within
    obtain ⟨E, part, derivedE, built⟩ := exists_within derived within
    obtain ⟨rule, parts, rfl, isRule, kind, rfl⟩ := exists_of_build derivedE (by decide) built
    obtain rfl := (eq_of_kind_if isRule).2 kind
    obtain ⟨a, b, c, inner, token, outer, rfl, aRoot, _, cRoot, _⟩ := exists_of_ifElseRule derivedE
    have below := derivedE.of_branch.2.2
    simp only [List.forall_mem_cons] at below
    obtain ⟨derivedA, _, derivedC, derivedInner, derivedElse, _⟩ := below
    obtain ⟨ifToken, rfl, isIf⟩ := derivedA.exists_of_root_terminal aRoot
    obtain ⟨thenToken, rfl, isThen⟩ := derivedC.exists_of_root_terminal cRoot
    have isElse := derivedElse.accepts_of_mem (List.mem_singleton_self _)
    refine ⟨ifToken, b.build, thenToken, inner.build, token, outer.build, rfl,
      ⟨of_decide_eq_true isIf, of_decide_eq_true isThen, of_decide_eq_true isElse⟩, fun ends => ?_⟩
    exact not_open_of_settled rfl (settled.of_within part)
      (trailing_of_endsWithIf ends derivedInner rfl)
  bound := by
    intro l middle r within
    obtain ⟨E, part, derivedE, built⟩ := exists_within derived within
    obtain ⟨i, isOperator, left, token, right, rfl, kind, ⟨derivedLeft, builtLeft⟩, rfl,
      ⟨derivedRight, rightRoot⟩, builtRight⟩ := exists_operation_of_build derivedE built
    obtain ⟨tighter, atLeast⟩ :=
      precedence_of_settled isOperator derivedRight rightRoot (settled.of_within part)
    obtain ⟨level, least⟩ := level?_kind i isOperator
    refine ⟨token, i.precedence.toNat, rfl, kind ▸ level, fun other spine => ?_,
      fun other spine => ?_⟩
    · obtain ⟨j, isOther, otherKind, leading⟩ := leading_of_leftSpine spine derivedRight builtRight
      have above := tighter j isOther leading
      exact ⟨j.precedence.toNat, otherKind ▸ (level?_kind j isOther).1, by omega⟩
    · obtain ⟨j, isOther, otherKind, trailing⟩ :=
        trailing_of_rightSpine spine derivedLeft builtLeft
      have above := atLeast j isOther trailing
      exact ⟨j.precedence.toNat, otherKind ▸ (level?_kind j isOther).1, by omega⟩

/-- Whenever a source is read, with or without errors, every `else` in its tree belongs to the
nearest `if` that is open, and operands go by precedence, and to the left among equals. -/
theorem disambiguated_of_parse {source : String} {program : Program}
    (ok : parse source = .ok program) : Disambiguated program.tree := by
  obtain ⟨tokens, m, _, accepted⟩ := exists_tokens_of_parse ok
  obtain ⟨D, derived, _, settled, builds, _⟩ := exists_settled_of_accepted accepted
  rw [← builds]
  exact disambiguated_build derived settled

/-- A program with an `else` and operators to disambiguate, and two errors among them. -/
def tangled : String :=
  "program p; begin if a < 1 then while b < 2 do if c > 3 then d := a - b * c ^ 2 * e - 1 " ++
    "else d := ) ; e := (a + b) * c + ; a := b ^ 2 ^ 3 end."

set_option maxRecDepth 100000 in
/-- The tangled program is read with two errors, and its tree is disambiguated. -/
theorem disambiguated_tangled : ∃ program, parse tangled = .ok program ∧
    program.diagnostics.length = 2 ∧ Disambiguated program.tree := by
  have parsed : (parse tangled).toOption.map (fun program => program.diagnostics.length) =
      some 2 := by
    decide +kernel
  obtain ⟨program, ok, count⟩ := exists_program parsed
  exact ⟨program, ok, count, disambiguated_of_parse ok⟩

end ShiftReduce.Pascal
