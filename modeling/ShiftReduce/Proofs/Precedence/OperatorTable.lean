/-
  The states of an operator grammar.

  What a state has read completely can be told from the last symbols on the way
  to it (`Operators.ruleAt`), so no state has two rules to reduce and every
  grammar of operators has a table. A choice between a shift and a reduction is
  met behind an expression with an operator before it and one to come. The
  context of such a state is the one that the operator before the expression
  led to, since gotos hand it on; so the choice goes by the preference between
  the two operators (`exists_of_decides`).
-/
import ShiftReduce.Proofs.Precedence.Operators

namespace ShiftReduce

variable {τ κ T N : Type} {o : Operators τ κ T N}

namespace Operators

/-! ### Terminals and keys -/

theorem start_ne_program : o.start ≠ o.program := by
  have keys := o.keys
  simp only [List.nodup_cons, List.mem_cons, not_or] at keys
  exact keys.1.1

theorem start_ne_expression : o.start ≠ o.expression := by
  have keys := o.keys
  simp only [List.nodup_cons, List.mem_cons, not_or] at keys
  exact keys.1.2.1

theorem program_ne_expression : o.program ≠ o.expression := by
  have keys := o.keys
  simp only [List.nodup_cons, List.mem_cons, not_or] at keys
  exact keys.2.1.1

theorem ne_of_mem {i : τ} (isOperator : i ∈ o.operators) :
    i ≠ o.number ∧ i ≠ o.opening ∧ i ≠ o.closing := by
  have nodup := o.nodup
  simp only [List.nodup_cons, List.mem_cons, not_or] at nodup
  obtain ⟨⟨_, _, number⟩, ⟨_, opening⟩, closing, _⟩ := nodup
  refine ⟨?_, ?_, ?_⟩
  · rintro rfl
    exact number isOperator
  · rintro rfl
    exact opening isOperator
  · rintro rfl
    exact closing isOperator

theorem number_ne : o.number ≠ o.opening ∧ o.number ≠ o.closing ∧ o.opening ≠ o.closing := by
  have nodup := o.nodup
  simp only [List.nodup_cons, List.mem_cons, not_or] at nodup
  exact ⟨nodup.1.1, nodup.1.2.1, nodup.2.1.1⟩

theorem mem_terminalOccurrences {t : τ} (occurs : t ∈ o.grammar.terminalOccurrences) :
    t ∈ o.number :: o.opening :: o.closing :: o.operators := by
  obtain ⟨rule, isRule, used⟩ := Grammar.mem_terminalOccurrences.mp occurs
  rcases o.mem_rules.mp isRule with rfl | rfl | ⟨i, isOperator, rfl⟩ | rfl | rfl
  · cases List.mem_singleton.mp used
  · cases List.mem_singleton.mp used
  · simp only [body_operatorRule, List.mem_cons, Symbol.terminal.injEq, reduceCtorEq, List.not_mem_nil,
      false_or, or_false] at used
    simp [used, isOperator]
  · obtain rfl := Symbol.terminal.inj (List.mem_singleton.mp used)
    exact List.mem_cons_self
  · simp only [body_groupRule, List.mem_cons, Symbol.terminal.injEq, reduceCtorEq, List.not_mem_nil,
      false_or, or_false] at used
    rcases used with rfl | rfl <;> simp

theorem distinct_grammar : o.grammar.Distinct := fun t occurs u occurs' token accepted accepted' =>
  o.distinct t (mem_terminalOccurrences occurs) u (mem_terminalOccurrences occurs') token accepted
    accepted'

/-- The program frames the grammar. -/
theorem framed : o.grammar.Framed o.start o.program where
  start_fresh rule isRule used := by
    rcases o.mem_rules.mp isRule with rfl | rfl | ⟨i, _, rfl⟩ | rfl | rfl <;>
      simp [startRule, programRule, operatorRule, numberRule, groupRule, start_ne_program,
        start_ne_expression] at used
  goal_framed rule isRule used := by
    rcases o.mem_rules.mp isRule with rfl | rfl | ⟨i, _, rfl⟩ | rfl | rfl
    · exact ⟨rfl, rfl⟩
    all_goals
      simp [programRule, operatorRule, numberRule, groupRule, program_ne_expression] at used

/-- Each operator has its own rule. -/
theorem infixIn {i : τ} (isOperator : i ∈ o.operators) :
    o.grammar.InfixIn i (o.operatorRule i) where
  body := ⟨o.expression, o.expression, rfl⟩
  only rule isRule used := by
    obtain ⟨number, opening, closing⟩ := ne_of_mem isOperator
    rcases o.mem_rules.mp isRule with rfl | rfl | ⟨j, _, rfl⟩ | rfl | rfl
    · cases List.mem_singleton.mp used
    · cases List.mem_singleton.mp used
    · simp only [body_operatorRule, List.mem_cons, Symbol.terminal.injEq, reduceCtorEq,
        List.not_mem_nil, false_or, or_false] at used
      rw [used]
    · exact absurd (Symbol.terminal.inj (List.mem_singleton.mp used)) number
    · simp [groupRule, opening, closing] at used

/-- No rule is listed twice. -/
theorem nodup_rules : o.rules.Nodup := by
  have different := @program_ne_expression τ κ T N o
  have bodies : (o.rules.map Rule.body).Nodup := by
    have operators : (o.operators.map fun i =>
        [Symbol.nonterminal o.expression, .terminal i, .nonterminal o.expression]).Nodup := by
      refine (List.nodup_cons.mp (List.nodup_cons.mp (List.nodup_cons.mp o.nodup).2).2).2.map ?_
      intro i j same
      simpa using same
    have split : o.rules.map Rule.body = [.nonterminal o.program] :: [.nonterminal o.expression] ::
        ((o.operators.map fun i =>
          [Symbol.nonterminal o.expression, .terminal i, .nonterminal o.expression]) ++
        [[.terminal o.number],
          [.terminal o.opening, .nonterminal o.expression, .terminal o.closing]]) := by
      simp [rules, startRule, programRule, operatorRule, numberRule, groupRule, Function.comp_def]
    rw [split]
    simp [List.nodup_append, operators, different]
  exact bodies.of_map

/-- No item expects the empty text. -/
theorem expected_ne_epsilon (item : Item) : o.grammar.expected? item ≠ some .epsilon := by
  intro expected
  obtain ⟨rule, isRule, used⟩ := o.grammar.exists_mem_body_of_expected expected
  rcases o.mem_rules.mp isRule with rfl | rfl | ⟨i, _, rfl⟩ | rfl | rfl <;>
    simp [startRule, programRule, operatorRule, numberRule, groupRule] at used

/-- A nonterminal in a body is an expression, except in the start rule. -/
theorem inner_cases {rule : Rule τ κ T N} (isRule : rule ∈ o.rules) {front rest : List (Symbol τ κ)}
    {inner : κ} (split : rule.body = front ++ .nonterminal inner :: rest) :
    (rule = o.startRule ∧ rest = []) ∨ inner = o.expression := by
  have used : Symbol.nonterminal inner ∈ rule.body := by
    rw [split]
    exact List.mem_append_right front List.mem_cons_self
  rcases o.mem_rules.mp isRule with rfl | rfl | ⟨i, _, rfl⟩ | rfl | rfl
  · refine .inl ⟨rfl, ?_⟩
    have count := congrArg List.length split
    simp only [body_startRule, List.length_append, List.length_cons, List.length_nil] at count
    exact List.eq_nil_of_length_eq_zero (by omega)
  · exact .inr (Symbol.nonterminal.inj (List.mem_singleton.mp used))
  · simp only [body_operatorRule, List.mem_cons, Symbol.nonterminal.injEq, reduceCtorEq,
      List.not_mem_nil, false_or, or_false, or_self] at used
    exact .inr used
  · cases List.mem_singleton.mp used
  · simp only [body_groupRule, List.mem_cons, Symbol.nonterminal.injEq, reduceCtorEq,
      List.not_mem_nil, false_or, or_false] at used
    exact .inr used

/-! ### Complete rules -/

variable [DecidableEq τ] [DecidableEq κ]

/-- The rule that can have been read completely at the end of a path. -/
def ruleAt (o : Operators τ κ T N) : List (Symbol τ κ) → Rule τ κ T N
  | [.nonterminal key] => if key = o.program then o.startRule else o.programRule
  | .nonterminal _ :: .terminal i :: _ => o.operatorRule i
  | .terminal t :: _ => if t = o.number then o.numberRule else o.groupRule
  | _ => o.numberRule

variable {path : List (Symbol τ κ)} {items : ItemSet} {place cursor : Nat} {rule : Rule τ κ T N}

/-- The path to a set in which a rule has been read completely ends with the
rule's body. -/
theorem path_of_complete (reached : o.grammar.Reaches o.start path items)
    (member : (⟨place, cursor⟩ : Item) ∈ items) (found : o.grammar.rule? place = some rule)
    (done : o.grammar.expected? ⟨place, cursor⟩ = none) (real : rule.length = rule.body.length) :
    path = rule.body.reverse ++ path.drop rule.body.length ∧
      ∃ before, o.grammar.Reaches o.start (path.drop rule.body.length) before ∧
        (⟨place, 0⟩ : Item) ∈ before := by
  obtain rfl := reached.cursor_eq_length member found done
  obtain ⟨spelled, before⟩ := reached.backed member found
  rw [real] at spelled before
  refine ⟨?_, before⟩
  rw [List.take_length] at spelled
  rw [spelled, List.take_append_drop]

/-- A rule that is read completely is the one that its path tells. -/
theorem eq_ruleAt (reached : o.grammar.Reaches o.start path items)
    (member : (⟨place, cursor⟩ : Item) ∈ items) (found : o.grammar.rule? place = some rule)
    (done : o.grammar.expected? ⟨place, cursor⟩ = none) : rule = o.ruleAt path := by
  have isRule : rule ∈ o.rules := List.mem_of_getElem? found
  rcases o.mem_rules.mp isRule with rfl | rfl | ⟨i, isOperator, rfl⟩ | rfl | rfl
  · obtain ⟨ends, before, reached', unread⟩ := path_of_complete reached member found done rfl
    rw [framed.path_eq_nil_of_unread reached' unread found rfl] at ends
    rw [ends]
    exact (if_pos rfl).symm
  · obtain ⟨ends, before, reached', unread⟩ := path_of_complete reached member found done rfl
    -- a program begins at the bottom, where the start rule expects it
    have bottom : path.drop 1 = [] := by
      rcases reached'.predicted_of_unread unread with ⟨bottom, _⟩ | ⟨parent, inside, predicted⟩
      · exact bottom
      · obtain ⟨key, expected, isStart⟩ := o.grammar.mem_predicted.mp predicted
        obtain ⟨_, rule', found', same⟩ := o.grammar.mem_startItems.mp isStart
        obtain rfl := Option.some.inj (found.symm.trans found')
        obtain rfl : o.program = key := same
        exact framed.path_eq_nil reached' inside expected
    have whole : path = [.nonterminal o.expression] := by
      rw [ends]
      exact congrArg (Symbol.nonterminal o.expression :: ·) bottom
    rw [whole]
    exact (if_neg (Ne.symm program_ne_expression)).symm
  · obtain ⟨ends, _⟩ := path_of_complete reached member found done rfl
    rw [ends]
    rfl
  · obtain ⟨ends, _⟩ := path_of_complete reached member found done rfl
    rw [ends]
    exact (if_pos rfl).symm
  · obtain ⟨ends, _⟩ := path_of_complete reached member found done rfl
    rw [ends]
    exact (if_neg (Ne.symm number_ne.2.1)).symm

/-- No set has two rules read completely. -/
theorem complete_unique (reached : o.grammar.Reaches o.start path items) :
    ∀ one ∈ o.grammar.completeRules items, ∀ other ∈ o.grammar.completeRules items,
      one = other := by
  intro one member other member'
  obtain ⟨cursor, inside, done⟩ := o.grammar.mem_completeRules.mp member
  obtain ⟨cursor', inside', done'⟩ := o.grammar.mem_completeRules.mp member'
  obtain ⟨rule, found, _⟩ := reached.exists_rule inside
  obtain ⟨rule', found', _⟩ := reached.exists_rule inside'
  rw [eq_ruleAt reached inside found done] at found
  rw [eq_ruleAt reached inside' found' done'] at found'
  have bound : one < o.rules.length := (List.getElem?_eq_some_iff.mp found).1
  exact (List.getElem?_inj bound nodup_rules).mp (found.trans found'.symm)

/-! ### What is expected behind a symbol -/

/-- What was read last and what is expected next stand side by side in a rule. -/
theorem read_expected_cases {symbol next : Symbol τ κ}
    (reached : o.grammar.Reaches o.start (symbol :: path) items)
    (member : (⟨place, cursor + 1⟩ : Item) ∈ items)
    (expected : o.grammar.expected? ⟨place, cursor + 1⟩ = some next) :
    (symbol = .nonterminal o.expression ∧ ∃ i ∈ o.operators, next = .terminal i) ∨
      (path.head? = some (.terminal o.opening) ∧ symbol = .nonterminal o.expression ∧
        next = .terminal o.closing) ∨
      ((∃ i ∈ o.opening :: o.operators, symbol = .terminal i) ∧
        next = .nonterminal o.expression) := by
  obtain ⟨rule, found, within, here⟩ := o.grammar.expected?_eq_some_iff.mp expected
  obtain ⟨spelled, _⟩ := reached.backed member found
  rw [List.take_succ_cons] at spelled
  have isRule : rule ∈ o.rules := List.mem_of_getElem? found
  rcases o.mem_rules.mp isRule with rfl | rfl | ⟨i, isOperator, rfl⟩ | rfl | rfl
  · exact absurd within (Nat.not_lt.mpr (Nat.le_add_left 1 cursor))
  · exact absurd within (Nat.not_lt.mpr (Nat.le_add_left 1 cursor))
  · have bound : cursor + 1 < 3 := within
    obtain rfl | rfl : cursor = 0 ∨ cursor = 1 := by omega
    · exact .inl ⟨(List.cons.inj spelled).1.symm, i, isOperator, (Option.some.inj here).symm⟩
    · exact .inr (.inr ⟨⟨i, List.mem_cons_of_mem _ isOperator, (List.cons.inj spelled).1.symm⟩,
        (Option.some.inj here).symm⟩)
  · exact absurd within (Nat.not_lt.mpr (Nat.le_add_left 1 cursor))
  · have bound : cursor + 1 < 3 := within
    obtain rfl | rfl : cursor = 0 ∨ cursor = 1 := by omega
    · exact .inr (.inr ⟨⟨o.opening, List.mem_cons_self, (List.cons.inj spelled).1.symm⟩,
        (Option.some.inj here).symm⟩)
    · obtain ⟨same, before⟩ := List.cons.inj spelled
      refine .inr (.inl ⟨?_, same.symm, (Option.some.inj here).symm⟩)
      cases path with
      | nil => cases before
      | cons head tail => exact congrArg some (List.cons.inj before).1.symm

/-- Behind a number or a closing parenthesis nothing is expected. -/
theorem not_expected_of_terminal {t : τ} (isEnd : t = o.number ∨ t = o.closing)
    (reached : o.grammar.Reaches o.start (.terminal t :: path) items) {item : Item}
    (member : item ∈ items) {next : Symbol τ κ} : o.grammar.expected? item ≠ some next := by
  have begins : t ∉ o.opening :: o.operators := by
    obtain ⟨opening, _, closing⟩ := @number_ne τ κ T N o
    rw [List.mem_cons, not_or]
    rcases isEnd with rfl | rfl
    · exact ⟨opening, fun isOperator => (ne_of_mem isOperator).1 rfl⟩
    · exact ⟨Ne.symm closing, fun isOperator => (ne_of_mem isOperator).2.2 rfl⟩
  have read : ∀ {place cursor next}, (⟨place, cursor + 1⟩ : Item) ∈ items →
      o.grammar.expected? ⟨place, cursor + 1⟩ ≠ some next := by
    intro place cursor next inside expected
    rcases read_expected_cases reached inside expected with ⟨h, _⟩ | ⟨_, h, _⟩ | ⟨⟨i, h, same⟩, _⟩
    · cases h
    · cases h
    · exact begins (Symbol.terminal.inj same ▸ h)
  obtain ⟨place, cursor⟩ := item
  cases cursor with
  | zero =>
    obtain ⟨place', cursor', key, inside, expected⟩ := reached.exists_of_unread member
    exact absurd expected (read inside)
  | succ cursor => exact read member

/-- Behind an expression an operator is expected, or the parenthesis that closes
the one before the expression. -/
theorem expected_of_nonterminal {key : κ}
    (reached : o.grammar.Reaches o.start (.nonterminal key :: path) items) {item : Item}
    (member : item ∈ items) {t : τ} (expected : o.grammar.expected? item = some (.terminal t)) :
    t ∈ o.operators ∨ path.head? = some (.terminal o.opening) := by
  obtain ⟨place, cursor⟩ := item
  cases cursor with
  | zero =>
    obtain ⟨place', cursor', key', inside, expected'⟩ := reached.exists_of_unread member
    rcases read_expected_cases reached inside expected' with
      ⟨_, i, _, h⟩ | ⟨_, _, h⟩ | ⟨⟨i, _, h⟩, _⟩
    · cases h
    · cases h
    · cases h
  | succ cursor =>
    rcases read_expected_cases reached member expected with ⟨_, i, h, same⟩ | ⟨h, _⟩ | ⟨_, h⟩
    · exact .inl (Symbol.terminal.inj same ▸ h)
    · exact .inr h
    · cases h

variable [Ordered τ] [Ordered κ]

/-- Every grammar of operators has a table. -/
theorem exists_table : ∃ table, o.grammar.table o.start [] = .ok table := by
  refine o.grammar.exists_table ?_ (List.forall_mem_nil _) ?_
  · refine List.any_eq_true.mpr ⟨o.startRule, o.mem_rules.mpr (.inl rfl), ?_⟩
    exact decide_eq_true rfl
  · intro path items context reached
    refine o.grammar.exists_plan _ context (fun item _ => expected_ne_epsilon item) ?_
    rintro t one other ⟨complete, _⟩ ⟨complete', _⟩
    exact complete_unique reached one complete other complete'

/-! ### What comes behind expressions -/

/-- Only expressions have something behind them. -/
theorem key_of_mem_follow {key : κ} {t : τ} (behind : t ∈ o.grammar.followOf key) :
    key = o.expression := by
  have bound : o.grammar.FollowBound fun key _ => key = o.expression := by
    refine ⟨?_, ?_⟩
    · intro rule isRule front inner rest split t begins
      rcases inner_cases isRule split with ⟨_, rfl⟩ | isExpression
      · exact absurd begins (SortedSet.not_mem_empty t)
      · exact isExpression
    · intro rule isRule front inner rest split _ t isExpression
      rcases inner_cases isRule split with ⟨rfl, _⟩ | isExpression
      · exact absurd isExpression start_ne_expression
      · exact isExpression
  exact Grammar.follow_least bound behind

/-! ### Choices -/

variable {table : Table τ κ T N}

/-- Behind an operator, and behind the expression after it, the context is that
of the operator: the shift brings it and the goto hands it on. -/
theorem context_of_mem (built : o.grammar.Automaton o.start table) {number : Nat} {s : State τ κ}
    (isState : table.state? number = some s) {i : τ}
    (found : o.grammar.rule? place = some (o.operatorRule i))
    (member : (⟨place, 2⟩ : Item) ∈ s.items ∨ (⟨place, 3⟩ : Item) ∈ s.items) :
    s.context = Context.of (o.alphabet i) := by
  have expects : ∀ {cursor symbol}, o.grammar.expected? ⟨place, cursor⟩ = some symbol →
      (o.operatorRule i).body[cursor]? = some symbol := by
    intro cursor symbol expected
    obtain ⟨rule, found', _, here⟩ := o.grammar.expected?_eq_some_iff.mp expected
    obtain rfl := Option.some.inj (found.symm.trans found')
    exact here
  -- by induction on the number: a state was found behind an edge of an earlier one
  induction number using Nat.strong_induction_on generalizing s with
  | h number ih =>
    cases number with
    | zero =>
      obtain ⟨first, isFirst, start⟩ := built.first
      obtain rfl := Option.some.inj (isState.symm.trans isFirst)
      rw [start] at member
      rcases member with h | h <;> cases o.grammar.cursor_of_mem_startSet h
    | succ number =>
      obtain ⟨earlier, parent, symbol, before, isParent, edge, behind, context⟩ :=
        built.origin number s isState
      rw [behind] at member
      rcases member with h | h
      · obtain rfl : .terminal i = symbol :=
          Option.some.inj (expects (o.grammar.mem_of_succ_mem_advance h).2)
        rw [context, State.passes, copyIn_grammar]
      · obtain ⟨inside, expected⟩ := o.grammar.mem_of_succ_mem_advance h
        obtain rfl : .nonterminal o.expression = symbol := Option.some.inj (expects expected)
        exact context.trans (ih earlier (by omega) isParent (.inl inside))

/-- A choice is one between two operators, and goes by the preference. -/
theorem exists_of_decides (built : o.grammar.Automaton o.start table) {shifts : Bool}
    {rule : Rule τ κ T N} {t : τ} (decides : table.Decides shifts rule t) :
    ∃ i ∈ o.operators, rule = o.operatorRule i ∧ t ∈ o.operators ∧
      (shifts = true ↔ o.Prefers i t) := by
  obtain ⟨number, s, r, isState, isResolution, found, rfl, rfl⟩ := decides
  rw [built.grammar] at found
  obtain ⟨⟨item, inside, expected⟩, ⟨complete, rule', found', behind⟩, context⟩ :=
    (built.mem_resolutions isState).mp isResolution
  obtain rfl := Option.some.inj (found.symm.trans found')
  obtain ⟨path, reached⟩ := built.reached number s isState
  obtain ⟨cursor, member, done⟩ := o.grammar.mem_completeRules.mp complete
  have isExpression := key_of_mem_follow behind
  have isRule : rule ∈ o.rules := List.mem_of_getElem? found
  rcases o.mem_rules.mp isRule with rfl | rfl | ⟨i, isOperator, rfl⟩ | rfl | rfl
  · exact absurd isExpression start_ne_expression
  · exact absurd isExpression program_ne_expression
  · obtain ⟨ends, _⟩ := path_of_complete reached member found done rfl
    rw [ends] at reached
    refine ⟨i, isOperator, rfl, ?_, ?_⟩
    · rcases expected_of_nonterminal reached inside expected with h | h
      · exact h
      · have same : i = o.opening := Symbol.terminal.inj (Option.some.inj h)
        exact absurd same (ne_of_mem isOperator).2.1
    · -- the context is that of the operator before the expression
      obtain rfl := reached.cursor_eq_length member found done
      rw [context, context_of_mem built isState found (.inr member), copyIn_grammar]
      simp only [Context.prefersShift, Bool.or_eq_true, Bool.and_eq_true, decide_eq_true_eq]
      rfl
  · obtain ⟨ends, _⟩ := path_of_complete reached member found done rfl
    rw [ends] at reached
    exact absurd expected (not_expected_of_terminal (.inl rfl) reached inside)
  · obtain ⟨ends, _⟩ := path_of_complete reached member found done rfl
    rw [ends] at reached
    exact absurd expected (not_expected_of_terminal (.inr rfl) reached inside)

/-- Only infix operators are beaten, and only by rules of infix operators. -/
theorem infixed (built : o.grammar.Automaton o.start table) : table.Infixed o.grammar := by
  intro rule t decides
  obtain ⟨i, isOperator, rfl, isOperator', _⟩ := exists_of_decides built decides
  exact ⟨⟨i, infixIn isOperator⟩, _, infixIn isOperator'⟩

end Operators

end ShiftReduce
