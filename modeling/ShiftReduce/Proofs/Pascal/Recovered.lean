/-
  Recovered programs of the Pascal subset are programs.

  The placeholder of a statement is what an empty statement builds, and it is put
  where the parser would read an empty statement. So a parse that recovers is the
  clean parse of the tokens that it keeps (`exists_readsIn_of_accepted`). Whatever
  lies in the tree is built by a part of its derivation (`exists_within`), so
  recovery has no part in what the nodes look like. Lists of statements are where
  a rule does more than make a branch: each time a list grows, its nodes are taken
  over (`exists_statementList`).
-/
import ShiftReduce.Proofs.Parser.Replay
import ShiftReduce.Proofs.Pascal.Sentences

namespace ShiftReduce.Pascal

open ShiftReduce.Derivation (build_branch)

variable {D : Derivation} {tokens : List Token} {tree : Tree} {m : Progress Token NodeKind}

/-! ### Placeholders -/

/-- The rule for an empty statement. -/
def emptyRule : Rule where
  key := .statement
  kind := .statement
  parts := [.epsilon]

/-- The derivation of an empty statement, which stands for what could not be read. -/
def emptyStatement : Derivation := .branch emptyRule []

theorem isDerivation_emptyStatement : grammar.IsDerivation emptyStatement := by
  have isRule : emptyRule ∈ grammar.rules :=
    List.mem_of_getElem? (rfl : grammar.rules[10]? = some emptyRule)
  exact .branch emptyRule [] isRule rfl (List.forall_mem_nil _)

theorem placeholders_table : table.placeholders = placeholders := by
  obtain ⟨_, _, _, same⟩ := Grammar.exists_explores_of_table table_eq
  rw [same]
  rfl

/-- The placeholder of a statement is an empty statement. -/
theorem spares : table.Spares fun _ => emptyStatement := by
  have only : ∀ key tree, table.placeholder? key = some tree →
      key = .statement ∧ tree = .branch .statement [] := by
    intro key tree placed
    rw [Table.placeholder?, placeholders_table, Option.map_eq_some_iff] at placed
    obtain ⟨entry, found, rfl⟩ := placed
    have isEntry := List.mem_singleton.mp (List.mem_of_find?_eq_some found)
    have same := List.find?_some found
    subst isEntry
    exact ⟨(of_decide_eq_true same).symm, rfl⟩
  refine ⟨fun key tree placed => ?_, fun key tree placed => ?_⟩
  · rw [(only key tree placed).1]
    rfl
  · rw [(only key tree placed).2]
    rfl

set_option maxRecDepth 100000 in
/-- At the start and behind a nonterminal no statement is expected. -/
theorem gotos_checked : table.goto? 0 .statement = none ∧
    ∀ s ∈ table.states, ∀ entry ∈ s.gotos.entries, table.goto? entry.2 .statement = none := by
  decide +kernel

theorem goto?_statement_of_goto? {number target : Nat} {key : Nonterminal}
    (goes : table.goto? number key = some target) : table.goto? target .statement = none := by
  obtain ⟨s, isState, next⟩ := Option.bind_eq_some_iff.mp goes
  exact gotos_checked.2 s (List.mem_of_getElem? isState) (key, target)
    (SortedMap.mem_entries.mpr next)

/-- Statements are expected behind tokens only, and an empty one is read wherever it can stand. -/
theorem seamless : table.Seamless (fun _ => emptyStatement) .program where
  opens := by
    intro frames key target walked root goes frame isTop
    obtain rfl : Nonterminal.statement = key := Symbol.nonterminal.inj root
    obtain ⟨below, rfl⟩ := List.head?_eq_some_iff.mp isTop
    obtain ⟨D, state⟩ := frame
    cases D with
    | leaf entry => exact ⟨entry, rfl⟩
    | branch rule children => cases goes.symm.trans (goto?_statement_of_goto? walked.1)
  reads := by
    intro frames key target token rest walked root goes resumes
    obtain rfl : Nonterminal.statement = key := Symbol.nonterminal.inj root
    have found : grammar.rule? 10 = some emptyRule := rfl
    -- the rule has no operator, so nothing is decided against it
    have keeps : ∀ t, ¬ table.Decides true emptyRule t := by
      intro t decides
      rcases eq_of_decides decides with ⟨same, _⟩ | ⟨i, _, same, _⟩
      · cases congrArg ShiftReduce.Rule.key same
      · cases congrArg ShiftReduce.Rule.key same
    exact ⟨1, .step (Table.reads_empty automaton distinct found rfl keeps walked goes resumes rest)
      (.refl _)⟩

/-! ### Derivations -/

/-- What follows a success. Unfolding the bind instead compares what is bound, and there the
table would be evaluated. -/
theorem ok_bind {ε α β : Type} (a : α) (next : α → Except ε β) :
    (Except.ok a >>= next) = next a := rfl

/-- Reading a source that is cut into tokens is parsing them. -/
theorem parse_of_tokenize {source : String} {tokens : List Token}
    (scanned : tokenize source = .ok tokens) :
    parse source = (resultOf (parseProgram tokens).1).map
      fun tree => ⟨tree, (parseProgram tokens).2.diagnostics⟩ := by
  have lifted : (tokenize source).mapError Failure.lexing = .ok tokens := by rw [scanned]; rfl
  unfold parse
  rw [lifted, ok_bind]
  rcases parseProgram tokens with ⟨outcome, m⟩
  cases outcome <;> rfl

theorem exists_tokens_of_parse {source : String} {program : Program}
    (ok : parse source = .ok program) :
    ∃ tokens m, tokenize source = .ok tokens ∧
      parseProgram tokens = (.accepted program.tree, m) := by
  cases scanned : tokenize source with
  | error failure =>
    unfold parse at ok
    rw [scanned] at ok
    cases ok
  | ok tokens =>
    rw [parse_of_tokenize scanned] at ok
    obtain ⟨⟨outcome, m⟩, result⟩ : ∃ result, parseProgram tokens = result := ⟨_, rfl⟩
    rw [result] at ok
    cases outcome with
    | accepted tree =>
      obtain rfl := Except.ok.inj ok
      exact ⟨tokens, m, rfl, result⟩
    | aborted diagnostics => cases ok
    | unfinished => cases ok

/-- A source for which the diagnostics can be counted is read. -/
theorem exists_program {source : String} {count : Nat}
    (counted : (parse source).toOption.map (fun program => program.diagnostics.length) =
      some count) : ∃ program, parse source = .ok program ∧ program.diagnostics.length = count := by
  cases ok : parse source with
  | error failure =>
    rw [ok] at counted
    cases counted
  | ok program =>
    rw [ok] at counted
    exact ⟨program, rfl, Option.some.inj counted⟩

/-- What is accepted is built by the derivation of a program, of tokens of the input that
were kept, and from these the parser reads it without an error. -/
theorem exists_readsIn_of_accepted (accepted : parseProgram tokens = (.accepted tree, m)) :
    ∃ (D : Derivation) (n state : Nat), grammar.IsDerivation D ∧ D.root = non .program ∧
      D.build = tree ∧ D.tokens.Sublist tokens ∧
      table.ReadsIn .program n ⟨[], D.tokens⟩ ⟨[(D, state)], []⟩ := by
  -- the run is mended, with an empty statement wherever a placeholder was put
  obtain ⟨_, parsed, _⟩ := table.exists_parseTokens_of_drive _ _ _ accepted
  obtain ⟨D, state, below, mends, builds, kind⟩ :=
    Table.exists_mends_of_parseTokens spares parsed
  obtain ⟨kept, n, isKept, sound, reads⟩ := Table.exists_readsIn_of_mends automaton seamless
    (fun _ _ => isDerivation_emptyStatement) (fun _ => rfl) mends
  have derived : grammar.IsDerivation D := sound.derived _ List.mem_cons_self
  have root : D.root = non .program := root_of_kind_program derived (builds ▸ kind)
  -- nothing stands below the program, so what was kept are its own tokens
  obtain rfl := sound.alone automaton framed root
  have spelled := sound.tokens
  rw [List.append_nil, List.reverse_singleton, List.flatMap_singleton] at spelled
  subst spelled
  exact ⟨D, n, state, derived, root, builds, isKept, reads⟩

/-! ### Lists of statements -/

/-- The node is a branch for a statement. -/
def IsStatement (node : Tree) : Prop :=
  ∃ kind children, node = .branch kind children ∧ kind ∈ [NodeKind.assign, .statement, .while_]

/-- The nodes are statements with semicolons between them: there is an odd number of them,
those at even places are statements and those at odd places semicolons, and none is a list of
statements itself. -/
structure StatementList (nodes : List Tree) : Prop where
  odd : nodes.length % 2 = 1
  statements : ∀ (place : Nat) (node : Tree), nodes[2 * place]? = some node → IsStatement node
  semicolons : ∀ (place : Nat) (node : Tree), nodes[2 * place + 1]? = some node →
    ∃ token, node = .leaf token ∧ token.kind = .operator .semicolon
  flat : ∀ node ∈ nodes, node.kind? ≠ some .statements

theorem IsStatement.kind?_ne {node : Tree} (isStatement : IsStatement node) :
    node.kind? ≠ some .statements := by
  obtain ⟨kind, children, rfl, isKind⟩ := isStatement
  intro same
  obtain rfl := Option.some.inj same
  revert isKind
  decide

theorem statementList_singleton {node : Tree} (isStatement : IsStatement node) :
    StatementList [node] where
  odd := rfl
  statements place other found := by
    obtain rfl := List.mem_singleton.mp (List.mem_of_getElem? found)
    exact isStatement
  semicolons place other found := by
    rw [List.getElem?_cons_succ, List.getElem?_nil] at found
    cases found
  flat other member := by
    obtain rfl := List.mem_singleton.mp member
    exact isStatement.kind?_ne

theorem StatementList.append {nodes : List Tree} (listed : StatementList nodes) {token : Token}
    (isSemicolon : token.kind = .operator .semicolon) {node : Tree}
    (isStatement : IsStatement node) : StatementList (nodes ++ [.leaf token, node]) where
  odd := by
    have odd := listed.odd
    rw [List.length_append, List.length_cons, List.length_singleton]
    omega
  statements place other found := by
    have odd := listed.odd
    by_cases inside : 2 * place < nodes.length
    · rw [List.getElem?_append_left inside] at found
      exact listed.statements place other found
    · -- the semicolon stands at an odd place, so what is found is the statement
      rw [List.getElem?_append_right (by omega)] at found
      obtain ⟨rest, isRest⟩ : ∃ rest, 2 * place - nodes.length = rest + 1 :=
        ⟨2 * place - nodes.length - 1, by omega⟩
      rw [isRest, List.getElem?_cons_succ] at found
      obtain rfl := List.mem_singleton.mp (List.mem_of_getElem? found)
      exact isStatement
  semicolons place other found := by
    have odd := listed.odd
    by_cases inside : 2 * place + 1 < nodes.length
    · rw [List.getElem?_append_left inside] at found
      exact listed.semicolons place other found
    · -- the place behind the old nodes is the only odd one that is left
      have within := (List.getElem?_eq_some_iff.mp found).1
      rw [List.length_append, List.length_cons, List.length_singleton] at within
      rw [List.getElem?_append_right (by omega),
        show 2 * place + 1 - nodes.length = 0 by omega] at found
      exact ⟨token, (Option.some.inj found).symm, isSemicolon⟩
  flat other member := by
    rcases List.mem_append.mp member with old | new
    · exact listed.flat other old
    · rcases List.mem_cons.mp new with rfl | last
      · nofun
      · obtain rfl := List.mem_singleton.mp last
        exact isStatement.kind?_ne

/-! ### What rules build -/

theorem build_of_kind_ne {rule : Rule} (isRule : rule ∈ grammar.rules)
    (other : rule.kind ≠ .statements) : rule.build = Tree.branch rule.kind :=
  (build_cases rule isRule).resolve_right fun appends => other appends.2

/-- A list of statements is begun with one statement, or continued with one behind a
semicolon. -/
theorem statements_cases : ∀ rule ∈ grammar.rules, rule.kind = .statements →
    (rule.symbols = [non .statement] ∧ rule.build = Tree.branch .statements) ∨
      rule.symbols = [non .statements, tok .semicolon, non .statement] ∧
        rule.build = appendStatement := by
  simp [grammar, rules, wrapperRule, forRule, relationRule, operatorRule, ShiftReduce.Rule.symbols,
    Symbol.isEpsilon]

/-- Statements are built as nodes for statements. -/
theorem isStatement_build (derived : grammar.IsDerivation D) (root : D.root = non .statement) :
    IsStatement D.build := by
  have check : ∀ rule ∈ grammar.rules, rule.key = .statement →
      rule.kind ∈ [NodeKind.assign, .statement, .while_] := by decide
  obtain ⟨rule, children, rfl, isRule, key, _, _⟩ := derived.exists_of_root_nonterminal root
  have isKind := check rule isRule key
  have other : rule.kind ≠ .statements := fun same => by
    rw [same] at isKind
    revert isKind
    decide
  exact ⟨rule.kind, _, by rw [build_branch, build_of_kind_ne isRule other], isKind⟩

theorem kind?_build_statements (derived : grammar.IsDerivation D) (root : D.root = non .statements) :
    D.build.kind? = some .statements := by
  have check : ∀ rule ∈ grammar.rules, rule.key = .statements → rule.kind = .statements := by decide
  obtain ⟨rule, children, rfl, isRule, key, _, _⟩ := derived.exists_of_root_nonterminal root
  rw [build_branch]
  rcases statements_cases rule isRule (check rule isRule key) with ⟨_, plain⟩ | ⟨_, appends⟩
  · rw [plain]
    rfl
  · rw [appends, kind?_appendStatement]

/-- A derivation that is built as a list of statements is built as one with semicolons
between them. -/
theorem exists_statementList (derived : grammar.IsDerivation D)
    (kind : D.build.kind? = some .statements) :
    ∃ nodes, D.build = .branch .statements nodes ∧ StatementList nodes := by
  induction derived with
  | leaf t token _ => cases kind
  | branch rule children isRule spelled below ih =>
    rw [build_branch] at kind ⊢
    have isList : rule.kind = .statements := by
      by_contra other
      rw [build_of_kind_ne isRule other] at kind
      exact other (Option.some.inj kind)
    rcases statements_cases rule isRule isList with ⟨symbols, plain⟩ | ⟨symbols, appends⟩
    · -- a list is begun
      rw [symbols] at spelled
      obtain ⟨first, rfl, root⟩ := List.map_eq_singleton_iff.mp spelled
      rw [plain]
      exact ⟨_, rfl, statementList_singleton
        (isStatement_build (below first List.mem_cons_self) root)⟩
    · -- a list is continued: the nodes before are a list by induction
      rw [symbols] at spelled
      obtain ⟨list, rest, rfl, listRoot, spelled⟩ := List.map_eq_cons_iff.mp spelled
      obtain ⟨sign, rest, rfl, signRoot, spelled⟩ := List.map_eq_cons_iff.mp spelled
      obtain ⟨last, rfl, lastRoot⟩ := List.map_eq_singleton_iff.mp spelled
      simp only [List.forall_mem_cons] at below ih
      obtain ⟨token, rfl, accepted⟩ := below.2.1.exists_of_root_terminal signRoot
      obtain ⟨nodes, built, listed⟩ := ih.1 (kind?_build_statements below.1 listRoot)
      rw [appends, List.map_cons, List.map_cons, List.map_singleton, built]
      exact ⟨_, rfl, listed.append (of_decide_eq_true accepted)
        (isStatement_build below.2.2.1 lastRoot)⟩

/-! ### Parts of the tree -/

/-- What lies in the tree is built by a part of the derivation. -/
theorem exists_within (derived : grammar.IsDerivation D) {node : Tree}
    (within : Tree.Within node D.build) :
    ∃ E : Derivation, Tree.Within E D ∧ grammar.IsDerivation E ∧ E.build = node := by
  induction derived with
  | leaf t token accepted =>
    obtain rfl := within.eq_of_leaf
    exact ⟨_, .refl, .leaf t token accepted, rfl⟩
  | branch rule children isRule spelled below ih =>
    have derived := ShiftReduce.Grammar.IsDerivation.branch rule children isRule spelled below
    have ofChild : ∀ child ∈ children, Tree.Within node child.build →
        ∃ E : Derivation, Tree.Within E (.branch rule children) ∧ grammar.IsDerivation E ∧
          E.build = node := by
      intro child isChild inside
      obtain ⟨E, part, derivedE, builds⟩ := ih child isChild inside
      exact ⟨E, .child rule children isChild part, derivedE, builds⟩
    -- a rule that makes a branch: the node is the root, or lies in a child
    have plainly : rule.build = Tree.branch rule.kind →
        ∃ E : Derivation, Tree.Within E (.branch rule children) ∧ grammar.IsDerivation E ∧
          E.build = node := by
      intro plain
      rw [build_branch, plain] at within
      rcases within.of_branch with rfl | ⟨node', isNode, inside⟩
      · exact ⟨_, .refl, derived, by rw [build_branch, plain]⟩
      · obtain ⟨child, isChild, rfl⟩ := List.mem_map.mp isNode
        exact ofChild child isChild inside
    by_cases isList : rule.kind = .statements
    · rcases statements_cases rule isRule isList with ⟨_, plain⟩ | ⟨symbols, appends⟩
      · exact plainly (isList ▸ plain)
      · -- a list that is continued has taken over the nodes of the list before
        rw [symbols] at spelled
        obtain ⟨list, rest, rfl, listRoot, spelled⟩ := List.map_eq_cons_iff.mp spelled
        obtain ⟨nodes, built, _⟩ := exists_statementList (below list List.mem_cons_self)
          (kind?_build_statements (below list List.mem_cons_self) listRoot)
        have whole : ShiftReduce.Derivation.build (.branch rule (list :: rest)) =
            .branch .statements (nodes ++ rest.map ShiftReduce.Derivation.build) := by
          rw [build_branch, appends, List.map_cons, built]
          rfl
        rw [whole] at within
        rcases within.of_branch with rfl | ⟨node', isNode, inside⟩
        · exact ⟨_, .refl, derived, whole⟩
        · rcases List.mem_append.mp isNode with old | new
          · refine ofChild list List.mem_cons_self ?_
            rw [built]
            exact .child _ _ old inside
          · obtain ⟨child, isChild, rfl⟩ := List.mem_map.mp new
            exact ofChild child (List.mem_cons_of_mem _ isChild) inside
    · exact plainly (build_of_kind_ne isRule isList)

/-! ### Trees of sources -/

/-- Whenever a source is read, with or without errors, its tree is built by the derivation of
a program, in which a placeholder is an empty statement; the leaves of the tree are tokens of
the source in their order; and every list of statements in it has statements and semicolons
in turn, beginning and ending with a statement, and none is right inside another. -/
theorem exists_isDerivation_of_parse {source : String} {program : Program}
    (ok : parse source = .ok program) :
    ∃ tokens, tokenize source = .ok tokens ∧
      (∃ D : Derivation, grammar.IsDerivation D ∧ D.root = non .program ∧
        D.build = program.tree) ∧
      program.tree.leaves.Sublist tokens ∧
      ∀ nodes, Tree.Within (.branch .statements nodes) program.tree → StatementList nodes := by
  obtain ⟨tokens, m, scanned, accepted⟩ := exists_tokens_of_parse ok
  obtain ⟨D, _, _, derived, root, builds, kept, _⟩ := exists_readsIn_of_accepted accepted
  refine ⟨tokens, scanned, ⟨D, derived, root, builds⟩, ?_, fun nodes within => ?_⟩
  · rw [← builds, derived.leaves_build fun rule isRule nodes => leaves_build isRule nodes]
    exact kept
  · -- a list in the tree is built by a part of the derivation
    rw [← builds] at within
    obtain ⟨E, _, derivedE, builtE⟩ := exists_within derived within
    obtain ⟨nodes', built, listed⟩ := exists_statementList derivedE (by rw [builtE]; rfl)
    obtain ⟨_, rfl⟩ := ShiftReduce.Tree.branch.inj (builtE.symm.trans built)
    exact listed

/-- A program with an assignment that breaks off in a loop and a statement that is none. -/
def broken : String := "program p; begin while a < 1 do b := ; c := 2; ) end."

set_option maxRecDepth 100000 in
theorem exists_program_broken : ∃ program, parse broken = .ok program ∧
    program.diagnostics.length = 2 := by
  have parsed : (parse broken).toOption.map (fun program => program.diagnostics.length) = some 2 := by
    decide +kernel
  exact exists_program parsed

/-- The broken program is read with two errors, and its tree is a derivation of a program. -/
theorem exists_isDerivation_of_broken : ∃ program tokens, parse broken = .ok program ∧
    program.diagnostics.length = 2 ∧ tokenize broken = .ok tokens ∧
    (∃ D : Derivation, grammar.IsDerivation D ∧ D.root = non .program ∧
      D.build = program.tree) ∧
    program.tree.leaves.Sublist tokens ∧
    ∀ nodes, Tree.Within (.branch .statements nodes) program.tree → StatementList nodes := by
  obtain ⟨program, ok, count⟩ := exists_program_broken
  obtain ⟨tokens, found⟩ := exists_isDerivation_of_parse ok
  exact ⟨program, tokens, ok, count, found⟩

end ShiftReduce.Pascal
