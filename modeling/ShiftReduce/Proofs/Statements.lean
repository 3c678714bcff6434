/-
  Statements between semicolons, with a place to recover at.

  A program is a list of statements, each of them a name with a sum assigned to it.
  A statement that cannot be read is replaced by an empty one. So it costs one
  diagnostic and one recovery, wherever in it the error is and whatever else is wrong
  with it, and the statements around it are read as if it were right
  (`exists_parse_lines`).

  Whether some words are a statement can be seen without a parser
  (`spells_statement_iff`), so it can be computed how many diagnostics there will be.
-/
import ShiftReduce.Proofs.Parser.Separators

namespace ShiftReduce.Statements

/-! ### The grammar -/

/-- The terminals of a program. -/
inductive Mark where
  | name | number | assign | semicolon | plus
deriving DecidableEq, Repr

instance : Ordered Mark :=
  .ofRank Mark.ctorIdx fun a b h => by cases a <;> cases b <;> first | rfl | cases h

/-- The spelling of a terminal. -/
def Mark.spelling : Mark → String
  | name => "id"
  | number => "num"
  | assign => ":="
  | semicolon => ";"
  | plus => "+"

/-- The parts of a program. -/
inductive Part where
  | expression | factor | program | start | statement | statements
deriving DecidableEq, Repr

instance : Ordered Part :=
  .ofRank Part.ctorIdx fun a b h => by cases a <;> cases b <;> first | rfl | cases h

/-- The name of a part. -/
def Part.name : Part → String
  | expression => "E"
  | factor => "F"
  | program => "Program"
  | start => "Start"
  | statement => "Stmt"
  | statements => "Stmts"

instance : Named Part := ⟨Part.name, Part.name⟩

/-- A word of a text, with its place. -/
structure Word where
  text : String
  span : Span
deriving DecidableEq, Repr

instance : Token Word := ⟨Word.text, Word.span⟩

/-- The nodes of programs. -/
abbrev Node := Tree Word Part

/-- The derivations of programs. -/
abbrev Derivation := ShiftReduce.Derivation Mark Part Word Part

/-- A rule that builds branches of the kind of its key. -/
def rule (key : Part) (parts : List (BodyPart Mark Part)) : Rule Mark Part Word Part where
  key := key
  kind := key
  parts := parts

/-- The rule of a statement. -/
def statementRule : Rule Mark Part Word Part :=
  rule .statement [.terminal .name, .terminal .assign, .nonterminal .expression]

/-- The rule that a sum goes on by. -/
def sumRule : Rule Mark Part Word Part :=
  rule .expression [.nonterminal .expression, .terminal .plus, .nonterminal .factor]

/-- The rule that a sum begins with. -/
def termRule : Rule Mark Part Word Part := rule .expression [.nonterminal .factor]

/-- The rule of an operand that is a name. -/
def nameRule : Rule Mark Part Word Part := rule .factor [.terminal .name]

/-- The rule of an operand that is a number. -/
def numberRule : Rule Mark Part Word Part := rule .factor [.terminal .number]

/-- The rule that a list of statements begins with. -/
def firstRule : Rule Mark Part Word Part := rule .statements [.nonterminal .statement]

/-- The rule that a list of statements goes on by. -/
def laterRule : Rule Mark Part Word Part :=
  rule .statements [.nonterminal .statements, .terminal .semicolon, .nonterminal .statement]

/-- The rule of a program. -/
def programRule : Rule Mark Part Word Part := rule .program [.nonterminal .statements]

/-- The grammar of programs. -/
def grammar : Grammar Mark Part Word Part where
  alphabet mark := { name := mark.spelling, accepts := fun word => word.text = mark.spelling }
  rules :=
    [rule .start [.nonterminal .program], programRule, firstRule, laterRule, statementRule,
      sumRule, termRule, nameRule, numberRule]
  rules_ne_nil := List.cons_ne_nil _ _
  defined := defined_of_undefinedUse? rfl

/-- The node that a statement that cannot be read is replaced by. -/
def placeholder : Node := .branch .statement []

theorem exists_table :
    (grammar.table .start [(.statement, placeholder)]).toOption.isSome := by decide +kernel

/-- The parse table of programs, with statements to recover at. -/
def table : Table Mark Part Word Part :=
  (grammar.table .start [(.statement, placeholder)]).toOption.get exists_table

theorem table_eq : grammar.table .start [(.statement, placeholder)] = .ok table :=
  eq_ok_get exists_table

theorem automaton : grammar.Automaton .start table := Grammar.automaton_of_table table_eq

theorem distinct : grammar.Distinct := by
  intro t _ u _ word accepted accepted'
  have one : word.text = t.spelling := of_decide_eq_true accepted
  have other : word.text = u.spelling := of_decide_eq_true accepted'
  have same := one.symm.trans other
  cases t <;> cases u <;> first | rfl | (revert same; decide)

/-- How far a part can be rewritten to others alone. -/
def depth : Part → Nat
  | .expression | .statements => 1
  | .program => 2
  | .start => 3
  | _ => 0

theorem depth_le (key : Part) : depth key ≤ 3 := by cases key <;> decide

theorem sane : grammar.Sane := by
  have closed : ∀ rule ∈ grammar.rules, Grammar.vanishes (fun _ => false) rule.body = true →
      false = true := by decide
  have falls : grammar.Falls (fun _ => false) depth fun _ => 0 := by
    unfold Grammar.Falls
    decide
  exact Grammar.sane_of_falls depth_le (fun _ => Nat.zero_le _) closed falls

theorem unresolved : ∀ s ∈ table.states, s.resolutions = [] := by decide +kernel

theorem single : ∀ s ∈ table.states, s.reducible.length ≤ 1 := by decide +kernel

theorem framed : grammar.Framed .start .program := ⟨by decide, by decide⟩

theorem build_rule : ∀ r ∈ grammar.rules, r.build = Tree.branch r.kind := by
  simp [grammar, rule, statementRule, firstRule, laterRule, programRule, sumRule, termRule,
    nameRule, numberRule]

/-- The parts of a statement. -/
def inner : List Part := [.expression, .factor]

theorem opens_checked : ∀ s ∈ table.states, s.next? (.nonterminal .statement) ≠ none →
    s.next? (.terminal .semicolon) = none := by
  decide +kernel

theorem closes_checked : ∀ s ∈ table.states,
    ∀ symbol ∈ ([.name, .number, .assign, .plus].map .terminal ++ inner.map .nonterminal :
      List (Symbol Mark Part)),
    ∀ target ∈ s.next? symbol, table.edge? target (.nonterminal .statement) = none ∧
      table.edge? target (.terminal .semicolon) = none := by
  decide +kernel

theorem separates : table.Separates grammar .start .semicolon .statement inner where
  inside := by decide
  outside := by decide
  start_outside := by decide
  follows t := by cases t <;> decide +kernel
  opens {number target} edge := by
    rw [Table.edge?, Option.bind_eq_some_iff] at edge
    obtain ⟨s, isState, next⟩ := edge
    rw [Table.edge?, isState]
    exact opens_checked s (List.mem_of_getElem? isState) (next ▸ Option.some_ne_none target)
  closes {number symbol target} inside edge := by
    rw [Table.edge?, Option.bind_eq_some_iff] at edge
    obtain ⟨s, isState, next⟩ := edge
    refine closes_checked s (List.mem_of_getElem? isState) symbol ?_ target next
    cases symbol with
    | terminal t => cases t <;> first | exact absurd rfl inside | simp
    | nonterminal key => exact List.mem_append_right _ (List.mem_map_of_mem inside)
    | epsilon => exact absurd inside id

/-! ### Statements -/

/-- Whether a word is an operand of a sum. -/
def isOperand (word : Word) : Bool :=
  word.text = Mark.name.spelling ∨ word.text = Mark.number.spelling

/-- Whether words are operands with plus signs between them. -/
def isSum : List Word → Bool
  | [] => false
  | [word] => isOperand word
  | word :: sign :: rest => isOperand word && sign.text = Mark.plus.spelling && isSum rest

/-- Whether words are a statement. -/
def isStatement : List Word → Bool
  | name :: assign :: sum =>
    name.text = Mark.name.spelling && assign.text = Mark.assign.spelling && isSum sum
  | _ => false

theorem isSum_append {words : List Word} {sign word : Word} (sum : isSum words = true)
    (isSign : sign.text = Mark.plus.spelling) (operand : isOperand word = true) :
    isSum (words ++ [sign, word]) = true := by
  induction words using isSum.induct with
  | case1 => cases sum
  | case2 first =>
    rw [isSum] at sum
    simp [isSum, sum, isSign, operand]
  | case3 first next rest ih =>
    simp only [isSum, Bool.and_eq_true] at sum
    simp [isSum, sum, ih sum.2]

theorem rule_cases : ∀ r ∈ grammar.rules,
    (r.key = .factor → r = nameRule ∨ r = numberRule) ∧
    (r.key = .expression → r = sumRule ∨ r = termRule) ∧
    (r.key = .statement → r = statementRule) := by
  simp [grammar, rule, statementRule, firstRule, laterRule, programRule, sumRule, termRule,
    nameRule, numberRule]

/-- A leaf has one word, spelled as its terminal. -/
theorem exists_leaf {D : Derivation} (derived : grammar.IsDerivation D) {mark : Mark}
    (root : D.root = .terminal mark) :
    ∃ word : Word, D = .leaf (mark, word) ∧ word.text = mark.spelling := by
  obtain ⟨word, rfl, accepted⟩ := derived.exists_of_root_terminal root
  exact ⟨word, rfl, of_decide_eq_true accepted⟩

/-- The tokens of an operand are one word. -/
theorem spells_factor_iff {words : List Word} :
    grammar.Spells .factor words ↔ ∃ word, words = [word] ∧ isOperand word = true := by
  constructor
  · rintro ⟨D, derived, root, rfl⟩
    obtain ⟨r, children, rfl, isRule, isFactor, spelled, below⟩ :=
      derived.exists_of_root_nonterminal root
    rcases (rule_cases r isRule).1 isFactor with rfl | rfl <;>
    · obtain ⟨child, rfl, isLeaf⟩ := List.map_eq_singleton_iff.mp spelled
      obtain ⟨word, rfl, text⟩ := exists_leaf (below child (List.mem_singleton_self _)) isLeaf
      exact ⟨word, rfl, by simp [isOperand, text]⟩
  · rintro ⟨word, rfl, operand⟩
    rcases of_decide_eq_true operand with name | number
    · exact ⟨.branch nameRule [.leaf (.name, word)], .branch _ _ (by simp [grammar]) rfl
        (List.forall_mem_singleton.mpr (.leaf _ _ (decide_eq_true name))), rfl, rfl⟩
    · exact ⟨.branch numberRule [.leaf (.number, word)], .branch _ _ (by simp [grammar]) rfl
        (List.forall_mem_singleton.mpr (.leaf _ _ (decide_eq_true number))), rfl, rfl⟩

theorem isSum_of_isDerivation {D : Derivation} (derived : grammar.IsDerivation D)
    (root : D.root = .nonterminal .expression) : isSum D.tokens = true := by
  induction derived with
  | leaf => cases root
  | branch r children isRule spelled below ih =>
    rcases (rule_cases r isRule).2.1 (Symbol.nonterminal.inj root) with rfl | rfl
    · obtain ⟨left, _, rfl, isSum', spelled⟩ := List.map_eq_cons_iff.mp spelled
      obtain ⟨leaf, _, rfl, isLeaf, spelled⟩ := List.map_eq_cons_iff.mp spelled
      obtain ⟨factor, rfl, isFactor⟩ := List.map_eq_singleton_iff.mp spelled
      simp only [List.forall_mem_cons] at below ih
      obtain ⟨sign, rfl, isSign⟩ := exists_leaf below.2.1 isLeaf
      obtain ⟨word, tokens, operand⟩ := spells_factor_iff.mp ⟨factor, below.2.2.1, isFactor, rfl⟩
      have whole := isSum_append (ih.1 isSum') isSign operand
      simpa [tokens] using whole
    · obtain ⟨factor, rfl, isFactor⟩ := List.map_eq_singleton_iff.mp spelled
      obtain ⟨word, tokens, operand⟩ :=
        spells_factor_iff.mp ⟨factor, below factor (List.mem_singleton_self _), isFactor, rfl⟩
      simp [tokens, isSum, operand]

/-- A sum goes on by a sign and an operand. -/
theorem spells_sum {front : List Word} {sign word : Word} (sum : grammar.Spells .expression front)
    (isSign : sign.text = Mark.plus.spelling) (operand : isOperand word = true) :
    grammar.Spells .expression (front ++ [sign, word]) := by
  obtain ⟨D, derived, root, rfl⟩ := sum
  obtain ⟨F, derived', root', tokens⟩ := spells_factor_iff.mpr ⟨word, rfl, operand⟩
  refine ⟨.branch sumRule [D, .leaf (.plus, sign), F], .branch _ _ (by simp [grammar]) ?_ ?_, rfl,
    ?_⟩
  · rw [List.map_cons, List.map_cons, List.map_singleton, root, root']
    rfl
  · simp only [List.forall_mem_cons]
    exact ⟨derived, .leaf _ _ (decide_eq_true isSign), derived', List.forall_mem_nil _⟩
  · simp [tokens]

/-- A sum goes on by a sign and another sum. -/
theorem spells_append {front words : List Word} {sign : Word}
    (sum : grammar.Spells .expression front) (isSign : sign.text = Mark.plus.spelling)
    (more : isSum words = true) : grammar.Spells .expression (front ++ sign :: words) := by
  induction words using isSum.induct generalizing front sign with
  | case1 => cases more
  | case2 word => exact spells_sum sum isSign more
  | case3 word next rest ih =>
    simp only [isSum, Bool.and_eq_true, decide_eq_true_eq] at more
    have longer := ih (spells_sum sum isSign more.1.1) more.1.2 more.2
    rwa [List.append_assoc] at longer

/-- The tokens of a sum are operands with plus signs between them. -/
theorem spells_expression_iff {words : List Word} :
    grammar.Spells .expression words ↔ isSum words = true := by
  refine ⟨fun ⟨D, derived, root, tokens⟩ => tokens ▸ isSum_of_isDerivation derived root,
    fun sum => ?_⟩
  have term : ∀ word : Word, isOperand word = true → grammar.Spells .expression [word] := by
    intro word operand
    obtain ⟨F, derived, root, tokens⟩ := spells_factor_iff.mpr ⟨word, rfl, operand⟩
    refine ⟨.branch termRule [F], .branch _ _ (by simp [grammar]) ?_
      (List.forall_mem_singleton.mpr derived), rfl, by simp [tokens]⟩
    rw [List.map_singleton, root]
    rfl
  cases words using isSum.fun_cases with
  | case1 => cases sum
  | case2 word => exact term word sum
  | case3 word sign rest =>
    simp only [isSum, Bool.and_eq_true, decide_eq_true_eq] at sum
    exact spells_append (term word sum.1.1) sum.1.2 sum.2

/-- The tokens of a statement are a name, the sign of an assignment and a sum. -/
theorem spells_statement_iff {words : List Word} :
    grammar.Spells .statement words ↔ isStatement words = true := by
  constructor
  · rintro ⟨D, derived, root, rfl⟩
    obtain ⟨r, children, rfl, isRule, isOwn, spelled, below⟩ :=
      derived.exists_of_root_nonterminal root
    obtain rfl := (rule_cases r isRule).2.2 isOwn
    obtain ⟨first, _, rfl, isName, spelled⟩ := List.map_eq_cons_iff.mp spelled
    obtain ⟨second, _, rfl, isAssign, spelled⟩ := List.map_eq_cons_iff.mp spelled
    obtain ⟨sum, rfl, isExpression⟩ := List.map_eq_singleton_iff.mp spelled
    simp only [List.forall_mem_cons] at below
    obtain ⟨name, rfl, nameText⟩ := exists_leaf below.1 isName
    obtain ⟨assign, rfl, assignText⟩ := exists_leaf below.2.1 isAssign
    have isSum' := isSum_of_isDerivation below.2.2.1 isExpression
    simp [isStatement, nameText, assignText, isSum']
  · intro statement
    match words, statement with
    | name :: assign :: words, statement =>
      simp only [isStatement, Bool.and_eq_true, decide_eq_true_eq] at statement
      obtain ⟨⟨isName, isAssign⟩, sum⟩ := statement
      obtain ⟨E, derived, root, rfl⟩ := spells_expression_iff.mpr sum
      refine ⟨.branch statementRule [.leaf (.name, name), .leaf (.assign, assign), E],
        .branch _ _ (by simp [grammar]) ?_ ?_, rfl, by simp⟩
      · rw [List.map_cons, List.map_cons, List.map_singleton, root]
        rfl
      · simp only [List.forall_mem_cons]
        exact ⟨.leaf _ _ (decide_eq_true isName), .leaf _ _ (decide_eq_true isAssign), derived,
          List.forall_mem_nil _⟩

instance (words : List Word) : Decidable (grammar.Spells .statement words) :=
  decidable_of_iff (isStatement words = true) spells_statement_iff.symm

/-! ### Lists of statements -/

/-- The tree of a list of statements, nested to the left: the statements before the last one
come with their semicolons, the latest first. -/
def listing : List (Node × Word) → Node → Node
  | [], node => .branch .statements [node]
  | (before, semicolon) :: earlier, node =>
    .branch .statements [listing earlier before, .leaf semicolon, node]

/-- The derivation that builds such a tree. -/
def list : List (Derivation × Word) → Derivation → Derivation
  | [], E => .branch firstRule [E]
  | (before, semicolon) :: earlier, E =>
    .branch laterRule [list earlier before, .leaf (.semicolon, semicolon), E]

theorem root_list (earlier : List (Derivation × Word)) (E : Derivation) :
    (list earlier E).root = .nonterminal .statements := by
  cases earlier <;> rfl

theorem build_list (earlier : List (Derivation × Word)) (E : Derivation) :
    (list earlier E).build =
      listing (earlier.map (Prod.map Derivation.build id)) E.build := by
  induction earlier generalizing E with
  | nil => rfl
  | cons entry earlier ih =>
    obtain ⟨before, semicolon⟩ := entry
    rw [list, Derivation.build_branch, List.map_cons, ih]
    rfl

/-- The frames below a statement, in the states of `edges_checked`. -/
def ground : List (Derivation × Word) → List (Derivation × Nat)
  | [] => []
  | (before, semicolon) :: earlier => [(.leaf (.semicolon, semicolon), 6), (list earlier before, 4)]

/-- The state that is entered over a statement. -/
def above : List (Derivation × Word) → Nat
  | [] => 3
  | _ :: _ => 11

/-- The rule that a statement is put in a list by. -/
def listRule : List (Derivation × Word) → Rule Mark Part Word Part
  | [] => firstRule
  | _ :: _ => laterRule

/-- The place of this rule. -/
def listPlace : List (Derivation × Word) → Nat
  | [] => 2
  | _ :: _ => 3

theorem edges_checked :
    table.edge? 0 (.nonterminal .statement) = some 3 ∧
    table.edge? 0 (.nonterminal .statements) = some 4 ∧
    table.edge? 0 (.nonterminal .program) = some 2 ∧
    table.edge? 4 (.terminal .semicolon) = some 6 ∧
    table.edge? 6 (.nonterminal .statement) = some 11 := by
  decide +kernel

theorem moves_checked :
    table.reducible 3 = [2] ∧ table.reducible 11 = [3] ∧ table.reducible 4 = [1] ∧
    ((table.state? 3).bind fun s => s.actions.get? .semicolon) = some (.reduce 2) ∧
    ((table.state? 11).bind fun s => s.actions.get? .semicolon) = some (.reduce 3) ∧
    ((table.state? 4).bind fun s => s.actions.get? .semicolon) = some (.shift 6) := by
  decide +kernel

theorem begins_ground (earlier : List (Derivation × Word)) :
    table.Begins .semicolon .statement (ground earlier) (above earlier) := by
  obtain ⟨first, list, _, semicolon, later⟩ := edges_checked
  cases earlier with
  | nil => exact ⟨trivial, first, nofun⟩
  | cons entry earlier =>
    refine ⟨⟨semicolon, ?_, trivial⟩, later, ?_⟩
    · rw [root_list]
      exact list
    · rintro frame isTop
      obtain rfl := Option.some.inj isTop
      rfl

variable {earlier : List (Derivation × Word)} {E : Derivation}

/-- A reduction behind a statement puts it in the list. -/
theorem reads_list {input : List Word}
    (moves : table.move .program (Reading.stack ⟨(E, above earlier) :: ground earlier, input⟩)
      input = .reduce (listPlace earlier) (listRule earlier)) :
    table.Reads .program ⟨(E, above earlier) :: ground earlier, input⟩
      ⟨[(list earlier E, 4)], input⟩ := by
  obtain ⟨_, list, _⟩ := edges_checked
  cases earlier with
  | nil => exact .reduce moves (Nat.le_refl 1) list
  | cons entry earlier => exact .reduce moves (Nat.le_refl 3) list

theorem rule?_listPlace (earlier : List (Derivation × Word)) :
    table.grammar.rule? (listPlace earlier) = some (listRule earlier) := by
  rw [automaton.grammar]
  cases earlier <;> rfl

/-- What a state does on the terminal of a word, it does on the word. -/
theorem actionFor?_of_checked {number : Nat} {mark : Mark} {action : Action}
    (acts : ((table.state? number).bind fun s => s.actions.get? mark) = some action) {word : Word}
    (spelled : word.text = mark.spelling) : table.actionFor? number word = some (mark, action) := by
  obtain ⟨s, isState, acts⟩ := Option.bind_eq_some_iff.mp acts
  exact Table.actionFor?_of_get? automaton distinct isState acts (decide_eq_true spelled)

/-- A semicolon puts the statement before it in the list and is read itself. -/
theorem readsIn_semicolon {semicolon : Word} (spelled : semicolon.text = Mark.semicolon.spelling)
    (rest : List Word) :
    table.ReadsIn .program 2 ⟨(E, above earlier) :: ground earlier, semicolon :: rest⟩
      ⟨ground ((E, semicolon) :: earlier), rest⟩ := by
  obtain ⟨_, _, _, first, later, shifts⟩ := moves_checked
  have acts : table.actionFor? (Reading.topState ((E, above earlier) :: ground earlier)) semicolon =
      some (.semicolon, .reduce (listPlace earlier)) := by
    cases earlier with
    | nil => exact actionFor?_of_checked first spelled
    | cons entry earlier => exact actionFor?_of_checked later spelled
  have moves : table.move .program
      (Reading.stack ⟨(E, above earlier) :: ground earlier, semicolon :: rest⟩)
      (semicolon :: rest) = .reduce (listPlace earlier) (listRule earlier) := by
    rw [← Reading.top_stack ⟨(E, above earlier) :: ground earlier, []⟩] at acts
    exact Table.move_of_actionFor?_reduce acts (rule?_listPlace earlier)
  exact .step (reads_list moves) (.step (.shift (actionFor?_of_checked shifts spelled)) (.refl _))

/-- At the end the last statement is put in the list, and the list is the program. -/
theorem readsIn_end (waits : E.build.kind? ≠ some .program) :
    table.ReadsIn .program 2 ⟨(E, above earlier) :: ground earlier, []⟩
      ⟨[(.branch programRule [list earlier E], 2)], []⟩ := by
  obtain ⟨first, later, whole, _⟩ := moves_checked
  have only : table.reducible (above earlier) = [listPlace earlier] := by
    cases earlier with
    | nil => exact first
    | cons entry earlier => exact later
  have moves : table.move .program (Reading.stack ⟨(E, above earlier) :: ground earlier, []⟩) [] =
      .reduce (listPlace earlier) (listRule earlier) := by
    rw [Table.move]
    refine Table.moveAtEnd_of_reducible ?_ ?_ (rule?_listPlace earlier)
    · rw [Reading.topNode?_stack]
      simpa using waits
    · rw [Reading.top_stack]
      exact only
  have moves' : table.move .program (Reading.stack ⟨[(list earlier E, 4)], []⟩) [] =
      .reduce 1 programRule := by
    have found : table.grammar.rule? 1 = some programRule := by
      rw [automaton.grammar]
      rfl
    rw [Table.move]
    refine Table.moveAtEnd_of_reducible ?_ ?_ found
    · rw [Reading.topNode?_stack]
      cases earlier <;> rfl
    · rw [Reading.top_stack]
      exact whole
  have goes : table.goto? 0 .program = some 2 := edges_checked.2.2.1
  have last : table.Reads .program ⟨[(list earlier E, 4)], []⟩
      ⟨[(.branch programRule [list earlier E], 2)], []⟩ := .reduce moves' (Nat.le_refl 1) goes
  exact .step (reads_list moves) (.step last (.refl _))

/-! ### Parses -/

/-- Some tokens and the semicolon behind them. -/
structure Line where
  chunk : List Word
  semicolon : Word
  closing : semicolon.text = Mark.semicolon.spelling
  free : ∀ word ∈ chunk, word.text ≠ Mark.semicolon.spelling

/-- The tokens of a line. -/
def Line.tokens (line : Line) : List Word := line.chunk ++ [line.semicolon]

/-- `StandsFor chunk node` says that the node is what some tokens come to: the tree of the
statement that they are, or else the placeholder. -/
structure StandsFor (chunk : List Word) (node : Node) : Prop where
  statement : ∀ D, grammar.IsDerivation D → D.root = .nonterminal .statement → D.tokens = chunk →
    node = D.build
  other : ¬ grammar.Spells .statement chunk → node = placeholder

/-- The place of a line in a list: a node that stands for it, and its semicolon. -/
structure Line.Entered (line : Line) (entry : Node × Word) : Prop where
  standsFor : StandsFor line.chunk entry.1
  semicolon : entry.2 = line.semicolon

/-- A diagnostic about one of the tokens of a line. -/
def Line.Blamed (line : Line) (diagnostic : Diagnostic) : Prop :=
  ∃ word ∈ line.tokens, ∃ expected, diagnostic = .unexpectedToken word.text word.span expected

/-- The lines that are no statements. -/
def malformed (lines : List Line) : List Line :=
  lines.filter fun line => ¬ grammar.Spells .statement line.chunk

/-- A statement alone is a program. -/
theorem isDerivation_program (derived : grammar.IsDerivation E)
    (root : E.root = .nonterminal .statement) :
    grammar.IsDerivation (.branch programRule [list [] E]) := by
  have listed : grammar.IsDerivation (list [] E) := by
    refine .branch firstRule [E] (by simp [grammar]) ?_ (List.forall_mem_singleton.mpr derived)
    rw [List.map_singleton, root]
    rfl
  exact .branch programRule [list [] E] (by simp [grammar]) rfl
    (List.forall_mem_singleton.mpr listed)

/-- Some tokens are a statement in one way only. -/
theorem derivation_unique {D : Derivation} (derived : grammar.IsDerivation D)
    (root : D.root = .nonterminal .statement) (derivedE : grammar.IsDerivation E)
    (rootE : E.root = .nonterminal .statement) (tokens : D.tokens = E.tokens) : D = E := by
  have kinds : ∀ r ∈ grammar.rules, r.kind = Part.program ↔ r.key = .program := by decide
  obtain ⟨_, unique⟩ := Table.parseTokens_of_isDerivation table_eq unresolved single distinct
    build_rule (by decide) (by decide) kinds (isDerivation_program derivedE rootE) rfl
    (Nat.lt_succ_self _) {}
  have same := unique _ (isDerivation_program derived root) rfl (by simpa [list] using tokens)
  injection same with _ programs
  injection programs with lists
  injection lists with _ statements
  exact (List.cons.inj statements).1

theorem standsFor_build {chunk : List Word} (derived : grammar.IsDerivation E)
    (root : E.root = .nonterminal .statement) (tokens : E.tokens = chunk) :
    StandsFor chunk E.build where
  statement D derivedD rootD tokensD := by
    rw [derivation_unique derived root derivedD rootD (tokens.trans tokensD.symm)]
  other no := absurd ⟨E, derived, root, tokens⟩ no

theorem standsFor_placeholder {chunk : List Word} (no : ¬ grammar.Spells .statement chunk) :
    StandsFor chunk placeholder where
  statement D derived root tokens := absurd ⟨D, derived, root, tokens⟩ no
  other _ := rfl

/-- What stands in for a statement that cannot be read is built by its rule from nothing. -/
def spare : Derivation := .branch statementRule []

/-- A line is read up to the next one, at the cost of a diagnostic if it is no statement. -/
theorem exists_continues_line (line : Line) {rest : List Word} {m : Machine Word Part}
    (shadows : m.Shadows (⟨ground earlier, line.tokens ++ rest⟩ : Reading Mark Part Word Part))
    (fresh : m.RecoveredBefore m.input.length) :
    ∃ E m' reported, table.Continues .program m m' ∧
      m'.Shadows (⟨ground ((E, line.semicolon) :: earlier), rest⟩ : Reading Mark Part Word Part) ∧
      m'.RecoveredBefore m'.input.length ∧ StandsFor line.chunk E.build ∧
      m'.diagnostics = m.diagnostics ++ reported ∧
      List.Forall₂ Line.Blamed (malformed [line]) reported := by
  have free : ∀ word ∈ line.chunk, (grammar.alphabet .semicolon).accepts word = false :=
    fun word member => decide_eq_false (line.free word member)
  have closing : (grammar.alphabet .semicolon).accepts line.semicolon = true :=
    decide_eq_true line.closing
  have build : spare.build = placeholder := rfl
  rw [Line.tokens, List.append_assoc] at shadows
  obtain ⟨E, m₁, front, shadows₁, recovered, outcome⟩ :=
    Table.exists_continues_item separates table_eq sane distinct unresolved .program
      (begins_ground earlier) free closing shadows fresh build
  obtain ⟨m', back, shadows', diagnostics, lastRecovery⟩ :=
    Table.continues_of_readsIn shadows₁ (readsIn_semicolon line.closing rest)
  have recovered' : m'.RecoveredBefore m'.input.length := by
    rw [shadows'.2, Machine.RecoveredBefore, lastRecovery]
    exact recovered
  rcases outcome with ⟨derived, root, tokens, same⟩ | ⟨no, rfl, word, isWord, expected, reported⟩
  · have spells : grammar.Spells .statement line.chunk := ⟨E, derived, root, tokens⟩
    refine ⟨E, m', [], front.trans back, shadows', recovered', standsFor_build derived root tokens,
      ?_, ?_⟩
    · rw [diagnostics, same, List.append_nil]
    · rw [malformed, List.filter_cons_of_neg (by simpa using spells)]
      exact .nil
  · refine ⟨spare, m', _, front.trans back, shadows', recovered', standsFor_placeholder no,
      diagnostics.trans reported, ?_⟩
    rw [malformed, List.filter_cons_of_pos (by simpa using no)]
    exact .cons ⟨word, isWord, expected, rfl⟩ .nil

/-- So are several lines. -/
theorem exists_continues_lines (lines : List Line) {rest : List Word} {m : Machine Word Part}
    (shadows : m.Shadows (⟨ground earlier, lines.flatMap Line.tokens ++ rest⟩ :
      Reading Mark Part Word Part))
    (fresh : m.RecoveredBefore m.input.length) :
    ∃ (entries : List (Derivation × Word)) (m' : Machine Word Part) (reported : List Diagnostic),
      table.Continues .program m m' ∧
      m'.Shadows (⟨ground (entries.reverse ++ earlier), rest⟩ : Reading Mark Part Word Part) ∧
      List.Forall₂ Line.Entered lines (entries.map (Prod.map Derivation.build id)) ∧
      m'.diagnostics = m.diagnostics ++ reported ∧
      List.Forall₂ Line.Blamed (malformed lines) reported := by
  induction lines generalizing earlier m with
  | nil => exact ⟨[], m, [], .refl, shadows, .nil, (List.append_nil _).symm, .nil⟩
  | cons line lines ih =>
    rw [List.flatMap_cons, List.append_assoc] at shadows
    obtain ⟨E, m₁, reported₁, front, shadows₁, fresh₁, standsFor, diagnostics₁, blamed₁⟩ :=
      exists_continues_line line shadows fresh
    obtain ⟨entries, m', reported, back, shadows', entered, diagnostics, blamed⟩ :=
      ih shadows₁ fresh₁
    refine ⟨(E, line.semicolon) :: entries, m', reported₁ ++ reported, front.trans back, ?_,
      .cons ⟨standsFor, rfl⟩ entered, ?_, ?_⟩
    · rw [List.reverse_cons, List.append_assoc]
      exact shadows'
    · rw [diagnostics, diagnostics₁, List.append_assoc]
    · have split : malformed (line :: lines) = malformed [line] ++ malformed lines :=
        List.filter_append [line] lines
      rw [split]
      exact List.rel_append blamed₁ blamed

/-- Behind a list of statements the last one ends the program. -/
theorem exists_readsIn_last {D : Derivation} (derived : grammar.IsDerivation D)
    (root : D.root = .nonterminal .statement) (earlier : List (Derivation × Word)) :
    ∃ n, table.ReadsIn .program n ⟨ground earlier, D.tokens⟩
      ⟨[(.branch programRule [list earlier D], 2)], []⟩ := by
  have silent : Derivation.Silent Part.program D := by
    have only : ∀ r ∈ grammar.rules, ∀ nodes, (r.build nodes).kind? = some .program →
        r.key = .start ∨ r.key = .program := by
      have check : ∀ r ∈ grammar.rules, r.kind = .program → r.key = .program := by decide
      intro r isRule nodes kind
      rw [build_rule r isRule] at kind
      exact .inr (check r isRule (Option.some.inj kind))
    exact framed.silent only derived (by rw [root]; nofun) (by rw [root]; nofun)
  have quiet : Reading.Quiet Part.program (ground earlier) := by
    intro frame isTop
    cases earlier with
    | nil => cases isTop
    | cons entry earlier =>
      obtain rfl := Option.some.inj isTop
      nofun
  have alone : table.Single := fun _ s isState => single s (List.mem_of_getElem? isState)
  have reads := (begins_ground earlier).readsIn automaton distinct unresolved Part.program derived
    root [] (fun _ => ⟨alone, quiet, silent.children⟩) (List.forall_mem_nil _) nofun
  rw [List.map_nil, List.append_nil] at reads
  exact ⟨_, reads.trans (readsIn_end silent.kind?_ne)⟩

/-- One parse of some lines and a statement behind them finds all that is wrong: it is
accepted, with one diagnostic and one recovery for each line that is no statement, the
diagnostic being about one of its tokens. The tree is the list of what stands for the lines
and of the last statement, each statement being read as if there were nothing else. -/
theorem exists_parse_lines (lines : List Line) (last : List Word)
    (statement : grammar.Spells .statement last) (stats : Stats) :
    ∃ entries node m bound,
      (∀ budget, bound ≤ budget →
        table.parseTokens .program budget (lines.flatMap Line.tokens ++ last) stats =
          (.accepted (.branch .program [listing entries.reverse node]), m)) ∧
      List.Forall₂ Line.Entered lines entries ∧ StandsFor last node ∧
      List.Forall₂ Line.Blamed (malformed lines) m.diagnostics ∧
      m.stats.recoveries = stats.recoveries + (malformed lines).length := by
  obtain ⟨D, derived, root, rfl⟩ := statement
  have shadows : (⟨.base 0, lines.flatMap Line.tokens ++ D.tokens, stats, [], none, none⟩ :
      Machine Word Part).Shadows
        (⟨ground [], lines.flatMap Line.tokens ++ D.tokens⟩ : Reading Mark Part Word Part) :=
    ⟨rfl, rfl⟩
  obtain ⟨entries, m₁, reported, front, shadows₁, entered, diagnostics, blamed⟩ :=
    exists_continues_lines lines shadows nofun
  obtain ⟨n, reads⟩ := exists_readsIn_last derived root (entries.reverse ++ [])
  obtain ⟨m₂, back, shadows₂, same, _⟩ := Table.continues_of_readsIn shadows₁ reads
  rw [List.append_nil] at shadows₂
  have continues := front.trans back
  -- the machine that has come to the program accepts it
  have finished : Reading.Finished Part.program
      ⟨[(.branch programRule [list entries.reverse D], 2)], []⟩ := ⟨rfl, _, _, _, rfl, rfl⟩
  obtain ⟨P, _, _, isTop, moves⟩ := Table.move_of_finished table finished
  obtain ⟨rfl, _⟩ := Prod.mk.inj (List.cons.inj isTop).1
  rw [← shadows₂.1, ← shadows₂.2] at moves
  have accepted : table.step .program m₂ =
      .accepted (Derivation.build (.branch programRule [list entries.reverse D]))
        (m₂.record (Machine.snapshot .accept)) := by
    unfold Table.step
    rw [moves]
  have build : Derivation.build (.branch programRule [list entries.reverse D]) =
      .branch .program [listing (entries.map (Prod.map Derivation.build id)).reverse D.build] := by
    rw [Derivation.build_branch, List.map_singleton, build_list, List.map_reverse]
    rfl
  obtain ⟨steps, within⟩ := Table.exists_run_of_continues continues
  refine ⟨entries.map (Prod.map Derivation.build id), D.build,
    m₂.record (Machine.snapshot .accept), steps + 1, ?_, entered, standsFor_build derived root rfl,
    ?_, ?_⟩
  · intro budget enough
    obtain ⟨more, rfl⟩ := Nat.exists_eq_add_of_le enough
    obtain ⟨s, isState, _⟩ := automaton.first
    rw [Table.parseTokens, Table.parse, if_pos, Nat.add_assoc, Nat.add_comm 1 more, within,
      Table.run, accepted, build]
    exact decide_eq_true (List.getElem?_eq_some_iff.mp isState).1
  · rw [Machine.diagnostics_record, same, diagnostics]
    exact blamed
  · have counted := Table.recoveries_of_continues continues
    rw [same, diagnostics, List.nil_append, ← blamed.length_eq, List.length_nil] at counted
    rw [Machine.stats_record]
    exact counted

/-- The words of a text, without their places. -/
def words (texts : List String) : List Word := texts.map fun text => ⟨text, default⟩

/-- A semicolon. -/
def semicolon : Word := ⟨";", default⟩

/-- The lines `id := num ;`, `id := := ;`, `;` and `num id + ;`. -/
def sampleLines : List Line :=
  [⟨words ["id", ":=", "num"], semicolon, rfl, by decide⟩,
    ⟨words ["id", ":=", ":="], semicolon, rfl, by decide⟩, ⟨[], semicolon, rfl, by decide⟩,
    ⟨words ["num", "id", "+"], semicolon, rfl, by decide⟩]

/-- The statement `id := id + num`. -/
def sampleLast : List Word := words ["id", ":=", "id", "+", "num"]

/-- Of four lines before a statement one is read and three are replaced. -/
theorem exists_parse_sample : grammar.Spells .statement sampleLast ∧
    (malformed sampleLines).length = 3 ∧
    ∃ entries node m bound,
      (∀ budget, bound ≤ budget →
        table.parseTokens .program budget (sampleLines.flatMap Line.tokens ++ sampleLast) {} =
          (.accepted (.branch .program [listing entries.reverse node]), m)) ∧
      List.Forall₂ Line.Entered sampleLines entries ∧ StandsFor sampleLast node ∧
      List.Forall₂ Line.Blamed (malformed sampleLines) m.diagnostics ∧
      m.stats.recoveries = 0 + (malformed sampleLines).length := by
  have statement : grammar.Spells .statement sampleLast := by decide
  have three : (malformed sampleLines).length = 3 := by decide
  exact ⟨statement, three, exists_parse_lines sampleLines sampleLast statement {}⟩

end ShiftReduce.Statements
