/-
  The parser of the Pascal subset accepts the sentences of its grammar, and
  nothing else.

  What is accepted without a diagnostic is a sentence because every clean parse
  has a derivation (`exists_isDerivation_of_parseProgram`). Conversely a sentence
  has a derivation, this can be brought in line with the choices of the table,
  and then the parser reads it within its budget (`exists_parse`).
-/
import ShiftReduce.Proofs.Language
import ShiftReduce.Proofs.Parser.Driver
import ShiftReduce.Proofs.Pascal.Settling

namespace ShiftReduce.Pascal

open ShiftReduce.Derivation (allowance build_branch)

variable {D : Derivation} {tokens : List Token} {tree : Tree} {m : Progress Token NodeKind}

/-! ### Tokens and terminals -/

theorem kind_injective : Function.Injective Terminal.kind := by
  intro t u same
  cases t <;> cases u <;> first | rfl | cases same

theorem distinct : grammar.Distinct := by
  intro t _ u _ token accepted accepted'
  have one : token.kind = t.kind := of_decide_eq_true accepted
  have other : token.kind = u.kind := of_decide_eq_true accepted'
  exact kind_injective (one.symm.trans other)

/-- Terminals accept tokens, one for one, if their kinds are the same. -/
theorem forall₂_accepts_iff {word : List Terminal} :
    List.Forall₂ (fun t token => (grammar.alphabet t).accepts token = true) word tokens ↔
      word.map Terminal.kind = tokens.map Token.kind := by
  have accepts : ∀ (t : Terminal) (token : Token),
      (grammar.alphabet t).accepts token = true ↔ t.kind = token.kind :=
    fun t token => decide_eq_true_iff.trans eq_comm
  simp only [accepts]
  rw [← List.forall₂_eq_eq_eq, List.forall₂_map_left_iff, List.forall₂_map_right_iff]

/-! ### What the rules build -/

/-- Rules build branches of their kind, or continue a list of statements. -/
theorem build_cases : ∀ rule ∈ grammar.rules,
    rule.build = Tree.branch rule.kind ∨
      rule.build = appendStatement ∧ rule.kind = .statements := by
  simp [grammar, rules, wrapperRule, forRule, relationRule, operatorRule]

theorem kind?_appendStatement (nodes : List Tree) :
    (appendStatement nodes).kind? = some .statements := by
  unfold appendStatement
  split <;> rfl

theorem leaves_appendStatement (nodes : List Tree) :
    (appendStatement nodes).leaves = Tree.forestLeaves nodes := by
  unfold appendStatement
  split
  · rename_i listed added
    rw [Tree.leaves, Tree.forestLeaves, Tree.leaves]
    simp only [Tree.forestLeaves_eq_flatMap, List.flatMap_append]
  · rfl

/-- Programs are built by derivations of programs only. -/
theorem key_of_build {rule : Rule} (isRule : rule ∈ grammar.rules) {nodes : List Tree}
    (kind : (rule.build nodes).kind? = some .program) : rule.key = .program := by
  have check : ∀ rule ∈ grammar.rules, rule.kind = .program → rule.key = .program := by decide
  rcases build_cases rule isRule with plain | ⟨appends, _⟩
  · rw [plain] at kind
    exact check rule isRule (Option.some.inj kind)
  · rw [appends, kind?_appendStatement] at kind
    cases kind

theorem root_of_kind_program (derived : grammar.IsDerivation D)
    (kind : D.build.kind? = some .program) : D.root = non .program := by
  cases derived with
  | leaf t token _ => cases kind
  | branch rule children isRule _ _ =>
    rw [build_branch] at kind
    exact congrArg Symbol.nonterminal (key_of_build isRule kind)

theorem kind?_build_program (derived : grammar.IsDerivation D) (root : D.root = non .program) :
    D.build.kind? = some .program := by
  have check : ∀ rule ∈ grammar.rules, rule.key = .program → rule.kind = .program := by decide
  obtain ⟨rule, children, rfl, isRule, key, _, _⟩ := derived.exists_of_root_nonterminal root
  have kind := check rule isRule key
  rw [build_branch]
  rcases build_cases rule isRule with plain | ⟨_, lists⟩
  · rw [plain, kind]
    rfl
  · rw [kind] at lists
    cases lists

/-- No rule drops, adds or moves a token. -/
theorem leaves_build {rule : Rule} (isRule : rule ∈ grammar.rules) (nodes : List Tree) :
    (rule.build nodes).leaves = Tree.forestLeaves nodes := by
  rcases build_cases rule isRule with plain | ⟨appends, _⟩
  · rw [plain]
    rfl
  · rw [appends, leaves_appendStatement]

theorem framed : grammar.Framed .start .program := ⟨by decide, by decide⟩

/-! ### Parses -/

/-- What is accepted without a diagnostic has a derivation, which the tree is
built from. -/
theorem exists_isDerivation_of_parseProgram (accepted : parseProgram tokens = (.accepted tree, m))
    (clean : m.diagnostics = []) :
    ∃ D : Derivation, grammar.IsDerivation D ∧ D.root = non .program ∧ D.tokens = tokens ∧
      D.build = tree := by
  obtain ⟨_, parsed, rfl⟩ := table.exists_parseTokens_of_drive _ _ _ accepted
  obtain ⟨D, state, below, sound, builds, kind⟩ :=
    Table.exists_sound_of_parseTokens automaton parsed clean
  have derived : grammar.IsDerivation D := sound.derived _ List.mem_cons_self
  have root : D.root = non .program := root_of_kind_program derived (builds ▸ kind)
  -- programs frame the grammar, so nothing is left below
  obtain rfl := sound.alone automaton framed root
  refine ⟨D, derived, root, ?_, builds⟩
  have spelled := sound.tokens
  rw [List.append_nil, List.reverse_singleton, List.flatMap_singleton] at spelled
  exact spelled

/-- What the symbols allow for: empty statements are where trees are larger than
their tokens. -/
def slack : Symbol Terminal Nonterminal → Int
  | .terminal _ => -3
  | .nonterminal .start => 1
  | .nonterminal .statements => 2
  | .nonterminal .statement => 1
  | .nonterminal .expression => 1
  | _ => 0

/-- A derivation of a program has at most four nodes for each token. -/
theorem size_le (derived : grammar.IsDerivation D) (root : D.root = non .program) :
    D.size ≤ 4 * D.tokens.length := by
  have branches : ∀ rule ∈ grammar.rules,
      1 + allowance slack rule.symbols ≤ slack (non rule.key) := by decide
  have bound := Grammar.IsDerivation.size_le (fun t => show (1 : Int) ≤ -3 + 4 by decide) branches
    derived
  rw [root] at bound
  have none : slack (non .program) = 0 := rfl
  omega

/-- The parser reads a derivation of a program that goes by the choices of the table. -/
theorem exists_readsIn_settled (derived : grammar.IsDerivation D) (settled : Settled D)
    (root : D.root = non .program) :
    ∃ state, table.ReadsIn .program D.size ⟨[], D.tokens⟩ ⟨[(D, state)], []⟩ := by
  have silent := framed.silent_children
    (fun rule isRule nodes kind => .inr (key_of_build isRule kind)) derived root
  have expected : ∃ item ∈ grammar.startSet .start,
      grammar.expected? item = some (non .program) :=
    Grammar.exists_mem_startSet ⟨_, List.mem_cons_self, rfl, rfl⟩
  exact Table.exists_readsIn_of_settled automaton distinct single infixed derived settled root
    silent expected

/-- The parser makes of its tokens what the derivation builds, within its budget. -/
theorem exists_parseProgram_settled (derived : grammar.IsDerivation D) (settled : Settled D)
    (root : D.root = non .program) :
    ∃ m, parseProgram D.tokens = (.accepted D.build, m) ∧ m.diagnostics = [] := by
  obtain ⟨state, reads⟩ := exists_readsIn_settled derived settled root
  have size := size_le derived root
  have enough : D.size < budget D.tokens := by
    unfold budget
    omega
  obtain ⟨m, parsed, clean⟩ :=
    Table.parseTokens_of_readsIn automaton reads (kind?_build_program derived root) enough {}
  refine ⟨m.progress, ?_, clean⟩
  unfold parseProgram
  rw [Table.drive_tokens, parsed]

/-- The tokens of a program are read, within the budget of the parser. -/
theorem exists_parse (derived : grammar.IsDerivation D) (root : D.root = non .program) :
    ∃ tree m, parseProgram D.tokens = (.accepted tree, m) ∧ m.diagnostics = [] := by
  obtain ⟨E, derivedE, rootE, tokensE, settled⟩ := exists_settled derived
  rw [← tokensE]
  exact ⟨E.build, exists_parseProgram_settled derivedE settled (rootE.trans root)⟩

/-- The parser accepts a list of tokens without a diagnostic if and only if
their kinds are a sentence of the grammar, and then the tree has these tokens,
one for one. -/
theorem parseProgram_iff (tokens : List Token) :
    ((∃ tree m, parseProgram tokens = (.accepted tree, m) ∧ m.diagnostics = []) ↔
      ∃ word ∈ (grammar.contextFree .program).language,
        word.map Terminal.kind = tokens.map Token.kind) ∧
    ∀ tree m, parseProgram tokens = (.accepted tree, m) → m.diagnostics = [] →
      tree.leaves = tokens := by
  refine ⟨⟨?_, ?_⟩, ?_⟩
  · rintro ⟨tree, m, accepted, clean⟩
    obtain ⟨D, derived, root, tokens, _⟩ := exists_isDerivation_of_parseProgram accepted clean
    obtain ⟨word, sentence, accepts⟩ :=
      Grammar.exists_isDerivation_iff.mp ⟨D, derived, root, tokens⟩
    exact ⟨word, sentence, forall₂_accepts_iff.mp accepts⟩
  · rintro ⟨word, sentence, kinds⟩
    obtain ⟨D, derived, root, rfl⟩ := Grammar.exists_isDerivation_iff.mpr
      ⟨word, sentence, forall₂_accepts_iff.mpr kinds⟩
    exact exists_parse derived root
  · intro tree m accepted clean
    obtain ⟨D, derived, _, rfl, rfl⟩ := exists_isDerivation_of_parseProgram accepted clean
    exact derived.leaves_build fun rule isRule nodes => leaves_build isRule nodes

/-- The tokens of `program p; begin if a < 1 then if a > 2 then b := a + 3 * a ^ 4
else b := 5 end.`, by their kinds. -/
def sample : List Token :=
  [Terminal.programWord, .identifier, .semicolon, .beginWord, .ifWord, .identifier, .less, .integer,
    .thenWord, .ifWord, .identifier, .greater, .integer, .thenWord, .identifier, .assign,
    .identifier, .plus, .integer, .star, .identifier, .caret, .integer, .elseWord, .identifier,
    .assign, .integer, .endWord, .dot].map fun t => ⟨t.kind, t.name, default⟩

set_option maxRecDepth 100000 in
/-- A program with operators and an `else` that two `if`s could take is a
sentence, and read with all of its tokens. -/
theorem parseProgram_sample : ∃ tree m, parseProgram sample = (.accepted tree, m) ∧
    m.diagnostics = [] ∧ tree.leaves = sample ∧
    ∃ word ∈ (grammar.contextFree .program).language,
      word.map Terminal.kind = sample.map Token.kind := by
  have parsed : (parseProgram sample).2.diagnostics = [] ∧
      (parseProgram sample).1.tree?.isSome = true := by decide +kernel
  obtain ⟨sentence, leaves⟩ := parseProgram_iff sample
  generalize parseProgram sample = result at parsed sentence leaves
  obtain ⟨outcome, m⟩ := result
  obtain ⟨tree, found⟩ := Option.isSome_iff_exists.mp parsed.2
  obtain rfl : outcome = .accepted tree := Outcome.eq_accepted found
  exact ⟨tree, m, rfl, parsed.1, leaves tree m rfl parsed.1,
    sentence.mp ⟨tree, m, rfl, parsed.1⟩⟩

end ShiftReduce.Pascal
