/-
  Derivation trees: what it means that tokens can be read as a symbol of a
  grammar.

  A leaf of a derivation holds a terminal and the token that it stands for, a
  branch the rule that is applied there; the roots of the children spell the
  body of the rule, empty texts left out (`Grammar.IsDerivation`). A derivation
  knows nothing of tables, so it is the measure of what a parser does: the
  tokens at its leaves (`Derivation.tokens`) are what is read, and the tree
  that its rules build from the leaves up (`Derivation.build`) is what a parse
  should return.
-/
import ShiftReduce.Grammar
import Mathlib.Algebra.GroupWithZero.Nat
import Mathlib.Data.List.Basic

namespace ShiftReduce

variable {τ κ T N : Type}

/-- The symbols of a rule body that stand for text. -/
def Rule.symbols (rule : Rule τ κ T N) : List (Symbol τ κ) :=
  rule.body.filter fun symbol => !symbol.isEpsilon

theorem Rule.length_symbols (rule : Rule τ κ T N) : rule.symbols.length = rule.length := rfl

theorem Rule.mem_symbols {rule : Rule τ κ T N} {symbol : Symbol τ κ} :
    symbol ∈ rule.symbols ↔ symbol ∈ rule.body ∧ symbol ≠ .epsilon := by
  cases symbol <;> simp [Rule.symbols, Symbol.isEpsilon]

theorem Rule.length_le (rule : Rule τ κ T N) : rule.length ≤ rule.body.length :=
  List.length_filter_le _ _

/-- A body, split at one of its symbols. -/
theorem Rule.body_eq_append {rule : Rule τ κ T N} {cursor : Nat} {symbol : Symbol τ κ}
    (here : rule.body[cursor]? = some symbol) :
    rule.body = rule.body.take cursor ++ symbol :: rule.body.drop (cursor + 1) := by
  obtain ⟨bound, same⟩ := List.getElem?_eq_some_iff.mp here
  rw [← same, ← List.drop_eq_getElem_cons bound, List.take_append_drop]

theorem filter_real {symbols : List (Symbol τ κ)} (real : ∀ symbol ∈ symbols, symbol ≠ .epsilon) :
    symbols.filter (fun symbol => !symbol.isEpsilon) = symbols := by
  refine List.filter_eq_self.mpr fun symbol member => ?_
  cases symbol with
  | epsilon => exact absurd rfl (real _ member)
  | terminal t => rfl
  | nonterminal key => rfl

/-- Up to the first empty text, the symbols of a body stand for text. -/
theorem Rule.symbols_eq_append {rule : Rule τ κ T N} {cursor : Nat}
    (real : ∀ symbol ∈ rule.body.take cursor, symbol ≠ .epsilon) :
    rule.symbols = rule.body.take cursor ++
      (rule.body.drop cursor).filter fun symbol => !symbol.isEpsilon := by
  rw [Rule.symbols]
  conv_lhs => rw [← List.take_append_drop cursor rule.body, List.filter_append, filter_real real]

theorem Rule.getElem?_symbols {rule : Rule τ κ T N} {cursor : Nat}
    (real : ∀ symbol ∈ rule.body.take (cursor + 1), symbol ≠ .epsilon)
    (within : cursor < rule.body.length) : rule.symbols[cursor]? = rule.body[cursor]? := by
  have bound : cursor < (rule.body.take (cursor + 1)).length := by
    rw [List.length_take]
    omega
  rw [Rule.symbols_eq_append real, List.getElem?_append_left bound,
    List.getElem?_take_of_lt (Nat.lt_succ_self cursor)]

theorem Rule.drop_symbols {rule : Rule τ κ T N} {cursor : Nat}
    (real : ∀ symbol ∈ rule.body.take (cursor + 1), symbol ≠ .epsilon)
    (within : cursor < rule.body.length) : rule.symbols.drop (cursor + 1) =
      (rule.body.drop (cursor + 1)).filter fun symbol => !symbol.isEpsilon := by
  have bound : (rule.body.take (cursor + 1)).length = cursor + 1 := by
    rw [List.length_take]
    omega
  rw [Rule.symbols_eq_append real]
  exact List.drop_left' bound

/-- The number of symbols that stand for text is also that of the leading
symbols if none of these is the empty text. -/
theorem Rule.symbols_eq_take {rule : Rule τ κ T N}
    (real : ∀ symbol ∈ rule.body.take rule.length, symbol ≠ .epsilon) :
    rule.symbols = rule.body.take rule.length := by
  have within := rule.length_le
  have whole := Rule.symbols_eq_append real
  have count := congrArg List.length whole
  rw [Rule.length_symbols, List.length_append, List.length_take] at count
  have rest : ((rule.body.drop rule.length).filter fun symbol => !symbol.isEpsilon) = [] :=
    List.eq_nil_of_length_eq_zero (by omega)
  rw [whole, rest, List.append_nil]

/-- A derivation tree: leaves hold a terminal with its token, branches a rule. -/
abbrev Derivation (τ κ T N : Type) := Tree (τ × T) (Rule τ κ T N)

/-! ### Forests -/

namespace Tree

theorem forestLeaves_eq_flatMap (trees : List (Tree T N)) :
    forestLeaves trees = trees.flatMap leaves := by
  induction trees with
  | nil => rfl
  | cons tree rest ih => rw [forestLeaves, ih, List.flatMap_cons]

theorem forestSize_eq_sum (trees : List (Tree T N)) :
    forestSize trees = (trees.map size).sum := by
  induction trees with
  | nil => rfl
  | cons tree rest ih => rw [forestSize, ih, List.map_cons, List.sum_cons]

/-- `Within inner tree` says that `inner` is the tree or lies somewhere in it. -/
inductive Within (inner : Tree T N) : Tree T N → Prop
  | refl : Within inner inner
  | child {c : Tree T N} (kind : N) (children : List (Tree T N)) (isChild : c ∈ children)
      (within : Within inner c) : Within inner (.branch kind children)

namespace Within

theorem eq_of_leaf {inner : Tree T N} {token : T} (within : Within inner (.leaf token)) :
    inner = .leaf token := by
  cases within with
  | refl => rfl

/-- What lies in a branch is the branch, or lies in a child. -/
theorem of_branch {inner : Tree T N} {kind : N} {children : List (Tree T N)}
    (within : Within inner (.branch kind children)) :
    inner = .branch kind children ∨ ∃ child ∈ children, Within inner child := by
  cases within with
  | refl => exact .inl rfl
  | child _ _ isChild inside => exact .inr ⟨_, isChild, inside⟩

end Within

end Tree

namespace Derivation

/-- The symbol at the root. -/
def root : Derivation τ κ T N → Symbol τ κ
  | .leaf entry => .terminal entry.1
  | .branch rule _ => .nonterminal rule.key

theorem root_ne_epsilon (D : Derivation τ κ T N) : D.root ≠ .epsilon := by
  cases D <;> nofun

theorem eq_leaf_of_root {D : Derivation τ κ T N} {t : τ} (root : D.root = .terminal t) :
    ∃ token, D = .leaf (t, token) := by
  cases D with
  | leaf entry =>
    obtain rfl := Symbol.terminal.inj root
    exact ⟨entry.2, rfl⟩
  | branch rule children => cases root

/-- The roots of the children of a branch are in its rule's body. -/
theorem root_mem_body {rule : Rule τ κ T N} {children : List (Derivation τ κ T N)}
    (spelled : children.map root = rule.symbols) {child : Derivation τ κ T N}
    (isChild : child ∈ children) : child.root ∈ rule.body := by
  refine (Rule.mem_symbols.mp ?_).1
  rw [← spelled]
  exact List.mem_map_of_mem isChild

/-- The tokens at the leaves, left to right. -/
def tokens (D : Derivation τ κ T N) : List T := D.leaves.map Prod.snd

/-- The terminals at the leaves, left to right. -/
def terminals (D : Derivation τ κ T N) : List τ := D.leaves.map Prod.fst

mutual

/-- The tree that the rules build from the leaves up. -/
def build : Derivation τ κ T N → Tree T N
  | .leaf entry => .leaf entry.2
  | .branch rule children => rule.build (buildAll children)

/-- The trees that are built from several derivations. -/
def buildAll : List (Derivation τ κ T N) → List (Tree T N)
  | [] => []
  | D :: rest => build D :: buildAll rest

end

theorem buildAll_eq_map (forest : List (Derivation τ κ T N)) :
    buildAll forest = forest.map build := by
  induction forest with
  | nil => rfl
  | cons D rest ih => rw [buildAll, ih, List.map_cons]

theorem build_branch (rule : Rule τ κ T N) (children : List (Derivation τ κ T N)) :
    build (.branch rule children) = rule.build (children.map build) := by
  rw [build, buildAll_eq_map]

@[simp] theorem tokens_leaf (entry : τ × T) :
    tokens (.leaf entry : Derivation τ κ T N) = [entry.2] := rfl

@[simp] theorem tokens_branch (rule : Rule τ κ T N) (children : List (Derivation τ κ T N)) :
    tokens (.branch rule children) = children.flatMap tokens := by
  rw [tokens, Tree.leaves, Tree.forestLeaves_eq_flatMap, List.map_flatMap]
  rfl

@[simp] theorem terminals_branch (rule : Rule τ κ T N) (children : List (Derivation τ κ T N)) :
    terminals (.branch rule children) = children.flatMap terminals := by
  rw [terminals, Tree.leaves, Tree.forestLeaves_eq_flatMap, List.map_flatMap]
  rfl

@[simp] theorem leaves_branch (rule : Rule τ κ T N) (children : List (Derivation τ κ T N)) :
    Tree.leaves (.branch rule children) = children.flatMap Tree.leaves := by
  rw [Tree.leaves, Tree.forestLeaves_eq_flatMap]

@[simp] theorem size_branch (rule : Rule τ κ T N) (children : List (Derivation τ κ T N)) :
    Tree.size (.branch rule children) = 1 + (children.map Tree.size).sum := by
  rw [Tree.size, Tree.forestSize_eq_sum]

theorem tokens_eq_map_leaves (back : List (Derivation τ κ T N)) :
    back.flatMap Derivation.tokens = (back.flatMap Tree.leaves).map Prod.snd := by
  rw [List.map_flatMap]
  rfl

theorem terminals_eq_map_leaves (back : List (Derivation τ κ T N)) :
    back.flatMap Derivation.terminals = (back.flatMap Tree.leaves).map Prod.fst := by
  rw [List.map_flatMap]
  rfl

/-- The leaves behind a child: those of the later children, then the rest. -/
theorem head?_leaves_append (back : List (Derivation τ κ T N)) (rest : List (τ × T)) :
    (back.flatMap Tree.leaves ++ rest).head?.map Prod.fst =
      (back.flatMap Derivation.terminals).head?.or (rest.head?.map Prod.fst) := by
  rw [terminals_eq_map_leaves, List.head?_append, List.head?_map, Option.map_or]

/-! ### Sizes -/

/-- What the symbols allow for, added up. -/
def allowance (slack : Symbol τ κ → Int) (symbols : List (Symbol τ κ)) : Int :=
  symbols.foldr (fun symbol total => slack symbol + total) 0

theorem forestSize_le {slack : Symbol τ κ → Int} {cost : Int}
    {forest : List (Derivation τ κ T N)}
    (bounded : ∀ D ∈ forest, (D.size : Int) ≤ slack D.root + cost * D.tokens.length) :
    (Tree.forestSize forest : Int) ≤ allowance slack (forest.map root) +
      cost * (forest.flatMap tokens).length := by
  induction forest with
  | nil => simp [Tree.forestSize, allowance]
  | cons D rest ih =>
    rw [List.forall_mem_cons] at bounded
    have first := bounded.1
    have others := ih bounded.2
    rw [Tree.forestSize, List.flatMap_cons, List.length_append, Int.natCast_add, Int.natCast_add,
      Int.mul_add]
    show _ ≤ slack D.root + allowance slack (rest.map root) + _
    omega

end Derivation

namespace Grammar

/-- `g.IsDerivation D` says that `D` is a derivation tree of the grammar: every
leaf holds a token that its terminal accepts, and the roots below a branch
spell the body of its rule. -/
inductive IsDerivation (g : Grammar τ κ T N) : Derivation τ κ T N → Prop
  | leaf (t : τ) (token : T) (accepted : (g.alphabet t).accepts token = true) :
      g.IsDerivation (.leaf (t, token))
  | branch (rule : Rule τ κ T N) (children : List (Derivation τ κ T N)) (member : rule ∈ g.rules)
      (body : children.map Derivation.root = rule.symbols)
      (derived : ∀ child ∈ children, g.IsDerivation child) :
      g.IsDerivation (.branch rule children)

namespace IsDerivation

variable {g : Grammar τ κ T N} {D : Derivation τ κ T N}

/-- The leaves of a derivation hold accepted tokens. -/
theorem accepts_of_mem (derived : g.IsDerivation D) {entry : τ × T} (member : entry ∈ D.leaves) :
    (g.alphabet entry.1).accepts entry.2 = true := by
  induction derived with
  | leaf t token accepted =>
    obtain rfl := List.mem_singleton.mp member
    exact accepted
  | branch rule children _ _ _ ih =>
    rw [Derivation.leaves_branch, List.mem_flatMap] at member
    obtain ⟨child, isChild, inside⟩ := member
    exact ih child isChild inside

theorem of_branch {rule : Rule τ κ T N} {children : List (Derivation τ κ T N)}
    (derived : g.IsDerivation (.branch rule children)) :
    rule ∈ g.rules ∧ children.map Derivation.root = rule.symbols ∧
      ∀ child ∈ children, g.IsDerivation child := by
  cases derived with
  | branch _ _ isRule spelled below => exact ⟨isRule, spelled, below⟩

/-- Where no rule drops, adds or moves tokens, the tree that is built has the
tokens of the derivation. -/
theorem leaves_build (derived : g.IsDerivation D)
    (keeps : ∀ rule ∈ g.rules, ∀ nodes : List (Tree T N),
      (rule.build nodes).leaves = Tree.forestLeaves nodes) :
    D.build.leaves = D.tokens := by
  induction derived with
  | leaf t token _ => rfl
  | branch rule children member _ _ ih =>
    rw [Derivation.build_branch, keeps rule member, Tree.forestLeaves_eq_flatMap,
      Derivation.tokens_branch, List.flatMap_map]
    exact List.flatMap_congr ih

/-- A derivation of a terminal is a leaf. -/
theorem exists_of_root_terminal (derived : g.IsDerivation D) {t : τ}
    (root : D.root = .terminal t) :
    ∃ token, D = .leaf (t, token) ∧ (g.alphabet t).accepts token = true := by
  cases derived with
  | leaf u token accepted =>
    obtain rfl := Symbol.terminal.inj root
    exact ⟨token, rfl, accepted⟩
  | branch rule children => cases root

/-- A derivation of a nonterminal applies one of its rules. -/
theorem exists_of_root_nonterminal (derived : g.IsDerivation D) {key : κ}
    (root : D.root = .nonterminal key) :
    ∃ rule children, D = .branch rule children ∧ rule ∈ g.rules ∧ rule.key = key ∧
      children.map Derivation.root = rule.symbols ∧ ∀ child ∈ children, g.IsDerivation child := by
  cases derived with
  | leaf t token => cases root
  | branch rule children member body below =>
    exact ⟨rule, children, rfl, member, Symbol.nonterminal.inj root, body, below⟩

/-- If every rule and every terminal keeps to what its symbol allows for, the
size of a derivation is bounded by the number of its tokens. -/
theorem size_le {slack : Symbol τ κ → Int} {cost : Int}
    (leaves : ∀ t, 1 ≤ slack (.terminal t) + cost)
    (branches : ∀ rule ∈ g.rules,
      1 + Derivation.allowance slack rule.symbols ≤ slack (.nonterminal rule.key))
    (derived : g.IsDerivation D) : (D.size : Int) ≤ slack D.root + cost * D.tokens.length := by
  induction derived with
  | leaf t token _ =>
    have allowed := leaves t
    show (1 : Int) ≤ slack (.terminal t) + cost * 1
    omega
  | branch rule children isRule spelled _ ih =>
    -- the rule spends what its symbols allow for, and the node itself
    have below := Derivation.forestSize_le ih
    have own := branches rule isRule
    rw [spelled] at below
    rw [Derivation.tokens_branch, Tree.size, Int.natCast_add]
    show (1 : Int) + _ ≤ slack (.nonterminal rule.key) + _
    omega

end IsDerivation

end Grammar

end ShiftReduce
