/-
  Complete parsing: where no resolution interferes, every derivation of the goal
  is read.

  The goal is to frame the grammar: it is all that the start rules hold and is
  used nowhere else. Then no node below a derivation of the goal is taken for the
  goal (`Framed.silent`), and the reading ends with that derivation alone on the
  stack (`exists_readsIn_of_guide`). Since a reading is determined by its tokens,
  no two derivations of the goal have the same ones.
-/
import ShiftReduce.Proofs.Parser.Guide

namespace ShiftReduce

variable {τ κ T N : Type}

/-! ### Silence below the goal -/

namespace Grammar

variable {g : Grammar τ κ T N} {start key : κ} {goal : N} {D : Derivation τ κ T N}

/-- If only start rules and those of the goal build nodes of a kind, no other
derivation has such a node. -/
theorem Framed.silent (framed : g.Framed start key)
    (only : ∀ rule ∈ g.rules, ∀ nodes, (rule.build nodes).kind? = some goal →
      rule.key = start ∨ rule.key = key)
    (derived : g.IsDerivation D) (notStart : D.root ≠ .nonterminal start)
    (notGoal : D.root ≠ .nonterminal key) : Derivation.Silent goal D := by
  induction derived with
  | leaf t token _ => exact .leaf _
  | branch rule children isRule spelled _ ih =>
    refine .branch rule children (fun kind => ?_) fun child isChild => ?_
    · rw [Derivation.build_branch] at kind
      rcases only rule isRule _ kind with same | same
      · exact notStart (congrArg Symbol.nonterminal same)
      · exact notGoal (congrArg Symbol.nonterminal same)
    · -- the keys of the frame are not used below it
      have used := Derivation.root_mem_body spelled isChild
      refine ih child isChild (fun root => ?_) (fun root => ?_)
      · exact framed.start_fresh rule isRule (root ▸ used)
      · exact notStart (congrArg Symbol.nonterminal
          (framed.goal_framed rule isRule (root ▸ used)).1)

/-- Below a derivation of the goal nothing is taken for the goal. -/
theorem Framed.silent_children (framed : g.Framed start key)
    (only : ∀ rule ∈ g.rules, ∀ nodes, (rule.build nodes).kind? = some goal →
      rule.key = start ∨ rule.key = key)
    (derived : g.IsDerivation D) (root : D.root = .nonterminal key) :
    ∀ child ∈ D.children, Derivation.Silent goal child := by
  obtain ⟨rule, children, rfl, isRule, same, spelled, below⟩ :=
    derived.exists_of_root_nonterminal root
  intro child isChild
  have used := Derivation.root_mem_body spelled isChild
  refine framed.silent only (below child isChild) (fun isStart => ?_) (fun isGoal => ?_)
  · exact framed.start_fresh rule isRule (isStart ▸ used)
  · obtain ⟨isStart, whole⟩ := framed.goal_framed rule isRule (isGoal ▸ used)
    refine framed.start_fresh rule isRule ?_
    rw [whole, ← same, isStart]
    exact List.mem_singleton_self _

/-- A key whose rules hold nothing but the key itself derives nothing. -/
theorem root_ne_of_circular (circular : ∀ rule ∈ g.rules, rule.key = key →
    rule.body = [.nonterminal key]) (derived : g.IsDerivation D) : D.root ≠ .nonterminal key := by
  induction derived with
  | leaf t token _ => nofun
  | branch rule children isRule spelled _ ih =>
    intro root
    have whole := circular rule isRule (Symbol.nonterminal.inj root)
    have one : children.map Derivation.root = [.nonterminal key] := by
      rw [spelled, Rule.symbols, whole]
      rfl
    obtain ⟨child, rfl, below⟩ := List.map_eq_singleton_iff.mp one
    exact ih child (List.mem_singleton_self child) below

/-- Where the start rules hold the goal alone and neither key is used elsewhere,
the goal frames the grammar. -/
theorem framed_of_unused (apart : key ≠ start)
    (startRule : ∀ rule ∈ g.rules, rule.key = start → rule.body = [.nonterminal key])
    (unused : ∀ rule ∈ g.rules, rule.key ≠ start →
      .nonterminal start ∉ rule.body ∧ .nonterminal key ∉ rule.body) : g.Framed start key where
  start_fresh rule isRule used := by
    by_cases isStart : rule.key = start
    · rw [startRule rule isRule isStart, List.mem_singleton] at used
      exact apart (Symbol.nonterminal.inj used).symm
    · exact (unused rule isRule isStart).1 used
  goal_framed rule isRule used := by
    by_cases isStart : rule.key = start
    · exact ⟨isStart, startRule rule isRule isStart⟩
    · exact absurd used (unused rule isRule isStart).2

/-- Where rules build branches of their kind, a derivation of a key builds a
node of the kind of its rules. -/
theorem IsDerivation.kind?_build (derived : g.IsDerivation D) (root : D.root = .nonterminal key)
    (plain : ∀ rule ∈ g.rules, rule.build = Tree.branch rule.kind)
    (kinds : ∀ rule ∈ g.rules, rule.key = key → rule.kind = goal) :
    D.build.kind? = some goal := by
  obtain ⟨rule, children, rfl, isRule, same, _, _⟩ := derived.exists_of_root_nonterminal root
  rw [Derivation.build_branch, plain rule isRule]
  exact congrArg some (kinds rule isRule same)

/-- The start set expects the goal where some start rule holds it alone. -/
theorem exists_mem_startSet [DecidableEq κ]
    (startRule : ∃ rule ∈ g.rules, rule.key = start ∧ rule.body = [.nonterminal key]) :
    ∃ item ∈ g.startSet start, g.expected? item = some (.nonterminal key) := by
  obtain ⟨rule, isRule, isStart, whole⟩ := startRule
  obtain ⟨place, found⟩ := List.mem_iff_getElem?.mp isRule
  refine ⟨⟨place, 0⟩, g.mem_startSet_of_mem_startItems
    (g.mem_startItems.mpr ⟨rfl, rule, found, isStart⟩), ?_⟩
  refine g.expected?_eq_some_iff.mpr ⟨rule, found, ?_, ?_⟩
  · rw [Rule.length, whole]
    exact Nat.one_pos
  · rw [whole]
    rfl

end Grammar

/-! ### Parses of derivations -/

variable [Ordered τ] [Ordered κ] [DecidableEq κ]

namespace Table

/-- Where no state has a resolution, nothing has to be kept off. -/
theorem guide_of_unresolved [DecidableEq τ] {g : Grammar τ κ T N} {table : Table τ κ T N}
    (unresolved : ∀ s ∈ table.states, s.resolutions = []) :
    table.Guide g fun _ _ _ => True := by
  have none : ∀ {number : Nat} {s : State τ κ} {r : Resolution τ},
      table.state? number = some s → r ∉ s.resolutions := by
    intro number s r isState
    rw [unresolved s (List.mem_of_getElem? isState)]
    exact List.not_mem_nil
  exact ⟨fun _ isState _ member => absurd member (none isState), fun _ _ => trivial,
    fun _ _ isState _ member => absurd member (none isState)⟩

variable [DecidableEq N] {g : Grammar τ κ T N} {start : κ} {table : Table τ κ T N} {goal : N}
  {D E : Derivation τ κ T N}

/-- Readings that end with one derivation each end with the same if their
tokens are. -/
theorem derivation_unique {n k state state' : Nat} {tokens : List T}
    (one : table.ReadsIn goal n ⟨[], tokens⟩ ⟨[(D, state)], []⟩)
    (other : table.ReadsIn goal k ⟨[], tokens⟩ ⟨[(E, state')], []⟩)
    (kind : D.build.kind? = some goal) (kind' : E.build.kind? = some goal) : D = E := by
  have same := one.unique other ⟨rfl, D, state, [], rfl, kind⟩ ⟨rfl, E, state', [], rfl, kind'⟩
  injection same with frames
  injection frames with frame
  exact congrArg Prod.fst frame

variable [DecidableEq τ] [Named κ] [Token T]

/-- A parse follows the reading of its tokens. -/
theorem parseTokens_of_readsIn (built : g.Automaton start table) {n budget state : Nat}
    {tokens : List T} (reads : table.ReadsIn goal n ⟨[], tokens⟩ ⟨[(D, state)], []⟩)
    (kind : D.build.kind? = some goal) (enough : n < budget) (stats : Stats) :
    ∃ m, table.parseTokens goal budget tokens stats = (.accepted D.build, m) ∧
      m.diagnostics = [] := by
  have shadows : (⟨.base 0, tokens, stats, [], none, none⟩ : Machine T N).Shadows
      (⟨[], tokens⟩ : Reading τ κ T N) := ⟨rfl, rfl⟩
  obtain ⟨E, state', below, m, frames, ran, clean⟩ :=
    run_of_readsIn shadows reads ⟨rfl, D, state, [], rfl, kind⟩ enough
  injection frames with frame _
  obtain ⟨rfl, _⟩ := Prod.mk.inj frame
  obtain ⟨s, isState, _⟩ := built.first
  refine ⟨m, ?_, clean⟩
  rw [parseTokens, parse, if_pos]
  · exact ran
  · exact decide_eq_true (List.getElem?_eq_some_iff.mp isState).1

/-- Where no state has a resolution and none two rules to reduce, every
derivation of the goal is what the parser makes of its tokens, and no other
derivation of the goal has these tokens. -/
theorem parseTokens_of_isDerivation {placeholders : List (κ × Tree T N)}
    (built : g.table start placeholders = .ok table)
    (unresolved : ∀ s ∈ table.states, s.resolutions = [])
    (single : ∀ s ∈ table.states, s.reducible.length ≤ 1) (distinct : g.Distinct)
    (plain : ∀ rule ∈ g.rules, rule.build = Tree.branch rule.kind) {key : κ}
    (startRule : ∀ rule ∈ g.rules, rule.key = start → rule.body = [.nonterminal key])
    (unused : ∀ rule ∈ g.rules, rule.key ≠ start →
      .nonterminal start ∉ rule.body ∧ .nonterminal key ∉ rule.body)
    (kinds : ∀ rule ∈ g.rules, rule.kind = goal ↔ rule.key = key)
    (derived : g.IsDerivation D) (root : D.root = .nonterminal key) {budget : Nat}
    (enough : D.size < budget) (stats : Stats) :
    (∃ m, table.parseTokens goal budget D.tokens stats = (.accepted D.build, m) ∧
      m.diagnostics = []) ∧
    ∀ E, g.IsDerivation E → E.root = .nonterminal key → E.tokens = D.tokens → E = D := by
  have automaton := Grammar.automaton_of_table built
  by_cases circular : key = start
  · subst circular
    exact absurd root (Grammar.root_ne_of_circular startRule derived)
  have framed := Grammar.framed_of_unused circular startRule unused
  have only : ∀ rule ∈ g.rules, ∀ nodes, (rule.build nodes).kind? = some goal →
      rule.key = start ∨ rule.key = key := by
    intro rule isRule nodes kind
    rw [plain rule isRule] at kind
    exact .inr ((kinds rule isRule).mp (Option.some.inj kind))
  have expected : ∃ item ∈ g.startSet start, g.expected? item = some (.nonterminal key) := by
    obtain ⟨rule, isRule, isStart⟩ := List.any_eq_true.mp (Grammar.defines_of_table built)
    have isStart := of_decide_eq_true isStart
    exact Grammar.exists_mem_startSet ⟨rule, isRule, isStart, startRule rule isRule isStart⟩
  have kind : ∀ E, g.IsDerivation E → E.root = .nonterminal key → E.build.kind? = some goal :=
    fun E derived root => derived.kind?_build root plain fun rule isRule => (kinds rule isRule).mpr
  -- without resolutions every derivation is a guide of its own
  have reading : ∀ E, g.IsDerivation E → E.root = .nonterminal key →
      ∃ state, table.ReadsIn goal E.size ⟨[], E.tokens⟩ ⟨[(E, state)], []⟩ := by
    intro E derived root
    obtain ⟨item, member, expected⟩ := expected
    rw [← root] at expected
    exact exists_readsIn_of_guide automaton distinct
      (fun _ s isState => single s (List.mem_of_getElem? isState)) (guide_of_unresolved unresolved)
      derived (framed.silent_children only derived root) member expected trivial
  obtain ⟨state, reads⟩ := reading D derived root
  refine ⟨parseTokens_of_readsIn automaton reads (kind D derived root) enough stats, ?_⟩
  intro E derived' root' same
  obtain ⟨state', reads'⟩ := reading E derived' root'
  rw [same] at reads'
  exact derivation_unique reads' reads (kind E derived' root') (kind D derived root)

end Table

/-! ### Balanced brackets -/

namespace Brackets

/-- The derivation of a list of brackets inside each other, `depth` of them. -/
def nest : Nat → Derivation Mark Part Mark Part
  | 0 => .branch (rule .list [.epsilon]) []
  | depth + 1 =>
    .branch (rule .list [.nonterminal .list, .nonterminal .group])
      [.branch (rule .list [.epsilon]) [],
        .branch (rule .group [.terminal .opening, .nonterminal .list, .terminal .closing])
          [.leaf (.opening, .opening), nest depth, .leaf (.closing, .closing)]]

/-- The derivation of such a list as a text. -/
def nestText (depth : Nat) : Derivation Mark Part Mark Part :=
  .branch (rule .text [.nonterminal .list]) [nest depth]

theorem root_nest (depth : Nat) : (nest depth).root = .nonterminal .list := by
  cases depth <;> rfl

theorem isDerivation_nest (depth : Nat) : grammar.IsDerivation (nest depth) := by
  have empty : grammar.IsDerivation (.branch (rule .list [.epsilon]) []) :=
    .branch _ _ (by simp [grammar]) rfl (List.forall_mem_nil _)
  induction depth with
  | zero => exact empty
  | succ depth ih =>
    have group : grammar.IsDerivation
        (.branch (rule .group [.terminal .opening, .nonterminal .list, .terminal .closing])
          [.leaf (.opening, .opening), nest depth, .leaf (.closing, .closing)]) := by
      refine .branch _ _ (by simp [grammar]) ?_ ?_
      · rw [List.map_cons, List.map_cons, root_nest]
        rfl
      · simp only [List.forall_mem_cons]
        exact ⟨.leaf _ _ rfl, ih, .leaf _ _ rfl, List.forall_mem_nil _⟩
    refine .branch _ _ (by simp [grammar]) rfl ?_
    simp only [List.forall_mem_cons]
    exact ⟨empty, group, List.forall_mem_nil _⟩

theorem isDerivation_nestText (depth : Nat) : grammar.IsDerivation (nestText depth) := by
  refine .branch _ _ (by simp [grammar]) ?_ ?_
  · rw [List.map_singleton, root_nest]
    rfl
  · rintro D member
    obtain rfl := List.mem_singleton.mp member
    exact isDerivation_nest depth

theorem distinct : grammar.Distinct := by
  intro t _ u _ token accepted accepted'
  rw [← of_decide_eq_true accepted, of_decide_eq_true accepted']

/-- Brackets inside each other are read in one way only. -/
theorem parseTokens_nestText :
    (∀ s ∈ table.states, s.resolutions = []) ∧ (∀ s ∈ table.states, s.reducible.length ≤ 1) ∧
    (nestText 3).tokens = [.opening, .opening, .opening, .closing, .closing, .closing] ∧
    (∃ m, table.parseTokens .text 32 (nestText 3).tokens {} = (.accepted (nestText 3).build, m) ∧
      m.diagnostics = []) ∧
    ∀ E, grammar.IsDerivation E → E.root = .nonterminal .text →
      E.tokens = (nestText 3).tokens → E = nestText 3 := by
  have unresolved : ∀ s ∈ table.states, s.resolutions = [] := by decide +kernel
  have single : ∀ s ∈ table.states, s.reducible.length ≤ 1 := by decide +kernel
  exact ⟨unresolved, single, rfl, Table.parseTokens_of_isDerivation table_eq unresolved single
    distinct build_rule (by decide) (by decide) (by decide) (isDerivation_nestText 3) rfl
    (by decide) {}⟩

end Brackets

end ShiftReduce
