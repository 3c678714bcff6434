/-
  The plan of a state: what an item set shifts, where it reduces and what it
  goes on to, before the states that it leads to have numbers.

  A plan depends on the item set and its context alone. It fails where an item
  expects the empty text, and where two rules would be reduced before the same
  terminal.
-/
import ShiftReduce.Table.State
import ShiftReduce.Lookahead.SymbolSets

namespace ShiftReduce

/-- Why an item set can have no plan. -/
inductive Obstacle (τ : Type) where
  /-- The item expects the empty text, which no token stands for. -/
  | epsilonExpected (item : Item)
  /-- Two rules are to be reduced before the same terminal. -/
  | contested (terminal : τ) (first second : Nat)
deriving DecidableEq, Repr

/-- What an item set does. -/
structure Plan (τ κ : Type) [Ordered τ] [Ordered κ] where
  shifts : SortedSet τ
  gotos : SortedSet κ
  reductions : SortedMap τ Nat
  reducible : List Nat
  resolutions : List (Resolution τ)

variable {τ κ T N : Type} [Ordered τ] [Ordered κ] [DecidableEq τ] [DecidableEq κ]

/-- The state that is filled by a plan, where its shifts and its gotos lead to the
states with these numbers. -/
def Plan.state (plan : Plan τ κ) (items : ItemSet) (context : Context) (shifts gotos : List Nat) :
    State τ κ :=
  let shiftEntries := (plan.shifts.toList.zip shifts).map fun entry =>
    (entry.1, Action.shift entry.2)
  let reduceEntries := plan.reductions.entries.map fun entry => (entry.1, Action.reduce entry.2)
  { items := items
    context := context
    actions := .ofList (shiftEntries ++ reduceEntries)
    gotos := .ofList (plan.gotos.toList.zip gotos)
    reducible := plan.reducible
    resolutions := plan.resolutions }

/-- Gives each terminal of a list of candidates to its rule. Two rules cannot
share a terminal. -/
def settleReductions : List (τ × Nat) → SortedMap τ Nat → Except (Obstacle τ) (SortedMap τ Nat)
  | [], reductions => .ok reductions
  | (terminal, rule) :: rest, reductions =>
    match reductions.get? terminal with
    | none => settleReductions rest (reductions.insert terminal rule)
    | some holder =>
      if holder = rule then settleReductions rest reductions
      else .error (.contested terminal holder rule)

namespace Grammar

/-! ### What the items of a set ask for -/

/-- The first item that expects the empty text. -/
def epsilonExpected? (g : Grammar τ κ T N) (items : ItemSet) : Option Item :=
  items.toList.find? fun item => g.expected? item = some .epsilon

/-- The terminals that the items of a set expect. -/
def expectedTerminals (g : Grammar τ κ T N) (items : ItemSet) : SortedSet τ :=
  .ofList (items.toList.filterMap fun item => (g.expected? item).bind Symbol.terminal?)

/-- The nonterminals that the items of a set expect. -/
def expectedKeys (g : Grammar τ κ T N) (items : ItemSet) : SortedSet κ :=
  .ofList (items.toList.filterMap fun item => (g.expected? item).bind Symbol.nonterminal?)

/-- The rules that a set has read completely, in item order. -/
def completeRules (g : Grammar τ κ T N) (items : ItemSet) : List Nat :=
  (items.toList.filter fun item => g.expected? item = none).map Item.rule

/-- The terminals before which a rule may be reduced: those that can come
after its key. -/
def reductionTerminals (g : Grammar τ κ T N) (follow : FollowSets τ κ) (rule : Nat) : List τ :=
  match g.rule? rule with
  | none => []
  | some rule => ((follow.get? rule.key).getD ∅).toList

/-- Every terminal with every rule that may be reduced before it. -/
def candidateReductions (g : Grammar τ κ T N) (follow : FollowSets τ κ) (items : ItemSet) :
    List (τ × Nat) :=
  (g.completeRules items).flatMap fun rule =>
    (g.reductionTerminals follow rule).map fun terminal => (terminal, rule)

/-! ### Plans -/

/-- The plan of an item set. Where a terminal can be shifted and a rule be
reduced before it, the context chooses between them, by the binding of the copy
that the set expects. -/
def plan (g : Grammar τ κ T N) (follow : FollowSets τ κ) (items : ItemSet) (context : Context) :
    Except (Obstacle τ) (Plan τ κ) :=
  match g.epsilonExpected? items with
  | some item => .error (.epsilonExpected item)
  | none =>
    match settleReductions (g.candidateReductions follow items) ∅ with
    | .error obstacle => .error obstacle
    | .ok reductions =>
      let expected := g.expectedTerminals items
      let shifts := expected.filter fun t =>
        (reductions.get? t).isNone || context.prefersShift (g.copyIn items t)
      .ok
        { shifts := shifts
          gotos := g.expectedKeys items
          reductions := reductions.filter fun t _ => t ∉ shifts
          reducible := g.completeRules items
          resolutions := expected.toList.filterMap fun t =>
            (reductions.get? t).map fun rule => ⟨t, rule, context.prefersShift (g.copyIn items t)⟩ }

end Grammar

end ShiftReduce
