/-
  A table is exactly the automaton of the item sets that can be reached, with
  the shifts that lose to a reduction pruned.

  What a state does is determined by its items and its context
  (`Grammar.SettledState`): it goes on at the nonterminals that its items
  expect, shifts the terminals that they expect, and reduces the rules that they
  have read completely before the terminals that can come behind. Where a shift
  and a reduction are possible, the context chooses, and the state counts the
  choice. The states of a table are settled so, their item sets are different,
  and every state but the first is the target of one with a smaller number
  (`Grammar.PrunedAutomaton`).
-/
import ShiftReduce.Proofs.Table.Automaton
import Mathlib.Data.Set.Card

namespace ShiftReduce

variable {τ κ T N : Type} [Ordered τ] [Ordered κ] [DecidableEq τ] [DecidableEq κ]

/-! ### Settled states -/

/-- The item set of the state with a number. -/
def Table.itemsAt? (table : Table τ κ T N) (number : Nat) : Option ItemSet :=
  (table.state? number).map State.items

namespace Grammar

/-- Whether some item of a set expects a symbol. -/
def Expects (g : Grammar τ κ T N) (items : ItemSet) (symbol : Symbol τ κ) : Prop :=
  ∃ item ∈ items, g.expected? item = some symbol

/-- What a state does is what its items ask for, and where they ask for a shift
and a reduction, what its context prefers. -/
structure SettledState (g : Grammar τ κ T N) (table : Table τ κ T N) (s : State τ κ) : Prop where
  nonempty : ∃ item, item ∈ s.items
  closed : g.closure s.items = s.items
  reducible : s.reducible = g.completeRules s.items
  /-- It goes on at the nonterminals that are expected, and at no others. -/
  goto_isSome : ∀ key, (s.gotos.get? key).isSome ↔ g.Expects s.items (.nonterminal key)
  goto_items : ∀ key target, s.gotos.get? key = some target →
    table.itemsAt? target = some (g.advance s.items (.nonterminal key))
  /-- No two rules may be reduced before one terminal. -/
  single : ∀ t one other, g.MayReduce g.followSets s.items t one →
    g.MayReduce g.followSets s.items t other → one = other
  /-- It shifts what is expected, if no rule may be reduced or the shift is
  preferred. -/
  shift : ∀ t, g.Expects s.items (.terminal t) →
    (∀ place, ¬ g.MayReduce g.followSets s.items t place) ∨
      s.context.prefersShift (g.copyIn s.items t) = true →
    ∃ target, s.actions.get? t = some (.shift target) ∧
      table.itemsAt? target = some (g.advance s.items (.terminal t))
  /-- It reduces the rule that may be reduced, if there is no shift or the
  shift is not preferred. -/
  reduce : ∀ t place, g.MayReduce g.followSets s.items t place →
    ¬ g.Expects s.items (.terminal t) ∨ s.context.prefersShift (g.copyIn s.items t) = false →
    s.actions.get? t = some (.reduce place)
  /-- It does nothing on any other terminal. -/
  idle : ∀ t, ¬ g.Expects s.items (.terminal t) →
    (∀ place, ¬ g.MayReduce g.followSets s.items t place) → s.actions.get? t = none
  /-- The choices between a shift and a reduction are counted. -/
  resolved : s.resolutions.length = {t | g.Expects s.items (.terminal t) ∧
    ∃ place, g.MayReduce g.followSets s.items t place}.ncard

/-- `g.PrunedAutomaton start table` says that the states of the table are
settled item sets, numbered from the start set of the key on. -/
structure PrunedAutomaton (g : Grammar τ κ T N) (start : κ) (table : Table τ κ T N) : Prop where
  first : table.itemsAt? 0 = some (g.startSet start)
  distinct : (table.states.map State.items).Nodup
  /-- A state is found by its items, and no state is found by others. -/
  stateFor : ∀ number items,
    table.stateFor? items = some number ↔ table.itemsAt? number = some items
  /-- Every state but the first is behind a shift or a goto of an earlier one. -/
  discovered : ∀ number, 0 < number → number < table.states.length →
    ∃ earlier parent, earlier < number ∧ table.state? earlier = some parent ∧
      ((∃ t, parent.actions.get? t = some (.shift number)) ∨
        ∃ key, parent.gotos.get? key = some number)
  settled : ∀ s ∈ table.states, g.SettledState table s

/-! ### Item sets -/

namespace Reaches

variable {g : Grammar τ κ T N} {start : κ} {path : List (Symbol τ κ)} {items : ItemSet}

omit [Ordered τ] [Ordered κ]

/-- A set that is reached is closed. -/
theorem closure_eq (reached : g.Reaches start path items) : g.closure items = items := by
  refine SortedSet.ext fun item => ⟨fun member => ?_, g.subset_closure⟩
  exact g.closure_least reached.predictive (fun _ inside => inside) item member

/-- A set that is reached has an item, the start key being defined. -/
theorem exists_mem (reached : g.Reaches start path items) (defined : g.defines start = true) :
    ∃ item, item ∈ items := by
  cases reached with
  | start =>
    obtain ⟨rule, isRule, isStart⟩ := List.any_eq_true.mp defined
    obtain ⟨place, found⟩ := List.mem_iff_getElem?.mp isRule
    have unread : (⟨place, 0⟩ : Item) ∈ g.startItems start :=
      g.mem_startItems.mpr ⟨rfl, rule, found, of_decide_eq_true isStart⟩
    exact ⟨_, g.mem_startSet_of_mem_startItems unread⟩
  | read _ member expected => exact ⟨_, g.bump_mem_advance member expected⟩

end Reaches

/-! ### States of a table -/

namespace Automaton

variable {g : Grammar τ κ T N} {start : κ} {table : Table τ κ T N} {number : Nat} {s : State τ κ}

/-- A state counts each terminal once on which it had to choose. -/
theorem length_resolutions (built : g.Automaton start table)
    (isState : table.state? number = some s) :
    s.resolutions.length = {t | g.Expects s.items (.terminal t) ∧
      ∃ place, g.MayReduce g.followSets s.items t place}.ncard := by
  obtain ⟨plan, ok, filled⟩ := built.filled number s isState
  have nodup : (s.resolutions.map Resolution.terminal).Nodup := by
    rw [filled.resolutions]
    exact g.nodup_resolutions _ ok
  have both : {t | g.Expects s.items (.terminal t) ∧
      ∃ place, g.MayReduce g.followSets s.items t place} =
        ((s.resolutions.map Resolution.terminal).toFinset : Set τ) := by
    ext t
    rw [Finset.mem_coe, List.mem_toFinset, List.mem_map]
    constructor
    · rintro ⟨expects, place, may⟩
      have chosen : (⟨t, place, s.context.prefersShift (g.copyIn s.items t)⟩ : Resolution τ) ∈
          s.resolutions := (built.mem_resolutions isState).mpr ⟨expects, may, rfl⟩
      exact ⟨_, chosen, rfl⟩
    · rintro ⟨r, chosen, rfl⟩
      obtain ⟨expects, may, _⟩ := (built.mem_resolutions isState).mp chosen
      exact ⟨expects, r.rule, may⟩
  rw [both, Set.ncard_coe_finset, List.toFinset_card_of_nodup nodup, List.length_map]

/-- What a state leads to is known by its items. -/
theorem itemsAt?_of_next? (built : g.Automaton start table)
    (isState : table.state? number = some s) {symbol : Symbol τ κ} {target : Nat}
    (next : s.next? symbol = some target) :
    table.itemsAt? target = some (g.advance s.items symbol) := by
  obtain ⟨⟨s', isState', items⟩, _⟩ := built.of_next? isState next
  rw [Table.itemsAt?, isState', Option.map_some, items]

/-- The states of a table are settled. -/
theorem settledState (built : g.Automaton start table) (defined : g.defines start = true)
    (isState : table.state? number = some s) : g.SettledState table s := by
  obtain ⟨path, reached⟩ := built.reached number s isState
  obtain ⟨plan, ok, filled⟩ := built.filled number s isState
  refine ⟨reached.exists_mem defined, reached.closure_eq, ?_, ?_, ?_, ?_, ?_, ?_, ?_, ?_⟩
  · rw [filled.reducible, (g.planned_of_plan _ ok).reducible]
  · intro key
    constructor
    · intro goes
      obtain ⟨target, found⟩ := Option.isSome_iff_exists.mp goes
      have next : s.next? (.nonterminal key) = some target := found
      exact (built.of_next? isState next).2
    · rintro ⟨item, member, expected⟩
      obtain ⟨target, found⟩ := built.exists_goto isState member expected
      exact Option.isSome_iff_exists.mpr ⟨target, found⟩
  · intro key target found
    have next : s.next? (.nonterminal key) = some target := found
    exact built.itemsAt?_of_next? isState next
  · exact fun t one other => built.mayReduce_unique isState
  · intro t expects wins
    obtain ⟨item, member, expected⟩ := expects
    -- a resolution on the terminal is one that the shift has won
    have kept : ∀ r ∈ s.resolutions, r.terminal = t → r.shifts = true := by
      rintro r chosen rfl
      obtain ⟨_, may, same⟩ := (built.mem_resolutions isState).mp chosen
      rcases wins with free | prefers
      · exact absurd may (free r.rule)
      · rw [same, prefers]
    obtain ⟨target, found⟩ := built.exists_shift isState member expected kept
    have next : s.next? (.terminal t) = some target := by simp only [State.next?, found]
    exact ⟨target, found, built.itemsAt?_of_next? isState next⟩
  · intro t place may loses
    have kept : ∀ r ∈ s.resolutions, r.terminal = t → r.shifts = false := by
      rintro r chosen rfl
      obtain ⟨expects, _, same⟩ := (built.mem_resolutions isState).mp chosen
      rcases loses with absent | refuses
      · exact absurd expects absent
      · rw [same, refuses]
    exact built.get?_reduce isState may kept
  · intro t absent free
    rw [Option.eq_none_iff_forall_ne_some]
    intro action acts
    cases action with
    | shift target =>
      have next : s.next? (.terminal t) = some target := by simp only [State.next?, acts]
      exact absent (built.of_next? isState next).2
    | reduce place => exact free place (built.mayReduce_of_get? isState acts)
  · exact built.length_resolutions isState

end Automaton

/-- The index of a table that was built has the numbers of its states by their items. -/
theorem stateFor?_eq_some_iff {g : Grammar τ κ T N} {start : κ}
    {placeholders : List (κ × Tree T N)} {table : Table τ κ T N}
    (built : g.table start placeholders = .ok table) {number : Nat} {items : ItemSet} :
    table.stateFor? items = some number ↔ table.itemsAt? number = some items := by
  obtain ⟨explored, explores, all, rfl⟩ := exists_explores_of_table built
  rw [Table.stateFor?, Exploration.get?_index explores.nodup, Table.itemsAt?, Table.state?,
    ← List.getElem?_map, explores.map_items all]
  exact Exploration.number?_eq_some_iff explores.nodup

/-- A table that was built is the automaton of the item sets that can be
reached, settled by the contexts of its states. -/
theorem prunedAutomaton_of_table {g : Grammar τ κ T N} {start : κ}
    {placeholders : List (κ × Tree T N)} {table : Table τ κ T N}
    (built : g.table start placeholders = .ok table) : g.PrunedAutomaton start table := by
  have automaton := automaton_of_table built
  have defined := defines_of_table built
  have distinct : (table.states.map State.items).Nodup := nodup_items_of_table built
  refine ⟨?_, distinct, ?_, ?_, ?_⟩
  · obtain ⟨s, isState, items⟩ := automaton.first
    rw [Table.itemsAt?, isState, Option.map_some, items]
  · exact fun number items => stateFor?_eq_some_iff built
  · intro number positive bound
    obtain ⟨previous, rfl⟩ : ∃ previous, number = previous + 1 := ⟨number - 1, by omega⟩
    obtain ⟨earlier, parent, symbol, before, isParent, next, _⟩ :=
      automaton.origin previous _ (List.getElem?_eq_getElem bound)
    refine ⟨earlier, parent, by omega, isParent, ?_⟩
    cases symbol with
    | terminal t => exact .inl ⟨t, State.next?_terminal.mp next⟩
    | nonterminal key => exact .inr ⟨key, next⟩
    | epsilon => cases next
  · intro s member
    obtain ⟨number, isState⟩ := List.mem_iff_getElem?.mp member
    exact automaton.settledState defined isState

end Grammar

/-! ### Sums -/

namespace Sums

/-- The signs that sums are written with, which are terminals and tokens alike. -/
inductive Sign where
  | number | plus
deriving DecidableEq, Repr

instance : Ordered Sign :=
  .ofRank Sign.ctorIdx fun a b h => by cases a <;> cases b <;> first | rfl | cases h

/-- A whole is a sum. -/
inductive Part where
  | whole | sum
deriving DecidableEq, Repr

instance : Ordered Part :=
  .ofRank Part.ctorIdx fun a b h => by cases a <;> cases b <;> first | rfl | cases h

/-- A rule that builds branches of the kind of its key. -/
def rule (key : Part) (parts : List (BodyPart Sign Part)) : Rule Sign Part Sign Part where
  key := key
  kind := key
  parts := parts

/-- The grammar of sums, in which it is open where a sum of three ends. -/
def grammar : Grammar Sign Part Sign Part where
  alphabet sign := { name := "sign", accepts := fun token => token = sign }
  rules :=
    [rule .whole [.nonterminal .sum],
      rule .sum [.nonterminal .sum, .terminal .plus, .nonterminal .sum],
      rule .sum [.terminal .number]]
  rules_ne_nil := List.cons_ne_nil _ _
  defined := defined_of_undefinedUse? rfl

theorem exists_table : (grammar.table .whole []).toOption.isSome := by decide +kernel

/-- The parse table of sums. -/
def table : Table Sign Part Sign Part := (grammar.table .whole []).toOption.get exists_table

theorem table_eq : grammar.table .whole [] = .ok table := eq_ok_get exists_table

/-- The table of sums is the automaton of its grammar, with one shift pruned. -/
theorem prunedAutomaton_sums : grammar.table .whole [] = .ok table ∧
    grammar.PrunedAutomaton .whole table ∧
    table.states.map (fun s => s.resolutions.length) = [0, 0, 0, 0, 1] :=
  ⟨table_eq, Grammar.prunedAutomaton_of_table table_eq, by decide +kernel⟩

end Sums

end ShiftReduce
