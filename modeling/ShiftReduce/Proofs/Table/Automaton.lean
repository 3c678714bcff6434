/-
  A table is the automaton of the item sets of its grammar.

  The states of a table that was built are the item sets that reading symbols
  from the start set leads to, each filled by its plan (`Grammar.Automaton`).
  Along the edges of the table (`Table.edge?`) a state leads to the set behind
  the symbol, so the symbols of a walk from the start state are a path to the
  item set of the state at its end (`Automaton.reaches_of_walk`). What a state
  does on a terminal is said by its items: it shifts what some item expects and
  reduces what may be reduced, and where both are possible a resolution tells
  which of the two it keeps.
-/
import ShiftReduce.Proofs.Lookahead.Follow
import ShiftReduce.Proofs.Table.Builder

namespace ShiftReduce

variable {τ κ T N : Type} [Ordered τ] [Ordered κ] [DecidableEq τ] [DecidableEq κ]

/-! ### Edges of a table -/

namespace Table

variable (table : Table τ κ T N)

/-- The state behind a symbol: the one that a shift of the terminal or a goto
on the nonterminal enters. -/
def edge? (number : Nat) (symbol : Symbol τ κ) : Option Nat :=
  (table.state? number).bind fun state => state.next? symbol

/-- The state at the end of a walk along the edges of some symbols. -/
def walk? (number : Nat) (symbols : List (Symbol τ κ)) : Option Nat :=
  symbols.foldlM table.edge? number

theorem walk?_concat (number : Nat) (symbols : List (Symbol τ κ)) (symbol : Symbol τ κ) :
    table.walk? number (symbols ++ [symbol]) =
      (table.walk? number symbols).bind fun target => table.edge? target symbol := by
  rw [walk?, List.foldlM_append]
  refine congrArg ((table.walk? number symbols).bind ·) (funext fun target => ?_)
  exact List.foldlM_cons.trans (bind_pure _)

end Table

/-! ### Tables that were built -/

/-- `g.Automaton start table` says that the states of the table are the item
sets of the grammar from the start set of the key on. -/
structure Grammar.Automaton (g : Grammar τ κ T N) (start : κ) (table : Table τ κ T N) : Prop where
  grammar : table.grammar = g
  follow : table.follow = g.followSets
  first : ∃ s, table.state? 0 = some s ∧ s.items = g.startSet start
  reached : ∀ number s, table.state? number = some s → ∃ path, g.Reaches start path s.items
  filled : ∀ number s, table.state? number = some s →
    g.Fills g.followSets (table.states.map State.items) s
  origin : ∀ number s, table.state? (number + 1) = some s →
    ∃ earlier parent symbol, earlier ≤ number ∧ table.state? earlier = some parent ∧
      parent.next? symbol = some (number + 1) ∧ s.items = g.advance parent.items symbol ∧
      s.context = parent.passes g symbol

/-- A table that was built is made of the exploration of its grammar, which met no
obstacle. -/
theorem Grammar.eq_explore_of_table {g : Grammar τ κ T N} {start : κ}
    {placeholders : List (κ × Tree T N)} {table : Table τ κ T N}
    (built : g.table start placeholders = .ok table) :
    ∃ explored : Exploration τ κ, g.explore g.followSets start = (explored, none) ∧
      table = ⟨g, g.symbolSets, explored.states, explored.index, start,
        registerPlaceholders placeholders, explored.mismatches⟩ := by
  rw [table_eq] at built
  split at built
  · cases built
  · split at built
    · cases built
    · split at built
      · cases built
      · rename_i explored done
        exact ⟨explored, done, (Except.ok.inj built).symm⟩

/-- The states of a table that was built are those of an exploration that has
filled every set it has discovered. -/
theorem Grammar.exists_explores_of_table {g : Grammar τ κ T N} {start : κ}
    {placeholders : List (κ × Tree T N)} {table : Table τ κ T N}
    (built : g.table start placeholders = .ok table) :
    ∃ explored : Exploration τ κ, explored.Explores g g.followSets start ∧
      explored.states.length = explored.discovered.length ∧
      table = ⟨g, g.symbolSets, explored.states, explored.index, start,
        registerPlaceholders placeholders, explored.mismatches⟩ := by
  obtain ⟨explored, done, rfl⟩ := eq_explore_of_table built
  obtain ⟨explores, complete, _⟩ := g.explores_explore g.followSets start
  rw [done] at explores complete
  exact ⟨explored, explores, complete rfl, rfl⟩

/-- A table that was built is the automaton of its grammar. -/
theorem Grammar.automaton_of_table {g : Grammar τ κ T N} {start : κ}
    {placeholders : List (κ × Tree T N)} {table : Table τ κ T N}
    (built : g.table start placeholders = .ok table) : g.Automaton start table := by
  obtain ⟨explored, explores, all, rfl⟩ := exists_explores_of_table built
  refine ⟨rfl, rfl, ?_, ?_, ?_, ?_⟩
  · obtain ⟨s, isState, same⟩ := explores.exists_state all explores.first
    exact ⟨s, isState, congrArg Prod.fst same⟩
  · intro number s isState
    exact explores.exists_path (explores.known number s isState)
  · intro number s isState
    dsimp only
    rw [explores.map_items all]
    exact explores.filled s (List.mem_of_getElem? isState)
  · intro number s isState
    obtain ⟨earlier, parent, symbol, before, isParent, edge, same⟩ :=
      explores.origin number _ (explores.known _ s isState)
    obtain ⟨items, context⟩ := Prod.mk.inj same
    exact ⟨earlier, parent, symbol, before, isParent, edge, items, context⟩

theorem Grammar.defines_of_table {g : Grammar τ κ T N} {start : κ}
    {placeholders : List (κ × Tree T N)} {table : Table τ κ T N}
    (built : g.table start placeholders = .ok table) : g.defines start = true := by
  rw [table_eq] at built
  by_contra undefined
  rw [if_pos undefined] at built
  cases built

theorem Grammar.defines_placeholders_of_table {g : Grammar τ κ T N} {start : κ}
    {placeholders : List (κ × Tree T N)} {table : Table τ κ T N}
    (built : g.table start placeholders = .ok table) :
    ∀ entry ∈ registerPlaceholders placeholders, g.defines entry.1 = true := by
  rw [table_eq] at built
  split at built
  · cases built
  · split at built
    · cases built
    · rename_i clean
      intro entry member
      simpa using List.find?_eq_none.mp clean entry member

/-- No two states have the same items. -/
theorem Grammar.nodup_items_of_table {g : Grammar τ κ T N} {start : κ}
    {placeholders : List (κ × Tree T N)} {table : Table τ κ T N}
    (built : g.table start placeholders = .ok table) : (table.states.map State.items).Nodup := by
  obtain ⟨explored, explores, all, rfl⟩ := exists_explores_of_table built
  rw [explores.map_items all]
  exact explores.nodup

/-- A result that is known to be there is the result. -/
theorem eq_ok_get {ε α : Type} {result : Except ε α} (isSome : result.toOption.isSome) :
    result = .ok (result.toOption.get isSome) := by
  cases result with
  | error failure => cases isSome
  | ok value => rfl

/-- There is a table where the start key and the keys of the placeholders are
defined and every item set that is discovered has a plan. -/
theorem Grammar.exists_table_of_discovered (g : Grammar τ κ T N) {start : κ}
    {placeholders : List (κ × Tree T N)} (startDefined : g.defines start = true)
    (keysDefined : ∀ entry ∈ registerPlaceholders placeholders, g.defines entry.1 = true)
    (planned : ∀ (number : Nat) (items : ItemSet) (context : Context),
      (g.explore g.followSets start).1.discovered[number]? = some (items, context) →
        ∃ plan, g.plan g.followSets items context = .ok plan) :
    ∃ table, g.table start placeholders = .ok table := by
  have clean : (registerPlaceholders placeholders).find? (fun entry => ¬ g.defines entry.1) =
      none := by
    refine List.find?_eq_none.mpr fun entry member => ?_
    simp [keysDefined entry member]
  obtain ⟨_, _, blocked⟩ := g.explores_explore g.followSets start
  have unblocked : (g.explore g.followSets start).2 = none := by
    rw [Option.eq_none_iff_forall_ne_some]
    -- an obstacle would be a set without a plan
    rintro ⟨number, obstacle⟩ isBlocked
    obtain ⟨items, context, found, failed⟩ := blocked number obstacle isBlocked
    obtain ⟨plan, ok⟩ := planned number items context found
    exact absurd (ok.symm.trans failed) nofun
  rw [table_eq, if_neg (by simp [startDefined]), clean]
  dsimp only
  generalize g.explore g.followSets start = result at unblocked
  obtain ⟨explored, obstacle⟩ := result
  obtain rfl := unblocked
  exact ⟨_, rfl⟩

/-- There is a table where the start key and the keys of the placeholders are
defined and every item set that is reached has a plan. -/
theorem Grammar.exists_table (g : Grammar τ κ T N) {start : κ}
    {placeholders : List (κ × Tree T N)} (startDefined : g.defines start = true)
    (keysDefined : ∀ entry ∈ registerPlaceholders placeholders, g.defines entry.1 = true)
    (planned : ∀ path items context, g.Reaches start path items →
      ∃ plan, g.plan g.followSets items context = .ok plan) :
    ∃ table, g.table start placeholders = .ok table := by
  refine g.exists_table_of_discovered startDefined keysDefined fun number items context found => ?_
  obtain ⟨path, reached⟩ := (g.explores_explore g.followSets start).1.exists_path found
  exact planned path items context reached

namespace Grammar.Automaton

variable {g : Grammar τ κ T N} {start : κ} {table : Table τ κ T N} {number target : Nat}
  {s : State τ κ} {symbol : Symbol τ κ}

/-! ### Edges and item sets -/

/-- An edge leads to the set behind its symbol, which some item expects. -/
theorem of_next? (built : g.Automaton start table) (isState : table.state? number = some s)
    (next : s.next? symbol = some target) :
    (∃ s', table.state? target = some s' ∧ s'.items = g.advance s.items symbol) ∧
      ∃ item ∈ s.items, g.expected? item = some symbol := by
  obtain ⟨plan, ok, filled⟩ := built.filled number s isState
  obtain ⟨known, expected⟩ := filled.of_next? (g.planned_of_plan _ ok) next
  rw [List.getElem?_map, Option.map_eq_some_iff] at known
  exact ⟨known, expected⟩

/-- The state that an edge leads to has read its symbol. -/
theorem bump_mem_of_edge? (built : g.Automaton start table)
    (isState : table.state? number = some s) {item : Item} (member : item ∈ s.items)
    (expected : g.expected? item = some symbol)
    (edge : table.edge? number symbol = some target) :
    ∃ s', table.state? target = some s' ∧ item.bump ∈ s'.items := by
  rw [Table.edge?, isState] at edge
  obtain ⟨⟨s', isState', items⟩, _⟩ := built.of_next? isState edge
  exact ⟨s', isState', items ▸ g.bump_mem_advance member expected⟩

/-- An edge leads from a set that is reached to one that is. -/
theorem reaches_of_edge? (built : g.Automaton start table) {path : List (Symbol τ κ)}
    (isState : table.state? number = some s) (reached : g.Reaches start path s.items)
    (edge : table.edge? number symbol = some target) :
    ∃ s', table.state? target = some s' ∧ g.Reaches start (symbol :: path) s'.items := by
  rw [Table.edge?, isState] at edge
  obtain ⟨⟨s', isState', items⟩, item, member, expected⟩ := built.of_next? isState edge
  refine ⟨s', isState', ?_⟩
  rw [items]
  exact .read reached member expected

/-- The symbols of a walk from the start state are a path to the set at its
end. -/
theorem reaches_of_walk (built : g.Automaton start table) {symbols : List (Symbol τ κ)}
    (walk : table.walk? 0 symbols = some number) :
    ∃ s, table.state? number = some s ∧ g.Reaches start symbols.reverse s.items := by
  induction symbols using List.reverseRecOn generalizing number with
  | nil =>
    obtain rfl := Option.some.inj walk
    obtain ⟨s, isState, items⟩ := built.first
    exact ⟨s, isState, items ▸ .start⟩
  | append_singleton symbols symbol ih =>
    rw [Table.walk?_concat, Option.bind_eq_some_iff] at walk
    obtain ⟨previous, walked, edge⟩ := walk
    obtain ⟨s, isState, reached⟩ := ih walked
    rw [List.reverse_append]
    exact built.reaches_of_edge? isState reached edge

/-- A state goes on at every nonterminal that an item expects. -/
theorem exists_goto (built : g.Automaton start table) (isState : table.state? number = some s)
    {item : Item} (member : item ∈ s.items) {key : κ}
    (expected : g.expected? item = some (.nonterminal key)) :
    ∃ target, s.next? (.nonterminal key) = some target := by
  obtain ⟨plan, ok, filled⟩ := built.filled number s isState
  have goes : key ∈ plan.gotos := by
    rw [(g.planned_of_plan _ ok).gotos]
    exact g.mem_expectedKeys.mpr ⟨item, member, expected⟩
  obtain ⟨target, found, _⟩ := filled.goto key goes
  exact ⟨target, found⟩

/-! ### Actions -/

/-- No item expects the empty text. -/
theorem expected_ne_epsilon (built : g.Automaton start table)
    (isState : table.state? number = some s) {item : Item} (member : item ∈ s.items) :
    g.expected? item ≠ some .epsilon := by
  obtain ⟨plan, ok, _⟩ := built.filled number s isState
  exact (g.planned_of_plan _ ok).real item member

theorem mem_reducible (built : g.Automaton start table) (isState : table.state? number = some s)
    {place : Nat} : place ∈ s.reducible ↔ place ∈ g.completeRules s.items := by
  obtain ⟨plan, ok, filled⟩ := built.filled number s isState
  rw [filled.reducible, (g.planned_of_plan _ ok).reducible]

/-- Where the sets that are reached have read one rule at most, so have the
states. -/
theorem length_reducible_le (built : g.Automaton start table)
    (unique : ∀ path items, g.Reaches start path items → ∀ one ∈ g.completeRules items,
      ∀ other ∈ g.completeRules items, one = other) (isState : table.state? number = some s) :
    s.reducible.length ≤ 1 := by
  obtain ⟨path, reached⟩ := built.reached number s isState
  obtain ⟨plan, ok, filled⟩ := built.filled number s isState
  rw [filled.reducible, (g.planned_of_plan _ ok).reducible, completeRules, List.length_map]
  -- complete items of one rule are one item, since the cursor is at its end
  have agree : ∀ item ∈ s.items.toList.filter (fun item => g.expected? item = none),
      ∀ item' ∈ s.items.toList.filter (fun item => g.expected? item = none), item = item' := by
    intro item member item' member'
    obtain ⟨inside, done⟩ := List.mem_filter.mp member
    obtain ⟨inside', done'⟩ := List.mem_filter.mp member'
    have same : item.rule = item'.rule :=
      unique path s.items reached item.rule (List.mem_map_of_mem member) item'.rule
        (List.mem_map_of_mem member')
    obtain ⟨rule, found, _⟩ := reached.exists_rule inside
    have cursor := reached.cursor_eq_length inside found (of_decide_eq_true done)
    have cursor' := reached.cursor_eq_length inside' (same ▸ found) (of_decide_eq_true done')
    cases item
    cases item'
    simp_all
  have nodup : (s.items.toList.filter fun item => g.expected? item = none).Nodup :=
    s.items.nodup_toList.filter _
  revert agree nodup
  generalize s.items.toList.filter (fun item => g.expected? item = none) = complete
  intro agree nodup
  by_contra long
  have two : 1 < complete.length := by omega
  have same : complete[0] = complete[1] :=
    agree _ (List.getElem_mem _) _ (List.getElem_mem _)
  have zero := nodup.getElem_inj_iff.mp same
  omega

/-- The resolutions are the choices between a shift that an item asks for and
a reduction that may be made. -/
theorem mem_resolutions (built : g.Automaton start table) (isState : table.state? number = some s)
    {r : Resolution τ} : r ∈ s.resolutions ↔
      (∃ item ∈ s.items, g.expected? item = some (.terminal r.terminal)) ∧
        g.MayReduce g.followSets s.items r.terminal r.rule ∧
          r.shifts = s.context.prefersShift (g.copyIn s.items r.terminal) := by
  obtain ⟨plan, ok, filled⟩ := built.filled number s isState
  rw [filled.resolutions, (g.planned_of_plan _ ok).resolutions, mem_expectedTerminals]

/-- No two rules may be reduced before one terminal. -/
theorem mayReduce_unique (built : g.Automaton start table)
    (isState : table.state? number = some s) {t : τ} {one other : Nat}
    (may : g.MayReduce g.followSets s.items t one)
    (may' : g.MayReduce g.followSets s.items t other) : one = other := by
  obtain ⟨plan, ok, _⟩ := built.filled number s isState
  exact (g.planned_of_plan _ ok).unique t one other may may'

/-- A terminal that an item expects is shifted unless a resolution prefers a
reduction. -/
theorem exists_shift (built : g.Automaton start table) (isState : table.state? number = some s)
    {item : Item} (member : item ∈ s.items) {t : τ}
    (expected : g.expected? item = some (.terminal t))
    (kept : ∀ r ∈ s.resolutions, r.terminal = t → r.shifts = true) :
    ∃ target, s.actions.get? t = some (.shift target) := by
  obtain ⟨plan, ok, filled⟩ := built.filled number s isState
  have planned := g.planned_of_plan _ ok
  have asked : t ∈ g.expectedTerminals s.items :=
    g.mem_expectedTerminals.mpr ⟨item, member, expected⟩
  have shifted : t ∈ plan.shifts := by
    refine (planned.shifts t).mpr ⟨asked, ?_⟩
    by_contra lost
    rw [not_or, not_forall] at lost
    obtain ⟨⟨place, may⟩, loses⟩ := lost
    rw [not_not] at may
    refine loses (kept ⟨t, place, s.context.prefersShift (g.copyIn s.items t)⟩ ?_ rfl)
    rw [filled.resolutions, planned.resolutions]
    exact ⟨asked, may, rfl⟩
  obtain ⟨target, found, _⟩ := filled.shift t shifted
  exact ⟨target, found⟩

/-- A rule is reduced before a terminal where it may be, unless a resolution
prefers the shift. -/
theorem get?_reduce (built : g.Automaton start table) (isState : table.state? number = some s)
    {t : τ} {place : Nat} (may : g.MayReduce g.followSets s.items t place)
    (kept : ∀ r ∈ s.resolutions, r.terminal = t → r.shifts = false) :
    s.actions.get? t = some (.reduce place) := by
  obtain ⟨plan, ok, filled⟩ := built.filled number s isState
  have planned := g.planned_of_plan _ ok
  have unshifted : t ∉ plan.shifts := by
    intro shifted
    obtain ⟨asked, free | prefers⟩ := (planned.shifts t).mp shifted
    · exact free place may
    · have isResolution : (⟨t, place, true⟩ : Resolution τ) ∈ s.resolutions := by
        rw [filled.resolutions, planned.resolutions]
        exact ⟨asked, may, prefers.symm⟩
      exact nomatch (kept _ isResolution rfl : true = false)
  rw [filled.noShift t unshifted, (planned.reductions t place).mpr ⟨may, unshifted⟩]
  rfl

/-- What is reduced before a terminal may be reduced before it. -/
theorem mayReduce_of_get? (built : g.Automaton start table)
    (isState : table.state? number = some s) {t : τ} {place : Nat}
    (reduces : s.actions.get? t = some (.reduce place)) :
    g.MayReduce g.followSets s.items t place := by
  obtain ⟨plan, ok, filled⟩ := built.filled number s isState
  have planned := g.planned_of_plan _ ok
  by_cases shifted : t ∈ plan.shifts
  · obtain ⟨target, isShift, _⟩ := filled.shift t shifted
    cases isShift.symm.trans reduces
  · rw [filled.noShift t shifted, Option.map_eq_some_iff] at reduces
    obtain ⟨place', settled, same⟩ := reduces
    obtain rfl := Action.reduce.inj same
    exact ((planned.reductions t place').mp settled).1

/-- A token can come behind a key if some terminal that does accepts it. -/
theorem canFollow_iff (built : g.Automaton start table) {key : κ} {token : T} :
    table.canFollow key token = true ↔
      ∃ t ∈ g.followOf key, (g.alphabet t).accepts token = true := by
  rw [Table.canFollow, List.any_eq_true, built.follow, built.grammar]
  simp only [SortedSet.mem_toList]
  rfl

/-- The terminals of edges are of the grammar. -/
theorem occurs_of_edge? (built : g.Automaton start table) {t : τ}
    (edge : table.edge? number (.terminal t) = some target) : t ∈ g.terminalOccurrences := by
  rw [Table.edge?, Option.bind_eq_some_iff] at edge
  obtain ⟨s, isState, next⟩ := edge
  obtain ⟨_, item, _, expected⟩ := built.of_next? isState next
  obtain ⟨rule, isRule, used⟩ := g.exists_mem_body_of_expected expected
  exact Grammar.mem_terminalOccurrences.mpr ⟨rule, isRule, used⟩

/-- A state acts on terminals of the grammar only. -/
theorem occurs_of_acts (built : g.Automaton start table)
    (isState : table.state? number = some s) {t : τ} {action : Action}
    (acts : s.actions.get? t = some action) : t ∈ g.terminalOccurrences := by
  cases action with
  | shift target =>
    have edge : table.edge? number (.terminal t) = some target := by
      rw [Table.edge?, isState]
      simp only [Option.bind_some, State.next?, acts]
    exact built.occurs_of_edge? edge
  | reduce place =>
    obtain ⟨_, rule, _, behind⟩ := built.mayReduce_of_get? isState acts
    exact mem_terminalOccurrences_of_mem_follow behind

end Grammar.Automaton

end ShiftReduce
