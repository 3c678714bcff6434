/-
  A table without mismatches does not depend on the order of its exploration.

  The terminals and the keys are explored in their orders, and the first edge
  into a state gives it its number and its context. Which item sets are visited in
  which contexts can be said without these orders (`Grammar.Visits`). If no set is
  visited in two contexts and every visit has a plan (`Grammar.Agrees`), then an
  exploration in any order meets every visit and no obstacle, and notes no
  mismatch (`exists_table_of_agrees`); and a table without mismatches shows that
  this is so (`agrees_of_table`).

  What the states of such a table do is said by their items and contexts
  (`Grammar.Outlined`), so two tables differ in the numbers of their states only
  (`Outlined.exists_renumber`).
-/
import ShiftReduce.Proofs.Lookahead.Exactness
import ShiftReduce.Proofs.Table.Mismatches
import ShiftReduce.Proofs.Table.Pruned
import Mathlib.Data.Set.Function

namespace ShiftReduce

variable {τ κ T N : Type} [DecidableEq τ] [DecidableEq κ]

/-! ### Visits without an order -/

namespace Grammar

/-- Whether a set has read a rule completely that may be reduced before a terminal. -/
def Reduces (g : Grammar τ κ T N) (items : ItemSet) (t : τ) (place : Nat) : Prop :=
  place ∈ g.completeRules items ∧ ∃ rule, g.rule? place = some rule ∧ g.Neighbours rule.key t

/-- Whether a set shifts a terminal in a context: it is expected, and if a rule may be
reduced before it, the shift is preferred. -/
def Shifts (g : Grammar τ κ T N) (items : ItemSet) (context : Context) (t : τ) : Prop :=
  g.Expects items (.terminal t) ∧
    ((∀ place, ¬ g.Reduces items t place) ∨ context.prefersShift (g.copyIn items t) = true)

/-- The item sets that edges lead to from the start set of a key on, with the contexts
that the edges pass on. -/
inductive Visits (g : Grammar τ κ T N) (start : κ) : ItemSet → Context → Prop
  | start : g.Visits start (g.startSet start) .initial
  | shift {items : ItemSet} {context : Context} {t : τ} (visited : g.Visits start items context)
      (shifts : g.Shifts items context t) :
      g.Visits start (g.advance items (.terminal t)) (.of (g.copyIn items t))
  | goto {items : ItemSet} {context : Context} {key : κ} (visited : g.Visits start items context)
      (expects : g.Expects items (.nonterminal key)) :
      g.Visits start (g.advance items (.nonterminal key)) context

/-- No set is visited in two contexts, and every set that is visited has a plan. -/
structure Agrees (g : Grammar τ κ T N) (start : κ) : Prop where
  functional : ∀ items context context', g.Visits start items context →
    g.Visits start items context' → context = context'
  real : ∀ items context, g.Visits start items context →
    ∀ item ∈ items, g.expected? item ≠ some .epsilon
  single : ∀ items context t one other, g.Visits start items context →
    g.Reduces items t one → g.Reduces items t other → one = other

end Grammar

/-! ### Outlines -/

/-- What a state does, without an order of its terminals and keys; of the choices that
it has resolved, only the number. -/
structure Outline (τ κ : Type) where
  items : ItemSet
  context : Context
  action : τ → Option Action
  goto : κ → Option Nat
  reducible : List Nat
  resolved : Nat

omit [DecidableEq τ] [DecidableEq κ] in
theorem Outline.ext {o o' : Outline τ κ} (items : o.items = o'.items)
    (context : o.context = o'.context) (action : ∀ t, o.action t = o'.action t)
    (goto : ∀ key, o.goto key = o'.goto key) (reducible : o.reducible = o'.reducible)
    (resolved : o.resolved = o'.resolved) : o = o' := by
  cases o
  cases o'
  obtain rfl := funext action
  obtain rfl := funext goto
  simp_all

/-- The outline with the states renumbered. -/
def Outline.renumber (numbers : Nat → Nat) (o : Outline τ κ) : Outline τ κ :=
  { o with
    action := fun t => (o.action t).map (Action.map numbers id)
    goto := fun key => (o.goto key).map numbers }

/-- `g.Outlined start outlines` says that the outlines are those of the sets that are
visited, each led on to the sets behind its symbols. -/
structure Grammar.Outlined (g : Grammar τ κ T N) (start : κ) (outlines : List (Outline τ κ)) :
    Prop where
  distinct : (outlines.map Outline.items).Nodup
  first : (outlines.map Outline.items)[0]? = some (g.startSet start)
  visited : ∀ items context, g.Visits start items context ↔
    ∃ o ∈ outlines, o.items = items ∧ o.context = context
  shift : ∀ o ∈ outlines, ∀ t number, o.action t = some (.shift number) ↔
    g.Shifts o.items o.context t ∧
      (outlines.map Outline.items)[number]? = some (g.advance o.items (.terminal t))
  reduce : ∀ o ∈ outlines, ∀ t place, o.action t = some (.reduce place) ↔
    g.Reduces o.items t place ∧ ¬ g.Shifts o.items o.context t
  goto : ∀ o ∈ outlines, ∀ key number, o.goto key = some number ↔
    g.Expects o.items (.nonterminal key) ∧
      (outlines.map Outline.items)[number]? = some (g.advance o.items (.nonterminal key))
  reducible : ∀ o ∈ outlines, o.reducible = g.completeRules o.items
  resolved : ∀ o ∈ outlines, o.resolved = {t | g.Expects o.items (.terminal t) ∧
    ∃ place, g.Reduces o.items t place}.ncard

/-- Lists without repetition that have the same elements are renumberings of each other. -/
theorem exists_numbers {α : Type} [DecidableEq α] {l l' : List α} (distinct : l.Nodup)
    (distinct' : l'.Nodup) (same : ∀ a, a ∈ l ↔ a ∈ l') :
    ∃ numbers : Nat → Nat, Set.BijOn numbers (Set.Iio l.length) (Set.Iio l'.length) ∧
      ∀ (a : α) (number' : Nat), l'[number']? = some a ↔
        ∃ number, l[number]? = some a ∧ numbers number = number' := by
  let numbers : Nat → Nat := fun number => (l[number]?).elim 0 (l'.idxOf ·)
  have agree : ∀ (number : Nat) (a : α), l[number]? = some a → l'[numbers number]? = some a := by
    intro number a found
    show l'[(l[number]?).elim 0 (l'.idxOf ·)]? = some a
    rw [found]
    exact List.getElem?_idxOf ((same a).mp (List.mem_of_getElem? found))
  have moved : ∀ (a : α) (number' : Nat), l'[number']? = some a ↔
      ∃ number, l[number]? = some a ∧ numbers number = number' := by
    intro a number'
    constructor
    · intro found'
      obtain ⟨number, found⟩ := List.mem_iff_getElem?.mp
        ((same a).mpr (List.mem_of_getElem? found'))
      exact ⟨number, found, place_unique distinct' (agree number a found) found'⟩
    · rintro ⟨number, found, rfl⟩
      exact agree number a found
  refine ⟨numbers, ⟨?_, ?_, ?_⟩, moved⟩
  · intro number within
    have there := agree number _ (List.getElem?_eq_getElem within)
    exact (List.getElem?_eq_some_iff.mp there).1
  · intro number within number' within' equal
    have there := agree number _ (List.getElem?_eq_getElem within)
    have there' := agree number' _ (List.getElem?_eq_getElem within')
    rw [equal, there'] at there
    refine place_unique distinct (List.getElem?_eq_getElem within) ?_
    rw [List.getElem?_eq_getElem within', there]
  · intro number' within'
    obtain ⟨number, found, isThere⟩ := (moved _ number').mp (List.getElem?_eq_getElem within')
    exact ⟨number, (List.getElem?_eq_some_iff.mp found).1, isThere⟩

namespace Grammar.Outlined

variable {g : Grammar τ κ T N} {start : κ} {outlines outlines' : List (Outline τ κ)}

/-- The sets that one list has outlines for are those of any other. -/
theorem mem_items_iff (outlined : g.Outlined start outlines)
    (outlined' : g.Outlined start outlines') {items : ItemSet} :
    items ∈ outlines.map Outline.items ↔ items ∈ outlines'.map Outline.items := by
  have known : ∀ {list : List (Outline τ κ)}, g.Outlined start list →
      (items ∈ list.map Outline.items ↔ ∃ context, g.Visits start items context) := by
    intro list isList
    rw [List.mem_map]
    constructor
    · rintro ⟨o, member, rfl⟩
      exact ⟨o.context, (isList.visited _ _).mpr ⟨o, member, rfl, rfl⟩⟩
    · rintro ⟨context, visited⟩
      obtain ⟨o, member, same, _⟩ := (isList.visited _ _).mp visited
      exact ⟨o, member, same⟩
  rw [known outlined, known outlined']

/-- Outlines of one set are renumberings of each other. -/
theorem eq_renumber (agrees : g.Agrees start) (outlined : g.Outlined start outlines)
    (outlined' : g.Outlined start outlines') {numbers : Nat → Nat}
    (moved : ∀ (items : ItemSet) (number' : Nat),
      (outlines'.map Outline.items)[number']? = some items ↔
        ∃ number, (outlines.map Outline.items)[number]? = some items ∧ numbers number = number')
    {o o' : Outline τ κ} (member : o ∈ outlines) (member' : o' ∈ outlines')
    (items : o'.items = o.items) : o' = o.renumber numbers := by
  have context : o'.context = o.context :=
    agrees.functional o.items _ _ ((outlined'.visited _ _).mpr ⟨o', member', items, rfl⟩)
      ((outlined.visited _ _).mpr ⟨o, member, rfl, rfl⟩)
  -- both outlines have the actions and gotos of their set, under the numbers of their own list
  refine Outline.ext items context (fun t => ?_) (fun key => ?_) ?_ ?_
  · refine Option.ext fun action => ?_
    rw [Outline.renumber, Option.map_eq_some_iff]
    cases action with
    | shift number' =>
      rw [outlined'.shift o' member', items, context, moved]
      constructor
      · rintro ⟨shifts, number, isThere, rfl⟩
        exact ⟨.shift number, (outlined.shift o member t number).mpr ⟨shifts, isThere⟩, rfl⟩
      · rintro ⟨action, acts, same⟩
        cases action with
        | shift number =>
          obtain ⟨shifts, isThere⟩ := (outlined.shift o member t number).mp acts
          exact ⟨shifts, number, isThere, Action.shift.inj same⟩
        | reduce place => cases same
    | reduce place =>
      rw [outlined'.reduce o' member', items, context, ← outlined.reduce o member]
      constructor
      · exact fun acts => ⟨.reduce place, acts, rfl⟩
      · rintro ⟨action, acts, same⟩
        cases action with
        | shift number => cases same
        | reduce place' => exact (Action.reduce.inj same) ▸ acts
  · refine Option.ext fun number' => ?_
    rw [Outline.renumber, Option.map_eq_some_iff, outlined'.goto o' member', items, moved]
    simp only [outlined.goto o member]
    constructor
    · rintro ⟨expects, number, isThere, same⟩
      exact ⟨number, ⟨expects, isThere⟩, same⟩
    · rintro ⟨number, ⟨expects, isThere⟩, same⟩
      exact ⟨expects, number, isThere, same⟩
  · rw [outlined'.reducible o' member', items]
    exact (outlined.reducible o member).symm
  · rw [outlined'.resolved o' member', items]
    exact (outlined.resolved o member).symm

/-- Any two lists of outlines are renumberings of each other that keep the start state
first. -/
theorem exists_renumber (agrees : g.Agrees start) (outlined : g.Outlined start outlines)
    (outlined' : g.Outlined start outlines') :
    ∃ numbers : Nat → Nat,
      Set.BijOn numbers (Set.Iio outlines.length) (Set.Iio outlines'.length) ∧ numbers 0 = 0 ∧
        ∀ (number : Nat) (o : Outline τ κ), outlines[number]? = some o →
          outlines'[numbers number]? = some (o.renumber numbers) := by
  obtain ⟨numbers, bijective, moved⟩ :=
    exists_numbers outlined.distinct outlined'.distinct fun _ => outlined.mem_items_iff outlined'
  rw [List.length_map, List.length_map] at bijective
  refine ⟨numbers, bijective, ?_, fun number o found => ?_⟩
  · obtain ⟨number, found, isFirst⟩ := (moved _ 0).mp outlined'.first
    rwa [place_unique outlined.distinct found outlined.first] at isFirst
  · have there := (moved o.items (numbers number)).mpr
      ⟨number, by rw [List.getElem?_map, found, Option.map_some], rfl⟩
    rw [List.getElem?_map, Option.map_eq_some_iff] at there
    obtain ⟨o', found', items⟩ := there
    rw [found', eq_renumber agrees outlined outlined' moved (List.mem_of_getElem? found)
      (List.mem_of_getElem? found') items]

end Grammar.Outlined

/-! ### Explorations in an order -/

variable [Ordered τ] [Ordered κ]

namespace Grammar

variable {g : Grammar τ κ T N} {start : κ}

theorem mayReduce_iff {items : ItemSet} {t : τ} {place : Nat} :
    g.MayReduce g.followSets items t place ↔ g.Reduces items t place := by
  refine and_congr_right fun _ => exists_congr fun rule => and_congr_right fun _ => ?_
  exact mem_followOf_iff

/-- A plan shifts what its set shifts in its context. -/
theorem Planned.mem_shifts_iff {items : ItemSet} {context : Context} {plan : Plan τ κ}
    (planned : g.Planned g.followSets items context plan) {t : τ} :
    t ∈ plan.shifts ↔ g.Shifts items context t := by
  rw [planned.shifts, mem_expectedTerminals]
  simp only [mayReduce_iff]
  exact Iff.rfl

/-- A set that is visited has a plan in any order. -/
theorem Agrees.exists_plan (agrees : g.Agrees start) {items : ItemSet} {context : Context}
    (visited : g.Visits start items context) :
    ∃ plan, g.plan g.followSets items context = .ok plan := by
  refine g.exists_plan _ context (agrees.real items context visited) fun t one other may may' => ?_
  rw [mayReduce_iff] at may may'
  exact agrees.single items context t one other visited may may'

/-- An edge of a state that is visited leads to a visit. -/
theorem Visits.next {s : State τ κ} {sets : List ItemSet}
    (visited : g.Visits start s.items s.context) (fills : g.Fills g.followSets sets s)
    {symbol : Symbol τ κ} {target : Nat} (next : s.next? symbol = some target) :
    g.Visits start (g.advance s.items symbol) (s.passes g symbol) := by
  obtain ⟨plan, ok, filled⟩ := fills
  have planned := g.planned_of_plan _ ok
  obtain ⟨_, expects⟩ := filled.of_next? planned next
  cases symbol with
  | terminal t =>
    exact .shift visited (planned.mem_shifts_iff.mp (filled.mem_shifts (State.next?_terminal.mp next)))
  | nonterminal key => exact .goto visited expects
  | epsilon => cases next

end Grammar

/-- Every set that is discovered is visited in the context in which it was. -/
theorem Exploration.Explores.visits {g : Grammar τ κ T N} {start : κ} {e : Exploration τ κ}
    (explores : e.Explores g g.followSets start) {number : Nat} {items : ItemSet}
    {context : Context} (found : e.discovered[number]? = some (items, context)) :
    g.Visits start items context := by
  induction number using Nat.strong_induction_on generalizing items context with
  | h number ih =>
    cases number with
    | zero =>
      obtain ⟨rfl, rfl⟩ := Prod.mk.inj (Option.some.inj (found.symm.trans explores.first))
      exact .start
    | succ number =>
      obtain ⟨earlier, s, symbol, before, isState, edge, same⟩ := explores.origin number _ found
      obtain ⟨rfl, rfl⟩ := Prod.mk.inj same
      exact (ih earlier (by omega) (explores.known earlier s isState)).next
        (explores.filled s (List.mem_of_getElem? isState)) edge

namespace Grammar

variable {g : Grammar τ κ T N} {start : κ} {placeholders : List (κ × Tree T N)}
  {table : Table τ κ T N}

/-! ### Tables without mismatches -/

/-- The states of a table are visits. -/
theorem visits_of_table (built : g.table start placeholders = .ok table) {number : Nat}
    {s : State τ κ} (isState : table.state? number = some s) :
    g.Visits start s.items s.context := by
  obtain ⟨explored, explores, _, rfl⟩ := exists_explores_of_table built
  exact explores.visits (explores.known number s isState)

/-- The start state has the first context. -/
theorem exists_first_of_table (built : g.table start placeholders = .ok table) :
    ∃ s, table.state? 0 = some s ∧ s.items = g.startSet start ∧ s.context = .initial := by
  obtain ⟨explored, explores, all, rfl⟩ := exists_explores_of_table built
  obtain ⟨s, isState, same⟩ := explores.exists_state all explores.first
  exact ⟨s, isState, Prod.mk.inj same⟩

/-- Where there is no mismatch, a state has the context that any edge passes on to it. -/
theorem context_of_passes (built : g.table start placeholders = .ok table)
    (clean : table.mismatches = []) {target : Nat} {s : State τ κ} {context : Context}
    (isState : table.state? target = some s) (passes : table.Passes target context) :
    s.context = context := by
  by_contra differ
  have noted := ((mismatches_of_table built).2 ⟨target, s.context, context⟩).mpr
    ⟨⟨s, isState, rfl⟩, Ne.symm differ, passes⟩
  rw [clean] at noted
  cases noted

/-- A table without mismatches has a state for each visit. -/
theorem exists_state_of_visits (built : g.table start placeholders = .ok table)
    (clean : table.mismatches = []) {items : ItemSet} {context : Context}
    (visited : g.Visits start items context) :
    ∃ number s, table.state? number = some s ∧ s.items = items ∧ s.context = context := by
  have automaton := automaton_of_table built
  induction visited with
  | start =>
    obtain ⟨s, isState, items, context⟩ := exists_first_of_table built
    exact ⟨0, s, isState, items, context⟩
  | @shift items context t _ shifts ih =>
    obtain ⟨number, s, isState, rfl, rfl⟩ := ih
    obtain ⟨plan, ok, filled⟩ := automaton.filled number s isState
    obtain ⟨target, acts, _⟩ :=
      filled.shift t ((g.planned_of_plan _ ok).mem_shifts_iff.mpr shifts)
    obtain ⟨⟨s', isTarget, items⟩, _⟩ := automaton.of_next? isState (State.next?_terminal.mpr acts)
    have passes := Table.Passes.shift isState acts
    rw [automaton.grammar] at passes
    exact ⟨target, s', isTarget, items, context_of_passes built clean isTarget passes⟩
  | @goto items context key _ expects ih =>
    obtain ⟨number, s, isState, rfl, rfl⟩ := ih
    obtain ⟨item, member, expected⟩ := expects
    obtain ⟨target, goes⟩ := automaton.exists_goto isState member expected
    obtain ⟨⟨s', isTarget, items⟩, _⟩ := automaton.of_next? isState goes
    exact ⟨target, s', isTarget, items,
      context_of_passes built clean isTarget (.goto isState goes)⟩

/-- Two states of a table with the same items are one. -/
theorem eq_of_items_eq (built : g.table start placeholders = .ok table) {number number' : Nat}
    {s s' : State τ κ} (isState : table.state? number = some s)
    (isState' : table.state? number' = some s') (items : s.items = s'.items) : s = s' := by
  have here : (table.states.map State.items)[number]? = some s.items := by
    rw [List.getElem?_map, ← Table.state?, isState, Option.map_some]
  have there : (table.states.map State.items)[number']? = some s.items := by
    rw [List.getElem?_map, ← Table.state?, isState', Option.map_some, items]
  obtain rfl := place_unique (nodup_items_of_table built) here there
  exact Option.some.inj (isState.symm.trans isState')

/-- A table without mismatches shows that its grammar is agreed upon. -/
theorem agrees_of_table (built : g.table start placeholders = .ok table)
    (clean : table.mismatches = []) : g.Agrees start := by
  have automaton := automaton_of_table built
  refine ⟨?_, ?_, ?_⟩
  · intro items context context' visited visited'
    obtain ⟨number, s, isState, rfl, rfl⟩ := exists_state_of_visits built clean visited
    obtain ⟨number', s', isState', items, rfl⟩ := exists_state_of_visits built clean visited'
    rw [eq_of_items_eq built isState isState' items.symm]
  · intro items context visited item member
    obtain ⟨number, s, isState, rfl, rfl⟩ := exists_state_of_visits built clean visited
    exact automaton.expected_ne_epsilon isState member
  · intro items context t one other visited reduces reduces'
    obtain ⟨number, s, isState, rfl, rfl⟩ := exists_state_of_visits built clean visited
    exact automaton.mayReduce_unique isState (mayReduce_iff.mpr reduces) (mayReduce_iff.mpr reduces')

/-- A grammar that is agreed upon has a table without mismatches in any order. -/
theorem exists_table_of_agrees (agrees : g.Agrees start) (startDefined : g.defines start = true)
    (keysDefined : ∀ entry ∈ registerPlaceholders placeholders, g.defines entry.1 = true) :
    ∃ table, g.table start placeholders = .ok table ∧ table.mismatches = [] := by
  obtain ⟨table, built⟩ := g.exists_table_of_discovered startDefined keysDefined
    fun number items context found =>
      agrees.exists_plan ((g.explores_explore g.followSets start).1.visits found)
  refine ⟨table, built, List.eq_nil_iff_forall_not_mem.mpr fun m noted => ?_⟩
  -- a mismatch would be a set that is visited in two contexts
  have automaton := automaton_of_table built
  obtain ⟨⟨s, isState, isFirst⟩, differ, passes⟩ := ((mismatches_of_table built).2 m).mp noted
  obtain ⟨parent, isParent, symbol, next, isSecond⟩ := Table.passes_iff.mp passes
  obtain ⟨number, isParent⟩ := List.mem_iff_getElem?.mp isParent
  obtain ⟨⟨s', isState', items⟩, _⟩ := automaton.of_next? isParent next
  obtain rfl := Option.some.inj (isState.symm.trans isState')
  have visited := visits_of_table built isState
  have visited' := (visits_of_table built isParent).next (automaton.filled number _ isParent) next
  rw [automaton.grammar] at isSecond
  rw [← items, isSecond] at visited'
  exact differ ((agrees.functional _ _ _ visited' visited).trans isFirst)

end Grammar

/-- What a state does. -/
def State.outline (s : State τ κ) : Outline τ κ where
  items := s.items
  context := s.context
  action := s.actions.get?
  goto := s.gotos.get?
  reducible := s.reducible
  resolved := s.resolutions.length

/-- What the states of a table do, by their numbers. -/
def Table.outlines (table : Table τ κ T N) : List (Outline τ κ) := table.states.map State.outline

theorem Table.map_items_outlines (table : Table τ κ T N) :
    table.outlines.map Outline.items = table.states.map State.items := by
  rw [outlines, List.map_map]
  rfl

namespace Grammar

variable {g : Grammar τ κ T N} {start : κ} {table : Table τ κ T N}

namespace Automaton

variable {number : Nat} {s : State τ κ}

/-- A state shifts what its items ask for in its context, to the state of the set behind. -/
theorem get?_shift_iff (built : g.Automaton start table)
    (distinct : (table.states.map State.items).Nodup) (isState : table.state? number = some s)
    {t : τ} {target : Nat} : s.actions.get? t = some (.shift target) ↔
      g.Shifts s.items s.context t ∧
        (table.states.map State.items)[target]? = some (g.advance s.items (.terminal t)) := by
  obtain ⟨plan, ok, filled⟩ := built.filled number s isState
  have planned := g.planned_of_plan _ ok
  rw [← planned.mem_shifts_iff]
  constructor
  · intro acts
    exact ⟨filled.mem_shifts acts, (filled.of_next? planned (State.next?_terminal.mpr acts)).1⟩
  · rintro ⟨shifted, found⟩
    obtain ⟨target', acts, found'⟩ := filled.shift t shifted
    obtain rfl := place_unique distinct found found'
    exact acts

/-- A state reduces what may be reduced before a terminal that it does not shift. -/
theorem get?_reduce_iff (built : g.Automaton start table) (isState : table.state? number = some s)
    {t : τ} {place : Nat} : s.actions.get? t = some (.reduce place) ↔
      g.Reduces s.items t place ∧ ¬ g.Shifts s.items s.context t := by
  obtain ⟨plan, ok, filled⟩ := built.filled number s isState
  have planned := g.planned_of_plan _ ok
  rw [← planned.mem_shifts_iff, ← mayReduce_iff, ← planned.reductions]
  by_cases shifted : t ∈ plan.shifts
  · obtain ⟨target, acts, _⟩ := filled.shift t shifted
    have unsettled : plan.reductions.get? t ≠ some place := fun settled =>
      ((planned.reductions t place).mp settled).2 shifted
    simp [acts, unsettled]
  · rw [filled.noShift t shifted, Option.map_eq_some_iff]
    constructor
    · rintro ⟨place', settled, same⟩
      exact Action.reduce.inj same ▸ settled
    · exact fun settled => ⟨place, settled, rfl⟩

/-- A state goes on at the keys that its items expect, to the state of the set behind. -/
theorem get?_goto_iff (built : g.Automaton start table)
    (distinct : (table.states.map State.items).Nodup) (isState : table.state? number = some s)
    {key : κ} {target : Nat} : s.gotos.get? key = some target ↔
      g.Expects s.items (.nonterminal key) ∧
        (table.states.map State.items)[target]? = some (g.advance s.items (.nonterminal key)) := by
  obtain ⟨plan, ok, filled⟩ := built.filled number s isState
  constructor
  · intro goes
    have next : s.next? (.nonterminal key) = some target := goes
    obtain ⟨found, expects⟩ := filled.of_next? (g.planned_of_plan _ ok) next
    exact ⟨expects, found⟩
  · rintro ⟨⟨item, member, expected⟩, found⟩
    obtain ⟨target', goes⟩ := built.exists_goto isState member expected
    obtain ⟨found', _⟩ := filled.of_next? (g.planned_of_plan _ ok) goes
    obtain rfl := place_unique distinct found found'
    exact goes

end Automaton

/-- The states of a table without mismatches are the visits, and do what they ask for. -/
theorem outlined_of_table {placeholders : List (κ × Tree T N)}
    (built : g.table start placeholders = .ok table) (clean : table.mismatches = []) :
    g.Outlined start table.outlines := by
  have automaton := automaton_of_table built
  have distinct : (table.states.map State.items).Nodup := nodup_items_of_table built
  have exists_state : ∀ o ∈ table.outlines, ∃ number s, table.state? number = some s ∧
      s.outline = o := by
    intro o member
    obtain ⟨s, isState, rfl⟩ := List.mem_map.mp member
    obtain ⟨number, found⟩ := List.mem_iff_getElem?.mp isState
    exact ⟨number, s, found, rfl⟩
  refine ⟨?_, ?_, ?_, ?_, ?_, ?_, ?_, ?_⟩
  · rw [table.map_items_outlines]
    exact distinct
  · obtain ⟨s, isState, items⟩ := automaton.first
    rw [table.map_items_outlines, List.getElem?_map, ← Table.state?, isState, Option.map_some, items]
  · intro items context
    constructor
    · intro visited
      obtain ⟨number, s, isState, items, context⟩ := exists_state_of_visits built clean visited
      exact ⟨s.outline, List.mem_map_of_mem (List.mem_of_getElem? isState), items, context⟩
    · rintro ⟨o, member, rfl, rfl⟩
      obtain ⟨number, s, isState, rfl⟩ := exists_state o member
      exact visits_of_table built isState
  · intro o member t target
    obtain ⟨number, s, isState, rfl⟩ := exists_state o member
    rw [table.map_items_outlines]
    exact automaton.get?_shift_iff distinct isState
  · intro o member t place
    obtain ⟨number, s, isState, rfl⟩ := exists_state o member
    exact automaton.get?_reduce_iff isState
  · intro o member key target
    obtain ⟨number, s, isState, rfl⟩ := exists_state o member
    rw [table.map_items_outlines]
    exact automaton.get?_goto_iff distinct isState
  · intro o member
    obtain ⟨number, s, isState, rfl⟩ := exists_state o member
    obtain ⟨plan, ok, filled⟩ := automaton.filled number s isState
    exact filled.reducible.trans (g.planned_of_plan _ ok).reducible
  · intro o member
    obtain ⟨number, s, isState, rfl⟩ := exists_state o member
    simp only [← mayReduce_iff]
    exact automaton.length_resolutions isState

end Grammar

/-! ### Two orders -/

omit [Ordered τ] [Ordered κ]

/-- An order of the terminals and one of the keys. -/
structure Orders (τ κ : Type) where
  terminals : Ordered τ
  keys : Ordered κ

namespace Grammar

/-- What the states of the table do that is built in these orders, and the mismatches that
are noted. -/
def overview (g : Grammar τ κ T N) (orders : Orders τ κ) (start : κ)
    (placeholders : List (κ × Tree T N)) :
    Except (TableError τ κ) (List (Outline τ κ) × List Mismatch) :=
  letI := orders.terminals
  letI := orders.keys
  (g.table start placeholders).map fun table => (table.outlines, table.mismatches)

theorem agrees_of_overview {g : Grammar τ κ T N} {orders : Orders τ κ} {start : κ}
    {placeholders : List (κ × Tree T N)} {outlines : List (Outline τ κ)}
    (built : g.overview orders start placeholders = .ok (outlines, [])) :
    g.Agrees start ∧ g.Outlined start outlines ∧ g.defines start = true ∧
      ∀ entry ∈ registerPlaceholders placeholders, g.defines entry.1 = true := by
  let := orders.terminals
  let := orders.keys
  unfold overview at built
  cases isTable : g.table start placeholders with
  | error failure =>
    rw [isTable] at built
    cases built
  | ok table =>
    rw [isTable] at built
    obtain ⟨rfl, clean⟩ := Prod.mk.inj (Except.ok.inj built)
    exact ⟨agrees_of_table isTable clean, outlined_of_table isTable clean,
      defines_of_table isTable, defines_placeholders_of_table isTable⟩

/-- A table without mismatches does not depend on the order of its exploration: in any
other orders of the terminals and the keys there is a table, without mismatches, and its
states are those of the first with other numbers, the start state keeping its own. -/
theorem exists_overview_reordered (g : Grammar τ κ T N) (orders orders' : Orders τ κ) (start : κ)
    (placeholders : List (κ × Tree T N)) {outlines : List (Outline τ κ)}
    (built : g.overview orders start placeholders = .ok (outlines, [])) :
    ∃ (outlines' : List (Outline τ κ)) (numbers : Nat → Nat),
      g.overview orders' start placeholders = .ok (outlines', []) ∧
        Set.BijOn numbers (Set.Iio outlines.length) (Set.Iio outlines'.length) ∧
        numbers 0 = 0 ∧
        ∀ (number : Nat) (o : Outline τ κ), outlines[number]? = some o →
          outlines'[numbers number]? = some (o.renumber numbers) := by
  obtain ⟨agrees, outlined, startDefined, keysDefined⟩ := agrees_of_overview built
  let := orders'.terminals
  let := orders'.keys
  obtain ⟨table, isTable, clean⟩ := exists_table_of_agrees agrees startDefined keysDefined
  obtain ⟨numbers, renumbered⟩ :=
    outlined.exists_renumber agrees (outlined_of_table isTable clean)
  refine ⟨table.outlines, numbers, ?_, renumbered⟩
  unfold overview
  rw [isTable, ← clean]
  rfl

end Grammar

/-! ### Clauses in two orders -/

namespace Clauses

/-- The orders in which words and parts are listed. -/
def forward : Orders Word Part := ⟨inferInstance, inferInstance⟩

/-- The other way round. -/
def backward : Orders Word Part where
  terminals := .ofRank (fun word => 3 - word.ctorIdx) fun a b h => by
    cases a <;> cases b <;> first | rfl | cases h
  keys := .ofRank (fun part => 2 - part.ctorIdx) fun a b h => by
    cases a <;> cases b <;> first | rfl | cases h

theorem exists_even : ((grammar 0).table .clause []).toOption.isSome := by decide +kernel

/-- The parse table of clauses in which nothing binds. -/
def even : Table Word Part Word Part := ((grammar 0).table .clause []).toOption.get exists_even

theorem overview_even : (grammar 0).overview forward .clause [] = .ok (even.outlines, []) := by
  have clean : even.mismatches = [] := by decide +kernel
  have built : (grammar 0).table .clause [] = .ok even := eq_ok_get exists_even
  rw [← clean]
  exact congrArg (Except.map fun table => (table.outlines, table.mismatches)) built

/-- Where nothing binds, the table of clauses has no mismatch, and is found in the other
orders too. -/
theorem overview_backward : (grammar 0).overview forward .clause [] = .ok (even.outlines, []) ∧
    ∃ (outlines' : List (Outline Word Part)) (numbers : Nat → Nat),
      (grammar 0).overview backward .clause [] = .ok (outlines', []) ∧
        Set.BijOn numbers (Set.Iio even.outlines.length) (Set.Iio outlines'.length) ∧
        numbers 0 = 0 ∧
        ∀ (number : Nat) (o : Outline Word Part), even.outlines[number]? = some o →
          outlines'[numbers number]? = some (o.renumber numbers) :=
  ⟨overview_even, (grammar 0).exists_overview_reordered forward backward .clause [] overview_even⟩

/-- The states behind a loud and a soft word trade numbers. -/
example : (((grammar 0).overview forward .clause []).toOption.bind (·.1[0]?)).map
      (fun o => (o.action .loud, o.action .soft)) = some (some (.shift 1), some (.shift 2)) ∧
    (((grammar 0).overview backward .clause []).toOption.bind (·.1[0]?)).map
      (fun o => (o.action .loud, o.action .soft)) = some (some (.shift 2), some (.shift 1)) := by
  decide +kernel

end Clauses

end ShiftReduce
