/-
  The mismatches of a table are the visits of its states in another context than
  their first.

  An edge passes a context to the state that it enters (`Table.Passes`): a shift
  that of its terminal, a goto that of the state it leaves. A state keeps the
  context of its first visit, and every other context in which it is visited is
  noted once. This is an invariant of the exploration (`Exploration.Logs`): it
  holds for each set that is entered, so for all the edges of a state when it is
  filled (`Logs.fill`), and so at the end (`Ends.logs`).

  The cursor of an item has just passed the symbol of every edge into its state,
  so these edges have one symbol, and none of them enters the start state. A state
  that is entered by a shift is therefore always visited in the same context.
-/
import ShiftReduce.Proofs.Table.Automaton
import ShiftReduce.Proofs.Table.Worklists

namespace ShiftReduce

variable {τ κ T N : Type} [Ordered τ] [Ordered κ]

/-! ### Visits -/

namespace Exploration

/-- `Logs e visited` says that the mismatches noted are the visits of sets in another
context than their first, each noted once. -/
structure Logs (e : Exploration τ κ) (visited : Nat → Context → Prop) : Prop where
  within : ∀ number context, visited number context → number < e.discovered.length
  nodup : (e.mismatches.map fun m => (m.state, m.second)).Nodup
  mem : ∀ m, m ∈ e.mismatches ↔ (∃ items, e.discovered[m.state]? = some (items, m.first)) ∧
    m.second ≠ m.first ∧ visited m.state m.second

theorem Logs.congr {e : Exploration τ κ} {visited visited' : Nat → Context → Prop}
    (logs : e.Logs visited)
    (same : ∀ number context, visited number context ↔ visited' number context) :
    e.Logs visited' where
  within number context h := logs.within number context ((same _ _).mpr h)
  nodup := logs.nodup
  mem m := by rw [logs.mem, same]

variable {e : Exploration τ κ} {visited : Nat → Context → Prop}

/-- Another visit of a set that is known. -/
theorem Logs.note (logs : e.Logs visited) {number : Nat} {entry : ItemSet × Context}
    (found : e.discovered[number]? = some entry) (context : Context) :
    (e.note number entry.2 context).Logs fun number' context' =>
      visited number' context' ∨ (number' = number ∧ context' = context) := by
  have within : ∀ number' context', visited number' context' ∨
      (number' = number ∧ context' = context) → number' < e.discovered.length := by
    rintro number' context' (h | ⟨rfl, _⟩)
    · exact logs.within _ _ h
    · exact (List.getElem?_eq_some_iff.mp found).1
  unfold Exploration.note noteMismatch
  split
  · rename_i known
    -- nothing is noted: the context is the first, or it was noted before
    refine ⟨within, logs.nodup, fun m => (logs.mem m).trans ?_⟩
    refine and_congr_right fun ⟨items, isFirst⟩ => and_congr_right fun differ =>
      ⟨.inl, fun h => h.elim id ?_⟩
    rintro ⟨rfl, rfl⟩
    rcases known with same | noted
    · obtain rfl := Option.some.inj (found.symm.trans isFirst)
      exact absurd same.symm differ
    · obtain ⟨m', isNoted, same⟩ := List.any_eq_true.mp noted
      rw [Bool.and_eq_true, decide_eq_true_eq, decide_eq_true_eq] at same
      have visit := ((logs.mem m').mp isNoted).2.2
      rwa [same.1, same.2] at visit
  · rename_i unknown
    rw [not_or] at unknown
    refine ⟨within, ?_, fun m => ?_⟩
    · rw [List.map_append, List.map_singleton]
      refine logs.nodup.append (List.nodup_singleton _) (List.disjoint_singleton.mpr ?_)
      intro noted
      obtain ⟨m, isNoted, same⟩ := List.mem_map.mp noted
      refine unknown.2 (List.any_eq_true.mpr ⟨m, isNoted, ?_⟩)
      simpa using Prod.mk.inj same
    · rw [List.mem_append, List.mem_singleton, logs.mem m]
      constructor
      · rintro (⟨isFirst, differ, h⟩ | rfl)
        · exact ⟨isFirst, differ, .inl h⟩
        · exact ⟨⟨entry.1, found⟩, fun same => unknown.1 same.symm, .inr ⟨rfl, rfl⟩⟩
      · rintro ⟨isFirst, differ, h | ⟨isState, isSecond⟩⟩
        · exact .inl ⟨isFirst, differ, h⟩
        · obtain ⟨items, isFirst⟩ := isFirst
          rw [isState, found] at isFirst
          obtain rfl := Option.some.inj isFirst
          exact .inr (by cases m; simp_all)

/-- A visit of a set, which is its first if the set is new. -/
theorem Logs.enter (logs : e.Logs visited) (items : ItemSet) (context : Context) :
    (e.enter items context).2.Logs fun number' context' =>
      visited number' context' ∨ (number' = (e.enter items context).1 ∧ context' = context) := by
  unfold Exploration.enter
  split
  · refine ⟨?_, logs.nodup, fun m => ?_⟩
    · rintro number' context' (h | ⟨rfl, _⟩)
      · have := logs.within _ _ h
        simp only [List.length_append, List.length_singleton]
        omega
      · simp
    · rw [logs.mem m]
      dsimp only
      constructor
      · rintro ⟨⟨items', isFirst⟩, differ, h⟩
        exact ⟨⟨items', List.getElem?_append_left (List.getElem?_eq_some_iff.mp isFirst).1 ▸ isFirst⟩,
          differ, .inl h⟩
      · rintro ⟨⟨items', isFirst⟩, differ, h | ⟨isState, isSecond⟩⟩
        · rw [List.getElem?_append_left (logs.within _ _ h)] at isFirst
          exact ⟨⟨items', isFirst⟩, differ, h⟩
        · -- the first visit of the new set is in its own context
          rw [isState, List.getElem?_concat_length] at isFirst
          have same := congrArg Prod.snd (Option.some.inj isFirst)
          exact absurd (isSecond.trans same) differ
  · rename_i number isNumber
    obtain ⟨within, _⟩ := List.findIdx?_eq_some_iff_getElem.mp isNumber
    rw [List.getElem?_eq_getElem within]
    exact logs.note (List.getElem?_eq_getElem within) context

theorem Logs.enterAll (logs : e.Logs visited) (requests : List (ItemSet × Context)) :
    (e.enterAll requests).2.Logs fun number context => visited number context ∨
      ∃ items, ((items, context), number) ∈ requests.zip (e.enterAll requests).1 := by
  induction requests generalizing e visited with
  | nil => exact logs.congr fun number context => by simp
  | cons request rest ih =>
    obtain ⟨items, context⟩ := request
    refine (ih (logs.enter items context)).congr fun number' context' => ?_
    simp only [Exploration.enterAll, List.zip_cons_cons, List.mem_cons, Prod.mk.injEq, or_assoc]
    refine or_congr_right ?_
    constructor
    · rintro (⟨rfl, rfl⟩ | ⟨items', member⟩)
      · exact ⟨items, .inl ⟨⟨rfl, rfl⟩, rfl⟩⟩
      · exact ⟨items', .inr member⟩
    · rintro ⟨items', ⟨⟨rfl, rfl⟩, rfl⟩ | member⟩
      · exact .inl ⟨rfl, rfl⟩
      · exact .inr ⟨items', member⟩

variable [DecidableEq τ] [DecidableEq κ] {g : Grammar τ κ T N} {follow : FollowSets τ κ}

/-- Whether some state that has been filled passes a context on to a state. -/
def Passes (g : Grammar τ κ T N) (e : Exploration τ κ) (target : Nat) (context : Context) : Prop :=
  ∃ s ∈ e.states, ∃ symbol, s.next? symbol = some target ∧ s.passes g symbol = context

theorem logs_start (items : ItemSet) :
    (start items : Exploration τ κ).Logs ((start items).Passes g) where
  within := by
    rintro number context ⟨s, member, _⟩
    cases member
  nodup := List.nodup_nil
  mem m := ⟨nofun, fun ⟨_, _, s, member, _⟩ => absurd member List.not_mem_nil⟩

/-- Filling a state visits the sets behind its edges. -/
theorem Logs.fill (logs : e.Logs (e.Passes g)) {items : ItemSet} {context : Context}
    {plan : Plan τ κ} (planned : g.Planned follow items context plan) :
    (e.fill g items context plan).Logs ((e.fill g items context plan).Passes g) := by
  obtain ⟨s, edges, rfl, rfl, filled⟩ := exists_filled e planned
  generalize e.fill g s.items s.context plan = e' at filled
  have entered := logs.enterAll (edges.map fun edge =>
    (g.advance s.items edge.1, s.passes g edge.1))
  rw [filled.entered] at entered
  have visits : e'.Logs fun number context => e.Passes g number context ∨
      ∃ items, ((items, context), number) ∈ (edges.map fun edge =>
        (g.advance s.items edge.1, s.passes g edge.1)).zip (edges.map Prod.snd) :=
    ⟨entered.within, entered.nodup, entered.mem⟩
  refine visits.congr fun number context => ?_
  simp only [List.zip_map', List.mem_map, Prod.mk.injEq, Passes, filled.states, List.mem_append,
    List.mem_singleton, or_and_right, exists_or, exists_eq_left]
  refine or_congr_right ⟨?_, ?_⟩
  · rintro ⟨_, ⟨symbol, number⟩, isEdge, ⟨_, rfl⟩, rfl⟩
    exact ⟨symbol, (filled.next _ _).mpr isEdge, rfl⟩
  · rintro ⟨symbol, next, rfl⟩
    exact ⟨_, (symbol, number), (filled.next _ _).mp next, ⟨rfl, rfl⟩, rfl⟩

/-- The mismatches noted at the end of an exploration are the visits of its sets. -/
theorem Ends.logs {result : Exploration τ κ × Option (Nat × Obstacle τ)}
    (ends : Ends g follow e result) (logs : e.Logs (e.Passes g)) :
    result.1.Logs (result.1.Passes g) := by
  induction ends with
  | done => exact logs
  | blocked => exact logs
  | fill _ planned _ ih => exact ih (logs.fill (g.planned_of_plan _ planned))

end Exploration

/-! ### Mismatches of a table -/

variable [DecidableEq τ] [DecidableEq κ]

/-- The contexts that the edges of a table pass on to a state. -/
inductive Table.Passes (table : Table τ κ T N) (target : Nat) : Context → Prop
  | shift {number : Nat} {s : State τ κ} {t : τ} (isState : table.state? number = some s)
      (shifts : s.actions.get? t = some (.shift target)) :
      Passes table target (.of (table.grammar.copyIn s.items t))
  | goto {number : Nat} {s : State τ κ} {key : κ} (isState : table.state? number = some s)
      (goes : s.gotos.get? key = some target) : Passes table target s.context

theorem Table.passes_iff {table : Table τ κ T N} {target : Nat} {context : Context} :
    table.Passes target context ↔ ∃ s ∈ table.states, ∃ symbol, s.next? symbol = some target ∧
      s.passes table.grammar symbol = context := by
  constructor
  · rintro (⟨isState, shifts⟩ | ⟨isState, goes⟩)
    · exact ⟨_, List.mem_of_getElem? isState, .terminal _, State.next?_terminal.mpr shifts, rfl⟩
    · exact ⟨_, List.mem_of_getElem? isState, .nonterminal _, goes, rfl⟩
  · rintro ⟨s, member, symbol, next, rfl⟩
    obtain ⟨number, isState⟩ := List.mem_iff_getElem?.mp member
    cases symbol with
    | terminal t => exact .shift isState (State.next?_terminal.mp next)
    | nonterminal key => exact .goto isState next
    | epsilon => cases next

namespace Grammar

variable {g : Grammar τ κ T N} {start : κ} {table : Table τ κ T N}

/-- The mismatches of a table are the visits of its states in another context than the
first, each noted once. -/
theorem mismatches_of_table {placeholders : List (κ × Tree T N)}
    (built : g.table start placeholders = .ok table) :
    (table.mismatches.map fun m => (m.state, m.second)).Nodup ∧
      ∀ m, m ∈ table.mismatches ↔ (∃ s, table.state? m.state = some s ∧ s.context = m.first) ∧
        m.second ≠ m.first ∧ table.Passes m.state m.second := by
  obtain ⟨explored, done, rfl⟩ := eq_explore_of_table built
  obtain ⟨explores, complete, _⟩ := g.explores_explore g.followSets start
  have logs := (g.ends_explore g.followSets start).logs (Exploration.logs_start _)
  rw [done] at explores complete logs
  refine ⟨logs.nodup, fun m => (logs.mem m).trans ?_⟩
  rw [Table.passes_iff]
  refine and_congr_left fun _ => ?_
  constructor
  · rintro ⟨items, found⟩
    obtain ⟨s, isState, same⟩ := explores.exists_state (complete rfl) found
    exact ⟨s, isState, congrArg Prod.snd same⟩
  · rintro ⟨s, isState, isFirst⟩
    exact ⟨s.items, isFirst ▸ explores.known _ s isState⟩

namespace Automaton

variable {number target : Nat} {s : State τ κ} {symbol : Symbol τ κ}

/-- The edges into a state have one symbol. -/
theorem symbol_unique (built : g.Automaton start table) {number' : Nat} {s' : State τ κ}
    {symbol' : Symbol τ κ} (isState : table.state? number = some s)
    (isState' : table.state? number' = some s') (next : s.next? symbol = some target)
    (next' : s'.next? symbol' = some target) : symbol = symbol' := by
  obtain ⟨⟨entered, isTarget, items⟩, item, member, expected⟩ := built.of_next? isState next
  obtain ⟨⟨entered', isTarget', items'⟩, _⟩ := built.of_next? isState' next'
  obtain rfl := Option.some.inj (isTarget.symm.trans isTarget')
  -- the item that has read the one symbol has read the other
  have read : item.bump ∈ g.advance s'.items symbol' := by
    rw [← items', items]
    exact g.bump_mem_advance member expected
  obtain ⟨_, expected'⟩ := g.mem_of_succ_mem_advance read
  exact Option.some.inj (expected.symm.trans expected')

/-- No edge enters the start state. -/
theorem target_ne_zero (built : g.Automaton start table) (isState : table.state? number = some s)
    (next : s.next? symbol = some target) : target ≠ 0 := by
  rintro rfl
  obtain ⟨⟨entered, isTarget, items⟩, item, member, expected⟩ := built.of_next? isState next
  obtain ⟨first, isFirst, startItems⟩ := built.first
  obtain rfl := Option.some.inj (isTarget.symm.trans isFirst)
  have read : item.bump ∈ g.startSet start := by
    rw [← startItems, items]
    exact g.bump_mem_advance member expected
  exact absurd (g.cursor_of_mem_startSet read) (Nat.succ_ne_zero _)

/-- A state that is entered by a shift has the context of its terminal, and is passed no
other. -/
theorem context_of_shift (built : g.Automaton start table) {t : τ}
    (isState : table.state? number = some s) (shifts : s.actions.get? t = some (.shift target)) :
    (∃ s', table.state? target = some s' ∧ s'.context = .of (g.copyIn s.items t)) ∧
      ∀ context, table.Passes target context → context = .of (g.copyIn s.items t) := by
  have next : s.next? (.terminal t) = some target := State.next?_terminal.mpr shifts
  obtain ⟨⟨entered, isTarget, items⟩, _⟩ := built.of_next? isState next
  -- all that shift into the state have the terminal in the same copy
  have copy : ∀ {number' : Nat} {s' : State τ κ}, table.state? number' = some s' →
      s'.next? (.terminal t) = some target → g.copyIn s'.items t = g.copyIn s.items t := by
    intro number' s' isOther next'
    obtain ⟨⟨entered', isTarget', items'⟩, _⟩ := built.of_next? isOther next'
    obtain rfl := Option.some.inj (isTarget.symm.trans isTarget')
    exact g.copyIn_eq_of_advance_eq (items'.symm.trans items)
  obtain ⟨previous, rfl⟩ := Nat.exists_eq_succ_of_ne_zero (built.target_ne_zero isState next)
  obtain ⟨earlier, parent, symbol, _, isParent, edge, _, context⟩ :=
    built.origin previous entered isTarget
  obtain rfl := built.symbol_unique isState isParent next edge
  refine ⟨⟨entered, isTarget, context.trans (congrArg Context.of (copy isParent edge))⟩, ?_⟩
  intro context' passes
  cases passes with
  | shift isOther shifts' =>
    have next' := State.next?_terminal.mpr shifts'
    obtain rfl := Symbol.terminal.inj (built.symbol_unique isState isOther next next')
    rw [built.grammar, copy isOther next']
  | @goto number' s' key isOther goes =>
    have next' : s'.next? (.nonterminal key) = some (previous + 1) := goes
    cases built.symbol_unique isState isOther next next'

end Automaton

/-- The mismatches of a table are exact. None is noted twice; one is noted for each
context that an edge passes on to a state, unless it is the context of the state. The
edges into a state have one symbol, and none enters the start state; so a state that is
entered by a shift has the context of the terminal and no mismatch. -/
theorem mismatches_exact {placeholders : List (κ × Tree T N)}
    (built : g.table start placeholders = .ok table) :
    (table.mismatches.map fun m => (m.state, m.second)).Nodup ∧
    (∀ m, m ∈ table.mismatches ↔ (∃ s, table.state? m.state = some s ∧ s.context = m.first) ∧
      m.second ≠ m.first ∧ table.Passes m.state m.second) ∧
    (∀ number number' symbol symbol' target, table.edge? number symbol = some target →
      table.edge? number' symbol' = some target → symbol = symbol') ∧
    (∀ number symbol, table.edge? number symbol ≠ some 0) ∧
    ∀ number s t target, table.state? number = some s →
      s.actions.get? t = some (.shift target) →
      (∃ s', table.state? target = some s' ∧ s'.context = .of (g.copyIn s.items t)) ∧
        ∀ m ∈ table.mismatches, m.state ≠ target := by
  have automaton := automaton_of_table built
  obtain ⟨nodup, mem⟩ := mismatches_of_table built
  refine ⟨nodup, mem, ?_, ?_, ?_⟩
  · intro number number' symbol symbol' target edge edge'
    obtain ⟨s, isState, next⟩ := Option.bind_eq_some_iff.mp edge
    obtain ⟨s', isState', next'⟩ := Option.bind_eq_some_iff.mp edge'
    exact automaton.symbol_unique isState isState' next next'
  · intro number symbol edge
    obtain ⟨s, isState, next⟩ := Option.bind_eq_some_iff.mp edge
    exact automaton.target_ne_zero isState next rfl
  · intro number s t target isState shifts
    obtain ⟨⟨s', isTarget, context⟩, only⟩ := automaton.context_of_shift isState shifts
    refine ⟨⟨s', isTarget, context⟩, ?_⟩
    rintro m noted rfl
    -- the mismatch would be passed on by an edge, but all pass on the context of the terminal
    obtain ⟨⟨entered, isEntered, first⟩, differ, passes⟩ := (mem m).mp noted
    obtain rfl := Option.some.inj (isTarget.symm.trans isEntered)
    exact differ ((only _ passes).trans (context.symm.trans first))

end Grammar

/-! ### Clauses -/

namespace Clauses

/-- The words of clauses, which are terminals and tokens alike. -/
inductive Word where
  | loud | soft | name | stop
deriving DecidableEq, Repr

instance : Ordered Word :=
  .ofRank Word.ctorIdx fun a b h => by cases a <;> cases b <;> first | rfl | cases h

/-- A clause has a phrase, and a phrase a topic. -/
inductive Part where
  | clause | phrase | topic
deriving DecidableEq, Repr

instance : Ordered Part :=
  .ofRank Part.ctorIdx fun a b h => by cases a <;> cases b <;> first | rfl | cases h

/-- A rule that builds branches of the kind of its key. -/
def rule (key : Part) (parts : List (BodyPart Word Part)) : Rule Word Part Word Part where
  key := key
  kind := key
  parts := parts

/-- The grammar of clauses: a phrase that is said loud or soft. -/
def grammar (loudness : Int) : Grammar Word Part Word Part where
  alphabet word :=
    { name := "word"
      precedence := if word = .loud then loudness else 0
      accepts := fun token => token = word }
  rules :=
    [rule .clause [.terminal .loud, .nonterminal .phrase],
      rule .clause [.terminal .soft, .nonterminal .phrase],
      rule .phrase [.nonterminal .topic, .terminal .stop],
      rule .topic [.terminal .name]]
  rules_ne_nil := List.cons_ne_nil _ _
  defined := defined_of_undefinedUse? rfl

theorem exists_table : ((grammar 1).table .clause []).toOption.isSome := by decide +kernel

/-- The parse table of clauses in which being loud binds. -/
def table : Table Word Part Word Part := ((grammar 1).table .clause []).toOption.get exists_table

theorem table_eq : (grammar 1).table .clause [] = .ok table := eq_ok_get exists_table

/-- A topic leads to one state from a loud phrase and from a soft one, so this state has
a mismatch. -/
theorem mismatches_clauses : (grammar 1).table .clause [] = .ok table ∧
    table.mismatches = [⟨5, ⟨1, .left⟩, ⟨0, .left⟩⟩] ∧
    (table.mismatches.map fun m => (m.state, m.second)).Nodup :=
  ⟨table_eq, by decide +kernel, (Grammar.mismatches_exact table_eq).1⟩

end Clauses

end ShiftReduce
