/-
  The order of the rules has no part in a table, apart from the places that it
  names.

  Two explorations of grammars with the same rules in different orders go in step:
  what the one enters, the other enters renamed, and both give it the same number
  (`Exploration.Renamed.enterAll`), so states are filled with the same edges
  (`Renamed.fill`) and the explorations end in the same way (`Ends.rename`). The
  tables that are built have the same states, in which the items and the rules to
  reduce by are renamed (`State.Renamed`).
-/
import ShiftReduce.Proofs.RuleOrder.Items
import Mathlib.Data.List.Forall2

namespace ShiftReduce

variable {τ κ T N : Type} [Ordered τ] [Ordered κ]

/-! ### States and explorations -/

/-- The two states differ in the places of rules only; those that are read completely may
be listed in another order. -/
structure State.Renamed (places : Equiv.Perm Nat) (s s' : State τ κ) : Prop where
  items : s'.items = s.items.rename places
  context : s'.context = s.context
  actions : s'.actions = s.actions.mapValues (Action.map id places)
  gotos : s'.gotos = s.gotos
  reducible : s'.reducible.Perm (s.reducible.map places)
  resolutions : s'.resolutions = s.resolutions.map (Resolution.rename places)

namespace Exploration

/-- The two explorations have found the same sets, renamed, in the same contexts, filled
the same states and noted the same mismatches. -/
structure Renamed (places : Equiv.Perm Nat) (e e' : Exploration τ κ) : Prop where
  discovered : e'.discovered = e.discovered.map fun entry => (entry.1.rename places, entry.2)
  states : List.Forall₂ (State.Renamed places) e.states e'.states
  mismatches : e'.mismatches = e.mismatches

namespace Renamed

variable {places : Equiv.Perm Nat} {e e' : Exploration τ κ}

/-- A renamed set has the number of the set. -/
theorem number? (renamed : Renamed places e e') (items : ItemSet) :
    e'.number? (items.rename places) = e.number? items := by
  rw [Exploration.number?, Exploration.number?, renamed.discovered, List.findIdx?_map]
  refine congrArg (List.findIdx? · e.discovered) (funext fun entry => ?_)
  exact decide_eq_decide.mpr (ItemSet.rename_injective places).eq_iff

theorem note (renamed : Renamed places e e') (number : Nat) (first second : Context) :
    Renamed places (e.note number first second) (e'.note number first second) := by
  unfold Exploration.note
  rw [renamed.mismatches]
  exact ⟨renamed.discovered, renamed.states, rfl⟩

/-- Entering a set and entering the renamed set give it the same number. -/
theorem enter (renamed : Renamed places e e') (items : ItemSet) (context : Context) :
    (e'.enter (items.rename places) context).1 = (e.enter items context).1 ∧
      Renamed places (e.enter items context).2
        (e'.enter (items.rename places) context).2 := by
  have count : e'.discovered.length = e.discovered.length := by
    rw [renamed.discovered, List.length_map]
  unfold Exploration.enter
  rw [renamed.number?]
  cases e.number? items with
  | none =>
    refine ⟨count, ?_, renamed.states, renamed.mismatches⟩
    dsimp only
    rw [renamed.discovered, List.map_append, List.map_singleton]
  | some number =>
    dsimp only
    rw [renamed.discovered, List.getElem?_map]
    cases e.discovered[number]? with
    | none => exact ⟨rfl, renamed⟩
    | some entry => exact ⟨rfl, renamed.note number entry.2 context⟩

theorem enterAll (renamed : Renamed places e e') (requests : List (ItemSet × Context)) :
    (e'.enterAll (requests.map fun request => (request.1.rename places, request.2))).1 =
        (e.enterAll requests).1 ∧
      Renamed places (e.enterAll requests).2
        (e'.enterAll (requests.map fun request => (request.1.rename places, request.2))).2 := by
  induction requests generalizing e e' with
  | nil => exact ⟨rfl, renamed⟩
  | cons request rest ih =>
    obtain ⟨items, context⟩ := request
    obtain ⟨number, entered⟩ := renamed.enter items context
    obtain ⟨numbers, all⟩ := ih entered
    exact ⟨congrArg₂ List.cons number numbers, all⟩

theorem start (places : Equiv.Perm Nat) (items : ItemSet) :
    Renamed places (Exploration.start items : Exploration τ κ) (.start (items.rename places)) :=
  ⟨rfl, .nil, rfl⟩

end Renamed

/-- What is told of the obstacle that has ended an exploration, if there was one. -/
def refusal? (ended : Option (Nat × Obstacle τ)) : Option (RefusalKind κ) :=
  ended.map fun blocked => blocked.2.kind blocked.1

variable [DecidableEq τ] [DecidableEq κ] {places : Equiv.Perm Nat} {g g' : Grammar τ κ T N}
  {e e' : Exploration τ κ}

/-- States that were filled by plans that differ in places only, with the same edges,
differ in places only. -/
theorem Filled.renamed {plan plan' : Plan τ κ} {s s' : State τ κ}
    {edges : List (Symbol τ κ × Nat)} {e₁ e₁' : Exploration τ κ}
    (filled : Filled g e plan s edges e₁) (filled' : Filled g' e' plan' s' edges e₁')
    (plans : plan.Renamed places plan') (items : s'.items = s.items.rename places)
    (context : s'.context = s.context) : s.Renamed places s' := by
  have next : ∀ symbol, s'.next? symbol = s.next? symbol := fun symbol =>
    Option.ext fun number => by rw [filled'.next, filled.next]
  refine ⟨items, context, ?_, ?_, ?_, ?_⟩
  · refine SortedMap.ext_get? fun t => ?_
    rw [SortedMap.get?_mapValues]
    by_cases shifted : t ∈ plan.shifts
    · -- a terminal that is shifted has its edge
      have isSymbol : .terminal t ∈ plan.symbols :=
        List.mem_append_left _ (List.mem_map_of_mem shifted)
      rw [← filled.symbols, List.mem_map] at isSymbol
      obtain ⟨⟨_, number⟩, isEdge, rfl⟩ := isSymbol
      have goes := (filled.next _ _).mpr isEdge
      rw [State.next?_terminal.mp goes, State.next?_terminal.mp ((next _).trans goes)]
      rfl
    · rw [filled.reduces t shifted, filled'.reduces t (plans.shifts ▸ shifted), plans.reductions,
        SortedMap.get?_mapValues, Option.map_map, Option.map_map]
      rfl
  · exact SortedMap.ext_get? fun key => next (.nonterminal key)
  · rw [filled'.reducible, filled.reducible]
    exact plans.reducible
  · rw [filled'.resolutions, filled.resolutions]
    exact plans.resolutions

/-- Filling a state and the renamed state keeps two explorations in step. -/
theorem Renamed.fill (renamed : Renamed places e e') (reorders : g.Reorders places g')
    {items : ItemSet} {context : Context} {plan plan' : Plan τ κ}
    (ok : g.plan g.followSets items context = .ok plan)
    (ok' : g'.plan g'.followSets (items.rename places) context = .ok plan') :
    Renamed places (e.fill g items context plan)
      (e'.fill g' (items.rename places) context plan') := by
  have plans := reorders.renamed_plan ok ok'
  obtain ⟨s, edges, rfl, rfl, filled⟩ := exists_filled e (g.planned_of_plan _ ok)
  obtain ⟨s', edges', items, context, filled'⟩ := exists_filled e' (g'.planned_of_plan _ ok')
  generalize e.fill g s.items s.context plan = e₁ at filled
  generalize e'.fill g' (s.items.rename places) s.context plan' = e₁' at filled'
  have symbols : edges'.map Prod.fst = edges.map Prod.fst := by
    rw [filled.symbols, filled'.symbols, Plan.symbols, Plan.symbols, plans.shifts, plans.gotos]
  have request : ∀ symbol, (g'.advance s'.items symbol, s'.passes g' symbol) =
      ((g.advance s.items symbol).rename places, s.passes g symbol) := by
    intro symbol
    rw [items, reorders.advance]
    cases symbol <;> simp [State.passes, items, context, reorders.copyIn]
  have requests : (edges'.map fun edge => (g'.advance s'.items edge.1, s'.passes g' edge.1)) =
      (edges.map fun edge => (g.advance s.items edge.1, s.passes g edge.1)).map
        fun request => (request.1.rename places, request.2) := by
    have bySymbol := congrArg (List.map fun symbol =>
      (g'.advance s'.items symbol, s'.passes g' symbol)) symbols
    rw [List.map_map, List.map_map] at bySymbol
    rw [List.map_map]
    exact bySymbol.trans (List.map_congr_left fun edge _ => request edge.1)
  obtain ⟨numbers, entered⟩ := renamed.enterAll
    (edges.map fun edge => (g.advance s.items edge.1, s.passes g edge.1))
  rw [← requests, filled.entered, filled'.entered] at numbers entered
  have same : edges' = edges :=
    (List.zip_of_prod symbols numbers).trans (List.zip_of_prod rfl rfl).symm
  subst same
  refine ⟨entered.discovered, ?_, entered.mismatches⟩
  rw [filled.states, filled'.states]
  exact List.rel_append renamed.states (.cons (filled.renamed filled' plans items context) .nil)

/-- Explorations that are in step end in the same way. -/
theorem Ends.rename {result : Exploration τ κ × Option (Nat × Obstacle τ)}
    (ends : Ends g g.followSets e result) (reorders : g.Reorders places g')
    (renamed : Renamed places e e') :
    ∃ result', Ends g' g'.followSets e' result' ∧ Renamed places result.1 result'.1 ∧
      (refusal? result'.2 : Option (RefusalKind κ)) = refusal? result.2 := by
  have next : ∀ {e e' : Exploration τ κ}, Renamed places e e' →
      e'.discovered[e'.states.length]? = (e.discovered[e.states.length]?).map
        fun entry => (entry.1.rename places, entry.2) := by
    intro e e' renamed
    rw [renamed.discovered, List.getElem?_map, renamed.states.length_eq]
  induction ends generalizing e' with
  | done last => exact ⟨_, .done (by rw [next renamed, last]; rfl), renamed, rfl⟩
  | blocked isNext failed =>
    obtain ⟨obstacle', failed', same⟩ := reorders.exists_obstacle failed
    have isNext' := next renamed
    rw [isNext] at isNext'
    refine ⟨_, .blocked isNext' failed', renamed, congrArg some ?_⟩
    rw [renamed.states.length_eq]
    exact same _
  | fill isNext ok _ ih =>
    obtain ⟨plan', ok', _⟩ := reorders.exists_plan ok
    obtain ⟨result', ends', alike⟩ := ih (renamed.fill reorders ok ok')
    have isNext' := next renamed
    rw [isNext] at isNext'
    exact ⟨result', .fill isNext' ok' ends', alike⟩

end Exploration

/-! ### Tables -/

variable [DecidableEq τ] [DecidableEq κ]

/-- The two tables belong to grammars with the same rules in different orders, and differ in
the places that they name only. -/
structure Table.Renamed (places : Equiv.Perm Nat) (table table' : Table τ κ T N) : Prop where
  grammar : table.grammar.Reorders places table'.grammar
  follow : ∀ key, (table'.follow.get? key).getD ∅ = (table.follow.get? key).getD ∅
  states : List.Forall₂ (State.Renamed places) table.states table'.states
  placeholders : table'.placeholders = table.placeholders
  mismatches : table'.mismatches = table.mismatches

/-- What is told of a refusal to build a table. -/
def TableError.kind : TableError τ κ → RefusalKind κ
  | unknownStart key => .unknownStart key
  | unknownPlaceholder key => .unknownPlaceholder key
  | blocked state obstacle => obstacle.kind state

namespace Grammar.Reorders

variable {places : Equiv.Perm Nat} {g g' : Grammar τ κ T N}

/-- The explorations of the two grammars end in the same way. -/
theorem explore (reorders : g.Reorders places g') (start : κ) :
    Exploration.Renamed places (g.explore g.followSets start).1
        (g'.explore g'.followSets start).1 ∧
      (Exploration.refusal? (g'.explore g'.followSets start).2 : Option (RefusalKind κ)) =
        Exploration.refusal? (g.explore g.followSets start).2 := by
  have renamed : Exploration.Renamed places (Exploration.start (g.startSet start) : Exploration τ κ)
      (.start ((g.startSet start).rename places)) := .start places _
  rw [← reorders.startSet] at renamed
  obtain ⟨result', ends', alike⟩ := (g.ends_explore g.followSets start).rename reorders renamed
  rw [(g'.ends_explore g'.followSets start).unique ends']
  exact alike

/-- The two grammars have tables that differ in the places that they name only, or are
refused a table for the same reason. -/
theorem table (reorders : g.Reorders places g') (start : κ) (placeholders : List (κ × Tree T N)) :
    (∀ failure, g.table start placeholders = .error failure →
      ∃ failure', g'.table start placeholders = .error failure' ∧ failure'.kind = failure.kind) ∧
    ∀ table, g.table start placeholders = .ok table →
      ∃ table', g'.table start placeholders = .ok table' ∧ table.Renamed places table' := by
  have follow : ∀ key, (g'.followSets.get? key).getD ∅ = (g.followSets.get? key).getD ∅ :=
    fun key => SortedSet.ext fun t =>
      mem_followOf_iff.trans (reorders.neighbours_iff.trans mem_followOf_iff.symm)
  obtain ⟨explored, ended⟩ := reorders.explore start
  simp only [Grammar.table_eq, reorders.defines_eq]
  split
  · refine ⟨fun failure failed => ⟨_, rfl, ?_⟩, fun table built => by cases built⟩
    rw [Except.error.inj failed]
  · split
    · refine ⟨fun failure failed => ⟨_, rfl, ?_⟩, fun table built => by cases built⟩
      rw [Except.error.inj failed]
    · generalize g.explore g.followSets start = result at explored ended
      generalize g'.explore g'.followSets start = result' at explored ended
      obtain ⟨e, blocked⟩ := result
      obtain ⟨e', blocked'⟩ := result'
      cases blocked with
      | none =>
        obtain rfl := Option.map_eq_none_iff.mp ended
        refine ⟨fun failure failed => (by cases failed), fun table built => ⟨_, rfl, ?_⟩⟩
        obtain rfl := Except.ok.inj built
        exact ⟨reorders, follow, explored.states, rfl, explored.mismatches⟩
      | some blocked =>
        obtain ⟨blocked', rfl, same⟩ := Option.map_eq_some_iff.mp ended
        refine ⟨fun failure failed => ⟨_, rfl, ?_⟩, fun table built => by cases built⟩
        rw [← Except.error.inj failed]
        exact same

end Grammar.Reorders

/-! ### Grammars of rules -/

/-- What is told of a refusal to make up a grammar. -/
def GrammarError.kind : GrammarError κ → RefusalKind κ
  | noRules => .noRules
  | undefinedKey _ _ => .undefinedKey

section Rules

variable {alphabet : τ → Terminal T} {rules rules' : List (Rule τ κ T N)}

omit [Ordered τ] [Ordered κ] [DecidableEq τ]

/-- Whether every key that the rules use is defined by one. -/
def UsesDefined (rules : List (Rule τ κ T N)) : Prop :=
  ∀ rule ∈ rules, ∀ key, Symbol.nonterminal key ∈ rule.body → key ∈ rules.map Rule.key

/-- Rules make up a grammar if there are any and the keys that they use are defined. -/
theorem exists_ofRules (nonempty : rules ≠ []) (defined : UsesDefined rules) :
    ∃ g, Grammar.ofRules alphabet rules = .ok g ∧ g.alphabet = alphabet ∧ g.rules = rules := by
  have unused : undefinedUse? rules = none := by
    refine List.findSome?_eq_none_iff.mpr fun entry member => ?_
    rw [Option.map_eq_none_iff]
    refine List.find?_eq_none.mpr fun key used => ?_
    obtain ⟨symbol, inBody, isKey⟩ := List.mem_filterMap.mp used
    have isRule : entry.1 ∈ rules := List.mem_of_getElem? (List.mem_zipIdx_iff_getElem?.mp member)
    cases symbol with
    | nonterminal key' =>
      obtain rfl := Option.some.inj isKey
      simpa using defined entry.1 isRule key' inBody
    | terminal t => cases isKey
    | epsilon => cases isKey
  unfold Grammar.ofRules
  rw [dif_neg nonempty]
  split
  · rename_i used
    cases unused.symm.trans used
  · exact ⟨_, rfl, rfl, rfl⟩

/-- Rules that use a key which none defines are refused. -/
theorem exists_undefinedKey (nonempty : rules ≠ []) (undefined : ¬ UsesDefined rules) :
    ∃ key place, Grammar.ofRules alphabet rules = .error (.undefinedKey key place) := by
  unfold Grammar.ofRules
  rw [dif_neg nonempty]
  split
  · exact ⟨_, _, rfl⟩
  · rename_i unused
    exact absurd (defined_of_undefinedUse? unused) undefined

/-- Rules in different orders make up grammars with the same rules in different orders, or
are refused for the same reason. -/
theorem Permutes.ofRules [DecidableEq τ] {places : Equiv.Perm Nat}
    (permutes : Permutes places rules rules') {alphabet : τ → Terminal T}
    (terminals : SameTerminals alphabet rules rules') :
    (∀ failure, Grammar.ofRules alphabet rules = .error failure →
      ∃ failure', Grammar.ofRules alphabet rules' = .error failure' ∧ failure'.kind = failure.kind) ∧
    ∀ g, Grammar.ofRules alphabet rules = .ok g →
      ∃ g', Grammar.ofRules alphabet rules' = .ok g' ∧ g.Reorders places g' := by
  have nonempty_iff : rules' ≠ [] ↔ rules ≠ [] := by
    simp only [ne_eq, List.eq_nil_iff_forall_not_mem, permutes.mem_iff]
  have defined_iff : UsesDefined rules' ↔ UsesDefined rules := by
    simp only [UsesDefined, List.mem_map, permutes.mem_iff]
  by_cases nonempty : rules ≠ []
  · by_cases defined : UsesDefined rules
    · obtain ⟨g, made, alphabet_eq, rules_eq⟩ := exists_ofRules nonempty defined
      obtain ⟨g', made', alphabet_eq', rules_eq'⟩ :=
        exists_ofRules (nonempty_iff.mpr nonempty) (defined_iff.mpr defined)
      rw [made, made']
      refine ⟨nofun, fun _ same => ⟨g', rfl, ?_⟩⟩
      obtain rfl := Except.ok.inj same
      exact ⟨alphabet_eq'.trans alphabet_eq.symm, by rw [rules_eq, rules_eq']; exact permutes,
        by rw [alphabet_eq, rules_eq, rules_eq']; exact terminals⟩
    · obtain ⟨key, place, refused⟩ := exists_undefinedKey nonempty defined
      obtain ⟨key', place', refused'⟩ :=
        exists_undefinedKey (nonempty_iff.mpr nonempty) (mt defined_iff.mp defined)
      rw [refused, refused']
      exact ⟨fun _ failed => ⟨_, rfl, Except.error.inj failed ▸ rfl⟩, nofun⟩
  · obtain rfl := not_not.mp nonempty
    obtain rfl := not_not.mp (mt nonempty_iff.mp nonempty)
    exact ⟨fun _ failed => ⟨_, rfl, Except.error.inj failed ▸ rfl⟩, nofun⟩

end Rules

/-! ### Tables of rules -/

/-- Why a list of rules has no table. -/
inductive Refusal (τ κ : Type) where
  | grammar (failure : GrammarError κ)
  | table (failure : TableError τ κ)

/-- What is told of a refusal. -/
def Refusal.kind : Refusal τ κ → RefusalKind κ
  | grammar failure => failure.kind
  | table failure => failure.kind

/-- The table of the grammar of a list of rules. -/
def tableOfRules (alphabet : τ → Terminal T) (rules : List (Rule τ κ T N)) (start : κ)
    (placeholders : List (κ × Tree T N)) : Except (Refusal τ κ) (Table τ κ T N) :=
  match Grammar.ofRules alphabet rules with
  | .error failure => .error (.grammar failure)
  | .ok g =>
    match g.table start placeholders with
    | .error failure => .error (.table failure)
    | .ok table => .ok table

/-- Rules in different orders have tables that differ in the places that they name only, or
are refused a table for the same reason. -/
theorem Permutes.tableOfRules {places : Equiv.Perm Nat} {rules rules' : List (Rule τ κ T N)}
    (permutes : Permutes places rules rules') {alphabet : τ → Terminal T}
    (terminals : SameTerminals alphabet rules rules') (start : κ) (placeholders : List (κ × Tree T N)) :
    (∀ refusal, tableOfRules alphabet rules start placeholders = .error refusal →
      ∃ refusal', tableOfRules alphabet rules' start placeholders = .error refusal' ∧
        refusal'.kind = refusal.kind) ∧
    ∀ table, tableOfRules alphabet rules start placeholders = .ok table →
      ∃ table', tableOfRules alphabet rules' start placeholders = .ok table' ∧
        table.Renamed places table' := by
  obtain ⟨refused, made⟩ := permutes.ofRules terminals
  unfold ShiftReduce.tableOfRules
  cases ofRules : Grammar.ofRules alphabet rules with
  | error failure =>
    obtain ⟨failure', ofRules', same⟩ := refused failure ofRules
    rw [ofRules']
    exact ⟨fun _ failed => ⟨_, rfl, Except.error.inj failed ▸ same⟩, nofun⟩
  | ok g =>
    obtain ⟨g', ofRules', reorders⟩ := made g ofRules
    obtain ⟨blocked, built⟩ := reorders.table start placeholders
    rw [ofRules']
    dsimp only
    cases isTable : g.table start placeholders with
    | error failure =>
      obtain ⟨failure', isTable', same⟩ := blocked failure isTable
      rw [isTable']
      exact ⟨fun _ failed => ⟨_, rfl, Except.error.inj failed ▸ same⟩, nofun⟩
    | ok table =>
      obtain ⟨table', isTable', renamed⟩ := built table isTable
      rw [isTable']
      exact ⟨nofun, fun _ same => ⟨table', rfl, Except.ok.inj same ▸ renamed⟩⟩

end ShiftReduce
