/-
  Parse tables: the states of a grammar for a start key, with what a parser
  needs to recover from errors.
-/
import ShiftReduce.Table.Builder

namespace ShiftReduce

/-- A table for parsing from `start`. The states are listed by number, the start
state first, and `index` has the number of each item set; `placeholders` holds the
keys at which a parser may recover, in the order of preference, with the tree that
stands in for the missing text. -/
structure Table (τ κ T N : Type) [Ordered τ] [Ordered κ] where
  grammar : Grammar τ κ T N
  sets : SymbolSets τ κ
  states : List (State τ κ)
  index : SortedMap ItemSet Nat
  start : κ
  placeholders : List (κ × Tree T N)
  mismatches : List Mismatch

/-- Why a grammar has no table. -/
inductive TableError (τ κ : Type) where
  /-- The start key is not defined. -/
  | unknownStart (key : κ)
  /-- A placeholder is registered for a key that is not defined. -/
  | unknownPlaceholder (key : κ)
  /-- A state has no plan. -/
  | blocked (state : Nat) (obstacle : Obstacle τ)
deriving DecidableEq, Repr

/-! ### Placeholders -/

section Placeholders

variable {κ T N : Type} [DecidableEq κ]

/-- Registers a placeholder. A key that is registered already keeps its place
and takes the new tree. -/
def registerPlaceholder (key : κ) (tree : Tree T N) : List (κ × Tree T N) → List (κ × Tree T N)
  | [] => [(key, tree)]
  | entry :: rest =>
    if entry.1 = key then (key, tree) :: rest else entry :: registerPlaceholder key tree rest

/-- Registers placeholders one after the other. -/
def registerPlaceholders (entries : List (κ × Tree T N)) : List (κ × Tree T N) :=
  entries.foldl (fun registered entry => registerPlaceholder entry.1 entry.2 registered) []

theorem keys_registerPlaceholder (key : κ) (tree : Tree T N) (registered : List (κ × Tree T N)) :
    (registerPlaceholder key tree registered).map Prod.fst =
      if key ∈ registered.map Prod.fst then registered.map Prod.fst
      else registered.map Prod.fst ++ [key] := by
  induction registered with
  | nil => simp [registerPlaceholder]
  | cons entry rest ih =>
    rw [registerPlaceholder]
    by_cases here : entry.1 = key
    · simp [here]
    · have other : ¬ key = entry.1 := fun same => here same.symm
      rw [if_neg here, List.map_cons, ih]
      by_cases later : key ∈ rest.map Prod.fst
      · rw [if_pos later, List.map_cons, if_pos (List.mem_cons_of_mem _ later)]
      · rw [if_neg later, List.map_cons, if_neg (by simp_all), List.cons_append]

/-- No key is registered twice. -/
theorem nodup_keys_registerPlaceholders (entries : List (κ × Tree T N)) :
    ((registerPlaceholders entries).map Prod.fst).Nodup := by
  refine List.foldlRecOn (motive := fun registered : List (κ × Tree T N) =>
    (registered.map Prod.fst).Nodup) entries _ List.nodup_nil fun registered nodup entry _ => ?_
  rw [keys_registerPlaceholder]
  split
  · exact nodup
  · rename_i new
    rw [List.nodup_append]
    refine ⟨nodup, by simp, fun key member other isOther => ?_⟩
    rw [List.mem_singleton.mp isOther]
    rintro rfl
    exact new member

/-- The keys registered are among those of the placeholders given. -/
theorem mem_keys_of_mem_registerPlaceholders {entries : List (κ × Tree T N)} {entry : κ × Tree T N}
    (member : entry ∈ registerPlaceholders entries) : entry.1 ∈ entries.map Prod.fst := by
  have all : ∀ key ∈ (registerPlaceholders entries).map Prod.fst, key ∈ entries.map Prod.fst := by
    refine List.foldlRecOn (motive := fun registered : List (κ × Tree T N) =>
      ∀ key ∈ registered.map Prod.fst, key ∈ entries.map Prod.fst) entries _
      (fun key none => absurd none List.not_mem_nil) fun registered known added isAdded key isKey => ?_
    rw [keys_registerPlaceholder] at isKey
    split at isKey
    · exact known key isKey
    · rcases List.mem_append.mp isKey with old | new
      · exact known key old
      · rw [List.mem_singleton.mp new]
        exact List.mem_map_of_mem isAdded
  exact all entry.1 (List.mem_map_of_mem member)

end Placeholders

variable {τ κ T N : Type} [Ordered τ] [Ordered κ] [DecidableEq τ] [DecidableEq κ]

/-! ### Construction -/

/-- The table of a grammar for a start key. The start key and the keys of the
placeholders must be defined, and every state must have a plan. -/
def Grammar.table (g : Grammar τ κ T N) (start : κ) (placeholders : List (κ × Tree T N)) :
    Except (TableError τ κ) (Table τ κ T N) :=
  if ¬ g.defines start then .error (.unknownStart start)
  else
    match (registerPlaceholders placeholders).find? fun entry => ¬ g.defines entry.1 with
    | some entry => .error (.unknownPlaceholder entry.1)
    | none =>
      let sets := g.symbolSets
      match g.construct sets.followers start with
      | (_, some (state, obstacle)) => .error (.blocked state obstacle)
      | (built, none) =>
        .ok
          { grammar := g
            sets := sets
            states := built.arena
            index := built.index
            start := start
            placeholders := registerPlaceholders placeholders
            mismatches := built.mismatches }

/-- The wording of a failure. -/
def TableError.message [Named κ] (g : Grammar τ κ T N) : TableError τ κ → String
  | unknownStart key => "start nonterminal " ++ Named.name key ++ " has no production rule"
  | unknownPlaceholder key =>
    "recovery placeholder registered for unknown nonterminal " ++ Named.name key
  | blocked _ (.epsilonExpected item) =>
    "unexpected symbol at position " ++ toString item.cursor ++ " of `" ++
      g.ruleText item.rule ++ "`"
  | blocked state (.contested terminal first second) =>
    "reduce-reduce conflict in state " ++ toString state ++ " on " ++ g.terminalName terminal ++
      ": `" ++ g.ruleText first ++ "` vs `" ++ g.ruleText second ++ "`"

namespace Table

/-! ### Queries -/

/-- The state with a number. -/
def state? (table : Table τ κ T N) (number : Nat) : Option (State τ κ) := table.states[number]?

/-- The number of the state that consists of exactly these items. -/
def stateFor? (table : Table τ κ T N) (items : ItemSet) : Option Nat := table.index.get? items

/-- The terminals that can come after each nonterminal. -/
def follow (table : Table τ κ T N) : FollowSets τ κ := table.sets.followers

/-- What a state does on a token, with the terminal that accepts it. -/
def actionFor? (table : Table τ κ T N) (state : Nat) (token : T) : Option (τ × Action) :=
  (table.state? state).bind fun state => state.actionFor? table.grammar.alphabet token

/-- Where a state goes on a nonterminal. -/
def goto? (table : Table τ κ T N) (state : Nat) (key : κ) : Option Nat :=
  (table.state? state).bind fun state => state.gotos.get? key

/-- The rules that a state has read completely. -/
def reducible (table : Table τ κ T N) (state : Nat) : List Nat :=
  ((table.state? state).map State.reducible).getD []

/-- The names of the terminals that a state acts on. -/
def expected (table : Table τ κ T N) (state : Nat) : List String :=
  ((table.state? state).map (State.expected table.grammar.alphabet)).getD []

/-- Whether a parser may recover at a key. -/
def isRecoverable (table : Table τ κ T N) (key : κ) : Bool :=
  table.placeholders.any fun entry => entry.1 = key

/-- The tree that stands in for the text of a key. -/
def placeholder? (table : Table τ κ T N) (key : κ) : Option (Tree T N) :=
  (table.placeholders.find? fun entry => entry.1 = key).map Prod.snd

/-- Whether a token is accepted by a terminal that can come after a key. -/
def canFollow (table : Table τ κ T N) (key : κ) (token : T) : Bool :=
  ((table.follow.get? key).getD ∅).toList.any fun t => (table.grammar.alphabet t).accepts token

/-- The table as a record: the start key and the sizes. -/
def record [Named κ] (table : Table τ κ T N) : String :=
  Text.record "Table"
    [("start", Named.literal table.start), ("rules", toString table.grammar.rules.length),
      ("states", toString table.states.length)]

end Table

end ShiftReduce
