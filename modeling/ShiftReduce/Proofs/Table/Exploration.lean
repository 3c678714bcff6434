/-
  The exploration of the states of a grammar, breadth first from the start set: what it
  knows at any time, and that it ends by itself.

  An exploration is a construction in one list, less the index and the queue of a
  builder. A state is known by its item set. It gets its number when some earlier state
  leads to its set for the first time, and the context of that first visit stays with
  it; a later visit in another context is noted as a mismatch. States are filled in the
  order of their numbers.

  Entering item sets only adds to those discovered (`Grown`); filling a state
  enters the sets behind it and then knows, for every symbol, the number of the
  set behind that symbol (`Grammar.Fills`). The invariant `Explores` says so of
  all states filled so far, and that every set but the first was discovered
  from a state with a smaller number, in the context that the edge passes on.

  The sets discovered are different and hold items of the grammar only, so
  there are at most as many as the budget of `Grammar.explore` allows for: it
  ends because every set discovered is filled, or at an obstacle
  (`Grammar.explores_explore`).
-/
import ShiftReduce.Table.Builder
import ShiftReduce.Proofs.Prefix
import ShiftReduce.Proofs.Lookahead.Saturation
import ShiftReduce.Proofs.Table.Plan
import Mathlib.Data.Finset.Powerset
import Mathlib.Data.List.Forall2

namespace ShiftReduce

variable {τ κ T N : Type}

/-! ### Explorations -/

/-- How far the states of a grammar have been explored: the item sets found so
far, in the order of their numbers, and the states filled, which belong to the
first of these sets. -/
structure Exploration (τ κ : Type) [Ordered τ] [Ordered κ] where
  discovered : List (ItemSet × Context)
  states : List (State τ κ)
  mismatches : List Mismatch

section Exploring

variable [Ordered τ] [Ordered κ] [DecidableEq τ] [DecidableEq κ]

namespace Exploration

/-- An exploration that has found the start set and filled no state. -/
def start (items : ItemSet) : Exploration τ κ := ⟨[(items, .initial)], [], []⟩

/-- The number of an item set. -/
def number? (e : Exploration τ κ) (items : ItemSet) : Option Nat :=
  e.discovered.findIdx? fun entry => entry.1 = items

/-- Notes that a state was reached in another context than its first. -/
def note (e : Exploration τ κ) (state : Nat) (first second : Context) : Exploration τ κ :=
  { e with mismatches := noteMismatch e.mismatches state first second }

/-- The number of an item set that is reached in a context; a new set takes
the next number. -/
def enter (e : Exploration τ κ) (items : ItemSet) (context : Context) : Nat × Exploration τ κ :=
  match e.number? items with
  | none => (e.discovered.length, { e with discovered := e.discovered ++ [(items, context)] })
  | some number =>
    match e.discovered[number]? with
    | none => (number, e)
    | some entry => (number, e.note number entry.2 context)

/-- The numbers of several item sets, entered one after the other. -/
def enterAll (e : Exploration τ κ) : List (ItemSet × Context) → List Nat × Exploration τ κ
  | [] => ([], e)
  | (items, context) :: rest =>
    let entered := e.enter items context
    let others := entered.2.enterAll rest
    (entered.1 :: others.1, others.2)

/-- Fills the state of an item set by its plan. The sets behind its shifts are
entered first, in terminal order, each in the context of its terminal as the
items expect it; then those behind its gotos, in key order, in the context of
the state itself. -/
def fill (g : Grammar τ κ T N) (e : Exploration τ κ) (items : ItemSet) (context : Context)
    (plan : Plan τ κ) : Exploration τ κ :=
  let shifted := e.enterAll (plan.shifts.toList.map fun t =>
    (g.advance items (.terminal t), Context.of (g.copyIn items t)))
  let gone := shifted.2.enterAll (plan.gotos.toList.map fun key =>
    (g.advance items (.nonterminal key), context))
  { gone.2 with states := gone.2.states ++ [plan.state items context shifted.1 gone.1] }

/-- Fills states in the order of their numbers until none is left, or until
one has no plan; then the number of that state and the obstacle are told.
Every step fills one more state, so as many steps as there are sets of items
are enough. -/
def run (g : Grammar τ κ T N) (follow : FollowSets τ κ) :
    Nat → Exploration τ κ → Exploration τ κ × Option (Nat × Obstacle τ)
  | 0, e => (e, none)
  | budget + 1, e =>
    match e.discovered[e.states.length]? with
    | none => (e, none)
    | some (items, context) =>
      match g.plan follow items context with
      | .error obstacle => (e, some (e.states.length, obstacle))
      | .ok plan => run g follow budget (e.fill g items context plan)

end Exploration

/-- The exploration from the start set of a key, with the obstacle that ended
it early, if any. -/
def Grammar.explore (g : Grammar τ κ T N) (follow : FollowSets τ κ) (start : κ) :
    Exploration τ κ × Option (Nat × Obstacle τ) :=
  Exploration.run g follow (Nat.pow 2 g.itemCount) (.start (g.startSet start))

end Exploring

/-! ### The budget -/

theorem Grammar.length_allItems (g : Grammar τ κ T N) : g.allItems.length = g.itemCount := by
  have count : ∀ (l : List (Rule τ κ T N)) (n k : Nat),
      n + (l.zipIdx k).foldr (fun entry rest => entry.1.length + 1 + rest) 0 =
        l.foldl (fun count rule => count + (rule.length + 1)) n := by
    intro l
    induction l with
    | nil => exact fun n k => rfl
    | cons rule rest ih =>
      intro n k
      rw [List.zipIdx_cons, List.foldr_cons, List.foldl_cons, ← ih _ (k + 1)]
      dsimp only
      omega
  rw [itemCount, ← count g.rules 0 0, allItems]
  induction g.rules.zipIdx with
  | nil => rfl
  | cons entry rest ih =>
    rw [List.flatMap_cons, List.length_append, ih, List.length_map, List.length_range,
      List.foldr_cons]
    omega

variable [Ordered τ] [Ordered κ]

/-! ### Edges -/

/-- The action with its state and its rule renamed. -/
def Action.map (states rules : Nat → Nat) : Action → Action
  | .shift number => .shift (states number)
  | .reduce place => .reduce (rules place)

namespace State

/-- The number of the state behind a symbol: the target of a shift or of a
goto. -/
def next? [DecidableEq τ] [DecidableEq κ] (state : State τ κ) : Symbol τ κ → Option Nat
  | .terminal t =>
    match state.actions.get? t with
    | some (.shift number) => some number
    | _ => none
  | .nonterminal key => state.gotos.get? key
  | .epsilon => none

/-- The context that a state passes on along the edge of a symbol. -/
def passes [DecidableEq τ] (g : Grammar τ κ T N) (state : State τ κ) : Symbol τ κ → Context
  | .terminal t => .of (g.copyIn state.items t)
  | _ => state.context

theorem next?_terminal [DecidableEq τ] [DecidableEq κ] {state : State τ κ} {t : τ} {number : Nat} :
    state.next? (.terminal t) = some number ↔ state.actions.get? t = some (.shift number) := by
  simp only [next?]
  constructor
  · intro next
    split at next
    · rename_i target found
      rw [found, Option.some.inj next]
    · cases next
  · intro found
    rw [found]

end State

/-! ### Entering item sets -/

namespace Exploration

/-- The item sets discovered, by number. -/
def sets (e : Exploration τ κ) : List ItemSet := e.discovered.map Prod.fst

/-- `Grown e requests numbers e'` says that entering the requested sets leads
from `e` to `e'` and gives them these numbers. -/
structure Grown (e : Exploration τ κ) (requests : List (ItemSet × Context)) (numbers : List Nat)
    (e' : Exploration τ κ) : Prop where
  states : e'.states = e.states
  grows : ∃ added, e'.discovered = e.discovered ++ added
  nodup : e'.sets.Nodup
  length : requests.length = numbers.length
  numbered : ∀ request number, (request, number) ∈ requests.zip numbers →
    e'.sets[number]? = some request.1
  fresh : ∀ number entry, e'.discovered[number]? = some entry → e.discovered.length ≤ number →
    (entry, number) ∈ requests.zip numbers

theorem Grown.sets_of_sets {e e' : Exploration τ κ} {requests : List (ItemSet × Context)}
    {numbers : List Nat} (grown : Grown e requests numbers e') {number : Nat} {items : ItemSet}
    (known : e.sets[number]? = some items) : e'.sets[number]? = some items := by
  obtain ⟨added, more⟩ := grown.grows
  have within : number < e.sets.length := (List.getElem?_eq_some_iff.mp known).1
  rw [sets, more, List.map_append]
  exact (List.getElem?_append_left within).trans known

theorem Grown.discovered_of_discovered {e e' : Exploration τ κ}
    {requests : List (ItemSet × Context)} {numbers : List Nat} (grown : Grown e requests numbers e')
    {number : Nat} (within : number < e.discovered.length) :
    e'.discovered[number]? = e.discovered[number]? := by
  obtain ⟨added, more⟩ := grown.grows
  rw [more, List.getElem?_append_left within]

theorem Grown.append {e e₁ e₂ : Exploration τ κ} {requests others : List (ItemSet × Context)}
    {numbers more : List Nat} (first : Grown e requests numbers e₁)
    (second : Grown e₁ others more e₂) : Grown e (requests ++ others) (numbers ++ more) e₂ where
  states := second.states.trans first.states
  grows := by
    obtain ⟨added, h⟩ := first.grows
    obtain ⟨added', h'⟩ := second.grows
    exact ⟨added ++ added', by rw [h', h, List.append_assoc]⟩
  nodup := second.nodup
  length := by rw [List.length_append, List.length_append, first.length, second.length]
  numbered := by
    intro request number member
    rw [List.zip_append first.length] at member
    rcases List.mem_append.mp member with h | h
    · exact second.sets_of_sets (first.numbered request number h)
    · exact second.numbered request number h
  fresh := by
    intro number entry found new
    rw [List.zip_append first.length, List.mem_append]
    by_cases old : number < e₁.discovered.length
    · rw [second.discovered_of_discovered old] at found
      exact .inl (first.fresh number entry found new)
    · exact .inr (second.fresh number entry found (by omega))

theorem Grown.refl {e : Exploration τ κ} (nodup : e.sets.Nodup) : Grown e [] [] e where
  states := rfl
  grows := ⟨[], (List.append_nil _).symm⟩
  nodup := nodup
  length := rfl
  numbered := fun _ _ member => absurd member List.not_mem_nil
  fresh := by
    intro number entry found new
    have := (List.getElem?_eq_some_iff.mp found).1
    omega

theorem states_note (e : Exploration τ κ) (state : Nat) (first second : Context) :
    (e.note state first second).states = e.states := rfl

theorem discovered_note (e : Exploration τ κ) (state : Nat) (first second : Context) :
    (e.note state first second).discovered = e.discovered := rfl

theorem grown_enter {e : Exploration τ κ} (nodup : e.sets.Nodup) (items : ItemSet)
    (context : Context) :
    Grown e [(items, context)] [(e.enter items context).1] (e.enter items context).2 := by
  unfold enter
  split
  · rename_i unknown
    -- an unknown set is added at the end
    have new : items ∉ e.sets := by
      intro member
      obtain ⟨entry, inside, same⟩ := List.mem_map.mp member
      have h := List.findIdx?_eq_none_iff.mp unknown entry inside
      simp [same] at h
    have added : ({ e with discovered := e.discovered ++ [(items, context)] } :
        Exploration τ κ).sets = e.sets ++ [items] := List.map_append
    have count : e.sets.length = e.discovered.length := List.length_map _
    refine ⟨rfl, ⟨_, rfl⟩, ?_, rfl, ?_, ?_⟩
    · rw [added]
      exact nodup.append (List.nodup_singleton items) (List.disjoint_singleton.mpr new)
    · intro request number member
      obtain ⟨rfl, rfl⟩ := Prod.mk.inj (List.mem_singleton.mp member)
      rw [added, ← count, List.getElem?_concat_length]
    · intro number entry found new
      have within := (List.getElem?_eq_some_iff.mp found).1
      rw [List.length_append, List.length_singleton] at within
      obtain rfl : number = e.discovered.length := by omega
      rw [List.getElem?_concat_length] at found
      rw [← Option.some.inj found]
      exact List.mem_singleton_self _
  · rename_i number isNumber
    -- a known set keeps its number, whatever its context
    obtain ⟨within, same, _⟩ := List.findIdx?_eq_some_iff_getElem.mp isNumber
    have found : e.discovered[number]? = some e.discovered[number] :=
      List.getElem?_eq_getElem within
    have items_eq : e.discovered[number].1 = items := by simpa using same
    rw [found]
    have kept : (e.note number e.discovered[number].2 context).sets = e.sets := by
      rw [sets, discovered_note, sets]
    refine ⟨states_note .., ⟨[], by rw [discovered_note, List.append_nil]⟩, by rw [kept]; exact nodup,
      rfl, ?_, ?_⟩
    · intro request number' member
      obtain ⟨rfl, rfl⟩ := Prod.mk.inj (List.mem_singleton.mp member)
      rw [kept, sets, List.getElem?_map, found, Option.map_some, items_eq]
    · intro number' entry h new
      rw [discovered_note] at h
      have := (List.getElem?_eq_some_iff.mp h).1
      omega

theorem grown_enterAll {e : Exploration τ κ} (nodup : e.sets.Nodup)
    (requests : List (ItemSet × Context)) :
    Grown e requests (e.enterAll requests).1 (e.enterAll requests).2 := by
  induction requests generalizing e with
  | nil => exact .refl nodup
  | cons request rest ih =>
    obtain ⟨items, context⟩ := request
    have first := grown_enter nodup items context
    exact first.append (ih first.nodup)

end Exploration

variable [DecidableEq τ] [DecidableEq κ]

/-! ### Filling a state -/

/-- The state has the plan of its item set and context, and the numbers by
which it goes on are those of the sets behind the symbols. -/
structure State.FilledBy (s : State τ κ) (g : Grammar τ κ T N) (sets : List ItemSet)
    (plan : Plan τ κ) : Prop where
  reducible : s.reducible = plan.reducible
  resolutions : s.resolutions = plan.resolutions
  shift : ∀ t ∈ plan.shifts, ∃ number, s.actions.get? t = some (.shift number) ∧
    sets[number]? = some (g.advance s.items (.terminal t))
  noShift : ∀ t, t ∉ plan.shifts → s.actions.get? t = (plan.reductions.get? t).map .reduce
  goto : ∀ key ∈ plan.gotos, ∃ number, s.gotos.get? key = some number ∧
    sets[number]? = some (g.advance s.items (.nonterminal key))
  noGoto : ∀ key, key ∉ plan.gotos → s.gotos.get? key = none

/-- The state is filled by its plan. -/
def Grammar.Fills (g : Grammar τ κ T N) (follow : FollowSets τ κ) (sets : List ItemSet)
    (s : State τ κ) : Prop :=
  ∃ plan, g.plan follow s.items s.context = .ok plan ∧ s.FilledBy g sets plan

theorem State.FilledBy.mono {s : State τ κ} {g : Grammar τ κ T N} {sets sets' : List ItemSet}
    {plan : Plan τ κ} (filled : s.FilledBy g sets plan)
    (more : ∀ (number : Nat) (items : ItemSet), sets[number]? = some items →
      sets'[number]? = some items) :
    s.FilledBy g sets' plan where
  reducible := filled.reducible
  resolutions := filled.resolutions
  shift t member := (filled.shift t member).imp fun number h => ⟨h.1, more number _ h.2⟩
  noShift := filled.noShift
  goto key member := (filled.goto key member).imp fun number h => ⟨h.1, more number _ h.2⟩
  noGoto := filled.noGoto

/-- Where nothing is repeated, an element has one place. -/
theorem place_unique {α : Type} {l : List α} (distinct : l.Nodup) {a : α} {place place' : Nat}
    (found : l[place]? = some a) (found' : l[place']? = some a) : place = place' :=
  (List.getElem?_inj (List.getElem?_eq_some_iff.mp found).1 distinct).mp (found.trans found'.symm)

theorem SortedMap.nodup_keys {κ β : Type} [Ordered κ] (m : SortedMap κ β) : m.keys.Nodup := by
  rw [SortedMap.keys, List.Nodup, List.pairwise_map]
  refine m.sorted.imp fun {a b} before same => ?_
  rw [same] at before
  exact compare_self_ne_lt b.1 before

/-- The actions that a state is given are the numbered shifts and, apart from
them, the reductions. -/
theorem get?_actionEntries {shifts : List (τ × Nat)} {reductions : SortedMap τ Nat}
    (nodup : (shifts.map Prod.fst).Nodup)
    (apart : ∀ t place, reductions.get? t = some place → t ∉ shifts.map Prod.fst) {t : τ}
    {action : Action} :
    (SortedMap.ofList (shifts.map (fun entry => (entry.1, Action.shift entry.2)) ++
      reductions.entries.map fun entry => (entry.1, Action.reduce entry.2))).get? t = some action ↔
    (∃ number, (t, number) ∈ shifts ∧ action = .shift number) ∨
      ∃ place, reductions.get? t = some place ∧ action = .reduce place := by
  have keys : ((shifts.map (fun entry => (entry.1, Action.shift entry.2)) ++
      reductions.entries.map fun entry => (entry.1, Action.reduce entry.2)).map Prod.fst) =
      shifts.map Prod.fst ++ reductions.keys := by
    simp [SortedMap.keys, Function.comp_def]
  rw [SortedMap.get?_ofList]
  · rw [List.mem_append, List.mem_map, List.mem_map]
    refine or_congr ?_ ?_
    · constructor
      · rintro ⟨⟨t', number⟩, member, same⟩
        obtain ⟨rfl, rfl⟩ := Prod.mk.inj same
        exact ⟨number, member, rfl⟩
      · rintro ⟨number, member, rfl⟩
        exact ⟨(t, number), member, rfl⟩
    · constructor
      · rintro ⟨⟨t', place⟩, member, same⟩
        obtain ⟨rfl, rfl⟩ := Prod.mk.inj same
        exact ⟨place, SortedMap.mem_entries.mp member, rfl⟩
      · rintro ⟨place, found, rfl⟩
        exact ⟨(t, place), SortedMap.mem_entries.mpr found, rfl⟩
  · rw [keys]
    refine nodup.append reductions.nodup_keys fun t member other => ?_
    obtain ⟨⟨t', place⟩, inside, rfl⟩ := List.mem_map.mp other
    exact apart t' place (SortedMap.mem_entries.mp inside) member

/-- The symbols that a plan goes on at, in the order in which the sets behind them are
entered. -/
def Plan.symbols (plan : Plan τ κ) : List (Symbol τ κ) :=
  plan.shifts.toList.map .terminal ++ plan.gotos.toList.map .nonterminal

namespace Exploration

omit [DecidableEq τ] [DecidableEq κ] in
theorem enterAll_append (e : Exploration τ κ) (requests others : List (ItemSet × Context)) :
    e.enterAll (requests ++ others) =
      ((e.enterAll requests).1 ++ ((e.enterAll requests).2.enterAll others).1,
        ((e.enterAll requests).2.enterAll others).2) := by
  induction requests generalizing e with
  | nil => rfl
  | cons request rest ih =>
    simp only [List.cons_append, enterAll, ih]

omit [DecidableEq τ] [DecidableEq κ] in
theorem length_enterAll (e : Exploration τ κ) (requests : List (ItemSet × Context)) :
    (e.enterAll requests).1.length = requests.length := by
  induction requests generalizing e with
  | nil => rfl
  | cons request rest ih =>
    simp only [enterAll, List.length_cons, ih]

omit [DecidableEq τ] [DecidableEq κ] in
theorem states_enterAll (e : Exploration τ κ) (requests : List (ItemSet × Context)) :
    (e.enterAll requests).2.states = e.states := by
  induction requests generalizing e with
  | nil => rfl
  | cons request rest ih =>
    simp only [enterAll, ih]
    unfold enter
    split
    · rfl
    · split
      · rfl
      · exact states_note ..

/-- The edges of shifts and gotos that have their numbers. -/
def edgesOf (shifts : List (τ × Nat)) (gotos : List (κ × Nat)) : List (Symbol τ κ × Nat) :=
  shifts.map (fun entry => (.terminal entry.1, entry.2)) ++
    gotos.map fun entry => (.nonterminal entry.1, entry.2)

omit [Ordered τ] [Ordered κ] [DecidableEq τ] [DecidableEq κ] in
theorem map_edgesOf_zip {α : Type} (f : Symbol τ κ → α) {ts : List τ} {keys : List κ}
    {shifted gone : List Nat} (shifts : ts.length ≤ shifted.length)
    (gotos : keys.length ≤ gone.length) :
    (edgesOf (ts.zip shifted) (keys.zip gone)).map (fun edge => f edge.1) =
      ts.map (fun t => f (.terminal t)) ++ keys.map fun key => f (.nonterminal key) := by
  conv_rhs => rw [← List.map_fst_zip shifts, ← List.map_fst_zip gotos]
  rw [edgesOf, List.map_append, List.map_map, List.map_map, List.map_map, List.map_map]
  rfl

/-- `Filled g e plan s edges e'` says that the state `s` was filled by the plan: its
edges lead to the sets behind the symbols of the plan, under the numbers that these sets
have got on the way from `e` to `e'`. -/
structure Filled (g : Grammar τ κ T N) (e : Exploration τ κ) (plan : Plan τ κ) (s : State τ κ)
    (edges : List (Symbol τ κ × Nat)) (e' : Exploration τ κ) : Prop where
  states : e'.states = e.states ++ [s]
  reducible : s.reducible = plan.reducible
  resolutions : s.resolutions = plan.resolutions
  symbols : edges.map Prod.fst = plan.symbols
  entered : e.enterAll (edges.map fun edge =>
    (g.advance s.items edge.1, s.passes g edge.1)) =
      (edges.map Prod.snd, { e' with states := e.states })
  next : ∀ symbol number, s.next? symbol = some number ↔ (symbol, number) ∈ edges
  reduces : ∀ t, t ∉ plan.shifts → s.actions.get? t = (plan.reductions.get? t).map .reduce

/-- A state is filled by its plan: the sets behind the shifts are entered first, then those
behind the gotos, and each edge gets the number of its set. -/
theorem exists_filled {g : Grammar τ κ T N} {follow : FollowSets τ κ} (e : Exploration τ κ)
    {items : ItemSet} {context : Context} {plan : Plan τ κ}
    (planned : g.Planned follow items context plan) :
    ∃ s edges, s.items = items ∧ s.context = context ∧
      Filled g e plan s edges (e.fill g items context plan) := by
  unfold fill Plan.state
  dsimp only
  have numbers := enterAll_append e (plan.shifts.toList.map fun t =>
    (g.advance items (.terminal t), Context.of (g.copyIn items t))) (plan.gotos.toList.map fun key =>
    (g.advance items (.nonterminal key), context))
  generalize isShifted : e.enterAll (plan.shifts.toList.map fun t =>
    (g.advance items (.terminal t), Context.of (g.copyIn items t))) = shifted at numbers
  generalize isGone : shifted.2.enterAll (plan.gotos.toList.map fun key =>
    (g.advance items (.nonterminal key), context)) = gone at numbers
  have shiftLength : shifted.1.length = plan.shifts.toList.length := by
    rw [← isShifted, length_enterAll, List.length_map]
  have gotoLength : gone.1.length = plan.gotos.toList.length := by
    rw [← isGone, length_enterAll, List.length_map]
  have kept : gone.2.states = e.states := by
    rw [← isGone, states_enterAll, ← isShifted, states_enterAll]
  have shiftKeys := List.map_fst_zip shiftLength.ge
  have gotoKeys := List.map_fst_zip gotoLength.ge
  -- an action is a numbered shift, or a reduction for a terminal that is not shifted
  have actions := fun t action => @get?_actionEntries τ _ _ (plan.shifts.toList.zip shifted.1)
    plan.reductions (by rw [shiftKeys]; exact plan.shifts.nodup_toList)
    (by rw [shiftKeys]; exact fun t place found => ((planned.reductions t place).mp found).2)
    t action
  have gotos := fun key number => @SortedMap.get?_ofList κ Nat _ _ (plan.gotos.toList.zip gone.1)
    (by rw [gotoKeys]; exact plan.gotos.nodup_toList) key number
  refine ⟨_, edgesOf (plan.shifts.toList.zip shifted.1) (plan.gotos.toList.zip gone.1), rfl, rfl,
    congrArg (· ++ _) kept, rfl, rfl, ?_, ?_, ?_, ?_⟩
  · exact map_edgesOf_zip id shiftLength.ge gotoLength.ge
  · have requests := map_edgesOf_zip (fun symbol => (g.advance items symbol, match symbol with
      | .terminal t => Context.of (g.copyIn items t)
      | _ => context)) shiftLength.ge gotoLength.ge
    refine (congrArg e.enterAll requests).trans (numbers.trans (Prod.ext ?_ ?_))
    · rw [edgesOf, List.map_append, List.map_map, List.map_map]
      exact congrArg₂ (· ++ ·) (List.map_snd_zip shiftLength.le).symm
        (List.map_snd_zip gotoLength.le).symm
    · rw [← kept]
  · intro symbol number
    cases symbol with
    | terminal t => simp [edgesOf, State.next?_terminal, actions]
    | nonterminal key => simpa [edgesOf, State.next?] using gotos key number
    | epsilon => simp [edgesOf, State.next?]
  · intro t unshifted
    have noNumber : ∀ number, (t, number) ∉ plan.shifts.toList.zip shifted.1 :=
      fun number member => unshifted (List.of_mem_zip member).1
    refine Option.ext fun action => ?_
    rw [actions t action, Option.map_eq_some_iff]
    constructor
    · rintro (⟨number, member, _⟩ | ⟨place, found, rfl⟩)
      · exact absurd member (noNumber number)
      · exact ⟨place, found, rfl⟩
    · rintro ⟨place, found, rfl⟩
      exact .inr ⟨place, found, rfl⟩

end Exploration

/-- What filling one state adds to an exploration. -/
structure Exploration.FilledNext (g : Grammar τ κ T N) (e : Exploration τ κ) (items : ItemSet)
    (context : Context) (plan : Plan τ κ) (e' : Exploration τ κ) : Prop where
  grows : ∃ added, e'.discovered = e.discovered ++ added
  nodup : e'.sets.Nodup
  state : ∃ s : State τ κ, e'.states = e.states ++ [s] ∧ s.items = items ∧ s.context = context ∧
    s.FilledBy g e'.sets plan ∧
    ∀ number entry, e'.discovered[number]? = some entry → e.discovered.length ≤ number →
      ∃ symbol, s.next? symbol = some number ∧
        entry = (g.advance items symbol, s.passes g symbol)

theorem Exploration.filledNext_fill {g : Grammar τ κ T N} {follow : FollowSets τ κ}
    {e : Exploration τ κ} (nodup : e.sets.Nodup) {items : ItemSet} {context : Context}
    {plan : Plan τ κ} (planned : g.Planned follow items context plan) :
    FilledNext g e items context plan (e.fill g items context plan) := by
  obtain ⟨s, edges, rfl, rfl, filled⟩ := exists_filled e planned
  generalize e.fill g s.items s.context plan = e' at filled
  have grown := grown_enterAll nodup (edges.map fun edge =>
    (g.advance s.items edge.1, s.passes g edge.1))
  rw [filled.entered] at grown
  -- the requests with their numbers are the edges
  have zipped : (edges.map fun edge => (g.advance s.items edge.1, s.passes g edge.1)).zip
      (edges.map Prod.snd) =
        edges.map fun edge =>
          ((g.advance s.items edge.1, s.passes g edge.1), edge.2) := List.zip_map'
  have known : ∀ symbol ∈ plan.symbols, ∃ number, s.next? symbol = some number ∧
      e'.sets[number]? = some (g.advance s.items symbol) := by
    intro symbol member
    rw [← filled.symbols, List.mem_map] at member
    obtain ⟨⟨symbol', number⟩, isEdge, rfl⟩ := member
    refine ⟨number, (filled.next _ _).mpr isEdge, ?_⟩
    refine grown.numbered (_, s.passes g symbol') number ?_
    rw [zipped]
    exact List.mem_map.mpr ⟨_, isEdge, rfl⟩
  refine ⟨grown.grows, grown.nodup, s, filled.states, rfl, rfl, ⟨filled.reducible,
    filled.resolutions, ?_, filled.reduces, ?_, ?_⟩, ?_⟩
  · intro t member
    obtain ⟨number, next, set⟩ := known (.terminal t)
      (List.mem_append_left _ (List.mem_map_of_mem member))
    exact ⟨number, State.next?_terminal.mp next, set⟩
  · intro key member
    exact known (.nonterminal key) (List.mem_append_right _ (List.mem_map_of_mem member))
  · intro key absent
    refine Option.eq_none_iff_forall_ne_some.mpr fun number found => ?_
    have isSymbol : .nonterminal key ∈ plan.symbols := by
      rw [← filled.symbols]
      exact List.mem_map_of_mem ((filled.next (.nonterminal key) number).mp found)
    rcases List.mem_append.mp isSymbol with h | h
    · obtain ⟨t, _, same⟩ := List.mem_map.mp h
      cases same
    · obtain ⟨key', member, same⟩ := List.mem_map.mp h
      exact absent (Symbol.nonterminal.inj same ▸ member)
  · intro number entry found new
    have inZip := grown.fresh number entry found new
    rw [zipped, List.mem_map] at inZip
    obtain ⟨⟨symbol, number'⟩, isEdge, same⟩ := inZip
    obtain ⟨rfl, rfl⟩ := Prod.mk.inj same
    exact ⟨symbol, (filled.next _ _).mpr isEdge, rfl⟩

theorem State.FilledBy.mem_shifts {s : State τ κ} {g : Grammar τ κ T N} {sets : List ItemSet}
    {plan : Plan τ κ} (filled : s.FilledBy g sets plan) {t : τ} {number : Nat}
    (shifts : s.actions.get? t = some (.shift number)) : t ∈ plan.shifts := by
  by_contra unshifted
  rw [filled.noShift t unshifted, Option.map_eq_some_iff] at shifts
  obtain ⟨place, _, isReduce⟩ := shifts
  cases isReduce

/-- The edges of a filled state are those of the symbols that it expects, and
lead to the sets behind them. -/
theorem State.FilledBy.of_next? {s : State τ κ} {g : Grammar τ κ T N} {follow : FollowSets τ κ}
    {sets : List ItemSet} {plan : Plan τ κ} (filled : s.FilledBy g sets plan)
    (planned : g.Planned follow s.items s.context plan) {symbol : Symbol τ κ} {number : Nat}
    (next : s.next? symbol = some number) :
    sets[number]? = some (g.advance s.items symbol) ∧
      ∃ item ∈ s.items, g.expected? item = some symbol := by
  cases symbol with
  | terminal t =>
    have action := State.next?_terminal.mp next
    have shifted := filled.mem_shifts action
    obtain ⟨number', action', known⟩ := filled.shift t shifted
    obtain rfl := Action.shift.inj (Option.some.inj (action.symm.trans action'))
    exact ⟨known, g.mem_expectedTerminals.mp ((planned.shifts t).mp shifted).1⟩
  | nonterminal key =>
    have goes : key ∈ plan.gotos := by
      by_contra stays
      exact absurd ((filled.noGoto key stays).symm.trans next) (Option.some_ne_none number).symm
    obtain ⟨number', next', known⟩ := filled.goto key goes
    obtain rfl := Option.some.inj (next.symm.trans next')
    rw [planned.gotos] at goes
    exact ⟨known, g.mem_expectedKeys.mp goes⟩
  | epsilon => cases next

/-! ### The invariant of an exploration -/

/-- What an exploration from the start set of a key knows: the sets it has
discovered are different, its states are filled and belong to the first of
them, and each set but the first was found behind an edge of a state. -/
structure Exploration.Explores (g : Grammar τ κ T N) (follow : FollowSets τ κ) (start : κ)
    (e : Exploration τ κ) : Prop where
  first : e.discovered[0]? = some (g.startSet start, .initial)
  nodup : e.sets.Nodup
  within : e.states.length ≤ e.discovered.length
  known : ∀ (number : Nat) (s : State τ κ), e.states[number]? = some s →
    e.discovered[number]? = some (s.items, s.context)
  filled : ∀ s ∈ e.states, g.Fills follow e.sets s
  origin : ∀ (number : Nat) (entry : ItemSet × Context), e.discovered[number + 1]? = some entry →
    ∃ (earlier : Nat) (s : State τ κ) (symbol : Symbol τ κ), earlier ≤ number ∧
      e.states[earlier]? = some s ∧ s.next? symbol = some (number + 1) ∧
      entry = (g.advance s.items symbol, s.passes g symbol)

namespace Exploration

variable {g : Grammar τ κ T N} {follow : FollowSets τ κ} {start : κ} {e : Exploration τ κ}

theorem explores_start : Explores g follow start (Exploration.start (g.startSet start)) where
  first := rfl
  nodup := List.nodup_singleton _
  within := Nat.zero_le _
  known := nofun
  filled := List.forall_mem_nil _
  origin := nofun

/-- Filling the next state keeps the invariant. -/
theorem Explores.fill (explores : Explores g follow start e) {items : ItemSet} {context : Context}
    {plan : Plan τ κ} (next : e.discovered[e.states.length]? = some (items, context))
    (planned : g.plan follow items context = .ok plan) :
    Explores g follow start (e.fill g items context plan) := by
  obtain ⟨⟨added, more⟩, nodup, s, states, rfl, rfl, filled, fresh⟩ :=
    filledNext_fill explores.nodup (g.planned_of_plan follow planned)
  generalize e.fill g s.items s.context plan = e' at more nodup states filled fresh
  -- what was known keeps its number
  have kept : ∀ {number : Nat} {entry : ItemSet × Context},
      e.discovered[number]? = some entry → e'.discovered[number]? = some entry := by
    intro number entry found
    rw [more, List.getElem?_append_left (List.getElem?_eq_some_iff.mp found).1, found]
  have keptSets : ∀ (number : Nat) (items : ItemSet), e.sets[number]? = some items →
      e'.sets[number]? = some items := by
    intro number items found
    rw [sets, List.getElem?_map, Option.map_eq_some_iff] at found ⊢
    exact found.imp fun entry h => ⟨kept h.1, h.2⟩
  have bound : e.states.length < e.discovered.length := (List.getElem?_eq_some_iff.mp next).1
  refine ⟨kept explores.first, nodup, ?_, ?_, ?_, ?_⟩
  · rw [states, more, List.length_append, List.length_append, List.length_singleton]
    omega
  · intro number s' found
    rw [states] at found
    by_cases old : number < e.states.length
    · rw [List.getElem?_append_left old] at found
      exact kept (explores.known number s' found)
    · have here := (List.getElem?_eq_some_iff.mp found).1
      rw [List.length_append, List.length_singleton] at here
      obtain rfl : number = e.states.length := by omega
      rw [List.getElem?_concat_length] at found
      obtain rfl := Option.some.inj found
      exact kept next
  · intro s' member
    rw [states] at member
    rcases List.mem_append.mp member with old | new
    · obtain ⟨plan', ok, fills⟩ := explores.filled s' old
      exact ⟨plan', ok, fills.mono keptSets⟩
    · obtain rfl := List.mem_singleton.mp new
      exact ⟨plan, planned, filled⟩
  · intro number entry found
    -- an old set keeps its origin, a new one comes from the state that was filled
    by_cases old : number + 1 < e.discovered.length
    · rw [more, List.getElem?_append_left old] at found
      obtain ⟨earlier, s', symbol, before, isState, edge, same⟩ :=
        explores.origin number entry found
      refine ⟨earlier, s', symbol, before, ?_, edge, same⟩
      rw [states, List.getElem?_append_left (List.getElem?_eq_some_iff.mp isState).1, isState]
    · obtain ⟨symbol, edge, same⟩ := fresh (number + 1) entry found (by omega)
      refine ⟨e.states.length, s, symbol, by omega, ?_, edge, same⟩
      rw [states, List.getElem?_concat_length]

/-- Every set discovered is behind some path of symbols. -/
theorem Explores.exists_path (explores : Explores g follow start e) {number : Nat}
    {items : ItemSet} {context : Context}
    (found : e.discovered[number]? = some (items, context)) :
    ∃ path, g.Reaches start path items := by
  induction number using Nat.strong_induction_on generalizing items context with
  | h number ih =>
    cases number with
    | zero =>
      obtain ⟨rfl, _⟩ := Prod.mk.inj (Option.some.inj (found.symm.trans explores.first))
      exact ⟨[], .start⟩
    | succ number =>
      obtain ⟨earlier, s, symbol, before, isState, edge, same⟩ := explores.origin number _ found
      obtain ⟨rfl, _⟩ := Prod.mk.inj same
      obtain ⟨path, reached⟩ := ih earlier (by omega) (explores.known earlier s isState)
      obtain ⟨plan, ok, filled⟩ := explores.filled s (List.mem_of_getElem? isState)
      obtain ⟨_, item, member, expected⟩ := filled.of_next? (g.planned_of_plan follow ok) edge
      exact ⟨_, .read reached member expected⟩

end Exploration

/-! ### The end of an exploration -/

namespace Exploration

variable {g : Grammar τ κ T N} {follow : FollowSets τ κ} {start : κ} {e : Exploration τ κ}

/-- Once every set has been filled, every set has its state. -/
theorem Explores.exists_state (explores : Explores g follow start e)
    (all : e.states.length = e.discovered.length) {number : Nat} {entry : ItemSet × Context}
    (found : e.discovered[number]? = some entry) :
    ∃ s : State τ κ, e.states[number]? = some s ∧ (s.items, s.context) = entry := by
  have bound : number < e.states.length := all ▸ (List.getElem?_eq_some_iff.mp found).1
  have isState := List.getElem?_eq_getElem bound
  exact ⟨_, isState, Option.some.inj ((explores.known number _ isState).symm.trans found)⟩

/-- Once every set has been filled, the states have the sets discovered. -/
theorem Explores.map_items (explores : Explores g follow start e)
    (all : e.states.length = e.discovered.length) : e.states.map State.items = e.sets := by
  refine List.ext_getElem? fun number => ?_
  rw [List.getElem?_map, sets, List.getElem?_map]
  cases found : e.discovered[number]? with
  | none =>
    rw [List.getElem?_eq_none_iff] at found
    rw [List.getElem?_eq_none_iff.mpr (all ▸ found)]
    rfl
  | some entry =>
    obtain ⟨s, isState, rfl⟩ := explores.exists_state all found
    rw [isState]
    rfl

/-- There are at most as many sets as there are sets of items. -/
theorem Explores.length_discovered_le (explores : Explores g follow start e) :
    e.discovered.length ≤ 2 ^ g.itemCount := by
  let content : ItemSet → Finset Item := fun items => items.toList.toFinset
  have injective : Function.Injective content := by
    intro items items' same
    refine SortedSet.ext fun item => ?_
    rw [← SortedSet.mem_toList, ← SortedSet.mem_toList, ← List.mem_toFinset, ← List.mem_toFinset]
    exact (congrArg (item ∈ ·) same).to_iff
  have inside : (e.sets.map content).toFinset ⊆ g.allItems.toFinset.powerset := by
    intro part member
    obtain ⟨items, isSet, rfl⟩ := List.mem_map.mp (List.mem_toFinset.mp member)
    obtain ⟨number, found⟩ := List.mem_iff_getElem?.mp isSet
    rw [sets, List.getElem?_map, Option.map_eq_some_iff] at found
    obtain ⟨⟨_, context⟩, found, rfl⟩ := found
    obtain ⟨path, reached⟩ := explores.exists_path found
    rw [Finset.mem_powerset]
    intro item member
    exact List.mem_toFinset.mpr (reached.mem_allItems (List.mem_toFinset.mp member))
  calc e.discovered.length = (e.sets.map content).length := by
        rw [List.length_map, sets, List.length_map]
    _ = (e.sets.map content).toFinset.card :=
        (List.toFinset_card_of_nodup (explores.nodup.map injective)).symm
    _ ≤ g.allItems.toFinset.powerset.card := Finset.card_le_card inside
    _ = 2 ^ g.allItems.toFinset.card := Finset.card_powerset _
    _ ≤ 2 ^ g.itemCount := by
        rw [← g.length_allItems]
        exact Nat.pow_le_pow_right (by decide) (List.toFinset_card_le _)

/-- An exploration with enough budget ends with every set filled, or at a set
without a plan. -/
theorem explores_run {budget : Nat} (explores : Explores g follow start e)
    (enough : 2 ^ g.itemCount ≤ budget + e.states.length) :
    Explores g follow start (run g follow budget e).1 ∧
      ((run g follow budget e).2 = none →
        (run g follow budget e).1.states.length = (run g follow budget e).1.discovered.length) ∧
      ∀ number obstacle, (run g follow budget e).2 = some (number, obstacle) →
        ∃ items context, (run g follow budget e).1.discovered[number]? = some (items, context) ∧
          g.plan follow items context = .error obstacle := by
  induction budget generalizing e with
  | zero =>
    refine ⟨explores, fun _ => ?_, nofun⟩
    have upper := explores.length_discovered_le
    have lower := explores.within
    simp only [run]
    omega
  | succ budget ih =>
    rw [run]
    split
    · rename_i last
      refine ⟨explores, fun _ => ?_, nofun⟩
      exact Nat.le_antisymm explores.within (List.getElem?_eq_none_iff.mp last)
    · rename_i items context next
      split
      · rename_i obstacle failed
        refine ⟨explores, nofun, fun number obstacle' blocked => ?_⟩
        obtain ⟨rfl, rfl⟩ := Prod.mk.inj (Option.some.inj blocked)
        exact ⟨items, context, next, failed⟩
      · rename_i plan ok
        have filled := explores.fill next ok
        apply ih filled
        obtain ⟨_, _, s, states, _⟩ :=
          filledNext_fill explores.nodup (g.planned_of_plan follow ok)
        rw [states, List.length_append, List.length_singleton]
        omega

end Exploration

/-- An exploration keeps its invariant to the end; it fills every set that it
discovers unless one has no plan. -/
theorem Grammar.explores_explore (g : Grammar τ κ T N) (follow : FollowSets τ κ) (start : κ) :
    (g.explore follow start).1.Explores g follow start ∧
      ((g.explore follow start).2 = none →
        (g.explore follow start).1.states.length =
          (g.explore follow start).1.discovered.length) ∧
      ∀ number obstacle, (g.explore follow start).2 = some (number, obstacle) →
        ∃ items context, (g.explore follow start).1.discovered[number]? = some (items, context) ∧
          g.plan follow items context = .error obstacle :=
  Exploration.explores_run Exploration.explores_start (Nat.le_add_right _ _)

end ShiftReduce
