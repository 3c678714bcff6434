/-
  A builder comes to the states of the exploration.

  The three parts of a builder agree with the one list of an exploration
  (`Builder.Holds`): the states are those of the list, the index has its numbers,
  and in the queue are the numbers from the first on that has not been taken.
  Interning a set keeps them in agreement, since an item set is found in the index
  under the number of its place in the list (`get?_index`). So does filling a state,
  and by induction a whole construction (`Grammar.construct_eq`). So a table has the
  states of the exploration (`Grammar.table_eq`).
-/
import ShiftReduce.Proofs.Table.Exploration
import ShiftReduce.Table.Basic

namespace ShiftReduce

variable {τ κ T N : Type} [Ordered τ] [Ordered κ]

namespace Exploration

/-- The numbers of the sets discovered. -/
def index (e : Exploration τ κ) : SortedMap ItemSet Nat := .ofList e.sets.zipIdx

theorem number?_eq_some_iff {e : Exploration τ κ} (nodup : e.sets.Nodup) {items : ItemSet}
    {number : Nat} : e.number? items = some number ↔ e.sets[number]? = some items := by
  rw [number?, List.findIdx?_eq_some_iff_getElem]
  constructor
  · rintro ⟨within, same, _⟩
    rw [sets, List.getElem?_map, List.getElem?_eq_getElem within, Option.map_some,
      of_decide_eq_true same]
  · intro found
    have isSet := found
    rw [sets, List.getElem?_map, Option.map_eq_some_iff] at isSet
    obtain ⟨entry, isEntry, rfl⟩ := isSet
    obtain ⟨within, rfl⟩ := List.getElem?_eq_some_iff.mp isEntry
    refine ⟨within, decide_eq_true rfl, fun earlier before same => ?_⟩
    -- the set would be there twice
    have again : e.sets[earlier]? = some e.discovered[number].1 := by
      rw [sets, List.getElem?_map, List.getElem?_eq_getElem (by omega), Option.map_some,
        of_decide_eq_true same]
    have one := place_unique nodup again found
    omega

/-- A set is in the index with the number of its place. -/
theorem get?_index {e : Exploration τ κ} (nodup : e.sets.Nodup) (items : ItemSet) :
    e.index.get? items = e.number? items := by
  have places : (e.sets.zipIdx.map Prod.fst).Nodup := by
    rw [List.zipIdx_map_fst]
    exact nodup
  refine Option.ext fun number => ?_
  rw [index, SortedMap.get?_ofList places, List.mem_zipIdx_iff_getElem?,
    number?_eq_some_iff nodup]

theorem index_concat (e : Exploration τ κ) (items : ItemSet) (context : Context) :
    ({ e with discovered := e.discovered ++ [(items, context)] } : Exploration τ κ).index =
      e.index.insert items e.discovered.length := by
  rw [index, sets, List.map_append, List.map_singleton, List.zipIdx_append, List.length_map,
    Nat.zero_add, SortedMap.ofList, SortedMap.insertAll, List.foldl_append]
  rfl

end Exploration

namespace Builder

/-- `b.Holds e taken` says that a builder knows what an exploration knows, where so
many states have been taken from the queue. -/
structure Holds (b : Builder τ κ) (e : Exploration τ κ) (taken : Nat) : Prop where
  entries : b.arena.map (fun s => (s.items, s.context)) = e.discovered
  filled : b.arena.take e.states.length = e.states
  index : b.index = e.index
  queue : b.queue = List.range' taken (e.discovered.length - taken)
  mismatches : b.mismatches = e.mismatches

variable {b : Builder τ κ} {e : Exploration τ κ} {taken : Nat}

/-- A builder and an exploration start with the same. -/
theorem holds_start (items : ItemSet) :
    (start items : Builder τ κ).Holds (.start items) 0 := ⟨rfl, rfl, rfl, rfl, rfl⟩

theorem Holds.length (holds : b.Holds e taken) : b.arena.length = e.discovered.length := by
  rw [← holds.entries, List.length_map]

theorem Holds.getElem? (holds : b.Holds e taken) (number : Nat) :
    e.discovered[number]? = (b.arena[number]?).map fun s => (s.items, s.context) := by
  rw [← holds.entries, List.getElem?_map]

/-- Interning a set is entering it. -/
theorem Holds.intern (holds : b.Holds e taken) (nodup : e.sets.Nodup)
    (within : taken ≤ e.discovered.length) (items : ItemSet) (context : Context) :
    (b.intern items context).1 = (e.enter items context).1 ∧
      (b.intern items context).2.Holds (e.enter items context).2 taken := by
  have found : b.index.get? items = e.number? items := by
    rw [holds.index, Exploration.get?_index nodup]
  rw [Builder.intern, Exploration.enter, found]
  cases e.number? items with
  | some number =>
    dsimp only
    rw [holds.getElem? number]
    cases b.arena[number]? with
    | none => exact ⟨rfl, holds⟩
    | some s =>
      refine ⟨rfl, holds.entries, holds.filled, holds.index, holds.queue, ?_⟩
      exact congrArg (noteMismatch · number s.context context) holds.mismatches
  | none =>
    -- the set is new to the index, and so to the list
    have count := holds.length
    have known : e.states.length ≤ b.arena.length := by
      have short := congrArg List.length holds.filled
      rw [List.length_take] at short
      omega
    refine ⟨holds.length, ?_, ?_, ?_, ?_, holds.mismatches⟩
    · rw [List.map_append, holds.entries]
      rfl
    · exact (List.take_append_of_le_length known).trans holds.filled
    · exact (congrArg₂ (SortedMap.insert · items ·) holds.index count).trans
        (e.index_concat items context).symm
    · rw [List.length_append, List.length_singleton, Nat.sub_add_comm within, List.range'_concat,
        holds.queue, count, Nat.one_mul, Nat.add_sub_cancel' within]

/-- Interning sets one after the other is entering them. -/
theorem Holds.internAll (holds : b.Holds e taken) (nodup : e.sets.Nodup)
    (within : taken ≤ e.discovered.length) (requests : List (ItemSet × Context)) :
    (b.internAll requests).1 = (e.enterAll requests).1 ∧
      (b.internAll requests).2.Holds (e.enterAll requests).2 taken := by
  induction requests generalizing b e with
  | nil => exact ⟨rfl, holds⟩
  | cons request rest ih =>
    obtain ⟨items, context⟩ := request
    obtain ⟨first, holds'⟩ := holds.intern nodup within items context
    have grown := Exploration.grown_enter nodup items context
    obtain ⟨added, more⟩ := grown.grows
    have within' : taken ≤ (e.enter items context).2.discovered.length := by
      rw [more, List.length_append]
      omega
    obtain ⟨others, holds''⟩ := ih holds' grown.nodup within'
    exact ⟨congrArg₂ List.cons first others, holds''⟩

/-- The state that a builder takes next is the next one of the exploration. -/
theorem Holds.next (holds : b.Holds e e.states.length) {entry : ItemSet × Context}
    (next : e.discovered[e.states.length]? = some entry) :
    ∃ queue s, b.queue = e.states.length :: queue ∧ b.arena[e.states.length]? = some s ∧
      (s.items, s.context) = entry ∧
      { b with queue := queue }.Holds e (e.states.length + 1) := by
  have within := (List.getElem?_eq_some_iff.mp next).1
  obtain ⟨more, count⟩ : ∃ more, e.discovered.length - e.states.length = more + 1 :=
    ⟨e.discovered.length - (e.states.length + 1), by omega⟩
  obtain ⟨s, isState, same⟩ :=
    Option.map_eq_some_iff.mp ((holds.getElem? e.states.length).symm.trans next)
  have queue := holds.queue
  rw [count, List.range'_succ] at queue
  refine ⟨_, s, queue, isState, same, holds.entries, holds.filled, holds.index, ?_,
    holds.mismatches⟩
  rw [show more = e.discovered.length - (e.states.length + 1) by omega]

/-- A builder has nothing left to fill when the exploration has not. -/
theorem Holds.queue_eq_nil (holds : b.Holds e e.states.length)
    (last : e.discovered[e.states.length]? = none) : b.queue = [] := by
  rw [holds.queue, Nat.sub_eq_zero_of_le (List.getElem?_eq_none_iff.mp last)]
  rfl

/-- Setting the state that was taken last fills it. -/
theorem Holds.set {number : Nat} (holds : b.Holds e (number + 1))
    (filled : e.states.length = number) {s : State τ κ}
    (next : e.discovered[number]? = some (s.items, s.context)) :
    { b with arena := b.arena.set number s }.Holds { e with states := e.states ++ [s] }
      (e.states ++ [s]).length := by
  subst filled
  obtain ⟨bound, same⟩ := List.getElem?_eq_some_iff.mp next
  have inside : e.states.length < b.arena.length := by rwa [holds.length]
  refine ⟨?_, ?_, holds.index, ?_, holds.mismatches⟩
  · rw [List.map_set, holds.entries, ← same, List.set_getElem_self]
  · dsimp only
    rw [List.length_append, List.length_singleton, List.take_set, List.take_add_one,
      holds.filled, List.getElem?_eq_getElem inside, Option.toList_some,
      List.set_append_right _ _ (Nat.le_refl _), Nat.sub_self, List.set_cons_zero]
  · rw [List.length_append, List.length_singleton]
    exact holds.queue

variable [DecidableEq τ] [DecidableEq κ] {g : Grammar τ κ T N} {follow : FollowSets τ κ}

/-- Filling the state that was taken last is filling the next state. -/
theorem Holds.fill (holds : b.Holds e (e.states.length + 1)) (nodup : e.sets.Nodup)
    {items : ItemSet} {context : Context}
    (next : e.discovered[e.states.length]? = some (items, context)) (plan : Plan τ κ) :
    (b.fill g e.states.length items context plan).Holds (e.fill g items context plan)
      (e.fill g items context plan).states.length ∧
    (e.fill g items context plan).sets.Nodup := by
  have within := (List.getElem?_eq_some_iff.mp next).1
  unfold Builder.fill Exploration.fill
  dsimp only
  generalize (plan.shifts.toList.map fun t =>
    (g.advance items (.terminal t), Context.of (g.copyIn items t))) = shifts
  generalize (plan.gotos.toList.map fun key =>
    (g.advance items (.nonterminal key), context)) = gotos
  have shifted := Exploration.grown_enterAll nodup shifts
  obtain ⟨numbers, holdsShifted⟩ := holds.internAll nodup within shifts
  obtain ⟨added, more⟩ := shifted.grows
  have within' : e.states.length + 1 ≤ (e.enterAll shifts).2.discovered.length := by
    rw [more, List.length_append]
    omega
  have gone := Exploration.grown_enterAll shifted.nodup gotos
  obtain ⟨numbers', holdsGone⟩ := holdsShifted.internAll shifted.nodup within' gotos
  -- no state has been filled meanwhile, and the set of this one is still in its place
  have filled := congrArg List.length (gone.states.trans shifted.states)
  have place := gone.discovered_of_discovered within'
  rw [shifted.discovered_of_discovered within, next] at place
  rw [numbers, numbers']
  exact ⟨holdsGone.set filled place, gone.nodup⟩

/-- A construction goes as the exploration goes. -/
theorem Holds.run (holds : b.Holds e e.states.length) (nodup : e.sets.Nodup) (budget : Nat) :
    (run g follow budget b).2 = (Exploration.run g follow budget e).2 ∧
      (run g follow budget b).1.Holds (Exploration.run g follow budget e).1
        (Exploration.run g follow budget e).1.states.length := by
  induction budget generalizing b e with
  | zero => exact ⟨rfl, holds⟩
  | succ budget ih =>
    rw [Builder.run, Exploration.run]
    cases next : e.discovered[e.states.length]? with
    | none =>
      rw [holds.queue_eq_nil next]
      exact ⟨rfl, holds⟩
    | some entry =>
      obtain ⟨queue, s, isQueue, isState, rfl, taken⟩ := holds.next next
      rw [isQueue]
      dsimp only
      rw [isState]
      dsimp only
      cases g.plan follow s.items s.context with
      | error obstacle => exact ⟨rfl, holds⟩
      | ok plan =>
        obtain ⟨filled, nodup'⟩ := taken.fill nodup next plan
        exact ih filled nodup'

end Builder

/-- A construction ends as the exploration ends, and with what it knows. -/
theorem Grammar.construct_eq [DecidableEq τ] [DecidableEq κ] (g : Grammar τ κ T N)
    (follow : FollowSets τ κ) (start : κ) :
    (g.construct follow start).2 = (g.explore follow start).2 ∧
      (g.construct follow start).1.Holds (g.explore follow start).1
        (g.explore follow start).1.states.length :=
  (Builder.holds_start (g.startSet start)).run (List.nodup_singleton _) _

/-- The table of a grammar is made of its exploration. -/
theorem Grammar.table_eq [DecidableEq τ] [DecidableEq κ] (g : Grammar τ κ T N) (start : κ)
    (placeholders : List (κ × Tree T N)) :
    g.table start placeholders =
      if ¬ g.defines start then .error (.unknownStart start)
      else
        match (registerPlaceholders placeholders).find? fun entry => ¬ g.defines entry.1 with
        | some entry => .error (.unknownPlaceholder entry.1)
        | none =>
          match g.explore g.followSets start with
          | (_, some (state, obstacle)) => .error (.blocked state obstacle)
          | (explored, none) =>
            .ok ⟨g, g.symbolSets, explored.states, explored.index, start,
              registerPlaceholders placeholders, explored.mismatches⟩ := by
  obtain ⟨ends, holds⟩ := g.construct_eq g.followSets start
  obtain ⟨_, complete, _⟩ := g.explores_explore g.followSets start
  unfold Grammar.table
  rw [Grammar.followSets] at ends holds complete ⊢
  dsimp only
  generalize g.construct g.symbolSets.followers start = built at ends holds
  generalize g.explore g.symbolSets.followers start = explored at ends holds complete
  obtain ⟨built, ended⟩ := built
  obtain ⟨explored, ended'⟩ := explored
  dsimp only at ends holds complete
  subst ends
  cases ended with
  | some blocked => rfl
  | none =>
    -- every state has been filled, so what is filled is all there is
    have all := holds.filled
    rw [complete rfl, ← holds.length, List.take_length] at all
    cases (registerPlaceholders placeholders).find? fun entry => ¬ g.defines entry.1 with
    | some entry => rfl
    | none =>
      dsimp only
      rw [all, holds.index, holds.mismatches]

end ShiftReduce
