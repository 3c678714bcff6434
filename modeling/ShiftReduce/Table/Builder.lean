/-
  The construction of the states of a grammar.

  A builder keeps three things side by side: all states that it knows of, filled or
  not; the number of the state of each item set; and the numbers of the states that
  are still to be filled. They have to agree: a set is looked up in the index, its
  first context in the state with the number found, and a state is filled when its
  number comes to the front of the queue.

  What a builder keeps in three places an exploration keeps in one list
  (`Exploration`); `Grammar.construct_eq` says that they come to the same states.
-/
import ShiftReduce.Table.Plan

namespace ShiftReduce

/-- A construction at work. -/
structure Builder (τ κ : Type) [Ordered τ] [Ordered κ] where
  /-- The states by number. -/
  arena : List (State τ κ) := []
  /-- The number of the state of an item set. -/
  index : SortedMap ItemSet Nat := ∅
  /-- The numbers of the states to be filled, the next one first. -/
  queue : List Nat := []
  mismatches : List Mismatch := []

variable {τ κ T N : Type} [Ordered τ] [Ordered κ] [DecidableEq τ] [DecidableEq κ]

namespace Builder

/-- The number of the state of an item set that is reached in a context. A new set
takes the next number and is queued; for a known one another context than its first
is noted. -/
def intern (b : Builder τ κ) (items : ItemSet) (context : Context) : Nat × Builder τ κ :=
  match b.index.get? items with
  | some number =>
    match b.arena[number]? with
    | some state =>
      (number, { b with mismatches := noteMismatch b.mismatches number state.context context })
    | none => (number, b)
  | none =>
    let number := b.arena.length
    (number,
      { b with
        arena := b.arena ++ [.unfilled items context]
        index := b.index.insert items number
        queue := b.queue ++ [number] })

/-- A builder that knows the start set, and is to fill its state. -/
def start (items : ItemSet) : Builder τ κ := (({} : Builder τ κ).intern items .initial).2

/-- The numbers of several item sets, interned one after the other. -/
def internAll (b : Builder τ κ) : List (ItemSet × Context) → List Nat × Builder τ κ
  | [] => ([], b)
  | (items, context) :: rest =>
    let interned := b.intern items context
    let others := interned.2.internAll rest
    (interned.1 :: others.1, others.2)

/-- Fills the state with a number by its plan. The sets behind its shifts are
interned first, in terminal order, each in the context of its terminal; then those
behind its gotos, in key order, in the context of the state. -/
def fill (g : Grammar τ κ T N) (b : Builder τ κ) (number : Nat) (items : ItemSet)
    (context : Context) (plan : Plan τ κ) : Builder τ κ :=
  let shifted := b.internAll (plan.shifts.toList.map fun t =>
    (g.advance items (.terminal t), Context.of (g.copyIn items t)))
  let gone := shifted.2.internAll (plan.gotos.toList.map fun key =>
    (g.advance items (.nonterminal key), context))
  { gone.2 with
    arena := gone.2.arena.set number (plan.state items context shifted.1 gone.1) }

/-- Fills the states in the queue until it is empty, or until a state has no plan;
then the number of that state and the obstacle are told. -/
def run (g : Grammar τ κ T N) (follow : FollowSets τ κ) :
    Nat → Builder τ κ → Builder τ κ × Option (Nat × Obstacle τ)
  | 0, b => (b, none)
  | budget + 1, b =>
    match b.queue with
    | [] => (b, none)
    | number :: queue =>
      match b.arena[number]? with
      | none => (b, none)
      | some state =>
        match g.plan follow state.items state.context with
        | .error obstacle => (b, some (number, obstacle))
        | .ok plan =>
          run g follow budget
            (fill g { b with queue := queue } number state.items state.context plan)

end Builder

/-- The number of items of a grammar: one for each place in each rule. -/
def Grammar.itemCount (g : Grammar τ κ T N) : Nat :=
  g.rules.foldl (fun count rule => count + (rule.length + 1)) 0

/-- The construction from the start set of a key, with the obstacle that ended it
early, if any. Every step fills one more state, so as many steps as there are sets
of items are enough. -/
def Grammar.construct (g : Grammar τ κ T N) (follow : FollowSets τ κ) (start : κ) :
    Builder τ κ × Option (Nat × Obstacle τ) :=
  Builder.run g follow (Nat.pow 2 g.itemCount)
    (.start (g.startSet start))

end ShiftReduce
