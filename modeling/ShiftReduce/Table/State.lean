/-
  The states of a parser: what each does on every terminal and nonterminal,
  and the precedence it was entered with.

  A state that could both shift a terminal and reduce before it is settled by
  precedence (`Context.prefersShift`). Each such choice is kept in the state
  (`State.resolutions`), so that what was decided can be told.
-/
import ShiftReduce.Item

namespace ShiftReduce

/-- The precedence and associativity that a state was entered with: those of
the operator that the parser has last gone past. -/
structure Context where
  precedence : Int
  assoc : Assoc
deriving DecidableEq, Repr

namespace Context

/-- The context of the start state: precedence zero, associating to the left. -/
def initial : Context := ⟨0, .left⟩

instance : Inhabited Context := ⟨initial⟩

/-- The context that shifting a terminal leads to. -/
def of {T : Type} (terminal : Terminal T) : Context := ⟨terminal.precedence, terminal.assoc⟩

/-- Whether shifting a terminal comes before a reduction: it binds tighter
than the context, or as tight and to the right. -/
def prefersShift {T : Type} (context : Context) (terminal : Terminal T) : Bool :=
  terminal.precedence > context.precedence ||
    (terminal.precedence = context.precedence && terminal.assoc = .right)

/-- The context in the form `precedence/associativity`. -/
def text (context : Context) : String :=
  toString context.precedence ++ "/" ++ context.assoc.name

end Context

/-- What a state does on a terminal. -/
inductive Action where
  /-- Take the token and enter a state. -/
  | shift (state : Nat)
  /-- Reduce by a rule and leave the token. -/
  | reduce (rule : Nat)
deriving DecidableEq, Repr

/-- A terminal on which a state could shift as well as reduce by a rule, and
whether the shift was kept. -/
structure Resolution (τ : Type) where
  terminal : τ
  rule : Nat
  shifts : Bool
deriving DecidableEq, Repr

/-- One state of a parser. -/
structure State (τ κ : Type) [Ordered τ] [Ordered κ] where
  items : ItemSet
  context : Context
  actions : SortedMap τ Action
  gotos : SortedMap κ Nat
  /-- The rules that are read completely, in item order. -/
  reducible : List Nat
  resolutions : List (Resolution τ)

namespace State

variable {τ κ T : Type} [Ordered τ] [Ordered κ]

/-- The state of an item set that is still to be filled. -/
def unfilled (items : ItemSet) (context : Context) : State τ κ :=
  { items := items
    context := context
    actions := ∅
    gotos := ∅
    reducible := []
    resolutions := [] }

/-- The first action, in terminal order, whose terminal accepts a token. -/
def actionFor? (alphabet : τ → Terminal T) (state : State τ κ) (token : T) : Option (τ × Action) :=
  state.actions.entries.find? fun entry => (alphabet entry.1).accepts token

/-- The names of the terminals that the state acts on. -/
def expected (alphabet : τ → Terminal T) (state : State τ κ) : List String :=
  state.actions.keys.map fun t => (alphabet t).name

end State

/-- A state that was reached again, in another context than the first. -/
structure Mismatch where
  state : Nat
  first : Context
  second : Context
deriving DecidableEq, Repr

/-- Notes that a state was reached in another context than its first, once for
each such context. -/
def noteMismatch (mismatches : List Mismatch) (state : Nat) (first second : Context) :
    List Mismatch :=
  if first = second ∨ mismatches.any fun m => m.state = state && m.second = second then mismatches
  else mismatches ++ [⟨state, first, second⟩]

end ShiftReduce
