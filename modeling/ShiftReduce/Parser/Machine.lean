/-
  The parser as a machine: a stack of states and nodes, the tokens to come,
  and the record of what has happened.
-/
import ShiftReduce.Table.Basic
import ShiftReduce.Parser.Diagnostic

namespace ShiftReduce

/-! ### Stacks -/

/-- A node on the stack with the state that was entered over it. -/
structure Frame (T N : Type) where
  node : Tree T N
  state : Nat

/-- A parser's stack: the state that it starts in, and over it the frames, the
topmost first. -/
structure Stack (T N : Type) where
  start : Nat
  frames : List (Frame T N)

namespace Stack

variable {T N : Type}

/-- The stack with no frames. -/
def base (start : Nat) : Stack T N := ⟨start, []⟩

/-- The state on top. -/
def top (stack : Stack T N) : Nat := ((stack.frames.head?).map Frame.state).getD stack.start

/-- The node on top. -/
def topNode? (stack : Stack T N) : Option (Tree T N) := (stack.frames.head?).map Frame.node

/-- Puts a node on top and enters a state over it. -/
def push (stack : Stack T N) (node : Tree T N) (state : Nat) : Stack T N :=
  { stack with frames := ⟨node, state⟩ :: stack.frames }

/-- Takes away the topmost frames. -/
def drop (stack : Stack T N) (count : Nat) : Stack T N :=
  { stack with frames := stack.frames.drop count }

/-- The nodes of the topmost frames, the lowest first. -/
def topNodes (stack : Stack T N) (count : Nat) : List (Tree T N) :=
  ((stack.frames.take count).map Frame.node).reverse

/-- All nodes, the lowest first. -/
def nodes (stack : Stack T N) : List (Tree T N) := (stack.frames.map Frame.node).reverse

/-- All states, the start state first. -/
def states (stack : Stack T N) : List Nat :=
  stack.start :: (stack.frames.map Frame.state).reverse

end Stack

/-! ### Records of a run -/

/-- What a parser has done so far. -/
structure Stats where
  tokens : Nat := 0
  shifts : Nat := 0
  reductions : Nat := 0
  recoveries : Nat := 0
deriving DecidableEq, Repr, Inhabited

/-- The statistics as a record. -/
def Stats.record (stats : Stats) : String :=
  Text.record "ParserStats"
    [("tokens", toString stats.tokens), ("shifts", toString stats.shifts),
      ("reductions", toString stats.reductions), ("recoveries", toString stats.recoveries)]

/-- What a recorded step is about. -/
inductive Operation where
  | shift (state : Nat)
  | reduce (rule : Nat)
  | accept
  | recover (success : Bool)
deriving DecidableEq, Repr

/-- A configuration of the parser: of a shift, a reduction or an acceptance
the one before it is applied, of a recovery the one that it ends with. -/
structure Snapshot (T N : Type) where
  nodes : List (Tree T N)
  states : List Nat
  input : List T
  operation : Operation

/-! ### Machines -/

/-- A parser at work. -/
structure Machine (T N : Type) where
  stack : Stack T N
  input : List T
  stats : Stats := {}
  diagnostics : List Diagnostic := []
  /-- How many tokens were left after the last recovery. -/
  lastRecovery : Option Nat := none
  /-- The steps recorded so far, the latest first, if steps are recorded. -/
  history : Option (List (Snapshot T N)) := none

namespace Machine

variable {T N : Type}

/-- Records a step, if steps are recorded. -/
def record (m : Machine T N) (snapshot : Machine T N → Snapshot T N) : Machine T N :=
  match m.history with
  | none => m
  | some steps => { m with history := some (snapshot m :: steps) }

/-- The current configuration, at an operation. -/
def snapshot (operation : Operation) (m : Machine T N) : Snapshot T N :=
  ⟨m.stack.nodes, m.stack.states, m.input, operation⟩

/-- The configuration of a recovery that has taken everything from the stack,
the start state as well. -/
def emptied (m : Machine T N) : Snapshot T N := ⟨[], [], m.input, .recover false⟩

/-- Adds a diagnostic. -/
def report (m : Machine T N) (diagnostic : Diagnostic) : Machine T N :=
  { m with diagnostics := m.diagnostics ++ [diagnostic] }

/-- The recorded steps in order. -/
def trace (m : Machine T N) : List (Snapshot T N) := (m.history.getD []).reverse

end Machine

end ShiftReduce
