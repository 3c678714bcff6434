/-
  Recovery from a syntax error.

  The stack is unwound to the topmost state that goes on at a key with a
  placeholder, tokens are skipped up to one that can come after that key, and
  the placeholder is put in place of the text that could not be read.
-/
import ShiftReduce.Parser.Machine

namespace ShiftReduce

variable {τ κ T N : Type} [Ordered τ] [Ordered κ] [DecidableEq τ] [DecidableEq κ]

/-- A place to recover at: a key, the tree that stands in for its text, and
the state entered over it. -/
structure Foothold (κ T N : Type) where
  key : κ
  placeholder : Tree T N
  target : Nat

/-- How an attempt to recover ends. -/
inductive Rescue (κ T N : Type) where
  /-- No state on the stack has a foothold. -/
  | noFoothold
  /-- The stack was unwound, but no token can come after the key. -/
  | noInput (stack : Stack T N) (foothold : Foothold κ T N)
  /-- The stack was unwound and some tokens skipped; `rest` starts with a
  token that can come after the key. -/
  | found (stack : Stack T N) (foothold : Foothold κ T N) (skipped : Nat) (rest : List T)

namespace Table

/-- The foothold of a state: the first key with a placeholder, in the order of
registration, at which it goes on. -/
def foothold? (table : Table τ κ T N) (state : Nat) : Option (Foothold κ T N) :=
  table.placeholders.findSome? fun entry =>
    (table.goto? state entry.1).map fun target => ⟨entry.1, entry.2, target⟩

/-- Takes frames away until the state on top has a foothold. -/
def unwind? (table : Table τ κ T N) (start : Nat) :
    List (Frame T N) → Option (Stack T N × Foothold κ T N)
  | [] => (table.foothold? start).map fun foothold => (⟨start, []⟩, foothold)
  | frame :: below =>
    match table.foothold? frame.state with
    | some foothold => some (⟨start, frame :: below⟩, foothold)
    | none => table.unwind? start below

/-- Unwinds the stack and skips the tokens that cannot come after the key. -/
def rescue (table : Table τ κ T N) (stack : Stack T N) (input : List T) : Rescue κ T N :=
  match table.unwind? stack.start stack.frames with
  | none => .noFoothold
  | some (unwound, foothold) =>
    let rest := input.dropWhile fun token => !table.canFollow foothold.key token
    if rest.isEmpty then .noInput unwound foothold
    else .found unwound foothold (input.length - rest.length) rest

end Table

end ShiftReduce
