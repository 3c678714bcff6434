/-
  The run of a parser: one step at a time until the goal is on top of the
  stack at the end of the input, or until recovery fails.

  The end of the input is no terminal. There a state reduces if exactly one
  rule has been read completely, and the node on top is accepted as soon as it
  is of the kind asked for, whatever lies below it.
-/
import ShiftReduce.Parser.Recovery

namespace ShiftReduce

variable {τ κ T N : Type} [Ordered τ] [Ordered κ] [DecidableEq τ] [DecidableEq κ] [DecidableEq N]

/-- What a parser does next. -/
inductive Move (τ κ T N : Type) where
  /-- Take the next token and enter a state. -/
  | shift (token : T) (state : Nat)
  /-- Reduce by the rule at a place. -/
  | reduce (place : Nat) (rule : Rule τ κ T N)
  /-- Accept the tree on top. -/
  | accept (tree : Tree T N)
  /-- Report an error and try to recover. -/
  | recover

/-- The result of one step. -/
inductive Step (T N : Type) where
  | next (machine : Machine T N)
  | accepted (tree : Tree T N) (machine : Machine T N)
  | aborted (machine : Machine T N)

/-- How a run ends. An aborted run tells every diagnostic there is, the last
one giving the reason; a run that has used up its budget is unfinished. -/
inductive Outcome (T N : Type) where
  | accepted (tree : Tree T N)
  | aborted (diagnostics : List Diagnostic)
  | unfinished
deriving DecidableEq

namespace Table

/-! ### One step -/

/-- The move of reducing by the rule at a place; a place outside the grammar
leaves nothing to be done but to recover. -/
def reduction (table : Table τ κ T N) (place : Nat) : Move τ κ T N :=
  match table.grammar.rule? place with
  | some rule => .reduce place rule
  | none => .recover

/-- The move at the end of the input, by the state and the node on top. -/
def choiceAtEnd (table : Table τ κ T N) (goal : N) (top : Nat) (node? : Option (Tree T N)) :
    Move τ κ T N :=
  match node?.filter fun tree => tree.kind? = some goal with
  | some tree => .accept tree
  | none =>
    match table.reducible top with
    | [place] => table.reduction place
    | _ => .recover

/-- The move on a token, by the state on top. -/
def choiceOn (table : Table τ κ T N) (top : Nat) (token : T) : Move τ κ T N :=
  match table.actionFor? top token with
  | some (_, .shift state) => .shift token state
  | some (_, .reduce place) => table.reduction place
  | none => .recover

/-- The move by what is on top and the tokens to come. -/
def choice (table : Table τ κ T N) (goal : N) (top : Nat) (node? : Option (Tree T N)) :
    List T → Move τ κ T N
  | [] => table.choiceAtEnd goal top node?
  | token :: _ => table.choiceOn top token

/-- The move at the end of the input. -/
def moveAtEnd (table : Table τ κ T N) (goal : N) (stack : Stack T N) : Move τ κ T N :=
  table.choiceAtEnd goal stack.top stack.topNode?

/-- The move on a token. -/
def moveOn (table : Table τ κ T N) (stack : Stack T N) (token : T) : Move τ κ T N :=
  table.choiceOn stack.top token

/-- The move of a machine. -/
def move (table : Table τ κ T N) (goal : N) (stack : Stack T N) : List T → Move τ κ T N
  | [] => table.moveAtEnd goal stack
  | token :: _ => table.moveOn stack token

/-- Takes the nodes of a rule's body from the stack and puts the node that the
rule builds in their place. -/
def reduceStack [Named κ] [Token T] (table : Table τ κ T N) (rule : Rule τ κ T N)
    (stack : Stack T N) : Except Diagnostic (Stack T N) :=
  let text := rule.text table.grammar.alphabet
  if stack.frames.length < rule.length then .error (.underflow text stack.frames.length)
  else
    let below := stack.drop rule.length
    let node := rule.build (stack.topNodes rule.length)
    match table.goto? below.top rule.key with
    | some state => .ok (below.push node state)
    | none => .error (.noGoto text (Named.name rule.key) node.span?)

/-- Recovery at the end of the input, which always fails. -/
def recoverAtEnd [Token T] (table : Table τ κ T N) (m : Machine T N) : Step T N :=
  let last := (m.stack.topNode?.bind Tree.lastToken?).map fun token =>
    (Token.text token, Token.span token)
  .aborted <| ((m.report (.unexpectedEnd last (table.expected m.stack.top))).record
    (Machine.snapshot (.recover false))).report .inputExhausted

/-- Recovery at a token. It is given up where the last recovery had left the
same token, since it would only do the same again. -/
def recoverAt [Named κ] [Token T] (table : Table τ κ T N) (m : Machine T N) (token : T) :
    Step T N :=
  let span := Token.span token
  let m := m.report (.unexpectedToken (Token.text token) span (table.expected m.stack.top))
  if m.lastRecovery = some m.input.length then
    .aborted ((m.record (Machine.snapshot (.recover false))).report (.noProgress span))
  else
    match table.rescue m.stack m.input with
    | .noFoothold =>
      .aborted ((m.record Machine.emptied).report (.noRecoverableState span))
    | .noInput stack foothold =>
      let m := { m with stack := stack, input := [] }
      .aborted ((m.record (Machine.snapshot (.recover false))).report
        (.noFollowableInput (Named.name foothold.key) span))
    | .found stack foothold skipped rest =>
      let m :=
        { m with
          stack := stack.push foothold.placeholder foothold.target
          input := rest
          stats :=
            { m.stats with
              tokens := m.stats.tokens + skipped
              recoveries := m.stats.recoveries + 1 }
          lastRecovery := some rest.length }
      .next (m.record (Machine.snapshot (.recover true)))

/-- One step of a machine towards a node of the kind `goal`. -/
def step [Named κ] [Token T] (table : Table τ κ T N) (goal : N) (m : Machine T N) : Step T N :=
  match table.move goal m.stack m.input with
  | .accept tree => .accepted tree (m.record (Machine.snapshot .accept))
  | .shift token state =>
    let m := m.record (Machine.snapshot (.shift state))
    .next
      { m with
        stack := m.stack.push (.leaf token) state
        input := m.input.tail
        stats := { m.stats with tokens := m.stats.tokens + 1, shifts := m.stats.shifts + 1 } }
  | .reduce place rule =>
    let m := m.record (Machine.snapshot (.reduce place))
    match table.reduceStack rule m.stack with
    | .error diagnostic => .aborted (m.report diagnostic)
    | .ok stack =>
      .next
        { m with
          stack := stack
          stats := { m.stats with reductions := m.stats.reductions + 1 } }
  | .recover =>
    match m.input with
    | [] => table.recoverAtEnd m
    | token :: _ => table.recoverAt m token

/-! ### Whole runs -/

/-- Steps until the parse ends, at most `budget` times. -/
def run [Named κ] [Token T] (table : Table τ κ T N) (goal : N) :
    Nat → Machine T N → Outcome T N × Machine T N
  | 0, m => (.unfinished, m)
  | budget + 1, m =>
    match table.step goal m with
    | .next m => table.run goal budget m
    | .accepted tree m => (.accepted tree, m)
    | .aborted m => (.aborted m.diagnostics, m)

/-- Whether the table has the state that a machine starts in. -/
def hasStart (table : Table τ κ T N) (m : Machine T N) : Bool :=
  m.stack.start < table.states.length

/-- Runs a machine, which has to start in a state of the table. -/
def parse [Named κ] [Token T] (table : Table τ κ T N) (goal : N) (budget : Nat)
    (m : Machine T N) : Outcome T N × Machine T N :=
  if table.hasStart m then table.run goal budget m
  else
    let m := m.report (.unknownStart m.stack.start)
    (.aborted m.diagnostics, m)

/-- Parses a list of tokens from the start state; `stats` counts on from
earlier parses. -/
def parseTokens [Named κ] [Token T] (table : Table τ κ T N) (goal : N) (budget : Nat)
    (tokens : List T) (stats : Stats := {}) : Outcome T N × Machine T N :=
  table.parse goal budget { stack := .base 0, input := tokens, stats := stats }

end Table

end ShiftReduce
