/-
  The driver: a parser with a stack of nodes and a stack of states beside it.

  Nothing ties the two stacks together: a reduction splits its nodes off the one
  and cuts as many states off the other, and a recovery pops both.  So a round of
  the driver's loop checks all that it takes from them, and each check has a
  diagnostic of its own for where it fails.

  What a driver does a machine does on a stack of frames (`Table.step`), a state
  with the node under it; `Table.drive_eq` says so.
-/
import ShiftReduce.Parser.Run

namespace ShiftReduce

/-- What a driver shares with its caller: the tokens to come, the statistics, the
diagnostics, and the steps recorded so far, if steps are recorded. -/
structure Progress (T N : Type) where
  input : List T
  stats : Stats := {}
  diagnostics : List Diagnostic := []
  history : Option (List (Snapshot T N)) := none

/-- The recorded steps in order. -/
def Progress.trace {T N : Type} (progress : Progress T N) : List (Snapshot T N) :=
  (progress.history.getD []).reverse

/-- A driver at work. On both stacks the topmost comes first. -/
structure Driver (T N : Type) extends Progress T N where
  nodes : List (Tree T N) := []
  states : List Nat
  /-- How many tokens were left after the last recovery. -/
  lastRecovery : Option Nat := none

/-- What a round of the loop leads to: another round, or the end of the run. -/
abbrev Turn (T N : Type) := Except (Outcome T N × Progress T N) (Driver T N)

variable {τ κ T N : Type} [Ordered τ] [Ordered κ] [DecidableEq τ] [DecidableEq κ] [DecidableEq N]

namespace Table

/-- The first key with a placeholder, in the order of registration, at which a
state goes on. -/
def recoveryKey? (table : Table τ κ T N) (state : Nat) : Option κ :=
  (table.placeholders.map Prod.fst).find? fun key => (table.goto? state key).isSome

/-- Pops states, each with a node, until the state on top goes on at a key with a
placeholder. -/
def popTo (table : Table τ κ T N) :
    List Nat → List (Tree T N) → Option κ × List Nat × List (Tree T N)
  | [], nodes => (none, [], nodes)
  | state :: states, nodes =>
    match table.recoveryKey? state with
    | some key => (some key, state :: states, nodes)
    | none => table.popTo states nodes.tail

/-- The tokens from the first on that can come after a key. -/
def skipTo (table : Table τ κ T N) (key : κ) (input : List T) : List T :=
  match table.follow.get? key with
  | none => []
  | some follow => input.dropWhile fun token =>
    !follow.toList.any fun t => (table.grammar.alphabet t).accepts token

end Table

namespace Driver

/-- The driver that starts in a state, with no node. -/
def begin (start : Nat) (progress : Progress T N) : Driver T N :=
  { progress with states := [start] }

/-- Adds a diagnostic. -/
def report (d : Driver T N) (diagnostic : Diagnostic) : Driver T N :=
  { d with diagnostics := d.diagnostics ++ [diagnostic] }

/-- Gives up for a reason. -/
def fatal (d : Driver T N) (reason : Diagnostic) : Turn T N :=
  .error (.aborted (d.report reason).diagnostics, (d.report reason).toProgress)

/-- Records a step, if steps are recorded. -/
def record (d : Driver T N) (operation : Operation) : Driver T N :=
  match d.history with
  | none => d
  | some steps =>
    { d with history := some (⟨d.nodes.reverse, d.states.reverse, d.input, operation⟩ :: steps) }

/-- Puts a node and a state on top. -/
def enter (d : Driver T N) (node : Tree T N) (state : Nat) : Driver T N :=
  { d with nodes := node :: d.nodes, states := state :: d.states }

variable [Named κ] [Token T]

/-- Reduces by a rule: splits off its nodes, cuts off as many states, and goes on
with the node that it builds from the state that is left on top. -/
def reduce (table : Table τ κ T N) (rule : Rule τ κ T N) (d : Driver T N) : Turn T N :=
  let text := rule.text table.grammar.alphabet
  if d.nodes.length < rule.length ∨ d.states.length ≤ rule.length then
    d.fatal (.underflow text d.nodes.length)
  else
    let node := rule.build (d.nodes.take rule.length).reverse
    let d := { d with nodes := d.nodes.drop rule.length, states := d.states.drop rule.length }
    match d.states.head?.bind fun state => table.goto? state rule.key with
    | none => d.fatal (.noGoto text (Named.name rule.key) node.span?)
    | some target =>
      .ok
        { d.enter node target with
          stats := { d.stats with reductions := d.stats.reductions + 1 } }

/-- Reports the error at the next token and tries to recover from it. At the end of
the input that fails, and so it does where the last recovery had left the same
token. -/
def recover (table : Table τ κ T N) (d : Driver T N) : Turn T N :=
  let expected := (d.states.head?.map table.expected).getD []
  match d.input with
  | [] =>
    let last := (d.nodes.head?.bind Tree.lastToken?).map fun token =>
      (Token.text token, Token.span token)
    ((d.report (.unexpectedEnd last expected)).record (.recover false)).fatal .inputExhausted
  | token :: _ =>
    let span := Token.span token
    let d := d.report (.unexpectedToken (Token.text token) span expected)
    if d.lastRecovery = some d.input.length then
      (d.record (.recover false)).fatal (.noProgress span)
    else
      match table.popTo d.states d.nodes with
      | (none, states, nodes) =>
        let d := { d with states := states, nodes := nodes }
        (d.record (.recover false)).fatal (.noRecoverableState span)
      | (some key, states, nodes) =>
        let rest := table.skipTo key d.input
        let skipped := d.input.length - rest.length
        let d := { d with states := states, nodes := nodes, input := rest }
        if rest.isEmpty then
          (d.record (.recover false)).fatal (.noFollowableInput (Named.name key) span)
        else
          match d.states.head?.bind fun state => table.goto? state key, table.placeholder? key with
          | some target, some placeholder =>
            let d :=
              { d.enter placeholder target with
                stats :=
                  { d.stats with
                    tokens := d.stats.tokens + skipped
                    recoveries := d.stats.recoveries + 1 }
                lastRecovery := some rest.length }
            .ok (d.record (.recover true))
          | _, _ => d.fatal (.noPlaceholder (Named.name key) span)

/-- One round of the loop, towards a node of the kind `goal`. -/
def turn (table : Table τ κ T N) (goal : N) (d : Driver T N) : Turn T N :=
  match d.states with
  | [] => d.fatal .emptyStack
  | top :: _ =>
    match table.choice goal top d.nodes.head? d.input with
    | .accept tree => .error (.accepted tree, (d.record .accept).toProgress)
    | .shift token state =>
      let d := d.record (.shift state)
      .ok
        { d.enter (.leaf token) state with
          input := d.input.tail
          stats := { d.stats with tokens := d.stats.tokens + 1, shifts := d.stats.shifts + 1 } }
    | .reduce place rule => (d.record (.reduce place)).reduce table rule
    | .recover => d.recover table

/-- Goes round the loop until the parse ends, at most `budget` times. -/
def run (table : Table τ κ T N) (goal : N) : Nat → Driver T N → Outcome T N × Progress T N
  | 0, d => (.unfinished, d.toProgress)
  | budget + 1, d =>
    match d.turn table goal with
    | .ok d => run table goal budget d
    | .error ended => ended

end Driver

/-- Parses from a state with empty stacks. The state has to be one of the table. -/
def Table.drive [Named κ] [Token T] (table : Table τ κ T N) (goal : N) (budget start : Nat)
    (progress : Progress T N) : Outcome T N × Progress T N :=
  if start < table.states.length then
    Driver.run table goal budget (.begin start progress)
  else
    let diagnostics := progress.diagnostics ++ [.unknownStart start]
    (.aborted diagnostics, { progress with diagnostics := diagnostics })

end ShiftReduce
