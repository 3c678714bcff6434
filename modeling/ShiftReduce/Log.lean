/-
  The log of what grammars, tables and parsers do, read off their results.

  Nothing is logged while a result is computed: every record here can be told
  from the result itself, from the choices that a state keeps to the steps of
  a machine.
-/
import ShiftReduce.Parser.Run

namespace ShiftReduce

/-- How much a record matters. -/
inductive Level where
  | trace
  | debug
  | warn
deriving DecidableEq, Repr

/-- The name of a level. -/
def Level.name : Level → String
  | trace => "TRACE"
  | debug => "DEBUG"
  | warn => "WARN"

/-- One record of a log. -/
structure LogRecord where
  level : Level
  message : String
deriving DecidableEq, Repr

/-- A record on one line. -/
def LogRecord.text (record : LogRecord) : String := record.level.name ++ " " ++ record.message

variable {τ κ T N : Type} [Ordered τ] [Ordered κ] [DecidableEq τ] [DecidableEq κ]

namespace Grammar

/-- The record of an accepted list of rules. -/
def log (g : Grammar τ κ T N) : List LogRecord :=
  [⟨.debug, "grammar: " ++ toString g.rules.length ++ " rules over " ++ toString g.keys.length ++
    " nonterminals"⟩]

/-- The records of the FIRST and FOLLOW sets. -/
def setsLog (g : Grammar τ κ T N) : List LogRecord :=
  let first := g.firstSymbols
  let follow := g.followSymbols first.1
  [⟨.debug, "FIRST sets converged after " ++ toString first.2 ++ " passes"⟩,
    ⟨.debug, "FOLLOW sets converged after " ++ toString follow.2 ++ " passes"⟩]

variable [Named κ]

/-- The record of a choice between a shift and a reduction. -/
def resolutionLog (g : Grammar τ κ T N) (number : Nat) (context : Context)
    (resolution : Resolution τ) : LogRecord :=
  let choice :=
    if resolution.shifts then "shift" else "reduce `" ++ g.ruleText resolution.rule ++ "`"
  ⟨.debug, "state " ++ toString number ++ ": shift/reduce on " ++
    g.terminalName resolution.terminal ++ " resolved as " ++ choice ++
    " (context " ++ context.text ++ ")"⟩

/-- The records of a state that was filled. -/
def stateLog (g : Grammar τ κ T N) (number : Nat) (state : State τ κ) : List LogRecord :=
  state.resolutions.map (g.resolutionLog number state.context) ++
    [⟨.trace, "state " ++ toString number ++ ": " ++ toString state.items.size ++ " items, " ++
      toString state.actions.size ++ " actions, " ++ toString state.gotos.size ++
      " gotos, context " ++ state.context.text⟩]

/-- The record of a state reached in two contexts. It is a warning when the
first context has decided between actions of the state. -/
def mismatchLog (states : List (State τ κ)) (mismatch : Mismatch) : LogRecord :=
  let decided := ((states[mismatch.state]?).map State.resolutions).getD []
  let report := "state " ++ toString mismatch.state ++ " reached with precedence " ++
    mismatch.second.text ++ " after " ++ mismatch.first.text
  if decided.isEmpty then ⟨.debug, report⟩
  else ⟨.warn, report ++ "; conflicts were resolved under " ++ mismatch.first.text⟩

/-- The records of the construction of a table, whether or not it succeeds. A
construction that is refused before the exploration leaves no record. -/
def tableLog (g : Grammar τ κ T N) (start : κ) (placeholders : List (κ × Tree T N)) :
    List LogRecord :=
  let recordsOf (states : List (State τ κ)) : List LogRecord :=
    states.zipIdx.flatMap fun entry => g.stateLog entry.2 entry.1
  match g.table start placeholders with
  | .ok table =>
    g.setsLog ++ recordsOf table.states ++ table.mismatches.map (mismatchLog table.states) ++
      [⟨.debug, "table for " ++ Named.name start ++ ": " ++ toString table.states.length ++
        " states, " ++ toString table.placeholders.length ++ " recovery keys"⟩]
  | .error (.blocked number _) =>
    g.setsLog ++ recordsOf ((g.construct g.followSets start).1.arena.take number)
  | .error _ => []

end Grammar

/-! ### Runs -/

namespace Table

variable [Named κ] [Named N] [Token T] [DecidableEq N]

/-- The stack and the next token: every state in angle brackets, behind the
node that it was entered with. -/
def stackLog (m : Machine T N) : LogRecord :=
  let label (tree : Tree T N) : String :=
    match tree with
    | .leaf token => Text.quote (Token.text token)
    | .branch kind _ => Named.literal kind
  let frames := m.stack.frames.reverse.map fun frame =>
    "  " ++ label frame.node ++ "  <" ++ toString frame.state ++ ">"
  let incoming := (m.input.head?.map fun token => Text.quote (Token.text token)).getD "$"
  ⟨.trace, "<" ++ toString m.stack.start ++ ">" ++ String.join frames ++ "  <-  " ++ incoming⟩

/-- The records of the diagnostics that `after` has over `before`. -/
def diagnosticLog (before after : Machine T N) : List LogRecord :=
  (after.diagnostics.drop before.diagnostics.length).map fun diagnostic =>
    ⟨.debug, diagnostic.message⟩

/-- The machine that a step leads to. -/
def stepResult : Step T N → Machine T N
  | .next m => m
  | .accepted _ m => m
  | .aborted m => m

/-- The record of a recovery that succeeded. -/
def rescueLog (table : Table τ κ T N) (m : Machine T N) : List LogRecord :=
  match table.rescue m.stack m.input with
  | .found _ foothold skipped _ =>
    [⟨.debug, "recovered at " ++ Named.name foothold.key ++ " by skipping " ++ toString skipped ++
      " token(s), resuming in state " ++ toString foothold.target⟩]
  | _ => []

/-- The records of one step. -/
def stepLog (table : Table τ κ T N) (goal : N) (m : Machine T N) : List LogRecord :=
  let result := table.step goal m
  let move : List LogRecord :=
    match table.move goal m.stack m.input with
    | .shift _ state => [⟨.trace, "Shift " ++ toString state⟩]
    | .reduce place rule =>
      [⟨.trace, "Reduce " ++ toString place ++ " (" ++ rule.text table.grammar.alphabet ++ ")"⟩]
    | .accept _ => [⟨.trace, "Accept"⟩]
    | .recover => []
  let recovered :=
    match result with
    | .next after =>
      if m.stats.recoveries < after.stats.recoveries then table.rescueLog m else []
    | _ => []
  stackLog m :: move ++ diagnosticLog m (stepResult result) ++ recovered

/-- The records of a run, at most `budget` steps of it. -/
def runLog (table : Table τ κ T N) (goal : N) : Nat → Machine T N → List LogRecord
  | 0, _ => []
  | budget + 1, m =>
    table.stepLog goal m ++
      match table.step goal m with
      | .next m => table.runLog goal budget m
      | _ => []

/-- The records of a parse; one that cannot start says so and nothing else. -/
def parseLog (table : Table τ κ T N) (goal : N) (budget : Nat) (m : Machine T N) :
    List LogRecord :=
  if table.hasStart m then table.runLog goal budget m
  else [⟨.debug, (Diagnostic.unknownStart m.stack.start).message⟩]

end Table

end ShiftReduce
