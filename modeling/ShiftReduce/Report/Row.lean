/-
  The rows of a trace: recorded configurations as text.
-/
import ShiftReduce.Parser.Run

namespace ShiftReduce

/-- One row of a trace: what is on the stack, what is to come, what is done. -/
structure Row where
  nodes : String
  states : String
  input : String
  operation : String
deriving DecidableEq, Repr

/-- A row in columns. -/
def Row.columns (row : Row) : String :=
  " | ".intercalate
    [Text.padRight 40 row.nodes, Text.padRight 24 row.states, Text.padRight 40 row.input,
      row.operation]

variable {τ κ T N : Type} [Ordered τ] [Ordered κ] [DecidableEq τ] [DecidableEq κ] [DecidableEq N]
  [Named κ] [Named N] [Token T]

namespace Table

/-- What a row shows of a node: the text of a token, and for a branch the key
of the first rule that builds its kind, or the kind itself. -/
def nodeName (table : Table τ κ T N) : Tree T N → String
  | .leaf token => Token.text token
  | .branch kind _ =>
    match table.grammar.keyOfKind? kind with
    | some key => Named.name key
    | none => Named.literal kind

/-- An operation in words. -/
def operationText (table : Table τ κ T N) : Operation → String
  | .shift state => "shift " ++ toString state
  | .reduce rule => "reduce " ++ table.grammar.ruleText rule
  | .accept => "accept"
  | .recover true => "recover"
  | .recover false => "recovery failed"

/-- The row of a recorded configuration; `$` marks the end of the input. -/
def row (table : Table τ κ T N) (snapshot : Snapshot T N) : Row where
  nodes := " ".intercalate (snapshot.nodes.map table.nodeName)
  states := " ".intercalate (snapshot.states.map toString)
  input := " ".intercalate (snapshot.input.map Token.text ++ ["$"])
  operation := table.operationText snapshot.operation

end Table

end ShiftReduce
