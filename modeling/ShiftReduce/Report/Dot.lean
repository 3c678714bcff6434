/-
  The state graph of a parse table in the Graphviz dot language.

  Labels stand between double quotes. A quote or a backslash inside a label
  takes a backslash before it, and `\l` ends a line of a label.
-/
import ShiftReduce.Report.Listing

namespace ShiftReduce

/-- What stands for a character inside a label. -/
def Dot.escapeChar (c : Char) : List Char :=
  if c = '\\' then ['\\', '\\'] else if c = '"' then ['\\', '"'] else [c]

/-- A text as it stands inside a label. -/
def Dot.escape (text : String) : String := String.ofList (text.toList.flatMap Dot.escapeChar)

/-- Several lines as one label. -/
def Dot.label (lines : List String) : String := "\\l".intercalate (lines.map Dot.escape)

variable {τ κ T N : Type} [Ordered τ] [Ordered κ] [DecidableEq τ] [DecidableEq κ] [Named κ]

namespace Table

/-- The box of a state: its number and its items. -/
def dotNode (table : Table τ κ T N) (number : Nat) (state : State τ κ) : String :=
  let label := Dot.label (state.items.toList.map table.grammar.itemText)
  "\t" ++ toString number ++ " [label=\"" ++ toString number ++ ": " ++ label ++ "\\l\"];"

/-- The edges out of a state: its shifts, then its gotos, drawn dashed. -/
def dotEdges (table : Table τ κ T N) (number : Nat) (state : State τ κ) : List String :=
  let edge (target : Nat) (label style : String) : String :=
    "\t" ++ toString number ++ " -> " ++ toString target ++ " [label=\"" ++ Dot.escape label ++
      "\"" ++ style ++ "];"
  let shifts := state.actions.entries.filterMap fun entry =>
    match entry.2 with
    | .shift target => some (edge target (table.grammar.terminalName entry.1) "")
    | .reduce _ => none
  let gotos := state.gotos.entries.map fun entry =>
    edge entry.2 (Named.name entry.1) ", style=dashed"
  shifts ++ gotos

/-- The graph of the states: a box for each, and an arrow for every shift and
goto. -/
def dot (table : Table τ κ T N) : String :=
  let numbered := table.states.zipIdx
  Text.lines <|
    ["digraph slr \x7b", "\trankdir=LR;", "", "\tnode [shape=rectangle];"] ++
    numbered.map (fun entry => table.dotNode entry.2 entry.1) ++ [""] ++
    numbered.flatMap (fun entry => table.dotEdges entry.2 entry.1) ++ ["\x7d"]

end Table

end ShiftReduce
