/-
  Listings of a parse table, for reading: productions, states, FIRST and
  FOLLOW sets, actions.
-/
import ShiftReduce.Table.Basic

namespace ShiftReduce

variable {τ κ T N : Type} [Ordered τ] [Ordered κ] [DecidableEq τ] [DecidableEq κ]

/-- Lines of text, each with its line break. -/
def Text.lines (lines : List String) : String := String.join (lines.map (· ++ "\n"))

theorem Text.lines_append (lines more : List String) :
    Text.lines (lines ++ more) = Text.lines lines ++ Text.lines more := by
  rw [Text.lines, List.map_append, String.join_append, Text.lines, Text.lines]

/-- The members of a set between braces. -/
def Text.members (members : List String) : String :=
  "\x7b" ++ ", ".intercalate members ++ "\x7d"

namespace Table

variable [Named κ]

/-- The numbered productions. -/
def productionListing (table : Table τ κ T N) : String :=
  let g := table.grammar
  Text.lines <| ("PRODUCTIONS (" ++ toString g.rules.length ++ ")") ::
    (List.range g.rules.length).map fun place =>
      "  " ++ Text.padLeft 3 (toString place) ++ "  " ++ g.ruleText place

/-- The items of every state. -/
def stateListing (table : Table τ κ T N) : String :=
  Text.lines <| ("STATES (" ++ toString table.states.length ++ ")") ::
    table.states.zipIdx.flatMap fun entry =>
      ("state " ++ toString entry.2 ++ " [" ++ entry.1.context.text ++ "]") ::
        entry.1.items.toList.map fun item => "    " ++ table.grammar.itemText item

/-- One line of a set listing. -/
def setLine (table : Table τ κ T N) (key : κ) (members : List (Symbol τ κ)) : String :=
  "  " ++ Named.name key ++ ": " ++ Text.members (members.map (Symbol.text table.grammar.alphabet))

/-- What every nonterminal can start with and what can come after it. A
nullable key lists `ε` last. -/
def setListing (table : Table τ κ T N) : String :=
  Text.lines <|
    "FIRST" :: table.sets.first.entries.map (fun entry =>
      table.setLine entry.1 entry.2.toList) ++
    "FOLLOW" :: table.sets.follow.entries.map fun entry =>
      table.setLine entry.1 entry.2.toList

/-- The actions and gotos of every state: `s` marks the state that a shift
enters, `r` the rule of a reduction, `g` the state that a goto enters. -/
def actionListing (table : Table τ κ T N) : String :=
  Text.lines <| "ACTIONS" :: table.states.zipIdx.map fun entry =>
    let actions := entry.1.actions.entries.map fun entry =>
      " " ++ table.grammar.terminalName entry.1 ++
        match entry.2 with
        | .shift state => "=s" ++ toString state
        | .reduce rule => "=r" ++ toString rule
    let gotos := entry.1.gotos.entries.map fun entry =>
      " " ++ Named.name entry.1 ++ "=g" ++ toString entry.2
    "  " ++ toString entry.2 ++ ":" ++ String.join actions ++ String.join gotos

end Table

end ShiftReduce
