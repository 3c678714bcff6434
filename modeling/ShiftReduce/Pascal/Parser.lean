/-
  The parser of the Pascal subset: from a source text to a syntax tree.

  The table is a constant, and the grammar does have it (`table_exists`). A
  parse of `n` tokens takes fewer steps than the budget that it is given, so a
  source either has a tree or is refused with a reason.
-/
import ShiftReduce.Parser.Driver
import ShiftReduce.Pascal.Grammar
import ShiftReduce.Pascal.Scanner

namespace ShiftReduce.Pascal

set_option maxRecDepth 100000 in
/-- The grammar of the Pascal subset has a parse table. -/
theorem table_exists : (grammar.table .start placeholders).toOption.isSome := by decide +kernel

/-- The parse table of the Pascal subset. -/
def table : Table := (grammar.table .start placeholders).toOption.get table_exists

/-- As many steps as a parse of these tokens may take. -/
def budget (tokens : List Token) : Nat := 64 * (tokens.length + 1)

/-- Why a source has no tree. -/
inductive Failure where
  /-- The source has a text that is no token. -/
  | lexing (error : LexError)
  /-- The parser could not recover from an error; all diagnostics are told. -/
  | aborted (diagnostics : List Diagnostic)
  /-- The parser has used up its budget. -/
  | unfinished
deriving DecidableEq, Repr

/-- The wording of a failure: what failed, then what caused it. -/
def Failure.messages : Failure → List String
  | lexing error => ["lexing failed", error.message]
  | aborted diagnostics => [abortSummary (diagnostics.map Diagnostic.message)]
  | unfinished => ["parse unfinished"]

/-- A program that was read: its tree, and the errors that the parser
recovered from. -/
structure Program where
  tree : Tree
  diagnostics : List Diagnostic

/-- Whether a program was read without an error. -/
def Program.isClean (program : Program) : Bool := program.diagnostics.isEmpty

/-- A parse with all its steps. -/
structure Traced where
  result : Except Failure Tree
  diagnostics : List Diagnostic
  trace : List (Snapshot Token NodeKind)

/-- The result that an outcome stands for. -/
def resultOf : Outcome Token NodeKind → Except Failure Tree
  | .accepted tree => .ok tree
  | .aborted diagnostics => .error (.aborted diagnostics)
  | .unfinished => .error .unfinished

/-- Parses tokens as a whole program. -/
def parseProgram (tokens : List Token) : Outcome Token NodeKind × Progress Token NodeKind :=
  table.drive .program (budget tokens) 0 { input := tokens }

/-- Reads a program. -/
def parse (source : String) : Except Failure Program := do
  let tokens ← (tokenize source).mapError .lexing
  let (outcome, progress) := parseProgram tokens
  let tree ← resultOf outcome
  return ⟨tree, progress.diagnostics⟩

/-- Reads a program and records every step. -/
def parseTraced (source : String) : Except LexError Traced := do
  let tokens ← tokenize source
  let (outcome, progress) := table.drive .program (budget tokens) 0
    { input := tokens, history := some [] }
  return ⟨resultOf outcome, progress.diagnostics, progress.trace⟩

end ShiftReduce.Pascal
