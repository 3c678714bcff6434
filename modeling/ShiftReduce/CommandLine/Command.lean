/-
  The commands of the Pascal parser: read a program, show the parse table,
  draw the state graph.
-/
import ShiftReduce.CommandLine.Files
import ShiftReduce.Pascal.Parser
import ShiftReduce.Report.Dot
import ShiftReduce.Report.Row

namespace ShiftReduce

/-! ### Arguments -/

/-- A command. -/
inductive Command where
  /-- Read a program and print its tree, with every step before it if asked. -/
  | parse (file : String) (trace : Bool)
  /-- Print the parse table. -/
  | table
  /-- Write the state graph to a file, or print it. -/
  | dot (file : Option String)
  /-- Print the version. -/
  | version
deriving DecidableEq, Repr

namespace Command

/-- Whether an argument is read as an option; a dash alone is a file. -/
def isOption (arg : String) : Bool := arg.startsWith "-" && arg ≠ "-"

/-- Whether no argument is left; `--` may end the options without one. -/
def isClosed (args : List String) : Bool := args = [] || args = ["--"]

/-- The command that reads a file; a file has a name. -/
def parseFile? (file : String) (trace : Bool) : Option Command :=
  if file = "" then none else some (.parse file trace)

/-- The arguments of `parse`: one file, and perhaps the flag that asks for the
steps. -/
def parseArgs? (file : Option String) (trace : Bool) : List String → Option Command
  | [] => file.bind (parseFile? · trace)
  | arg :: rest =>
    if arg = "-t" || arg = "--trace" then
      if trace then none else parseArgs? file true rest
    else if arg = "--" then
      match file, rest with
      | none, [name] => parseFile? name trace
      | some name, [] => parseFile? name trace
      | _, _ => none
    else if isOption arg || file.isSome then none
    else parseArgs? (some arg) trace rest

/-- The value written in one argument with the option for the output, as in
`--output=FILE`, `-o=FILE` or `-oFILE`. -/
def attachedOutput? (arg : String) : Option String :=
  if arg.startsWith "--output=" then some (arg.drop 9).toString
  else if arg.startsWith "-o=" then some (arg.drop 3).toString
  else if arg.startsWith "-o" && arg ≠ "-o" then some (arg.drop 2).toString
  else none

/-- The option for the output with its value, and the arguments behind it. -/
def output? : List String → Option (String × List String)
  | [] => none
  | arg :: rest =>
    match attachedOutput? arg, rest with
    | some file, _ => some (file, rest)
    | none, file :: rest =>
      if (arg = "-o" || arg = "--output") && !isOption file then some (file, rest) else none
    | none, [] => none

/-- The arguments of `dot`: perhaps a file to write to. -/
def dotArgs? (args : List String) : Option Command :=
  if isClosed args then some (.dot none)
  else
    match output? args with
    | some (file, rest) => if file ≠ "" && isClosed rest then some (.dot (some file)) else none
    | none => none

/-- The command that a list of arguments asks for. -/
def ofArgs? : List String → Option Command
  | [] => none
  | arg :: rest =>
    if arg = "parse" then parseArgs? none false rest
    else if arg = "table" then if isClosed rest then some .table else none
    else if arg = "dot" then dotArgs? rest
    else if arg = "--version" || arg.startsWith "-V" then some .version
    else none

end Command

/-! ### Reports -/

/-- What a command leaves behind: its exit code and what it has printed. -/
structure CommandReport where
  code : Nat := 0
  output : String := ""
  errors : String := ""
deriving DecidableEq, Repr

namespace CommandReport

/-- The text of a failure, with what caused it below. -/
def failureText (message : String) (causes : List String) : String :=
  let tail :=
    if causes.isEmpty then ""
    else "\nCaused by:\n" ++ String.join (causes.map fun cause => "    " ++ cause ++ "\n")
  "Error: " ++ message ++ "\n" ++ tail

/-- Ends a command with a failure. -/
def fail (report : CommandReport) (message : String) (causes : List String) : CommandReport :=
  { report with code := 1, errors := report.errors ++ failureText message causes }

/-- Ends a command with the failure of a parse. -/
def failWith (report : CommandReport) (failure : Pascal.Failure) : CommandReport :=
  match failure.messages with
  | [] => report.fail "" []
  | message :: causes => report.fail message causes

/-- Adds one line of errors for every diagnostic. -/
def withDiagnostics (report : CommandReport) (diagnostics : List Diagnostic) : CommandReport :=
  { report with
    errors := report.errors ++
      String.join (diagnostics.map fun diagnostic => "error: " ++ diagnostic.message ++ "\n") }

end CommandReport

/-! ### Running -/

namespace Command

/-- What reading a program prints: the tree, and the errors that the parser
recovered from. Errors make the command fail. -/
def parseReport (source : String) : CommandReport :=
  match Pascal.parse source with
  | .error failure => CommandReport.failWith {} failure
  | .ok program =>
    let report : CommandReport := { output := program.tree.layout }
    let report := report.withDiagnostics program.diagnostics
    if program.isClean then report
    else report.fail (toString program.diagnostics.length ++ " syntax error(s)") []

/-- What reading a program step by step prints: a row for every step, the
errors, and the tree if there is one. -/
def traceReport (source : String) : CommandReport :=
  match Pascal.parseTraced source with
  | .error error => CommandReport.failWith {} (.lexing error)
  | .ok traced =>
    let rows := traced.trace.map fun snapshot => (Pascal.table.row snapshot).columns ++ "\n"
    let report : CommandReport := { output := String.join rows }
    let report := report.withDiagnostics traced.diagnostics
    match traced.result with
    | .ok tree => { report with output := report.output ++ tree.layout }
    | .error failure => report.failWith failure

/-- The name that the program goes by. -/
def programName : String := "slrkit-pascal"

/-- The version of the program. -/
def versionText : String := programName ++ " 0.1.0\n"

/-- The parse table in full. -/
def tableText : String :=
  "\n".intercalate
    [Pascal.table.productionListing, Pascal.table.setListing, Pascal.table.stateListing,
      Pascal.table.actionListing]

/-- Runs a command. -/
def run {m : Type → Type} [Monad m] [Files m] : Command → m CommandReport
  | parse file trace => do
    match ← Files.readText file with
    | .error error =>
      return CommandReport.fail {} ("can't read " ++ Text.quote file) [error.message]
    | .ok source => return if trace then traceReport source else parseReport source
  | table => return { output := tableText }
  | version => return { output := versionText }
  | dot none => return { output := Pascal.table.dot }
  | dot (some file) => do
    match ← Files.write file Pascal.table.dot with
    | .error error =>
      return CommandReport.fail {} ("can't write " ++ Text.quote file) [error.message]
    | .ok () => return {}

/-- What is printed for arguments that ask for no command. -/
def usage : String :=
  let lines := ["parse [-t|--trace] FILE", "table", "dot [-o|--output FILE]", "--version"]
  "Usage:\n" ++ String.join (lines.map fun line => "  " ++ programName ++ " " ++ line ++ "\n")

/-- Runs the command that a list of arguments asks for. -/
def runArgs {m : Type → Type} [Monad m] [Files m] (args : List String) : m CommandReport :=
  match ofArgs? args with
  | some command => command.run
  | none => return { code := 2, errors := usage }

end Command

end ShiftReduce
