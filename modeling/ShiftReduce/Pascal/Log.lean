/-
  The log of reading a Pascal source.
-/
import ShiftReduce.Log
import ShiftReduce.Pascal.Parser

namespace ShiftReduce.Pascal

/-- The record of one token or error of a source. -/
def Lexeme.log : Lexeme → LogRecord
  | .ok token =>
    ⟨.trace, "MATCHED: Ok(" ++ token.kind.name ++ ") " ++ Text.quote token.text ++ " at " ++
      token.span.text⟩
  | .error error =>
    ⟨.trace, "MATCHED: Err(()) " ++ Text.quote error.text ++ " at " ++ error.span.text⟩

/-- The records of listing the tokens and errors of a source. -/
def lexemesLog (source : String) : List LogRecord := (lexemes source).map Lexeme.log

/-- The front of a list up to and with the first error. -/
def untilError {ε α : Type} : List (Except ε α) → List (Except ε α)
  | [] => []
  | .error e :: _ => [.error e]
  | .ok a :: rest => .ok a :: untilError rest

/-- The records of cutting a source into tokens, which ends at an error. -/
def tokenizeLog (source : String) : List LogRecord :=
  (untilError (lexemes source)).map Lexeme.log ++
    match tokenize source with
    | .ok tokens => [⟨.debug, "lexed " ++ toString tokens.length ++ " tokens"⟩]
    | .error _ => []

/-- The records of reading a program step by step. -/
def parseTracedLog (source : String) : List LogRecord :=
  tokenizeLog source ++
    match tokenize source with
    | .ok tokens =>
      table.parseLog .program (budget tokens) { stack := .base 0, input := tokens }
    | .error _ => []

/-- The records of reading a program. A program that was read is followed by
the statistics of its parse. -/
def parseLog (source : String) : List LogRecord :=
  parseTracedLog source ++
    match tokenize source with
    | .ok tokens =>
      match parseProgram tokens with
      | (.accepted _, progress) => [⟨.debug, "parse stats: " ++ progress.stats.record⟩]
      | _ => []
    | .error _ => []

/-- The records of building the table. -/
def tableLog : List LogRecord := grammar.log ++ grammar.tableLog .start placeholders

end ShiftReduce.Pascal
