/-
  Diagnostics: what a parser has to say about its input.

  Two of them report a place where the input cannot go on, and a parser that
  recovers keeps going after them. The others say why a parse was given up;
  each aborted parse ends with exactly one of these. A diagnostic holds the
  texts that it shows, so that it can be read without the table.
-/
import ShiftReduce.Span

namespace ShiftReduce

/-- A diagnostic of a parse. -/
inductive Diagnostic where
  /-- No action is possible on a token. -/
  | unexpectedToken (text : String) (span : Span) (expected : List String)
  /-- No action is possible at the end of the input; `last` is the last token
  of the node on top of the stack. -/
  | unexpectedEnd (last : Option (String × Span)) (expected : List String)
  /-- A parse was to start from a state that the table does not have. -/
  | unknownStart (state : Nat)
  /-- No state was left on the stack. -/
  | emptyStack
  /-- A rule was to be reduced over more nodes than the stack holds. -/
  | underflow (rule : String) (held : Nat)
  /-- The state below a reduction goes nowhere on the key of the rule. -/
  | noGoto (rule key : String) (span : Option Span)
  /-- Recovery was tried at the end of the input. -/
  | inputExhausted
  /-- Recovery was tried where the last one had stopped. -/
  | noProgress (span : Span)
  /-- No state on the stack goes on at a key with a placeholder. -/
  | noRecoverableState (span : Span)
  /-- No token of the remaining input can come after the key. -/
  | noFollowableInput (key : String) (span : Span)
  /-- The key to recover at has no placeholder. -/
  | noPlaceholder (key : String) (span : Span)
deriving DecidableEq, Repr

namespace Diagnostic

/-- The tail of a message that lists what was expected instead. -/
def expectation (expected : List String) : String :=
  if expected.isEmpty then "" else ", expected " ++ ", ".intercalate expected

/-- The wording of a diagnostic. -/
def message : Diagnostic → String
  | unexpectedToken text span expected =>
    "unknown token \"" ++ text ++ "\" at " ++ span.text ++ expectation expected
  | unexpectedEnd (some (text, span)) expected =>
    "unexpected end of input after \"" ++ text ++ "\" at " ++ span.text ++ expectation expected
  | unexpectedEnd none expected => "unexpected end of input" ++ expectation expected
  | unknownStart state => "unknown start state " ++ toString state
  | emptyStack => "parser state stack is empty"
  | underflow rule held =>
    "unable to reduce `" ++ rule ++ "`: stack holds " ++ toString held ++ " nodes"
  | noGoto rule key _ => "unable to reduce `" ++ rule ++ "`: no goto on " ++ key
  | inputExhausted => "error recovery failed: input exhausted"
  | noProgress _ => "error recovery made no progress"
  | noRecoverableState _ => "error recovery failed: no recoverable state"
  | noFollowableInput key _ => "error recovery failed: no followable input for " ++ key
  | noPlaceholder key _ => "error recovery failed: no placeholder for " ++ key

/-- The place that a diagnostic points at. -/
def span? : Diagnostic → Option Span
  | unexpectedToken _ span _ => some span
  | unexpectedEnd last _ => last.map Prod.snd
  | unknownStart _ => none
  | emptyStack => none
  | underflow _ _ => none
  | noGoto _ _ span => span
  | inputExhausted => none
  | noProgress span => some span
  | noRecoverableState span => some span
  | noFollowableInput _ span => some span
  | noPlaceholder _ span => some span

end Diagnostic

/-- What is said of an aborted parse with these messages: how many there are,
and the last one, which tells why the parse was given up. -/
def abortSummary (messages : List String) : String :=
  match messages.getLast? with
  | none => "parse aborted"
  | some last => "parse aborted after " ++ toString messages.length ++ " error(s): " ++ last

end ShiftReduce
