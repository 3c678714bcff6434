/-
  No parse of the Pascal subset runs for ever.

  Its grammar is sane: a key that is all of a body but for keys that may be empty
  (`mayBeEmpty`) is less deep than the key of the rule (`depth`), and what stands before
  a key in a body, if anything does, is never empty. As on every sane grammar, a parse
  then ends from any state, with any input and through any number of recoveries
  (`sane_and_exists_finished`).
-/
import ShiftReduce.Proofs.Parser.Termination
import ShiftReduce.Proofs.Pascal.Choices

namespace ShiftReduce.Pascal

/-- Whether a nonterminal stands for the empty text too. -/
def mayBeEmpty : Nonterminal → Bool
  | .statements | .statement => true
  | _ => false

/-- How far a nonterminal can be rewritten to others alone. -/
def depth : Nonterminal → Nat
  | .start | .statement | .expression => 1
  | .statements => 2
  | _ => 0

theorem depth_le (key : Nonterminal) : depth key ≤ 2 := by cases key <;> decide

theorem sane : grammar.Sane := by
  have closed : ∀ rule ∈ grammar.rules, Grammar.vanishes mayBeEmpty rule.body = true →
      mayBeEmpty rule.key = true := by decide
  -- a statement list comes first in its own rule, but a semicolon follows it
  have falls : grammar.Falls mayBeEmpty depth fun _ => 0 := by
    unfold Grammar.Falls
    decide
  exact Grammar.sane_of_falls depth_le (fun _ => Nat.zero_le _) closed falls

/-- The grammar of the Pascal subset is sane. On any sane grammar, with any table and
placeholders, every parse ends, whatever the tokens, the state it starts in and the
kind asked for: some budget is enough for it to be accepted or aborted. -/
theorem sane_and_exists_finished : grammar.Sane ∧
    ∀ {τ κ T N : Type} [Ordered τ] [Ordered κ] [DecidableEq τ] [DecidableEq κ] [DecidableEq N]
      [Named κ] [ShiftReduce.Token T] {g : ShiftReduce.Grammar τ κ T N} {start : κ}
      {placeholders : List (κ × ShiftReduce.Tree T N)} {table : ShiftReduce.Table τ κ T N},
      g.Sane → g.table start placeholders = .ok table →
        ∀ (goal : N) (number : Nat) (m : Machine T N), m.stack = .base number →
          ∃ budget, (table.parse goal budget m).1 ≠ .unfinished :=
  ⟨sane, fun sane built goal _ _ fresh => Table.exists_finished_of_sane sane built goal fresh⟩

/-- The tokens of `program p; begin := ; 1 end.`, by their kinds. -/
def garbled : List Token :=
  [Terminal.programWord, .identifier, .semicolon, .beginWord, .assign, .semicolon, .integer,
    .endWord, .dot].map fun t => ⟨t.kind, t.name, default⟩

/-- A parser that is to read them. -/
def garbledMachine : Machine Token NodeKind := { stack := .base 0, input := garbled }

/-- A parse of a program with two statements that cannot be read ends. -/
theorem exists_finished_garbled : grammar.Sane ∧
    grammar.table .start placeholders = .ok table ∧ garbledMachine.stack = .base 0 ∧
    ∃ budget, (table.parse .program budget garbledMachine).1 ≠ .unfinished := by
  have fresh : garbledMachine.stack = .base 0 := rfl
  obtain ⟨sane, finished⟩ := sane_and_exists_finished
  exact ⟨sane, table_eq, fresh, finished sane table_eq .program 0 garbledMachine fresh⟩

end ShiftReduce.Pascal
