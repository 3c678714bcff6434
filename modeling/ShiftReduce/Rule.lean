/-
  Production rules: a key on the left, a body of symbols on the right, and
  the way to build a node once the body has been read.

  A terminal of a body may be a copy that has a binding of its own.  Copies
  are one symbol (`BodyPart.symbol`), and only precedence tells them apart.
-/
import ShiftReduce.Symbol
import ShiftReduce.Tree

namespace ShiftReduce

/-! ### The parts of a body -/

/-- A symbol as it stands in a rule body. A terminal binds as the alphabet says
unless it has a binding of its own there. -/
inductive BodyPart (τ κ : Type) where
  | terminal (t : τ) (own? : Option Binding := none)
  | nonterminal (key : κ)
  | epsilon
deriving DecidableEq, Repr

namespace BodyPart

variable {τ κ T : Type}

/-- The symbol that stands there. -/
def symbol : BodyPart τ κ → Symbol τ κ
  | terminal t _ => .terminal t
  | nonterminal key => .nonterminal key
  | epsilon => .epsilon

/-- A symbol with no binding of its own. -/
def plain : Symbol τ κ → BodyPart τ κ
  | .terminal t => terminal t
  | .nonterminal key => nonterminal key
  | .epsilon => epsilon

instance : Coe (Symbol τ κ) (BodyPart τ κ) := ⟨plain⟩

@[simp] theorem symbol_terminal (t : τ) (own? : Option Binding) :
    (terminal t own? : BodyPart τ κ).symbol = .terminal t := rfl

@[simp] theorem symbol_nonterminal (key : κ) :
    (nonterminal key : BodyPart τ κ).symbol = .nonterminal key := rfl

@[simp] theorem symbol_epsilon : (epsilon : BodyPart τ κ).symbol = .epsilon := rfl

@[simp] theorem symbol_plain (symbol : Symbol τ κ) : (plain symbol).symbol = symbol := by
  cases symbol <;> rfl

/-- The copy of a terminal that stands there, if it is that terminal. -/
def copyOf? [DecidableEq τ] (alphabet : τ → Terminal T) (t : τ) :
    BodyPart τ κ → Option (Terminal T)
  | terminal s own? =>
    if s = t then some ((own?.map (alphabet t).withBinding).getD (alphabet t)) else none
  | _ => none

end BodyPart

/-! ### Rules -/

/-- A production rule. Unless said otherwise, `build` makes a branch of the
rule's kind over the children as they come. -/
structure Rule (τ κ T N : Type) where
  key : κ
  kind : N
  parts : List (BodyPart τ κ)
  build : List (Tree T N) → Tree T N := Tree.branch kind

namespace Rule

variable {τ κ T N : Type}

/-- The symbols of the body. -/
def body (rule : Rule τ κ T N) : List (Symbol τ κ) := rule.parts.map BodyPart.symbol

@[simp] theorem body_mk (key : κ) (kind : N) (parts : List (BodyPart τ κ))
    (build : List (Tree T N) → Tree T N) :
    (mk key kind parts build).body = parts.map BodyPart.symbol := rfl

/-- The number of symbols that stand for text, which is the number of nodes
that a reduction takes from the stack. -/
def length (rule : Rule τ κ T N) : Nat :=
  (rule.body.filter fun symbol => !symbol.isEpsilon).length

/-- What stands under a cursor. There is nothing once the cursor has passed as
many symbols as stand for text. -/
def partAt? (rule : Rule τ κ T N) (cursor : Nat) : Option (BodyPart τ κ) :=
  if cursor < rule.length then rule.parts[cursor]? else none

/-- The symbol under a cursor. -/
def symbolAt? (rule : Rule τ κ T N) (cursor : Nat) : Option (Symbol τ κ) :=
  (rule.partAt? cursor).map BodyPart.symbol

theorem symbolAt?_eq (rule : Rule τ κ T N) (cursor : Nat) :
    rule.symbolAt? cursor = if cursor < rule.length then rule.body[cursor]? else none := by
  rw [symbolAt?, partAt?, body, List.getElem?_map]
  split <;> rfl

/-- The rule in the form `key → body`, the body being `ε` when it stands for
no text. -/
def text [Named κ] (alphabet : τ → Terminal T) (rule : Rule τ κ T N) : String :=
  let body := if rule.length = 0 then ["ε"] else rule.body.map (Symbol.text alphabet)
  " ".intercalate (Named.name rule.key :: "→" :: body)

/-- The rule as a record. -/
def record [Named κ] [Named N] (alphabet : τ → Terminal T) (rule : Rule τ κ T N) : String :=
  Text.record "ProductionRule"
    [("key", Named.literal rule.key), ("left_type", Named.literal rule.kind),
      ("symbols", Text.listing (rule.body.map (Symbol.record alphabet)))]

end Rule

end ShiftReduce
