/-
  The alphabet of a grammar: terminals and the symbols of rule bodies.

  A terminal is an element of an ordered type `τ`; its order is the order in
  which a state tries its actions.  What the terminal is called, how tightly
  it binds and which tokens it accepts is the value of an alphabet
  `τ → Terminal T`, so two terminals may share a name and stay distinct.  A
  copy of a terminal may bind otherwise than the alphabet says
  (`Terminal.withBinding`); it is the same element of `τ` all the same.
-/
import ShiftReduce.Ordered
import ShiftReduce.Named
import ShiftReduce.Text.Record

namespace ShiftReduce

/-- Which way a tie between equal precedences goes. -/
inductive Assoc where
  | left
  | right
deriving DecidableEq, Inhabited, Repr

/-- The name of an associativity. -/
def Assoc.name : Assoc → String
  | left => "Left"
  | right => "Right"

/-- How an operator binds: its precedence, and which way a tie goes. -/
structure Binding where
  precedence : Int
  assoc : Assoc
deriving DecidableEq, Repr

/-- What is known of a terminal: its name, its precedence as an operator and
the tokens that it accepts. -/
structure Terminal (T : Type) where
  name : String
  precedence : Int := 0
  assoc : Assoc := .left
  accepts : T → Bool

/-- A copy of a terminal that has another binding. -/
def Terminal.withBinding {T : Type} (terminal : Terminal T) (binding : Binding) : Terminal T :=
  { terminal with precedence := binding.precedence, assoc := binding.assoc }

/-- A terminal as a record; `number` is its place in the alphabet. -/
def Terminal.record {T : Type} (number : Nat) (terminal : Terminal T) : String :=
  Text.record "Terminal"
    [("id", toString number), ("name", Text.quote terminal.name),
      ("precedence", toString terminal.precedence), ("assoc", terminal.assoc.name)]

/-- A symbol of a rule body. `epsilon` stands for the empty text: it is what
the body of an empty rule may be written as, and an item never expects it. -/
inductive Symbol (τ κ : Type) where
  | terminal (t : τ)
  | nonterminal (key : κ)
  | epsilon
deriving DecidableEq, Repr

namespace Symbol

variable {τ κ T : Type}

/-- The terminal that a symbol is. -/
def terminal? : Symbol τ κ → Option τ
  | terminal t => some t
  | _ => none

/-- The nonterminal key that a symbol is. -/
def nonterminal? : Symbol τ κ → Option κ
  | nonterminal key => some key
  | _ => none

/-- Whether a symbol stands for the empty text. -/
def isEpsilon : Symbol τ κ → Bool
  | epsilon => true
  | _ => false

/-- Terminals come before nonterminals, and these before the empty text. -/
def order [Ord τ] [Ord κ] : Symbol τ κ → Symbol τ κ → Ordering
  | terminal s, terminal t => compare s t
  | terminal _, _ => .lt
  | nonterminal _, terminal _ => .gt
  | nonterminal j, nonterminal k => compare j k
  | nonterminal _, epsilon => .lt
  | epsilon, epsilon => .eq
  | epsilon, _ => .gt

instance [Ord τ] [Ord κ] : Ord (Symbol τ κ) := ⟨order⟩

instance [Ordered τ] [Ordered κ] : Std.TransOrd (Symbol τ κ) where
  eq_swap {a b} :=
    match a, b with
    | .terminal s, .terminal t => @Std.OrientedCmp.eq_swap τ compare _ s t
    | .nonterminal j, .nonterminal k => @Std.OrientedCmp.eq_swap κ compare _ j k
    | .terminal _, .nonterminal _ => rfl
    | .terminal _, .epsilon => rfl
    | .nonterminal _, .terminal _ => rfl
    | .nonterminal _, .epsilon => rfl
    | .epsilon, .terminal _ => rfl
    | .epsilon, .nonterminal _ => rfl
    | .epsilon, .epsilon => rfl
  isLE_trans {a b c} := by
    show (order a b).isLE = true → (order b c).isLE = true → (order a c).isLE = true
    cases a <;> cases b <;> cases c <;> simp [order] <;> exact Std.TransCmp.isLE_trans

instance [Ordered τ] [Ordered κ] : Std.LawfulEqOrd (Symbol τ κ) where
  compare_self {a} := by
    show order a a = .eq
    cases a <;> simp [order]
  eq_of_compare {a b} := by
    show order a b = .eq → a = b
    cases a <;> cases b <;> simp [order]

instance [Ordered τ] [Ordered κ] : Ordered (Symbol τ κ) := {}

/-- A symbol as rules show it. -/
def text [Named κ] (alphabet : τ → Terminal T) : Symbol τ κ → String
  | terminal t => (alphabet t).name
  | nonterminal key => Named.name key
  | epsilon => "ε"

/-- A symbol as a record, with its sort. -/
def record [Named κ] (alphabet : τ → Terminal T) : Symbol τ κ → String
  | terminal t => "Terminal(" ++ (alphabet t).name ++ ")"
  | nonterminal key => "NonTerminal(" ++ Named.literal key ++ ")"
  | epsilon => "Epsilon"

end Symbol

end ShiftReduce
