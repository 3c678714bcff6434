/-
  Infix expressions by precedence.

  A list of operands with infix operators between them can be read as many
  trees. `Infix.Respects` singles out those in which no operator takes an
  operand that a neighbour has the better claim to: `prefers i j` says that
  between an operator `i` on the left and `j` on the right the operand goes to
  `j`. If the preference goes by strength, there is such a tree for every list:
  operators are added one by one at the right edge of the tree, each as far up
  as the operators above it do not give it their right operand
  (`Infix.respects_push`).
-/
import Mathlib.Data.List.Induction

namespace ShiftReduce

/-- An infix expression over operands `α` and operators `ω`. -/
inductive Infix (α ω : Type) where
  | operand (a : α)
  | node (left : Infix α ω) (operator : ω) (right : Infix α ω)

namespace Infix

variable {α ω : Type}

/-! ### Spines -/

/-- The operators from the root down the left operands. -/
def leftSpine : Infix α ω → List ω
  | operand _ => []
  | node left operator _ => operator :: left.leftSpine

/-- The operators from the root down the right operands. -/
def rightSpine : Infix α ω → List ω
  | operand _ => []
  | node _ operator right => operator :: right.rightSpine

/-- The first operand. -/
def first : Infix α ω → α
  | operand a => a
  | node left _ _ => left.first

/-- The operators with the operands behind them, left to right. -/
def rest : Infix α ω → List (ω × α)
  | operand _ => []
  | node left operator right => left.rest ++ (operator, right.first) :: right.rest

/-- What operands and operators stand for, written one after the other. -/
def yield {β : Type} (operands : α → List β) (operators : ω → List β) : Infix α ω → List β
  | operand a => operands a
  | node left operator right =>
    left.yield operands operators ++ operators operator ++ right.yield operands operators

theorem yield_eq {β : Type} (operands : α → List β) (operators : ω → List β) (t : Infix α ω) :
    t.yield operands operators =
      operands t.first ++ t.rest.flatMap fun entry => operators entry.1 ++ operands entry.2 := by
  induction t with
  | operand a => exact (List.append_nil _).symm
  | node left operator right ihLeft ihRight =>
    rw [yield, ihLeft, ihRight, first, rest, List.flatMap_append, List.flatMap_cons]
    simp only [List.append_assoc]

/-- All operands have one property and all operators another. -/
def All (operands : α → Prop) (operators : ω → Prop) : Infix α ω → Prop
  | operand a => operands a
  | node left operator right =>
    left.All operands operators ∧ operators operator ∧ right.All operands operators

theorem all_iff {operands : α → Prop} {operators : ω → Prop} {t : Infix α ω} :
    t.All operands operators ↔
      operands t.first ∧ ∀ entry ∈ t.rest, operators entry.1 ∧ operands entry.2 := by
  induction t with
  | operand a => exact ⟨fun h => ⟨h, nofun⟩, And.left⟩
  | node left operator right ihLeft ihRight =>
    rw [All, ihLeft, ihRight, first, rest, List.forall_mem_append, List.forall_mem_cons]
    tauto

/-- In every node, the operators that lead the right operand are preferred to
the operator of the node, and it is not preferred to those on the right edge of
the left operand. -/
def Respects (prefers : ω → ω → Prop) : Infix α ω → Prop
  | operand _ => True
  | node left operator right => left.Respects prefers ∧ right.Respects prefers ∧
      (∀ j ∈ right.leftSpine, prefers operator j) ∧ ∀ j ∈ left.rightSpine, ¬ prefers j operator

/-! ### Adding an operator -/

variable (prefers : ω → ω → Prop) [DecidableRel prefers]

/-- Adds an operator with its right operand at the right edge: below the
operators that prefer it. -/
def push : Infix α ω → ω → α → Infix α ω
  | operand b, o, a => node (operand b) o (operand a)
  | node left operator right, o, a =>
    if prefers operator o then node left operator (right.push o a)
    else node (node left operator right) o (operand a)

variable {prefers}

theorem first_push (t : Infix α ω) (o : ω) (a : α) : (t.push prefers o a).first = t.first := by
  induction t with
  | operand b => rfl
  | node left operator right _ _ =>
    rw [push]
    split <;> rfl

theorem rest_push (t : Infix α ω) (o : ω) (a : α) :
    (t.push prefers o a).rest = t.rest ++ [(o, a)] := by
  induction t with
  | operand b => rfl
  | node left operator right _ ih =>
    rw [push]
    split
    · rw [rest, rest, ih, first_push, List.append_assoc, List.cons_append]
    · rfl

/-- The added operator leads the tree, or what led it before still does. -/
theorem mem_leftSpine_push {t : Infix α ω} {o j : ω} {a : α}
    (member : j ∈ (t.push prefers o a).leftSpine) : j = o ∨ j ∈ t.leftSpine := by
  cases t with
  | operand b => exact .inl (List.mem_singleton.mp member)
  | node left operator right =>
    rw [push] at member
    split at member
    · exact .inr member
    · exact List.mem_cons.mp member

variable (transfers : ∀ i j k, prefers i j → ¬ prefers i k → ¬ prefers j k)

include transfers

omit [DecidableRel prefers] in
/-- If the operator at the root is not to give up its right operand, neither
are those further down the right edge. -/
theorem not_prefers_of_root {left right : Infix α ω} {operator o : ω}
    (respects : (node left operator right).Respects prefers) (keeps : ¬ prefers operator o) :
    ∀ j ∈ (node left operator right).rightSpine, ¬ prefers j o := by
  induction right generalizing left operator with
  | operand a =>
    intro j member
    obtain rfl := List.mem_singleton.mp member
    exact keeps
  | node left' operator' right' _ ih =>
    obtain ⟨_, inner, leads, _⟩ := respects
    -- what leads the right operand is preferred, so it does not give way where the root does not
    have below : ¬ prefers operator' o :=
      transfers operator operator' o (leads operator' List.mem_cons_self) keeps
    intro j member
    rcases List.mem_cons.mp member with rfl | deeper
    · exact keeps
    · exact ih inner below j deeper

theorem respects_push {t : Infix α ω} (respects : t.Respects prefers) (o : ω) (a : α) :
    (t.push prefers o a).Respects prefers := by
  induction t with
  | operand b => exact ⟨trivial, trivial, nofun, nofun⟩
  | node left operator right _ ih =>
    rw [push]
    split
    · rename_i gives
      obtain ⟨outer, inner, leads, trails⟩ := respects
      refine ⟨outer, ih inner, fun j member => ?_, trails⟩
      rcases mem_leftSpine_push member with rfl | old
      · exact gives
      · exact leads j old
    · rename_i keeps
      exact ⟨respects, trivial, nofun, not_prefers_of_root transfers respects keeps⟩

/-- Every list of operands and operators is read by a tree that respects the
preference. -/
theorem exists_respects (a : α) (others : List (ω × α)) :
    ∃ t : Infix α ω, t.Respects prefers ∧ t.first = a ∧ t.rest = others := by
  induction others using List.reverseRecOn with
  | nil => exact ⟨operand a, trivial, rfl, rfl⟩
  | append_singleton others last ih =>
    -- the list is taken from the left, each operator pushed with its operand
    obtain ⟨t, respects, isFirst, isRest⟩ := ih
    refine ⟨t.push prefers last.1 last.2, respects_push transfers respects _ _, ?_, ?_⟩
    · rw [first_push, isFirst]
    · rw [rest_push, isRest]

end Infix

end ShiftReduce
