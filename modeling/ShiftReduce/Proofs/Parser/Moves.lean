/-
  What a parser does next, read back from its table.

  A shift or a reduction on a token is an action of the state on top, and at the end of the
  input a reduction is the only one of this state and an acceptance finds its goal on top.
  A reduction that succeeds has found its nodes on the stack and its goto below them.
-/
import ShiftReduce.Parser.Run

namespace ShiftReduce

variable {τ κ T N : Type}

namespace Table

variable [Ordered τ] [Ordered κ] {table : Table τ κ T N} {stack : Stack T N} {token : T}
  {place : Nat} {rule : Rule τ κ T N}

theorem reduction_eq_reduce {place' : Nat} (moves : table.reduction place' = .reduce place rule) :
    place' = place ∧ table.grammar.rule? place = some rule := by
  unfold reduction at moves
  split at moves
  · rename_i rule' found
    injection moves with same sameRule
    exact ⟨same, by rw [← same, found, sameRule]⟩
  · cases moves

theorem reduction_ne_shift (place : Nat) {target : Nat} :
    table.reduction place ≠ .shift token target := by
  unfold reduction
  split <;> nofun

theorem reduction_ne_accept (place : Nat) {tree : Tree T N} :
    table.reduction place ≠ .accept tree := by
  unfold reduction
  split <;> nofun

theorem reduction_of_rule? (found : table.grammar.rule? place = some rule) :
    table.reduction place = .reduce place rule := by
  unfold reduction
  rw [found]

theorem actionFor?_of_moveOn_reduce (moves : table.moveOn stack token = .reduce place rule) :
    (∃ t, table.actionFor? stack.top token = some (t, .reduce place)) ∧
      table.grammar.rule? place = some rule := by
  unfold moveOn choiceOn at moves
  split at moves
  · cases moves
  · rename_i t place' acts
    obtain ⟨rfl, found⟩ := reduction_eq_reduce moves
    exact ⟨⟨t, acts⟩, found⟩
  · cases moves

theorem actionFor?_of_moveOn_shift {token' : T} {target : Nat}
    (moves : table.moveOn stack token = .shift token' target) :
    token' = token ∧ ∃ t, table.actionFor? stack.top token = some (t, .shift target) := by
  unfold moveOn choiceOn at moves
  split at moves
  · rename_i t target' acts
    injection moves with same sameTarget
    exact ⟨same.symm, t, by rw [acts, sameTarget]⟩
  · exact absurd moves (reduction_ne_shift _)
  · cases moves

theorem moveOn_ne_accept (stack : Stack T N) {tree : Tree T N} :
    table.moveOn stack token ≠ .accept tree := by
  intro moves
  unfold moveOn choiceOn at moves
  split at moves
  · cases moves
  · exact absurd moves (reduction_ne_accept _)
  · cases moves

section Reductions

variable [DecidableEq κ] [Named κ] [Token T]

theorem reduceStack_eq_ok {stack' : Stack T N}
    (ok : table.reduceStack rule stack = .ok stack') :
    rule.length ≤ stack.frames.length ∧
      ∃ target, table.goto? (stack.drop rule.length).top rule.key = some target ∧
        stack' = (stack.drop rule.length).push (rule.build (stack.topNodes rule.length)) target := by
  unfold reduceStack at ok
  dsimp only at ok
  split at ok
  · cases ok
  · rename_i enough
    split at ok
    · rename_i target goes
      exact ⟨Nat.le_of_not_lt enough, target, goes, (Except.ok.inj ok).symm⟩
    · cases ok

theorem reduceStack_of_goto? {target : Nat}
    (enough : rule.length ≤ stack.frames.length)
    (goes : table.goto? (stack.drop rule.length).top rule.key = some target) :
    table.reduceStack rule stack =
      .ok ((stack.drop rule.length).push (rule.build (stack.topNodes rule.length)) target) := by
  unfold reduceStack
  dsimp only
  rw [if_neg (Nat.not_lt.mpr enough), goes]

end Reductions

variable [DecidableEq N] {goal : N}

/-- At the end of the input a rule is reduced if it alone has been read
completely. -/
theorem reducible_of_moveAtEnd (moves : table.moveAtEnd goal stack = .reduce place rule) :
    table.reducible stack.top = [place] ∧ table.grammar.rule? place = some rule := by
  unfold moveAtEnd choiceAtEnd at moves
  split at moves
  · cases moves
  · split at moves
    · rename_i place' only
      obtain ⟨rfl, found⟩ := reduction_eq_reduce moves
      exact ⟨only, found⟩
    · cases moves

theorem moveAtEnd_of_reducible (waits : stack.topNode?.all fun tree => tree.kind? ≠ some goal)
    (only : table.reducible stack.top = [place]) (found : table.grammar.rule? place = some rule) :
    table.moveAtEnd goal stack = .reduce place rule := by
  have none : stack.topNode?.filter (fun tree => tree.kind? = some goal) = none := by
    cases top : stack.topNode? with
    | none => rfl
    | some tree =>
      rw [top] at waits
      simpa using waits
  unfold moveAtEnd choiceAtEnd
  rw [none, only]
  exact reduction_of_rule? found

theorem moveAtEnd_of_kind {tree : Tree T N} (top : stack.topNode? = some tree)
    (kind : tree.kind? = some goal) : table.moveAtEnd goal stack = .accept tree := by
  unfold moveAtEnd choiceAtEnd
  rw [top, Option.filter_some, if_pos (decide_eq_true kind)]

theorem moveAtEnd_ne_shift (stack : Stack T N) {target : Nat} :
    table.moveAtEnd goal stack ≠ .shift token target := by
  intro moves
  unfold moveAtEnd choiceAtEnd at moves
  split at moves
  · cases moves
  · split at moves
    · exact absurd moves (reduction_ne_shift _)
    · cases moves

theorem topNode?_of_moveAtEnd {tree : Tree T N}
    (moves : table.moveAtEnd goal stack = .accept tree) :
    stack.topNode? = some tree ∧ tree.kind? = some goal := by
  unfold moveAtEnd choiceAtEnd at moves
  split at moves
  · rename_i tree' top
    injection moves with same
    subst same
    obtain ⟨found, kind⟩ := Option.filter_eq_some_iff.mp top
    exact ⟨found, of_decide_eq_true kind⟩
  · split at moves
    · exact absurd moves (reduction_ne_accept _)
    · cases moves

theorem move_of_actionFor?_shift {rest : List T} {t : τ} {target : Nat}
    (acts : table.actionFor? stack.top token = some (t, .shift target)) :
    table.move goal stack (token :: rest) = .shift token target := by
  rw [move, moveOn, choiceOn, acts]

theorem move_of_actionFor?_reduce {rest : List T} {t : τ}
    (acts : table.actionFor? stack.top token = some (t, .reduce place))
    (found : table.grammar.rule? place = some rule) :
    table.move goal stack (token :: rest) = .reduce place rule := by
  rw [move, moveOn, choiceOn, acts]
  exact reduction_of_rule? found

end Table

end ShiftReduce
