/-
  Recovery makes progress.

  A parser recovers only where something is read since the last recovery. The machine
  remembers no more of that recovery than how many tokens it left, but no step puts a token
  back, so there are never more tokens than that (`Machine.Ahead`), and a recovery where
  there are fewer leaves fewer again. So the numbers of tokens that recoveries leave decrease
  through a run, none of them is zero, and the length of the input bounds the recoveries
  and with them the diagnostics (`decreasing_of_parse`).
-/
import ShiftReduce.Proofs.Parser.Accounts
import ShiftReduce.Proofs.Statements

namespace ShiftReduce

variable {T N : Type}

namespace Machine

/-- The numbers of tokens that some recoveries have left. -/
def lefts (recovered : List (Machine T N × Machine T N)) : List Nat :=
  recovered.map fun step => step.2.input.length

/-- A machine has no more tokens to read than its last recovery has left. -/
def Ahead (m : Machine T N) : Prop :=
  ∀ left, m.lastRecovery = some left → m.input.length ≤ left

end Machine

/-- Numbers that decrease are no more than the largest of them, zero apart. -/
theorem length_le_of_decreasing {bound : Nat} {lefts : List Nat}
    (decreasing : lefts.Pairwise (· > ·)) (within : ∀ left ∈ lefts, 0 < left ∧ left ≤ bound) :
    lefts.length ≤ bound := by
  have distinct : lefts.Nodup := decreasing.imp fun larger => Nat.ne_of_gt larger
  have inside : lefts ⊆ List.range' 1 bound := by
    intro left member
    have bounds := within left member
    rw [List.mem_range'_1]
    omega
  have count := (distinct.subperm inside).length_le
  rwa [List.length_range'] at count

variable {τ κ : Type} [Ordered τ] [Ordered κ] [DecidableEq κ] [DecidableEq N] [Named κ] [Token T]

namespace Table

variable {table : Table τ κ T N} {goal : N} {m m' : Machine T N}

/-- A step that goes on keeps the mark of the last recovery, or it is a recovery away from
that mark and sets it anew. -/
theorem marks_of_step (next : table.step goal m = .next m') :
    m'.input.length ≤ m.input.length ∧
      ((table.recoveriesOf goal [(m, m')] = [] ∧ m'.lastRecovery = m.lastRecovery) ∨
        (table.recoveriesOf goal [(m, m')] = [(m, m')] ∧
          m.lastRecovery ≠ some m.input.length ∧ m'.lastRecovery = some m'.input.length ∧
          0 < m'.input.length)) := by
  have effect := effect_of_step next
  refine ⟨effect.input_suffix.length_le, ?_⟩
  rw [recoveriesOf, List.filter_singleton]
  cases effect with
  | shift moves _ _ _ _ lastRecovery =>
    rw [moves]
    exact .inl ⟨rfl, lastRecovery⟩
  | reduce moves _ _ _ _ _ _ lastRecovery =>
    rw [moves]
    exact .inl ⟨rfl, lastRecovery⟩
  | recover moves _ progress _ _ _ lastRecovery resumes =>
    obtain ⟨token, rest, left, _⟩ := resumes
    have some : 0 < m'.input.length := by
      rw [left, List.length_cons]
      omega
    rw [moves]
    exact .inr ⟨rfl, progress, lastRecovery, some⟩

/-- No step falls back behind the last recovery. -/
theorem ahead_of_step (ahead : m.Ahead) (next : table.step goal m = .next m') : m'.Ahead := by
  obtain ⟨shorter, ⟨_, same⟩ | ⟨_, _, mark, _⟩⟩ := marks_of_step next
  · exact fun left is => shorter.trans (ahead left (same ▸ is))
  · exact fun left is => Nat.le_of_eq (Option.some.inj (mark.symm.trans is))

/-- The recoveries of a run leave fewer and fewer tokens, and fewer than the one before the
run. -/
theorem Takes.decreasing {steps : List (Machine T N × Machine T N)}
    (takes : table.Takes goal m steps m') (ahead : m.Ahead) :
    (Machine.lefts (table.recoveriesOf goal steps)).Pairwise (· > ·) ∧
      ∀ left ∈ Machine.lefts (table.recoveriesOf goal steps),
        0 < left ∧ left ≤ m.input.length ∧
          ∀ before, m.lastRecovery = some before → left < before := by
  induction takes with
  | nil m => exact ⟨.nil, List.forall_mem_nil _⟩
  | @cons m next last steps first _ ih =>
    rw [recoveriesOf_cons]
    obtain ⟨pairwise, within⟩ := ih (ahead_of_step ahead first)
    obtain ⟨shorter, ⟨none, same⟩ | ⟨one, progress, mark, some⟩⟩ := marks_of_step first
    · rw [none, List.nil_append]
      refine ⟨pairwise, fun left member => ?_⟩
      obtain ⟨positive, atMost, before⟩ := within left member
      rw [same] at before
      exact ⟨positive, atMost.trans shorter, before⟩
    · have here : ∀ before, m.lastRecovery = .some before → next.input.length < before := by
        intro before is
        have least := ahead before is
        have other : m.input.length ≠ before := fun same => progress (same ▸ is)
        omega
      rw [one]
      -- what is left later on is less than what is left here
      have later : ∀ left ∈ Machine.lefts (table.recoveriesOf goal steps),
          left < next.input.length := fun left member => (within left member).2.2 _ mark
      refine ⟨.cons later pairwise, List.forall_mem_cons.mpr ⟨⟨some, shorter, here⟩, ?_⟩⟩
      intro left member
      obtain ⟨positive, _, _⟩ := within left member
      have less := later left member
      refine ⟨positive, by omega, fun before is => less.trans (here before is)⟩

/-- The recoveries of a parse of `n` tokens leave fewer and fewer tokens, and always some. So
there are at most `n` of them, and with the last two the parse has at most `n + 2`
diagnostics to add. -/
theorem decreasing_of_parse (fresh : m.lastRecovery = none) (table : Table τ κ T N) (goal : N)
    (budget : Nat) :
    (Machine.lefts (table.recoveries goal budget m)).Pairwise (· > ·) ∧
      (∀ left ∈ Machine.lefts (table.recoveries goal budget m), 0 < left ∧ left ≤ m.input.length) ∧
      (table.recoveries goal budget m).length ≤ m.input.length ∧
      (table.parse goal budget m).2.stats.recoveries =
        m.stats.recoveries + (table.recoveries goal budget m).length ∧
      ∃ added, (table.parse goal budget m).2.diagnostics = m.diagnostics ++ added ∧
        added.length ≤ m.input.length + 2 := by
  rw [recoveries, parse]
  by_cases starts : table.hasStart m = true
  · rw [if_pos starts, if_pos starts]
    obtain ⟨last, takes, _⟩ := exists_ends_of_run table goal budget m
    have ahead : m.Ahead := by
      intro left is
      cases fresh.symm.trans is
    obtain ⟨pairwise, within⟩ := takes.decreasing ahead
    have bounds : ∀ left ∈ Machine.lefts (table.recoveriesOf goal (table.course goal budget m)),
        0 < left ∧ left ≤ m.input.length :=
      fun left member => ⟨(within left member).1, (within left member).2.1⟩
    have count := length_le_of_decreasing pairwise bounds
    rw [Machine.lefts, List.length_map] at count
    have accounts := accounts_of_run table goal budget m
    obtain ⟨added, same, few⟩ := accounts.exists_added
    exact ⟨pairwise, bounds, count, accounts.recoveries, added, same, by omega⟩
  · rw [if_neg starts, if_neg starts]
    have accounts := accounts_of_unknown goal (Bool.eq_false_iff.mpr starts)
    obtain ⟨added, same, few⟩ := accounts.exists_added
    rw [List.length_nil] at few
    exact ⟨.nil, List.forall_mem_nil _, Nat.zero_le _, accounts.recoveries, added, same, by omega⟩

end Table

namespace Statements

/-- A parser that is to read four lines, three of them malformed, and a statement. -/
def sampleMachine : Machine Word Part :=
  { stack := .base 0, input := sampleLines.flatMap Line.tokens ++ sampleLast }

/-- It recovers three times and leaves eleven, ten and six of the eighteen words. -/
theorem decreasing_sample : sampleMachine.lastRecovery = none ∧
    Machine.lefts (table.recoveries .program 64 sampleMachine) = [11, 10, 6] ∧
    (Machine.lefts (table.recoveries .program 64 sampleMachine)).Pairwise (· > ·) ∧
    (table.parse .program 64 sampleMachine).2.stats.recoveries = 3 ∧
    ∃ added, (table.parse .program 64 sampleMachine).2.diagnostics = added ∧
      added.length ≤ 18 + 2 := by
  have fresh : sampleMachine.lastRecovery = none := rfl
  have lefts : Machine.lefts (table.recoveries .program 64 sampleMachine) = [11, 10, 6] := by
    decide +kernel
  obtain ⟨decreasing, _, _, recoveries, added, same, few⟩ :=
    Table.decreasing_of_parse fresh table .program 64
  have three : (table.recoveries .program 64 sampleMachine).length = 3 := by
    rw [← List.length_map, ← Machine.lefts, lefts]
    rfl
  rw [three] at recoveries
  exact ⟨fresh, lefts, decreasing, recoveries, added, same, few⟩

end Statements

end ShiftReduce
