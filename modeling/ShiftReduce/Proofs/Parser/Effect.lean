/-
  What a step does to a machine.

  A step that goes on shifts a token, reduces by a rule or recovers from an error
  (`Table.Effect`). Only a recovery reports anything, and no step takes back what
  was read: the input that a run comes to is the end of what it began with
  (`input_suffix_of_continues`).
-/
import ShiftReduce.Proofs.Parser.Safety

namespace ShiftReduce

variable {τ κ T N : Type} [Ordered τ] [Ordered κ] [DecidableEq κ] [DecidableEq N] [Named κ]
  [Token T]

namespace Table

/-- The effect of a step that goes on: how the machine behind it differs from the
machine before. -/
inductive Effect (table : Table τ κ T N) (goal : N) (m m' : Machine T N) : Prop
  | shift {token : T} {target : Nat}
      (moves : table.move goal m.stack m.input = .shift token target)
      (input : m.input = token :: m'.input)
      (stack : m'.stack = m.stack.push (.leaf token) target)
      (shifts : m'.stats.shifts = m.stats.shifts + 1)
      (diagnostics : m'.diagnostics = m.diagnostics)
      (lastRecovery : m'.lastRecovery = m.lastRecovery)
  | reduce {place target : Nat} {rule : Rule τ κ T N}
      (moves : table.move goal m.stack m.input = .reduce place rule)
      (input : m'.input = m.input)
      (enough : rule.length ≤ m.stack.frames.length)
      (goes : table.goto? (m.stack.drop rule.length).top rule.key = some target)
      (stack : m'.stack = (m.stack.drop rule.length).push
        (rule.build (m.stack.topNodes rule.length)) target)
      (shifts : m'.stats.shifts = m.stats.shifts)
      (diagnostics : m'.diagnostics = m.diagnostics)
      (lastRecovery : m'.lastRecovery = m.lastRecovery)
  | recover {unwound : Stack T N} {foothold : Foothold κ T N}
      (moves : table.move goal m.stack m.input = .recover)
      (input : m'.input <:+ m.input)
      (progress : m.lastRecovery ≠ some m.input.length)
      (found : table.unwind? m.stack.start m.stack.frames = some (unwound, foothold))
      (stack : m'.stack = unwound.push foothold.placeholder foothold.target)
      (diagnostics : m'.diagnostics.length = m.diagnostics.length + 1)
      (lastRecovery : m'.lastRecovery = some m'.input.length)
      (resumes : ∃ token rest, m'.input = token :: rest ∧
        table.canFollow foothold.key token = true)

variable {table : Table τ κ T N} {goal : N} {m m' : Machine T N}

omit [DecidableEq N] [Named κ] [Token T] in
/-- What is left when tokens are skipped begins with one that was not. -/
theorem exists_of_dropWhile {key : κ} {input : List T}
    (resumes : (input.dropWhile fun token => !table.canFollow key token) ≠ []) :
    ∃ token rest, (input.dropWhile fun token => !table.canFollow key token) = token :: rest ∧
      table.canFollow key token = true := by
  cases left : input.dropWhile fun token => !table.canFollow key token with
  | nil =>
    exact absurd left resumes
  | cons token rest =>
    have kept := List.head?_dropWhile_not (fun token => !table.canFollow key token) input
    rw [left, List.head?_cons] at kept
    exact ⟨token, rest, rfl, by simpa using kept⟩

/-- A step that goes on has one of the three effects. -/
theorem effect_of_step (next : table.step goal m = .next m') : table.Effect goal m m' := by
  have performs := performs_step table goal m
  rw [next] at performs
  cases performs with
  | shift moves input => exact .shift moves input rfl rfl rfl rfl
  | reduce moves reduced =>
    obtain ⟨enough, target, goes, rfl⟩ := reduceStack_eq_ok reduced
    exact .reduce moves rfl enough goes rfl rfl rfl rfl
  | @recover token rest left unwound foothold moves input progress found skips resumes =>
    -- what is left of the input was found by dropping tokens from its front
    have some : (m.input.dropWhile fun token => !table.canFollow foothold.key token) ≠ [] := by
      rw [skips]
      exact resumes
    obtain ⟨first, others, same, follows⟩ := exists_of_dropWhile some
    refine .recover moves ?_ progress found rfl List.length_append rfl ?_
    · show left <:+ m.input
      rw [← skips]
      exact List.dropWhile_suffix _
    · exact ⟨first, others, skips.symm.trans same, follows⟩

omit [Named κ] [Token T] in
theorem Effect.input_suffix (effect : table.Effect goal m m') : m'.input <:+ m.input := by
  cases effect with
  | @shift token _ _ input _ _ _ _ =>
    rw [input]
    exact List.suffix_cons token m'.input
  | reduce _ input _ _ _ _ _ _ =>
    rw [input]
  | recover _ input _ _ _ _ _ => exact input

/-- No run takes back what was read. -/
theorem input_suffix_of_continues (continues : table.Continues goal m m') :
    m'.input <:+ m.input := by
  induction continues with
  | refl => exact List.suffix_rfl
  | tail _ next ih => exact (effect_of_step next).input_suffix.trans ih

/-- No run takes back what was reported. -/
theorem length_diagnostics_of_continues (continues : table.Continues goal m m') :
    m.diagnostics.length ≤ m'.diagnostics.length := by
  induction continues with
  | refl => exact Nat.le_refl _
  | tail _ next ih => exact ih.trans (length_diagnostics_step next)

/-- A step adds a recovery whenever it adds a diagnostic. -/
theorem recoveries_of_step (next : table.step goal m = .next m') :
    m'.stats.recoveries + m.diagnostics.length = m.stats.recoveries + m'.diagnostics.length := by
  have performs := performs_step table goal m
  rw [next] at performs
  cases performs with
  | shift _ _ => rfl
  | reduce _ _ => rfl
  | recover _ _ _ _ _ _ =>
    rw [List.length_append, List.length_singleton]
    exact Nat.succ_add_eq_add_succ _ _

/-- A run makes as many recoveries as it adds diagnostics. -/
theorem recoveries_of_continues (continues : table.Continues goal m m') :
    m'.stats.recoveries + m.diagnostics.length = m.stats.recoveries + m'.diagnostics.length := by
  induction continues with
  | refl => rfl
  | tail _ next ih =>
    have last := recoveries_of_step next
    omega

/-- What a run comes to, it comes to within some budget. -/
theorem exists_run_of_continues (continues : table.Continues goal m m') :
    ∃ n, ∀ budget, table.run goal (n + budget) m = table.run goal budget m' := by
  induction continues using Relation.ReflTransGen.head_induction_on with
  | refl => exact ⟨0, fun budget => by rw [Nat.zero_add]⟩
  | head next _ ih =>
    obtain ⟨n, same⟩ := ih
    refine ⟨n + 1, fun budget => ?_⟩
    rw [Nat.add_right_comm, run, next]
    exact same budget

/-- A machine takes all the steps of the reading that it shadows. -/
theorem continues_of_readsIn {r r' : Reading τ κ T N} {n : Nat} (shadows : m.Shadows r)
    (reads : table.ReadsIn goal n r r') :
    ∃ m', table.Continues goal m m' ∧ m'.Shadows r' ∧ m'.diagnostics = m.diagnostics ∧
      m'.lastRecovery = m.lastRecovery := by
  induction reads generalizing m with
  | refl r => exact ⟨m, .refl, shadows, rfl, rfl⟩
  | step first _ ih =>
    obtain ⟨m₁, next, shadows₁, diagnostics⟩ := step_of_reads shadows first
    obtain ⟨m', later, shadows', diagnostics', lastRecovery'⟩ := ih shadows₁
    have lastRecovery : m₁.lastRecovery = m.lastRecovery := by
      cases effect_of_step next with
      | shift _ _ _ _ _ same => exact same
      | reduce _ _ _ _ _ _ _ same => exact same
      | recover _ _ _ _ _ reported =>
        rw [diagnostics] at reported
        omega
    exact ⟨m', .head next later, shadows', diagnostics'.trans diagnostics,
      lastRecovery'.trans lastRecovery⟩

end Table

end ShiftReduce
