/-
  All that a step can come to.

  A step accepts, shifts, reduces or recovers, or else it breaks off at a reduction or
  gives recovery up (`Table.Performs`, `Table.GivesUp`). Each case tells the machine behind
  the step in full, with its stack, its counts, its diagnostics and the entry that it adds
  to the record.

  A run is its course of steps that go on, and behind them the step that it ends with, if
  its budget has lasted (`exists_ends_of_run`). What holds of every run is shown of the
  steps by these cases, and of the course by induction on `Table.Takes`.
-/
import ShiftReduce.Proofs.Parser.Moves

namespace ShiftReduce

variable {τ κ T N : Type} [Ordered τ] [Ordered κ] [DecidableEq κ] [DecidableEq N] [Named κ]
  [Token T]

namespace Machine

variable {T N : Type} (m : Machine T N) (snapshot : Machine T N → Snapshot T N)

/-- A record changes the history and nothing else. -/
theorem record_eq :
    m.record snapshot = { m with history := m.history.map (snapshot m :: ·) } := by
  obtain ⟨stack, input, stats, diagnostics, lastRecovery, history⟩ := m
  cases history <;> rfl

theorem stack_record : (m.record snapshot).stack = m.stack := by rw [record_eq]

theorem input_record : (m.record snapshot).input = m.input := by rw [record_eq]

theorem stats_record : (m.record snapshot).stats = m.stats := by rw [record_eq]

theorem diagnostics_record : (m.record snapshot).diagnostics = m.diagnostics := by rw [record_eq]

theorem lastRecovery_record : (m.record snapshot).lastRecovery = m.lastRecovery := by
  rw [record_eq]

end Machine

/-- Whether a move is to recover. -/
def Move.recovers : Move τ κ T N → Bool
  | .recover => true
  | _ => false

omit [Ordered τ] [Ordered κ] [DecidableEq κ] [DecidableEq N] [Named κ] [Token T] in
theorem Move.eq_recover {move : Move τ κ T N} (recovers : move.recovers = true) :
    move = .recover := by
  cases move with
  | shift _ _ => cases recovers
  | reduce _ _ => cases recovers
  | accept _ => cases recovers
  | recover => rfl

namespace Table

/-! ### Giving up -/

/-- `table.GivesUp m m'` says that recovery is given up at `m`, and leaves `m'`: at the end
of the input, where the last recovery had left the same token, where no state has a
foothold, or where no token can come after the key of the foothold. -/
inductive GivesUp (table : Table τ κ T N) (m : Machine T N) : Machine T N → Prop
  | exhausted (input : m.input = []) (last : Option (String × Span)) :
      table.GivesUp m
        { m with
          diagnostics :=
            m.diagnostics ++ [.unexpectedEnd last (table.expected m.stack.top), .inputExhausted]
          history := m.history.map (m.snapshot (.recover false) :: ·) }
  | stalled {token : T} {rest : List T} (input : m.input = token :: rest)
      (again : m.lastRecovery = some m.input.length) :
      table.GivesUp m
        { m with
          diagnostics :=
            m.diagnostics ++
              [.unexpectedToken (Token.text token) (Token.span token) (table.expected m.stack.top),
                .noProgress (Token.span token)]
          history := m.history.map (m.snapshot (.recover false) :: ·) }
  | unfounded {token : T} {rest : List T} (input : m.input = token :: rest)
      (progress : m.lastRecovery ≠ some m.input.length)
      (missing : table.unwind? m.stack.start m.stack.frames = none) :
      table.GivesUp m
        { m with
          diagnostics :=
            m.diagnostics ++
              [.unexpectedToken (Token.text token) (Token.span token) (table.expected m.stack.top),
                .noRecoverableState (Token.span token)]
          history := m.history.map (m.emptied :: ·) }
  | unfollowed {token : T} {rest : List T} {unwound : Stack T N} {foothold : Foothold κ T N}
      (input : m.input = token :: rest) (progress : m.lastRecovery ≠ some m.input.length)
      (found : table.unwind? m.stack.start m.stack.frames = some (unwound, foothold))
      (skips : (m.input.dropWhile fun token => !table.canFollow foothold.key token) = []) :
      table.GivesUp m
        { m with
          stack := unwound
          input := []
          diagnostics :=
            m.diagnostics ++
              [.unexpectedToken (Token.text token) (Token.span token) (table.expected m.stack.top),
                .noFollowableInput (Named.name foothold.key) (Token.span token)]
          history := m.history.map (⟨unwound.nodes, unwound.states, [], .recover false⟩ :: ·) }

/-! ### Steps -/

/-- `table.Performs goal m result` says that a step from `m`, on the way to a node of the
kind `goal`, comes to the result. -/
inductive Performs (table : Table τ κ T N) (goal : N) (m : Machine T N) : Step T N → Prop
  | accept {tree : Tree T N} (moves : table.move goal m.stack m.input = .accept tree) :
      table.Performs goal m
        (.accepted tree { m with history := m.history.map (m.snapshot .accept :: ·) })
  | shift {token : T} {rest : List T} {state : Nat}
      (moves : table.move goal m.stack m.input = .shift token state)
      (input : m.input = token :: rest) :
      table.Performs goal m
        (.next
          { m with
            stack := m.stack.push (.leaf token) state
            input := rest
            stats := { m.stats with tokens := m.stats.tokens + 1, shifts := m.stats.shifts + 1 }
            history := m.history.map (m.snapshot (.shift state) :: ·) })
  | reduce {place : Nat} {rule : Rule τ κ T N} {stack : Stack T N}
      (moves : table.move goal m.stack m.input = .reduce place rule)
      (reduced : table.reduceStack rule m.stack = .ok stack) :
      table.Performs goal m
        (.next
          { m with
            stack := stack
            stats := { m.stats with reductions := m.stats.reductions + 1 }
            history := m.history.map (m.snapshot (.reduce place) :: ·) })
  | breakOff {place : Nat} {rule : Rule τ κ T N} {diagnostic : Diagnostic}
      (moves : table.move goal m.stack m.input = .reduce place rule)
      (failed : table.reduceStack rule m.stack = .error diagnostic) :
      table.Performs goal m
        (.aborted
          { m with
            diagnostics := m.diagnostics ++ [diagnostic]
            history := m.history.map (m.snapshot (.reduce place) :: ·) })
  | recover {token : T} {rest left : List T} {unwound : Stack T N} {foothold : Foothold κ T N}
      (moves : table.move goal m.stack m.input = .recover) (input : m.input = token :: rest)
      (progress : m.lastRecovery ≠ some m.input.length)
      (found : table.unwind? m.stack.start m.stack.frames = some (unwound, foothold))
      (skips : (m.input.dropWhile fun token => !table.canFollow foothold.key token) = left)
      (resumes : left ≠ []) :
      table.Performs goal m
        (.next
          { m with
            stack := unwound.push foothold.placeholder foothold.target
            input := left
            stats :=
              { m.stats with
                tokens := m.stats.tokens + (m.input.length - left.length)
                recoveries := m.stats.recoveries + 1 }
            diagnostics :=
              m.diagnostics ++
                [.unexpectedToken (Token.text token) (Token.span token)
                  (table.expected m.stack.top)]
            lastRecovery := some left.length
            history :=
              m.history.map
                (⟨(unwound.push foothold.placeholder foothold.target).nodes,
                  (unwound.push foothold.placeholder foothold.target).states, left,
                  .recover true⟩ :: ·) })
  | giveUp {m' : Machine T N} (moves : table.move goal m.stack m.input = .recover)
      (givesUp : table.GivesUp m m') : table.Performs goal m (.aborted m')

variable {table : Table τ κ T N} {goal : N} {m m' : Machine T N}

/-- Recovery at a token puts a placeholder in place, or is given up. -/
theorem performs_recoverAt (moves : table.move goal m.stack m.input = .recover) {token : T}
    {rest : List T} (input : m.input = token :: rest) :
    table.Performs goal m (table.recoverAt m token) := by
  unfold recoverAt
  simp only [Machine.record_eq, Machine.report]
  -- a rescue fails for want of a foothold or of a token, or has both
  split
  · rename_i again
    rw [List.append_assoc]
    exact .giveUp moves (.stalled input again)
  · rename_i progress
    split
    · rename_i rescued
      have missing : table.unwind? m.stack.start m.stack.frames = none := by
        unfold rescue at rescued
        split at rescued
        · assumption
        · dsimp only at rescued
          split at rescued <;> cases rescued
      rw [List.append_assoc]
      exact .giveUp moves (.unfounded input progress missing)
    · rename_i unwound foothold rescued
      unfold rescue at rescued
      split at rescued
      · cases rescued
      · rename_i unwound' foothold' found
        dsimp only at rescued
        split at rescued
        · rename_i skips
          injection rescued with sameStack sameFoothold
          subst sameStack sameFoothold
          rw [List.append_assoc]
          exact .giveUp moves (.unfollowed input progress found (List.isEmpty_iff.mp skips))
        · cases rescued
    · rename_i unwound foothold skipped left rescued
      unfold rescue at rescued
      split at rescued
      · cases rescued
      · rename_i unwound' foothold' found
        dsimp only at rescued
        split at rescued
        · cases rescued
        · rename_i resumes
          injection rescued with sameStack sameFoothold sameSkipped sameLeft
          subst sameStack sameFoothold sameSkipped
          rw [sameLeft] at resumes
          have isLeft : left ≠ [] := fun none => resumes (List.isEmpty_iff.mpr none)
          rw [sameLeft]
          exact .recover moves input progress found sameLeft isLeft

/-- A step does one of these things. -/
theorem performs_step (table : Table τ κ T N) (goal : N) (m : Machine T N) :
    table.Performs goal m (table.step goal m) := by
  unfold step
  split
  · rename_i tree moves
    rw [Machine.record_eq]
    exact .accept moves
  · rename_i token state moves
    cases isInput : m.input with
    | nil =>
      rw [isInput] at moves
      exact absurd moves (moveAtEnd_ne_shift _)
    | cons first rest =>
      have moved := moves
      rw [isInput] at moved
      obtain ⟨rfl, _⟩ := actionFor?_of_moveOn_shift moved
      rw [Machine.record_eq]
      simp only [isInput, List.tail_cons]
      exact .shift moves isInput
  · rename_i place rule moves
    simp only [Machine.record_eq]
    cases reduced : table.reduceStack rule m.stack with
    | error diagnostic => exact .breakOff moves reduced
    | ok stack => exact .reduce moves reduced
  · rename_i moves
    split
    · rename_i isInput
      rw [recoverAtEnd, Machine.record_eq]
      simp only [Machine.report]
      rw [List.append_assoc]
      exact .giveUp moves (.exhausted isInput _)
    · rename_i token rest isInput
      exact performs_recoverAt moves isInput

/-! ### Runs -/

/-- The steps of a run that go on, each with the machines before and behind it. -/
def course (table : Table τ κ T N) (goal : N) : Nat → Machine T N → List (Machine T N × Machine T N)
  | 0, _ => []
  | budget + 1, m =>
    match table.step goal m with
    | .next m' => (m, m') :: table.course goal budget m'
    | _ => []

/-- The successful recoveries among some steps. -/
def recoveriesOf (table : Table τ κ T N) (goal : N) (steps : List (Machine T N × Machine T N)) :
    List (Machine T N × Machine T N) :=
  steps.filter fun step => (table.move goal step.1.stack step.1.input).recovers

/-- The successful recoveries of a parse, each with the machines before and behind it. -/
def recoveries (table : Table τ κ T N) (goal : N) (budget : Nat) (m : Machine T N) :
    List (Machine T N × Machine T N) :=
  if table.hasStart m then table.recoveriesOf goal (table.course goal budget m) else []

/-- `table.Takes goal m steps last` says that the machine `m` takes these steps and comes to
the machine `last`. -/
inductive Takes (table : Table τ κ T N) (goal : N) :
    Machine T N → List (Machine T N × Machine T N) → Machine T N → Prop
  | nil (m : Machine T N) : table.Takes goal m [] m
  | cons {m next last : Machine T N} {steps : List (Machine T N × Machine T N)}
      (first : table.step goal m = .next next) (others : table.Takes goal next steps last) :
      table.Takes goal m ((m, next) :: steps) last

/-- `table.Ends goal last outcome m` says that a run that has come to the machine `last` ends
there, with this outcome and this machine. -/
inductive Ends (table : Table τ κ T N) (goal : N) (last : Machine T N) :
    Outcome T N → Machine T N → Prop
  | unfinished : table.Ends goal last .unfinished last
  | accepted {tree : Tree T N} {m : Machine T N}
      (accepts : table.step goal last = .accepted tree m) :
      table.Ends goal last (.accepted tree) m
  | aborted {m : Machine T N} (aborts : table.step goal last = .aborted m) :
      table.Ends goal last (.aborted m.diagnostics) m

/-- A run takes the steps of its course and ends behind them. -/
theorem exists_ends_of_run (table : Table τ κ T N) (goal : N) (budget : Nat) (m : Machine T N) :
    ∃ last, table.Takes goal m (table.course goal budget m) last ∧
      table.Ends goal last (table.run goal budget m).1 (table.run goal budget m).2 := by
  induction budget generalizing m with
  | zero => exact ⟨m, .nil m, .unfinished⟩
  | succ budget ih =>
    rw [course, run]
    cases taken : table.step goal m with
    | next m' =>
      obtain ⟨last, takes, ends⟩ := ih m'
      exact ⟨last, .cons taken takes, ends⟩
    | accepted tree m' => exact ⟨m, .nil m, .accepted taken⟩
    | aborted m' => exact ⟨m, .nil m, .aborted taken⟩

/-- A run of one step that does not end there is this step. -/
theorem step_of_run_one (ran : (table.run goal 1 m).1 = .unfinished) :
    table.step goal m = .next (table.run goal 1 m).2 := by
  rw [run] at ran ⊢
  cases taken : table.step goal m with
  | next m' => rfl
  | accepted tree m' =>
    rw [taken] at ran
    cases ran
  | aborted m' =>
    rw [taken] at ran
    cases ran

end Table

end ShiftReduce
