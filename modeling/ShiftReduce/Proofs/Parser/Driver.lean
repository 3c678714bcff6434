/-
  A driver does what a machine does.

  A driver has its nodes on one stack and its states on another; a machine has
  frames. The driver of a machine (`Machine.driver`) holds the nodes and the
  states of the frames, with the start state below. A round of its loop comes
  to the driver of the machine that a step comes to (`Machine.turn_driver`): what
  the one takes from two stacks the other takes from one. By induction a whole run
  of the loop is a run of the machine (`Table.drive_eq`).
-/
import ShiftReduce.Parser.Driver
import ShiftReduce.Proofs.Parser.Footing
import Mathlib.Data.List.TakeWhile

namespace ShiftReduce

/-! ### The driver of a machine -/

namespace Machine

variable {T N : Type}

/-- What a machine shares with its caller. -/
def progress (m : Machine T N) : Progress T N := ⟨m.input, m.stats, m.diagnostics, m.history⟩

/-- The driver with the nodes and the states of a machine's frames. -/
def driver (m : Machine T N) : Driver T N :=
  { m.progress with
    nodes := m.stack.frames.map Frame.node
    states := m.stack.frames.map Frame.state ++ [m.stack.start]
    lastRecovery := m.lastRecovery }

@[simp] theorem driver_input (m : Machine T N) : m.driver.input = m.input := rfl
@[simp] theorem driver_history (m : Machine T N) : m.driver.history = m.history := rfl
@[simp] theorem driver_lastRecovery (m : Machine T N) : m.driver.lastRecovery = m.lastRecovery := rfl

theorem driver_nodes (m : Machine T N) : m.driver.nodes = m.stack.frames.map Frame.node := rfl

theorem driver_states (m : Machine T N) :
    m.driver.states = m.stack.frames.map Frame.state ++ [m.stack.start] := rfl

@[simp] theorem head?_driver_nodes (m : Machine T N) : m.driver.nodes.head? = m.stack.topNode? := by
  rw [driver_nodes, List.head?_map, Stack.topNode?]

@[simp] theorem head?_driver_states (m : Machine T N) :
    m.driver.states.head? = some m.stack.top := by
  rw [driver_states, Stack.top]
  cases m.stack.frames <;> rfl

theorem driver_report (m : Machine T N) (diagnostic : Diagnostic) :
    (m.report diagnostic).driver = m.driver.report diagnostic := rfl

/-- A recorded step shows the stacks of the driver. -/
theorem driver_record (m : Machine T N) (operation : Operation) :
    (m.record (snapshot operation)).driver = m.driver.record operation := by
  rw [record, Driver.record, driver_history]
  cases m.history with
  | none => rfl
  | some steps =>
    have states : m.stack.states = m.driver.states.reverse := by
      rw [driver_states, List.reverse_append]
      rfl
    simp only [driver, progress, snapshot, states, Stack.nodes]

/-- With enough frames as many states are taken away. -/
theorem drop_driver_states (m : Machine T N) {count : Nat} (held : count ≤ m.stack.frames.length) :
    m.driver.states.drop count =
      (m.stack.frames.drop count).map Frame.state ++ [m.stack.start] := by
  rw [driver_states, List.drop_append_of_le_length (by rwa [List.length_map]), List.map_drop]

/-- Taking frames away takes as many nodes and as many states. -/
theorem driver_drop (m : Machine T N) {count : Nat} (held : count ≤ m.stack.frames.length) :
    { m with stack := m.stack.drop count }.driver =
      { m.driver with
        nodes := m.driver.nodes.drop count
        states := m.driver.states.drop count } := by
  rw [drop_driver_states m held, driver_nodes, ← List.map_drop]
  rfl

theorem head?_drop_driver_states (m : Machine T N) {count : Nat}
    (held : count ≤ m.stack.frames.length) :
    (m.driver.states.drop count).head? = some (m.stack.drop count).top := by
  rw [drop_driver_states m held]
  exact head?_driver_states { m with stack := m.stack.drop count }

/-- The nodes taken for a body, the lowest first. -/
theorem reverse_take_driver_nodes (m : Machine T N) (count : Nat) :
    (m.driver.nodes.take count).reverse = m.stack.topNodes count := by
  rw [driver_nodes, ← List.map_take]
  rfl

end Machine

/-- The round of the loop that a step is. -/
def Step.turn {T N : Type} : Step T N → Turn T N
  | .next m => .ok m.driver
  | .accepted tree m => .error (.accepted tree, m.progress)
  | .aborted m => .error (.aborted m.diagnostics, m.progress)

namespace Machine

variable {T N : Type}

/-- To give up is to abort with the reason reported. -/
theorem fatal_driver (m : Machine T N) (reason : Diagnostic) :
    m.driver.fatal reason = (Step.aborted (m.report reason)).turn := rfl

/-- A recovery that pops everything shows empty stacks. -/
theorem turn_emptied (m : Machine T N) (reason : Diagnostic) :
    (Step.aborted ((m.record emptied).report reason)).turn =
      (Driver.record { m.driver with nodes := [], states := [] } (.recover false)).fatal reason := by
  obtain ⟨stack, input, stats, diagnostics, lastRecovery, history⟩ := m
  cases history <;> rfl

end Machine

variable {τ κ T N : Type} [Ordered τ] [Ordered κ] [DecidableEq κ]

namespace Table

/-! ### Moves and recovery -/

/-- The key to recover at is that of the foothold. -/
theorem recoveryKey?_eq (table : Table τ κ T N) (state : Nat) :
    table.recoveryKey? state = (table.foothold? state).map Foothold.key := by
  rw [recoveryKey?, foothold?]
  induction table.placeholders with
  | nil => rfl
  | cons entry rest ih =>
    rw [List.map_cons, List.find?_cons, List.findSome?_cons]
    cases goes : table.goto? state entry.1 with
    | none => simpa using ih
    | some target => rfl

/-- Popping nodes and states unwinds the frames. -/
theorem popTo_frames (table : Table τ κ T N) (start : Nat) (frames : List (Frame T N)) :
    table.popTo (frames.map Frame.state ++ [start]) (frames.map Frame.node) =
      match table.unwind? start frames with
      | none => (none, [], [])
      | some (unwound, foothold) =>
        (some foothold.key, unwound.frames.map Frame.state ++ [unwound.start],
          unwound.frames.map Frame.node) := by
  induction frames with
  | nil =>
    rw [List.map_nil, List.map_nil, List.nil_append, popTo, recoveryKey?_eq, unwind?]
    cases table.foothold? start <;> rfl
  | cons frame below ih =>
    rw [List.map_cons, List.map_cons, List.cons_append, popTo, recoveryKey?_eq, unwind?]
    cases table.foothold? frame.state with
    | none => exact ih
    | some foothold => rfl

/-- Without a set of what follows a key nothing follows it. -/
theorem skipTo_eq (table : Table τ κ T N) (key : κ) (input : List T) :
    table.skipTo key input = input.dropWhile fun token => !table.canFollow key token := by
  unfold skipTo canFollow
  cases table.follow.get? key with
  | none => exact (List.dropWhile_eq_nil_iff.mpr fun _ _ => rfl).symm
  | some follow => rfl

omit [DecidableEq κ] in
/-- A machine moves by what is on top of its stack. -/
theorem choice_eq_move [DecidableEq N] (table : Table τ κ T N) (goal : N) (stack : Stack T N)
    (input : List T) :
    table.choice goal stack.top stack.topNode? input = table.move goal stack input := by
  cases input <;> rfl

end Table

variable [Named κ] [Token T]

namespace Machine

variable (table : Table τ κ T N)

/-- A reduction of the two stacks is one of the frames. -/
theorem reduce_driver (rule : Rule τ κ T N) (m : Machine T N) :
    m.driver.reduce table rule =
      (match table.reduceStack rule m.stack with
      | .error diagnostic => Step.aborted (m.report diagnostic)
      | .ok stack =>
        .next
          { m with
            stack := stack
            stats := { m.stats with reductions := m.stats.reductions + 1 } }).turn := by
  have short : (m.driver.nodes.length < rule.length ∨ m.driver.states.length ≤ rule.length) ↔
      m.stack.frames.length < rule.length := by
    rw [driver_nodes, driver_states, List.length_append, List.length_map, List.length_map,
      List.length_singleton]
    omega
  have held : m.driver.nodes.length = m.stack.frames.length := List.length_map ..
  rw [Driver.reduce, Table.reduceStack]
  by_cases few : m.stack.frames.length < rule.length
  · rw [if_pos (short.mpr few), if_pos few, held]
    rfl
  · rw [if_neg (mt short.mp few), if_neg few]
    -- the frames that are left have the states that are left, so the goto is the same
    have held := Nat.le_of_not_lt few
    dsimp only
    rw [head?_drop_driver_states m held, Option.bind_some, reverse_take_driver_nodes,
      ← driver_drop m held]
    cases table.goto? (m.stack.drop rule.length).top rule.key with
    | none => rfl
    | some target => rfl

/-- At the end of the input recovery fails. -/
theorem recover_driver_nil (m : Machine T N) (atEnd : m.input = []) :
    m.driver.recover table = (table.recoverAtEnd m).turn := by
  rw [Driver.recover, Table.recoverAtEnd]
  simp only [driver_input, atEnd, head?_driver_states, head?_driver_nodes, Option.map_some,
    Option.getD_some]
  rw [← driver_report, ← driver_record, fatal_driver]

/-- At a token a driver recovers as a machine does. -/
theorem recover_driver_cons (m : Machine T N) {token : T} {rest : List T}
    (onToken : m.input = token :: rest) :
    m.driver.recover table = (table.recoverAt m token).turn := by
  rw [Driver.recover, Table.recoverAt]
  simp only [driver_input, onToken, head?_driver_states, Option.map_some, Option.getD_some]
  generalize Diagnostic.unexpectedToken _ _ _ = unexpected
  rw [← driver_report]
  have onToken' : (m.report unexpected).input = token :: rest := onToken
  generalize m.report unexpected = m at onToken'
  by_cases again : m.lastRecovery = some m.input.length
  · rw [driver_lastRecovery, driver_input, if_pos again, if_pos again, ← driver_record,
      fatal_driver]
  · rw [driver_lastRecovery, driver_input, if_neg again, if_neg again, driver_states, driver_nodes,
      Table.popTo_frames, Table.rescue]
    cases found : table.unwind? m.stack.start m.stack.frames with
    | none => exact (turn_emptied m _).symm
    | some unwinding =>
      obtain ⟨unwound, foothold⟩ := unwinding
      dsimp only
      rw [Table.skipTo_eq]
      generalize m.input.dropWhile _ = left
      cases left with
      | nil =>
        rw [if_pos List.isEmpty_nil, if_pos List.isEmpty_nil]
        dsimp only
        rw [← fatal_driver, driver_record]
        rfl
      | cons t later =>
        -- the foothold has a goto and a placeholder
        obtain ⟨count, _, held⟩ := Table.of_unwind? found
        obtain ⟨stands, goes⟩ := Table.of_foothold? held
        have top := head?_driver_states { m with stack := unwound }
        rw [driver_states] at top
        have more : ¬ (t :: later).isEmpty = true := Bool.false_ne_true
        rw [if_neg more, if_neg more, top, Option.bind_some, goes, stands]
        dsimp only
        rw [Step.turn, driver_record]
        rfl

variable [DecidableEq N] (goal : N)

/-- A round of the loop is a step. -/
theorem turn_driver (m : Machine T N) : m.driver.turn table goal = (table.step goal m).turn := by
  have isTop := head?_driver_states m
  obtain ⟨below, states⟩ := List.head?_eq_some_iff.mp isTop
  rw [Driver.turn, Table.step, states]
  dsimp only
  rw [head?_driver_nodes, driver_input, Table.choice_eq_move]
  cases table.move goal m.stack m.input with
  | accept tree =>
    dsimp only
    rw [← driver_record]
    rfl
  | shift token state =>
    dsimp only
    rw [← driver_record]
    rfl
  | reduce place rule =>
    dsimp only
    rw [← driver_record]
    exact reduce_driver table rule _
  | recover =>
    dsimp only
    cases onInput : m.input with
    | nil => exact recover_driver_nil table m onInput
    | cons token rest => exact recover_driver_cons table m onInput

/-- A run of the loop is a run of the machine. -/
theorem run_driver (budget : Nat) (m : Machine T N) :
    m.driver.run table goal budget =
      ((table.run goal budget m).1, (table.run goal budget m).2.progress) := by
  induction budget generalizing m with
  | zero => rfl
  | succ budget ih =>
    rw [Driver.run, turn_driver, Table.run]
    cases table.step goal m with
    | next after => exact ih after
    | accepted tree last => rfl
    | aborted last => rfl

end Machine

namespace Progress

/-- The machine that starts from a state. -/
def machine (progress : Progress T N) (start : Nat) : Machine T N :=
  { stack := .base start
    input := progress.input
    stats := progress.stats
    diagnostics := progress.diagnostics
    history := progress.history }

end Progress

variable [DecidableEq N]

/-- To drive a table is to run the machine of its state and input. -/
theorem Table.drive_eq (table : Table τ κ T N) (goal : N) (budget start : Nat)
    (progress : Progress T N) :
    table.drive goal budget start progress =
      ((table.parse goal budget (progress.machine start)).1,
        (table.parse goal budget (progress.machine start)).2.progress) := by
  have hasStart : table.hasStart (progress.machine start) =
      decide (start < table.states.length) := rfl
  rw [drive, parse, hasStart]
  by_cases known : start < table.states.length
  · rw [if_pos known, if_pos (decide_eq_true known)]
    exact (progress.machine start).run_driver table goal budget
  · rw [if_neg known, if_neg (by simpa using known)]
    rfl

namespace Table

variable (table : Table τ κ T N) (goal : N) (budget : Nat) (tokens : List T)

/-- Tokens driven from the start state are parsed. -/
theorem drive_tokens : table.drive goal budget 0 { input := tokens } =
    ((table.parseTokens goal budget tokens).1,
      (table.parseTokens goal budget tokens).2.progress) :=
  table.drive_eq goal budget 0 { input := tokens }

/-- What tokens are driven to is what a machine comes to. -/
theorem exists_parseTokens_of_drive {outcome : Outcome T N} {progress : Progress T N}
    (drives : table.drive goal budget 0 { input := tokens } = (outcome, progress)) :
    ∃ m, table.parseTokens goal budget tokens = (outcome, m) ∧ m.progress = progress := by
  rw [drive_tokens] at drives
  obtain ⟨rfl, rfl⟩ := Prod.mk.inj drives
  exact ⟨_, rfl, rfl⟩

end Table

end ShiftReduce
