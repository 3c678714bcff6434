/-
  The record of a run, read again without the parser.

  An entry of the record shows the nodes, the states and the tokens of a configuration, and
  an operation. What operation the table has for a configuration (`Table.operation?`) and
  what it makes of it (`Table.applied?`) can be computed from these lists alone, and so can
  be checked whether some entries are the record of a run (`Table.Replays`): an operation
  leads from the configuration that its entry shows to that of the next one, and a recovery
  to the one that it shows itself.

  The record of every parse replays the parse in this way, from the first configuration to
  the last, with an entry for each step that is counted (`replays_of_parse`).
-/
import ShiftReduce.Proofs.Parser.Accounts
import ShiftReduce.Proofs.Statements

namespace ShiftReduce

variable {T N : Type}

/-! ### Configurations -/

/-- What an entry of the record shows of a parser: its nodes and states, the lowest first, and
the tokens to come. -/
structure Configuration (T N : Type) where
  nodes : List (Tree T N)
  states : List Nat
  input : List T

/-- The configuration of a machine. -/
def Machine.configuration (m : Machine T N) : Configuration T N :=
  ⟨m.stack.nodes, m.stack.states, m.input⟩

/-- The configuration that an entry shows. -/
def Snapshot.configuration (entry : Snapshot T N) : Configuration T N :=
  ⟨entry.nodes, entry.states, entry.input⟩

namespace Operation

/-- Whether an operation is a shift. -/
def shifts : Operation → Bool
  | shift _ => true
  | _ => false

/-- Whether an operation is a reduction. -/
def reduces : Operation → Bool
  | reduce _ => true
  | _ => false

/-- Whether an operation is a recovery that goes on. -/
def recovers : Operation → Bool
  | recover success => success
  | _ => false

end Operation

namespace Stack

variable (stack : Stack T N)

theorem states_push (node : Tree T N) (state : Nat) :
    (stack.push node state).states = stack.states ++ [state] := states_cons _ _ _

theorem nodes_push (node : Tree T N) (state : Nat) :
    (stack.push node state).nodes = stack.nodes ++ [node] := nodes_cons _ _ _

theorem getLast?_states : stack.states.getLast? = some stack.top := by
  rw [List.getLast?_eq_getElem?, length_states, Nat.add_sub_cancel, getElem?_states_length]

theorem getLast?_nodes : stack.nodes.getLast? = stack.topNode? := by
  rw [nodes, List.getLast?_reverse, List.head?_map, topNode?]

theorem nodes_drop (count : Nat) :
    (stack.drop count).nodes = stack.nodes.take (stack.frames.length - count) := by
  rw [nodes, drop, List.map_drop, List.reverse_drop, List.length_map, nodes]

theorem states_drop (count : Nat) :
    (stack.drop count).states = stack.states.take (stack.frames.length - count + 1) := by
  rw [states, drop, List.map_drop, List.reverse_drop, List.length_map, states, List.take_succ_cons]

theorem topNodes_eq_drop (count : Nat) :
    stack.topNodes count = stack.nodes.drop (stack.frames.length - count) := by
  rw [topNodes, List.map_take, List.reverse_take, List.length_map, nodes]

end Stack

/-! ### Replaying -/

variable {τ κ : Type} [Ordered τ] [Ordered κ] [DecidableEq κ] [DecidableEq N]

namespace Table

/-- The operation that the table has for a configuration, if it has one. -/
def operation? (table : Table τ κ T N) (goal : N) (c : Configuration T N) : Option Operation :=
  match c.input with
  | [] =>
    if c.nodes.getLast?.bind Tree.kind? = some goal then some .accept
    else
      match c.states.getLast?.map table.reducible with
      | some [place] => some (.reduce place)
      | _ => none
  | token :: _ =>
    match c.states.getLast?.bind fun top => table.actionFor? top token with
    | some (_, .shift state) => some (.shift state)
    | some (_, .reduce place) => some (.reduce place)
    | none => none

/-- What the table makes of a configuration by an operation. A recovery is none that could be
applied. -/
def applied? (table : Table τ κ T N) (c : Configuration T N) :
    Operation → Option (Configuration T N)
  | .shift state =>
    c.input.head?.map fun token =>
      ⟨c.nodes ++ [.leaf token], c.states ++ [state], c.input.tail⟩
  | .reduce place =>
    (table.grammar.rule? place).bind fun rule =>
      if c.nodes.length < rule.length then none
      else
        let states := c.states.take (c.states.length - rule.length)
        let nodes := c.nodes.take (c.nodes.length - rule.length)
        let children := c.nodes.drop (c.nodes.length - rule.length)
        (states.getLast?.bind fun below => table.goto? below rule.key).map fun target =>
          ⟨nodes ++ [rule.build children], states ++ [target], c.input⟩
  | .accept => some { c with nodes := c.nodes.dropLast }
  | .recover _ => none

/-- `table.Resumes c c'` says that a recovery leads from `c` to `c'`: some of the lowest states
are kept with the nodes between them, the topmost of these goes on at a key, the placeholder of
this key is put on it, and tokens are missing at the front of the input only. -/
def Resumes (table : Table τ κ T N) (c c' : Configuration T N) : Prop :=
  ∃ kept key placeholder top target, c.states[kept]? = some top ∧
    (key, placeholder) ∈ table.placeholders ∧ table.goto? top key = some target ∧
    c'.states = c.states.take (kept + 1) ++ [target] ∧
    c'.nodes = c.nodes.take kept ++ [placeholder] ∧ c'.input <:+ c.input

/-- `table.Replays goal c entries last` says that the entries are the record of a run from `c`
to `last`, on the way to a node of the kind `goal`. -/
inductive Replays (table : Table τ κ T N) (goal : N) :
    Configuration T N → List (Snapshot T N) → Configuration T N → Prop
  | nil (c : Configuration T N) : table.Replays goal c [] c
  /-- A shift or a reduction shows the configuration that it is applied to. -/
  | apply {c next last : Configuration T N} {entry : Snapshot T N} {entries : List (Snapshot T N)}
      (shows : entry.configuration = c) (goesOn : entry.operation ≠ .accept)
      (has : table.operation? goal c = some entry.operation)
      (applied : table.applied? c entry.operation = some next)
      (others : table.Replays goal next entries last) : table.Replays goal c (entry :: entries) last
  /-- So does an acceptance, which is the last. -/
  | accept {c next : Configuration T N} {entry : Snapshot T N}
      (shows : entry.configuration = c) (accepts : entry.operation = .accept)
      (has : table.operation? goal c = some entry.operation)
      (applied : table.applied? c entry.operation = some next) : table.Replays goal c [entry] next
  /-- A recovery shows the configuration that it leads to. -/
  | recover {c last : Configuration T N} {entry : Snapshot T N} {entries : List (Snapshot T N)}
      (recovers : entry.operation = .recover true) (resumes : table.Resumes c entry.configuration)
      (others : table.Replays goal entry.configuration entries last) :
      table.Replays goal c (entry :: entries) last
  /-- A reduction that cannot be applied shows the configuration as well, and is the last. -/
  | breakOff {c : Configuration T N} {entry : Snapshot T N} {place : Nat}
      (shows : entry.configuration = c) (reduces : entry.operation = .reduce place)
      (has : table.operation? goal c = some entry.operation)
      (failed : table.applied? c entry.operation = none) : table.Replays goal c [entry] c
  /-- A recovery that fails shows what it has left of the configuration, and is the last. -/
  | giveUp {c : Configuration T N} {entry : Snapshot T N}
      (fails : entry.operation = .recover false)
      (states : entry.states <+: c.states) (nodes : entry.nodes <+: c.nodes)
      (input : entry.input <:+ c.input) : table.Replays goal c [entry] entry.configuration

variable {table : Table τ κ T N} {goal : N} {m m' : Machine T N}

/-! ### The operations of a machine -/

omit [DecidableEq κ] in
/-- The table has the operation that a machine performs. -/
theorem operation?_of_shift {token : T} {state : Nat}
    (moves : table.move goal m.stack m.input = .shift token state) :
    table.operation? goal m.configuration = some (.shift state) := by
  cases isInput : m.input with
  | nil =>
    rw [isInput] at moves
    exact absurd moves (moveAtEnd_ne_shift _)
  | cons first rest =>
    rw [isInput] at moves
    obtain ⟨rfl, t, acts⟩ := actionFor?_of_moveOn_shift moves
    rw [operation?, Machine.configuration, isInput]
    dsimp only
    rw [Stack.getLast?_states, Option.bind_some, acts]

omit [DecidableEq κ] in
theorem operation?_of_reduce {place : Nat} {rule : Rule τ κ T N}
    (moves : table.move goal m.stack m.input = .reduce place rule) :
    table.operation? goal m.configuration = some (.reduce place) := by
  cases isInput : m.input with
  | nil =>
    rw [isInput] at moves
    obtain ⟨only, _⟩ := reducible_of_moveAtEnd moves
    -- at the end of the input it reduces only where the goal is not on top
    have waits : m.stack.nodes.getLast?.bind Tree.kind? ≠ some goal := by
      intro ends
      rw [Stack.getLast?_nodes, Option.bind_eq_some_iff] at ends
      obtain ⟨tree, top, kind⟩ := ends
      cases (moveAtEnd_of_kind top kind).symm.trans moves
    rw [operation?, Machine.configuration, isInput]
    refine (if_neg waits).trans ?_
    rw [Stack.getLast?_states, Option.map_some, only]
  | cons first rest =>
    rw [isInput] at moves
    obtain ⟨⟨t, acts⟩, _⟩ := actionFor?_of_moveOn_reduce moves
    rw [operation?, Machine.configuration, isInput]
    dsimp only
    rw [Stack.getLast?_states, Option.bind_some, acts]

omit [DecidableEq κ] in
/-- A machine accepts at the end of its input, with the goal on top. -/
theorem operation?_of_accept {tree : Tree T N}
    (moves : table.move goal m.stack m.input = .accept tree) :
    table.operation? goal m.configuration = some .accept ∧ m.input = [] ∧
      m.stack.topNode? = some tree := by
  cases isInput : m.input with
  | cons token rest =>
    rw [isInput] at moves
    exact absurd moves (moveOn_ne_accept _)
  | nil =>
    rw [isInput] at moves
    obtain ⟨top, kind⟩ := topNode?_of_moveAtEnd moves
    refine ⟨?_, rfl, top⟩
    have ends : m.stack.nodes.getLast?.bind Tree.kind? = some goal := by
      rw [Stack.getLast?_nodes, top, Option.bind_some, kind]
    rw [operation?, Machine.configuration, isInput]
    exact if_pos ends

variable [Named κ] [Token T]

omit [DecidableEq N] in
/-- A reduction is applied to the lists as it is to the stack. -/
theorem applied?_reduce {place : Nat} {rule : Rule τ κ T N}
    (found : table.grammar.rule? place = some rule) (m : Machine T N) :
    table.applied? m.configuration (.reduce place) =
      (table.reduceStack rule m.stack).toOption.map fun stack =>
        ⟨stack.nodes, stack.states, m.input⟩ := by
  have nodes : m.configuration.nodes.length = m.stack.frames.length := Stack.length_nodes m.stack
  unfold applied? reduceStack
  dsimp only
  rw [found, Option.bind_some]
  by_cases short : m.stack.frames.length < rule.length
  · rw [if_pos short, if_pos (nodes ▸ short)]
    rfl
  · -- the list of states is one longer than that of nodes, and loses as many
    have below : m.configuration.states.take (m.configuration.states.length - rule.length) =
        (m.stack.drop rule.length).states := by
      show m.stack.states.take (m.stack.states.length - rule.length) = _
      rw [Stack.states_drop, Stack.length_states, Nat.succ_sub (Nat.le_of_not_lt short)]
    rw [if_neg short, if_neg (nodes ▸ short), below, nodes, Stack.getLast?_states, Option.bind_some]
    cases table.goto? (m.stack.drop rule.length).top rule.key with
    | none => rfl
    | some target =>
      simp only [Option.map_some, Except.toOption, Machine.configuration, Stack.states_push,
        Stack.nodes_push, Stack.nodes_drop, Stack.topNodes_eq_drop]

omit [DecidableEq N] [Named κ] [Token T] in
/-- A recovery that unwinds the stack to a foothold resumes on it. -/
theorem resumes_of_unwind? {unwound : Stack T N} {foothold : Foothold κ T N} {left : List T}
    (found : table.unwind? m.stack.start m.stack.frames = some (unwound, foothold))
    (suffix : left <:+ m.input) :
    table.Resumes m.configuration
      ⟨(unwound.push foothold.placeholder foothold.target).nodes,
        (unwound.push foothold.placeholder foothold.target).states, left⟩ := by
  obtain ⟨count, rfl, isFoothold⟩ := of_unwind? found
  obtain ⟨entry, member, goes⟩ := List.exists_of_findSome?_eq_some isFoothold
  obtain ⟨target, isTarget, rfl⟩ := Option.map_eq_some_iff.mp goes
  -- what is kept are the states up to the one that goes on
  refine ⟨m.stack.frames.length - count, entry.1, entry.2, (m.stack.drop count).top, target, ?_,
    member, isTarget, ?_, ?_, suffix⟩
  · have top := (m.stack.drop count).getElem?_states_length
    rw [Stack.states_drop, Stack.drop, List.length_drop,
      List.getElem?_take_of_lt (Nat.lt_succ_self _)] at top
    exact top
  · show (Stack.push (m.stack.drop count) entry.2 target).states = _
    rw [Stack.states_push, Stack.states_drop]
    rfl
  · show (Stack.push (m.stack.drop count) entry.2 target).nodes = _
    rw [Stack.nodes_push, Stack.nodes_drop]
    rfl

/-! ### Records -/

/-- `table.Records goal m entries m'` says that a run has come from `m` to `m'` and recorded
these entries, one for each step. -/
structure Records (table : Table τ κ T N) (goal : N) (m : Machine T N)
    (entries : List (Snapshot T N)) (m' : Machine T N) : Prop where
  history : m'.history = m.history.map (entries.reverse ++ ·)
  shifts : m'.stats.shifts = m.stats.shifts + entries.countP fun entry => entry.operation.shifts
  reductions : m'.stats.reductions =
    m.stats.reductions + entries.countP fun entry => entry.operation.reduces
  recoveries : m'.stats.recoveries =
    m.stats.recoveries + entries.countP fun entry => entry.operation.recovers
  goesOn : ∀ entry ∈ entries, entry.operation ≠ .accept
  /-- Whatever is the record of the rest, these entries come before it. -/
  replays : ∀ {rest last}, table.Replays goal m'.configuration rest last →
    table.Replays goal m.configuration (entries ++ rest) last

omit [Named κ] [Token T] in
theorem Records.refl (table : Table τ κ T N) (goal : N) (m : Machine T N) :
    table.Records goal m [] m := by
  refine ⟨?_, rfl, rfl, rfl, nofun, id⟩
  show m.history = m.history.map id
  rw [Option.map_id, id]

omit [Named κ] [Token T] in
theorem Records.trans {m'' : Machine T N} {entries later : List (Snapshot T N)}
    (front : table.Records goal m entries m') (back : table.Records goal m' later m'') :
    table.Records goal m (entries ++ later) m'' := by
  refine ⟨?_, ?_, ?_, ?_, List.forall_mem_append.mpr ⟨front.goesOn, back.goesOn⟩, ?_⟩
  · -- a record is kept with the last entry in front
    rw [back.history, front.history, Option.map_map, List.reverse_append]
    congr 1
    funext earlier
    exact (List.append_assoc _ _ _).symm
  · rw [back.shifts, front.shifts, List.countP_append, Nat.add_assoc]
  · rw [back.reductions, front.reductions, List.countP_append, Nat.add_assoc]
  · rw [back.recoveries, front.recoveries, List.countP_append, Nat.add_assoc]
  · intro rest last replays
    rw [List.append_assoc]
    exact front.replays (back.replays replays)

/-- A step that goes on records one entry. -/
theorem exists_records_of_step (next : table.step goal m = .next m') :
    ∃ entry, table.Records goal m [entry] m' := by
  have performs := performs_step table goal m
  rw [next] at performs
  cases performs with
  | @shift token rest state moves input =>
    -- a shift and a reduction are recorded before they are made
    refine ⟨m.snapshot (.shift state), rfl, rfl, rfl, rfl, List.forall_mem_singleton.mpr nofun, ?_⟩
    intro entries last replays
    refine .apply rfl nofun (operation?_of_shift moves) ?_ replays
    show m.input.head?.map _ = _
    simp only [input, List.head?_cons, Option.map_some, Machine.configuration, List.tail_cons,
      Stack.nodes_push, Stack.states_push]
  | @reduce place rule stack moves reduced =>
    refine ⟨m.snapshot (.reduce place), rfl, rfl, rfl, rfl, List.forall_mem_singleton.mpr nofun, ?_⟩
    intro entries last replays
    refine .apply rfl nofun (operation?_of_reduce moves) ?_ replays
    show table.applied? m.configuration (.reduce place) = _
    rw [applied?_reduce (rule?_of_move moves), reduced]
    rfl
  | @recover token rest left unwound foothold moves input progress found skips resumes =>
    -- a recovery is recorded once it has been made
    have suffix : left <:+ m.input := by
      rw [← skips]
      exact List.dropWhile_suffix _
    refine ⟨_, rfl, rfl, rfl, rfl, List.forall_mem_singleton.mpr nofun, ?_⟩
    intro entries last replays
    exact .recover rfl (resumes_of_unwind? found suffix) replays

/-- So a run records an entry for each step. -/
theorem Takes.exists_records {steps : List (Machine T N × Machine T N)}
    (takes : table.Takes goal m steps m') : ∃ entries, table.Records goal m entries m' := by
  induction takes with
  | nil m => exact ⟨[], .refl table goal m⟩
  | cons first _ ih =>
    obtain ⟨entry, one⟩ := exists_records_of_step first
    obtain ⟨entries, others⟩ := ih
    exact ⟨[entry] ++ entries, one.trans others⟩

/-! ### Whole parses -/

omit [DecidableEq N] in
/-- Recovery that is given up records one entry, which shows what is left. -/
theorem GivesUp.exists_entry (givesUp : table.GivesUp m m') :
    ∃ entry, m'.history = m.history.map ([entry] ++ ·) ∧ entry.operation = .recover false ∧
      entry.input = m'.input ∧ entry.states <+: m.configuration.states ∧
      entry.nodes <+: m.configuration.nodes ∧ entry.input <:+ m.configuration.input := by
  cases givesUp with
  | exhausted input last =>
    exact ⟨_, rfl, rfl, rfl, List.prefix_rfl, List.prefix_rfl, List.suffix_rfl⟩
  | stalled input again =>
    exact ⟨_, rfl, rfl, rfl, List.prefix_rfl, List.prefix_rfl, List.suffix_rfl⟩
  | unfounded input progress missing =>
    exact ⟨_, rfl, rfl, rfl, List.nil_prefix, List.nil_prefix, List.suffix_rfl⟩
  | @unfollowed token rest unwound foothold input progress found skips =>
    -- the stack is unwound and the input skipped before recovery is given up
    obtain ⟨count, rfl, _⟩ := of_unwind? found
    refine ⟨_, rfl, rfl, rfl, ?_, ?_, List.nil_suffix⟩
    · show (m.stack.drop count).states <+: m.stack.states
      rw [Stack.states_drop]
      exact List.take_prefix _ _
    · show (m.stack.drop count).nodes <+: m.stack.nodes
      rw [Stack.nodes_drop]
      exact List.take_prefix _ _

/-- `table.Finishes goal m entries outcome m'` says that a run that has come to `m` ends with
this outcome and with `m'`, and these entries are the record of its end. -/
structure Finishes (table : Table τ κ T N) (goal : N) (m : Machine T N)
    (entries : List (Snapshot T N)) (outcome : Outcome T N) (m' : Machine T N) : Prop where
  history : m'.history = m.history.map (entries.reverse ++ ·)
  stats : m'.stats = m.stats
  shifts : (entries.countP fun entry => entry.operation.shifts) = 0
  reductions : (entries.countP fun entry => entry.operation.reduces) =
    if outcome.abort? = some .reduction then 1 else 0
  recoveries : (entries.countP fun entry => entry.operation.recovers) = 0
  accepts : ∀ entry ∈ entries, entry.operation = .accept → ∃ tree, outcome = .accepted tree
  accepted : ∀ tree, outcome = .accepted tree →
    ∃ entry, entries = [entry] ∧ entry.operation = .accept ∧ entry.nodes.getLast? = some tree
  replays : ∃ last, table.Replays goal m.configuration entries last ∧ last.input = m'.input

/-- However a run ends, its end is recorded. -/
theorem Ends.exists_finishes {outcome : Outcome T N} (ends : table.Ends goal m outcome m') :
    ∃ entries, table.Finishes goal m entries outcome m' := by
  cases ends with
  | unfinished =>
    refine ⟨[], ?_, rfl, rfl, rfl, rfl, List.forall_mem_nil _, by rintro _ ⟨⟩, _, .nil _, rfl⟩
    show m.history = m.history.map id
    rw [Option.map_id, id]
  | @accepted tree _ accepts =>
    have performs := performs_step table goal m
    rw [accepts] at performs
    cases performs with
    | accept moves =>
      obtain ⟨has, done, top⟩ := operation?_of_accept moves
      have shows : (m.snapshot .accept).nodes.getLast? = some tree := by
        show m.stack.nodes.getLast? = some tree
        rw [Stack.getLast?_nodes, top]
      refine ⟨[m.snapshot .accept], rfl, rfl, rfl, rfl, rfl, fun _ _ _ => ⟨tree, rfl⟩, ?_, _,
        .accept rfl rfl has rfl, rfl⟩
      rintro _ ⟨⟩
      exact ⟨_, rfl, rfl, shows⟩
  | aborted aborts =>
    have performs := performs_step table goal m
    rw [aborts] at performs
    cases performs with
    | @breakOff place rule diagnostic moves failed =>
      -- a reduction that fails is counted among the entries, but not by the statistics
      have isAbort : (Outcome.aborted (m.diagnostics ++ [diagnostic]) : Outcome T N).abort? =
          some .reduction := by
        rw [Outcome.abort?, Outcome.reason?, List.getLast?_concat]
        exact abort?_of_reduceStack failed
      have none : table.applied? m.configuration (.reduce place) = none := by
        rw [applied?_reduce (rule?_of_move moves), failed]
        rfl
      refine ⟨[m.snapshot (.reduce place)], rfl, rfl, rfl, ?_, rfl,
        List.forall_mem_singleton.mpr (by rintro ⟨⟩), by rintro _ ⟨⟩, _,
        .breakOff rfl rfl (operation?_of_reduce moves) none, rfl⟩
      rw [if_pos isAbort]
      rfl
    | giveUp moves givesUp =>
      -- a recovery that is given up is counted by neither
      obtain ⟨entry, history, operation, input, states, nodes, suffix⟩ := givesUp.exists_entry
      have isAbort := givesUp.closes.abort?_eq
      refine ⟨[entry], history, givesUp.closes.stats, ?_, ?_, ?_, ?_, by rintro _ ⟨⟩, _,
        .giveUp operation states nodes suffix, input⟩
      · rw [List.countP_singleton, operation]
        rfl
      · rw [List.countP_singleton, operation, isAbort]
        rfl
      · rw [List.countP_singleton, operation]
        rfl
      · rw [List.forall_mem_singleton, operation]
        rintro ⟨⟩

/-- The record of a parse replays it. Read in order from the configuration that the parse
begins in, a shift, a reduction or an acceptance shows the current configuration and its
operation leads to the next one, and a recovery shows the configuration to go on from. An
acceptance stands at the end if and only if the parse accepts, with the tree on top. The other
entries are counted by the statistics, but for a reduction that fails. -/
theorem replays_of_parse {start : Nat} (starts : table.hasStart m = true)
    (fresh : m.stack = .base start) (recording : m.history.isSome = true) (goal : N) (budget : Nat)
    {outcome : Outcome T N} {last : Machine T N}
    (parsed : table.parse goal budget m = (outcome, last)) :
    ∃ entries final, last.trace = m.trace ++ entries ∧
      table.Replays goal ⟨[], [start], m.input⟩ entries final ∧ final.input = last.input ∧
      ((∃ entry, entries.getLast? = some entry ∧ entry.operation = .accept) ↔
        ∃ tree, outcome = .accepted tree) ∧
      (∀ tree, outcome = .accepted tree → ∃ entry, entries.getLast? = some entry ∧
        entry.nodes.getLast? = some tree) ∧
      (entries.countP fun entry => entry.operation.shifts) + m.stats.shifts = last.stats.shifts ∧
      (entries.countP fun entry => entry.operation.recovers) + m.stats.recoveries =
        last.stats.recoveries ∧
      (entries.countP fun entry => entry.operation.reduces) + m.stats.reductions =
        last.stats.reductions + if outcome.abort? = some .reduction then 1 else 0 := by
  rw [parse, if_pos starts] at parsed
  obtain ⟨before, takes, ends⟩ := exists_ends_of_run table goal budget m
  rw [parsed] at ends
  dsimp only at ends
  -- the steps before the last, and then the last
  obtain ⟨entries, records⟩ := takes.exists_records
  obtain ⟨closing, finishes⟩ := ends.exists_finishes
  obtain ⟨final, replays, input⟩ := finishes.replays
  have begins : m.configuration = ⟨[], [start], m.input⟩ := by
    rw [Machine.configuration, fresh]
    rfl
  have replayed := records.replays replays
  rw [begins] at replayed
  refine ⟨entries ++ closing, final, ?_, replayed, input, ?_, ?_, ?_, ?_, ?_⟩
  · obtain ⟨steps, isHistory⟩ := Option.isSome_iff_exists.mp recording
    have history := finishes.history
    rw [records.history, isHistory] at history
    rw [Machine.trace, Machine.trace, history, isHistory]
    simp
  · constructor
    · -- only the last step can accept
      rintro ⟨entry, isLast, accepts⟩
      rcases List.mem_append.mp (List.mem_of_getLast? isLast) with inside | outside
      · exact absurd accepts (records.goesOn entry inside)
      · exact finishes.accepts entry outside accepts
    · rintro ⟨tree, accepted⟩
      obtain ⟨entry, rfl, accepts, _⟩ := finishes.accepted tree accepted
      exact ⟨entry, List.getLast?_concat, accepts⟩
  · intro tree accepted
    obtain ⟨entry, rfl, _, shows⟩ := finishes.accepted tree accepted
    exact ⟨entry, List.getLast?_concat, shows⟩
  · rw [List.countP_append, finishes.shifts, finishes.stats, records.shifts]
    omega
  · rw [List.countP_append, finishes.recoveries, finishes.stats, records.recoveries]
    omega
  · rw [List.countP_append, finishes.reductions, finishes.stats, records.reductions]
    omega

end Table

namespace Statements

/-- A parser that is to read `:= ; id := num` and to record how. -/
def recorder : Machine Word Part :=
  { stack := .base 0, input := words [":=", ";", "id", ":=", "num"], history := some [] }

/-- A statement is missing before the semicolon, so the record begins with a recovery. -/
theorem replays_recorder : table.hasStart recorder = true ∧ recorder.stack = .base 0 ∧
    recorder.history.isSome = true ∧
    (table.parse .program 64 recorder).2.trace.map Snapshot.operation =
      [.recover true, .reduce 2, .shift 6, .shift 1, .shift 5, .shift 8, .reduce 8, .reduce 6,
        .reduce 4, .reduce 3, .reduce 1, .accept] ∧
    ∃ entries final, (table.parse .program 64 recorder).2.trace = entries ∧
      table.Replays .program ⟨[], [0], recorder.input⟩ entries final ∧
      (entries.countP fun entry => entry.operation.shifts) + 0 =
        (table.parse .program 64 recorder).2.stats.shifts := by
  have starts : table.hasStart recorder = true := by decide +kernel
  have fresh : recorder.stack = .base 0 := rfl
  have recording : recorder.history.isSome = true := rfl
  obtain ⟨entries, final, same, replays, _, _, _, shifts, _⟩ :=
    Table.replays_of_parse starts fresh recording .program 64 Prod.mk.eta.symm
  exact ⟨starts, fresh, recording, by decide +kernel, entries, final, same, replays, shifts⟩

end Statements

end ShiftReduce
