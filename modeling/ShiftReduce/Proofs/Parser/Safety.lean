/-
  Runs of a parser from the start state, through any number of recoveries.

  Every step keeps the frames of the stack on their edges (`Footed.step`), and
  what it reports is the fault of the input, a missing goto on the start key
  apart (`Footed.adds_step`). A driver goes through the steps of a machine
  (`Table.exists_continues_of_loops`), so its two stacks keep parallel, and what
  a round of its loop takes from them and looks up in the table is there
  (`Driver.wellStacked_of_loops`).
-/
import ShiftReduce.Proofs.Parser.Driver
import Mathlib.Logic.Relation

namespace ShiftReduce

variable {τ κ T N : Type} [Ordered τ] [Ordered κ] [DecidableEq τ] [DecidableEq κ]

/-! ### Steps -/

/-- The machine that a step ends with. -/
def Step.machine : Step T N → Machine T N
  | .next m => m
  | .accepted _ m => m
  | .aborted m => m

/-- A diagnostic blames the input if it says that the input cannot go on or
that recovery fails; the others would say that the table is broken. -/
def Diagnostic.BlamesInput : Diagnostic → Prop
  | .unexpectedToken .. => True
  | .unexpectedEnd .. => True
  | .inputExhausted => True
  | .noProgress .. => True
  | .noRecoverableState .. => True
  | .noFollowableInput .. => True
  | .unknownStart .. => False
  | .emptyStack => False
  | .underflow .. => False
  | .noGoto .. => False
  | .noPlaceholder .. => False

/-- `m.Adds reason m'` says that the diagnostics of `m'` are those of `m` and
then some that have a reason. -/
def Machine.Adds (m : Machine T N) (reason : Diagnostic → Prop) (m' : Machine T N) : Prop :=
  ∃ added, m'.diagnostics = m.diagnostics ++ added ∧ ∀ diagnostic ∈ added, reason diagnostic

namespace Machine.Adds

variable {m m' m'' : Machine T N} {reason reason' : Diagnostic → Prop}

theorem of_eq (same : m'.diagnostics = m.diagnostics) : m.Adds reason m' :=
  ⟨[], by rw [same, List.append_nil], List.forall_mem_nil _⟩

theorem refl (m : Machine T N) : m.Adds reason m := of_eq rfl

theorem mono (adds : m.Adds reason m')
    (weaker : ∀ diagnostic, reason diagnostic → reason' diagnostic) : m.Adds reason' m' := by
  obtain ⟨added, same, all⟩ := adds
  exact ⟨added, same, fun diagnostic member => weaker diagnostic (all diagnostic member)⟩

theorem trans (front : m.Adds reason m') (back : m'.Adds reason m'') : m.Adds reason m'' := by
  obtain ⟨added, same, all⟩ := front
  obtain ⟨later, same', all'⟩ := back
  refine ⟨added ++ later, ?_, List.forall_mem_append.mpr ⟨all, all'⟩⟩
  rw [same', same, List.append_assoc]

end Machine.Adds

variable [DecidableEq N] [Named κ] [Token T]

namespace Table

variable {g : Grammar τ κ T N} {start : κ} {table : Table τ κ T N} {goal : N} {m m' : Machine T N}

omit [DecidableEq τ] [DecidableEq N] in
/-- With the nodes of its body a reduction fails for want of a goto. -/
theorem error_of_reduceStack {rule : Rule τ κ T N} {stack : Stack T N} {diagnostic : Diagnostic}
    (enough : rule.length ≤ stack.frames.length)
    (failed : table.reduceStack rule stack = .error diagnostic) :
    diagnostic = .noGoto (rule.text table.grammar.alphabet) (Named.name rule.key)
      (rule.build (stack.topNodes rule.length)).span? := by
  unfold Table.reduceStack at failed
  dsimp only at failed
  rw [if_neg (Nat.not_lt.mpr enough)] at failed
  split at failed
  · cases failed
  · exact (Except.error.inj failed).symm

omit [DecidableEq τ] [DecidableEq κ] [Named κ] [Token T] in
theorem rule?_of_move {stack : Stack T N} {input : List T} {place : Nat} {rule : Rule τ κ T N}
    (moves : table.move goal stack input = .reduce place rule) :
    table.grammar.rule? place = some rule := by
  cases input with
  | nil => exact (reducible_of_moveAtEnd moves).2
  | cons token rest => exact (actionFor?_of_moveOn_reduce moves).2

omit [DecidableEq τ] in
/-- A step keeps the frames on their edges. -/
theorem Footed.step (footed : table.Footed m.stack) (next : table.step goal m = .next m') :
    table.Footed m'.stack := by
  have performs := performs_step table goal m
  rw [next] at performs
  cases performs with
  | shift moves input =>
    rw [input] at moves
    obtain ⟨_, t, acts⟩ := actionFor?_of_moveOn_shift moves
    exact footed.push (.shifted acts)
  | @reduce place rule stack moves reduced =>
    obtain ⟨_, target, goes, rfl⟩ := reduceStack_eq_ok reduced
    have isRule : rule ∈ table.grammar.rules := List.mem_of_getElem? (rule?_of_move moves)
    exact (footed.drop rule.length).push (.reduced _ isRule goes)
  | recover _ _ _ found _ _ =>
    -- frames are taken away, and the placeholder enters by the goto of its key
    obtain ⟨count, rfl, isFoothold⟩ := of_unwind? found
    obtain ⟨stands, goes⟩ := of_foothold? isFoothold
    exact (footed.drop count).push (.placed stands goes)

omit [Named κ] [Token T] in
/-- Only a reduction by a start rule that leaves the start state alone finds no
goto, and none finds too few nodes. -/
theorem Footed.reduction {stack : Stack T N} {input : List T} (footed : table.Footed stack)
    (built : g.Automaton start table) {place : Nat} {rule : Rule τ κ T N}
    (moves : table.move goal stack input = .reduce place rule) :
    rule.length ≤ stack.frames.length ∧
      ((∃ target, table.goto? (stack.drop rule.length).top rule.key = some target) ∨
        (rule.key = start ∧ stack.start = 0 ∧ stack.frames.length = rule.length)) := by
  obtain ⟨s, _, isState, _⟩ := footed.reaches built
  obtain ⟨complete, found⟩ := complete_of_move built moves isState
  obtain ⟨first, frames⟩ := stack
  obtain ⟨rfl, path, stands⟩ := footed
  obtain ⟨enough, goes | ⟨isStart, all⟩⟩ := stands.reduction built isState complete found
  · exact ⟨enough, .inl goes⟩
  · exact ⟨enough, .inr ⟨isStart, rfl, all⟩⟩

end Table

/-! ### Diagnostics -/

/-- `d.Reduces table goal place rule` says that a driver is to reduce by the rule
at a place. -/
def Driver.Reduces (table : Table τ κ T N) (goal : N) (d : Driver T N) (place : Nat)
    (rule : Rule τ κ T N) : Prop :=
  ∃ top, d.states.head? = some top ∧
    table.choice goal top d.nodes.head? d.input = .reduce place rule

/-- `d.Warrants table start goal diagnostic` says that a driver has a reason to
report the diagnostic: the input is to blame, or a start rule is to be reduced and
only the start state is below its body. -/
def Driver.Warrants (table : Table τ κ T N) (start : κ) (goal : N) (d : Driver T N)
    (diagnostic : Diagnostic) : Prop :=
  diagnostic.BlamesInput ∨
    ∃ place rule, d.Reduces table goal place rule ∧ rule.key = start ∧
      d.states.drop rule.length = [0] ∧
      diagnostic = .noGoto (rule.text table.grammar.alphabet) (Named.name start)
        (rule.build (d.nodes.take rule.length).reverse).span?

namespace Machine

variable {table : Table τ κ T N} {goal : N} {m : Machine T N} {place : Nat} {rule : Rule τ κ T N}

omit [DecidableEq N] [Named κ] [Token T] in
/-- Below all the nodes is the start state alone. -/
theorem drop_driver_states_of_length {count : Nat} (isFirst : m.stack.start = 0)
    (all : m.stack.frames.length = count) : m.driver.states.drop count = [0] := by
  rw [drop_driver_states m (Nat.le_of_eq all.symm), isFirst, ← all, List.drop_length]
  rfl

omit [DecidableEq τ] [DecidableEq κ] [Named κ] [Token T] in
/-- The driver of a machine is to reduce where the machine is. -/
theorem reduces_driver : m.driver.Reduces table goal place rule ↔
    table.move goal m.stack m.input = .reduce place rule := by
  unfold Driver.Reduces
  rw [head?_driver_states, head?_driver_nodes, driver_input, ← Table.choice_eq_move]
  constructor
  · rintro ⟨_, ⟨rfl⟩, reduces⟩
    exact reduces
  · exact fun reduces => ⟨_, rfl, reduces⟩

end Machine

namespace Table

variable {g : Grammar τ κ T N} {start : κ} {table : Table τ κ T N} {goal : N} {m m' : Machine T N}

omit [DecidableEq τ] [DecidableEq N] in
/-- Recovery that is given up blames the input. -/
theorem GivesUp.adds (givesUp : table.GivesUp m m') : m.Adds Diagnostic.BlamesInput m' := by
  cases givesUp with
  | exhausted _ _ => exact ⟨_, rfl, by simp [Diagnostic.BlamesInput]⟩
  | stalled _ _ => exact ⟨_, rfl, by simp [Diagnostic.BlamesInput]⟩
  | unfounded _ _ _ => exact ⟨_, rfl, by simp [Diagnostic.BlamesInput]⟩
  | unfollowed _ _ _ _ => exact ⟨_, rfl, by simp [Diagnostic.BlamesInput]⟩

/-- What a step reports is warranted by the machine. -/
theorem Footed.adds_step (footed : table.Footed m.stack) (built : g.Automaton start table) :
    m.Adds (m.driver.Warrants table start goal) (table.step goal m).machine := by
  have performs := performs_step table goal m
  generalize table.step goal m = result at performs
  cases performs with
  | accept _ => exact .of_eq rfl
  | shift _ _ => exact .of_eq rfl
  | reduce _ _ => exact .of_eq rfl
  | breakOff moves failed =>
    obtain ⟨enough, ⟨target, goes⟩ | ⟨isStart, isFirst, all⟩⟩ := footed.reduction built moves
    · cases (reduceStack_of_goto? enough goes).symm.trans failed
    · -- the nodes were there, so it is the goto that is missing
      have missing := error_of_reduceStack enough failed
      rw [isStart, ← Machine.reverse_take_driver_nodes] at missing
      have bottom := m.drop_driver_states_of_length isFirst all
      exact ⟨_, rfl, List.forall_mem_singleton.mpr
        (.inr ⟨_, _, Machine.reduces_driver.mpr moves, isStart, bottom, missing⟩)⟩
  | recover _ _ _ _ _ _ => exact ⟨_, rfl, List.forall_mem_singleton.mpr (.inl trivial)⟩
  | giveUp _ givesUp => exact givesUp.adds.mono fun _ => .inl

/-! ### Runs -/

/-- `table.Continues goal m m'` says that a run from `m` comes to `m'`, through
any number of steps. -/
def Continues (table : Table τ κ T N) (goal : N) : Machine T N → Machine T N → Prop :=
  Relation.ReflTransGen fun before after => table.step goal before = .next after

omit [DecidableEq τ] in
/-- A run whose budget is used up comes to the machine that it ends with. -/
theorem continues_of_run {budget : Nat} (ran : (table.run goal budget m).1 = .unfinished) :
    table.Continues goal m (table.run goal budget m).2 := by
  induction budget generalizing m with
  | zero => exact .refl
  | succ budget ih =>
    rw [run] at ran ⊢
    split at ran
    · rename_i after next
      exact .head next (ih ran)
    · cases ran
    · cases ran

omit [DecidableEq τ] in
theorem Takes.continues {steps : List (Machine T N × Machine T N)}
    (takes : table.Takes goal m steps m') : table.Continues goal m m' := by
  induction takes with
  | nil m => exact .refl
  | cons first _ ih => exact .head first ih

omit [DecidableEq τ] in
/-- The frames are kept on their edges through a run. -/
theorem Footed.continues (footed : table.Footed m.stack)
    (continues : table.Continues goal m m') : table.Footed m'.stack := by
  induction continues with
  | refl => exact footed
  | tail _ next ih => exact ih.step next

/-- What a run reports is warranted by the machines that it comes to. -/
theorem Footed.adds_run (footed : table.Footed m.stack) (built : g.Automaton start table)
    (budget : Nat) :
    m.Adds (fun diagnostic => ∃ m', table.Continues goal m m' ∧
      m'.driver.Warrants table start goal diagnostic) (table.run goal budget m).2 := by
  induction budget generalizing m with
  | zero => exact .refl m
  | succ budget ih =>
    have here : m.Adds (fun diagnostic => ∃ m', table.Continues goal m m' ∧
        m'.driver.Warrants table start goal diagnostic) (table.step goal m).machine :=
      (footed.adds_step built).mono fun _ warrants => ⟨m, .refl, warrants⟩
    rw [run]
    cases taken : table.step goal m with
    | next after =>
      -- what the later machines warrant is warranted by machines of this run
      rw [taken] at here
      refine here.trans ((ih (footed.step taken)).mono ?_)
      rintro diagnostic ⟨m', continues, warrants⟩
      exact ⟨m', .head taken continues, warrants⟩
    | accepted tree last =>
      rw [taken] at here
      exact here
    | aborted last =>
      rw [taken] at here
      exact here

omit [DecidableEq N] [Named κ] [Token T] in
/-- The start state is a state of the table. -/
theorem hasStart_of_base (built : g.Automaton start table) (fresh : m.stack = .base 0) :
    table.hasStart m = true := by
  obtain ⟨s, isFirst, _⟩ := built.first
  rw [hasStart, fresh]
  exact decide_eq_true (List.getElem?_eq_some_iff.mp isFirst).1

end Table

/-! ### Runs of a driver -/

/-- `table.Loops goal d d'` says that the loop of a driver comes from `d` to `d'`,
through any number of rounds. -/
def Table.Loops (table : Table τ κ T N) (goal : N) : Driver T N → Driver T N → Prop :=
  Relation.ReflTransGen fun before after => before.turn table goal = .ok after

namespace Table

variable {table : Table τ κ T N} {goal : N} {m m' : Machine T N}

omit [DecidableEq τ] in
theorem turn_eq_ok {d : Driver T N} (turns : m.driver.turn table goal = .ok d) :
    ∃ m', table.step goal m = .next m' ∧ d = m'.driver := by
  rw [Machine.turn_driver] at turns
  cases next : table.step goal m with
  | next m' =>
    rw [next] at turns
    exact ⟨m', rfl, (Except.ok.inj turns).symm⟩
  | accepted tree last =>
    rw [next] at turns
    cases turns
  | aborted last =>
    rw [next] at turns
    cases turns

omit [DecidableEq τ] in
/-- The loop goes through the drivers of the machines of a run. -/
theorem exists_continues_of_loops {d : Driver T N} (loops : table.Loops goal m.driver d) :
    ∃ m', table.Continues goal m m' ∧ d = m'.driver := by
  induction loops with
  | refl => exact ⟨m, .refl, rfl⟩
  | tail _ turns ih =>
    obtain ⟨m', continues, rfl⟩ := ih
    obtain ⟨m'', next, rfl⟩ := turn_eq_ok turns
    exact ⟨m'', continues.tail next, rfl⟩

omit [DecidableEq τ] in
theorem loops_of_continues (continues : table.Continues goal m m') :
    table.Loops goal m.driver m'.driver := by
  induction continues with
  | refl => exact .refl
  | tail _ next ih =>
    refine ih.tail ?_
    rw [Machine.turn_driver, next]
    rfl

end Table

/-! ### Stacks of a driver -/

/-- The two stacks of a driver are parallel, the start state is the lowest and
found there only, and each node has entered between its states. On both stacks
the topmost comes first. -/
structure Driver.WellStacked (table : Table τ κ T N) (d : Driver T N) : Prop where
  parallel : d.states.length = d.nodes.length + 1
  bottom : d.states.getLast? = some 0
  once : 0 ∉ d.states.dropLast
  known : ∀ state ∈ d.states, state < table.states.length
  joined : ∀ depth above node below, d.states[depth]? = some above →
    d.nodes[depth]? = some node → d.states[depth + 1]? = some below →
    ∃ symbol, table.Enters below symbol ⟨node, above⟩

/-- What a round of a driver's loop takes from its stacks and looks up in the table
is there, with the one exception of a goto on the start key. -/
structure Driver.Faultless (table : Table τ κ T N) (start : κ) (goal : N) (d : Driver T N) :
    Prop where
  /-- A state is on top, and the places of the rules that it reduces are in the
  grammar. -/
  places : ∃ top, d.states.head? = some top ∧
    ∀ place, place ∈ table.reducible top ∨
      (∃ token t, table.actionFor? top token = some (t, .reduce place)) →
    place < table.grammar.rules.length
  /-- A reduction finds the nodes of its body and a state below them. -/
  held : ∀ place rule, d.Reduces table goal place rule →
    rule.length ≤ d.nodes.length ∧ rule.length < d.states.length
  /-- A reduction finds its goto, unless only the start state is left below the
  body of a start rule. -/
  goes : ∀ place rule, d.Reduces table goal place rule →
    ((d.states.drop rule.length).head?.bind fun state => table.goto? state rule.key) = none →
    rule.key = start ∧ d.states.drop rule.length = [0]
  /-- Recovery finds the placeholder and the goto of its key. -/
  foothold : ∀ key states nodes, table.popTo d.states d.nodes = (some key, states, nodes) →
    (table.placeholder? key).isSome ∧
      (states.head?.bind fun state => table.goto? state key).isSome

namespace Table.Footed

variable {g : Grammar τ κ T N} {start : κ} {table : Table τ κ T N} {goal : N} {m : Machine T N}

omit [DecidableEq N] [Named κ] [Token T] in
theorem wellStacked (footed : table.Footed m.stack) (built : g.Automaton start table) :
    m.driver.WellStacked table := by
  obtain ⟨isFirst, path, stands⟩ := footed
  have entered := stands.entered built
  have states : m.driver.states = m.stack.frames.map Frame.state ++ [0] := by
    rw [Machine.driver_states, isFirst]
  refine ⟨?parallel, ?bottom, ?once, ?known, ?joined⟩
  case parallel =>
    rw [states, Machine.driver_nodes, List.length_append, List.length_map, List.length_map,
      List.length_singleton]
  case bottom => rw [states, List.getLast?_concat]
  case once =>
    rw [states, List.dropLast_concat]
    intro again
    obtain ⟨frame, member, isStart⟩ := List.mem_map.mp again
    exact (entered frame member).1 isStart
  case known =>
    rw [states]
    intro state isState
    rcases List.mem_append.mp isState with above | bottom
    · obtain ⟨frame, member, rfl⟩ := List.mem_map.mp above
      exact (entered frame member).2
    · rw [List.mem_singleton.mp bottom]
      obtain ⟨s, isFirst, _⟩ := built.first
      exact (List.getElem?_eq_some_iff.mp isFirst).1
  case joined =>
    rw [states]
    exact fun _ _ _ _ => stands.joined

omit [Named κ] [Token T] in
theorem faultless (footed : table.Footed m.stack) (built : g.Automaton start table) :
    m.driver.Faultless table start goal := by
  refine ⟨⟨_, m.head?_driver_states, ?places⟩, ?held, ?goes, ?foothold⟩
  case places =>
    intro place reduces
    obtain ⟨s, path, isState, reached⟩ := footed.reaches built
    suffices complete : place ∈ g.completeRules s.items by
      obtain ⟨cursor, member, _⟩ := g.mem_completeRules.mp complete
      obtain ⟨rule, found, _⟩ := reached.exists_rule member
      rw [built.grammar]
      exact (List.getElem?_eq_some_iff.mp found).1
    rcases reduces with isReducible | ⟨token, t, acts⟩
    · exact complete_of_reducible built isState isReducible
    · exact complete_of_actionFor? built isState acts
  case held =>
    intro place rule reduces
    obtain ⟨enough, _⟩ := footed.reduction built (Machine.reduces_driver.mp reduces)
    rw [Machine.driver_states, Machine.driver_nodes, List.length_append, List.length_map,
      List.length_map]
    exact ⟨enough, Nat.lt_succ_of_le enough⟩
  case goes =>
    intro place rule reduces missing
    obtain ⟨enough, ⟨target, goes⟩ | ⟨isStart, isFirst, all⟩⟩ :=
      footed.reduction built (Machine.reduces_driver.mp reduces)
    · rw [m.head?_drop_driver_states enough, Option.bind_some, goes] at missing
      cases missing
    · exact ⟨isStart, m.drop_driver_states_of_length isFirst all⟩
  case foothold =>
    intro key states nodes popped
    rw [Machine.driver_states, Machine.driver_nodes, popTo_frames] at popped
    cases found : table.unwind? m.stack.start m.stack.frames with
    | none =>
      rw [found] at popped
      cases popped
    | some unwinding =>
      obtain ⟨unwound, foothold⟩ := unwinding
      rw [found] at popped
      cases popped
      -- what stopped the popping is a foothold
      obtain ⟨count, _, held⟩ := of_unwind? found
      obtain ⟨stands, goes⟩ := of_foothold? held
      have top := Machine.head?_driver_states { m with stack := unwound }
      rw [Machine.driver_states] at top
      rw [top, Option.bind_some, stands, goes]
      exact ⟨rfl, rfl⟩

end Table.Footed

/-- In every driver that the loop of a run from the start state comes to, through
any number of recoveries, the stacks of states and nodes are parallel and joined by
edges of the table, and what the loop takes from them and looks up is there. So
whatever a run reports is the fault of the input, but for a goto on the start key
that is missing where only the start state is left. -/
theorem Driver.wellStacked_of_loops {g : Grammar τ κ T N} {start : κ} {table : Table τ κ T N}
    {placeholders : List (κ × Tree T N)} (built : g.table start placeholders = .ok table)
    (goal : N) (progress : Progress T N) :
    (∀ d, table.Loops goal (.begin 0 progress) d →
      d.WellStacked table ∧ d.Faultless table start goal) ∧
    ∀ budget, ∃ added,
      (table.drive goal budget 0 progress).2.diagnostics = progress.diagnostics ++ added ∧
      ∀ diagnostic ∈ added, ∃ d, table.Loops goal (.begin 0 progress) d ∧
        d.Warrants table start goal diagnostic := by
  have automaton := Grammar.automaton_of_table built
  have footed : table.Footed (progress.machine 0).stack := Table.footed_base table
  constructor
  · intro d loops
    obtain ⟨m, continues, rfl⟩ := Table.exists_continues_of_loops (m := progress.machine 0) loops
    have footed' := footed.continues continues
    exact ⟨footed'.wellStacked automaton, footed'.faultless automaton⟩
  · intro budget
    have adds : (progress.machine 0).Adds _ (table.run goal budget (progress.machine 0)).2 :=
      footed.adds_run automaton budget
    obtain ⟨added, same, warranted⟩ := adds
    refine ⟨added, ?_, fun diagnostic member => ?_⟩
    · rw [Table.drive_eq, Table.parse, if_pos (Table.hasStart_of_base automaton rfl)]
      exact same
    · obtain ⟨m, continues, warrants⟩ := warranted diagnostic member
      exact ⟨m.driver, Table.loops_of_continues continues, warrants⟩

/-! ### Recovery from a third bracket -/

namespace Pairs

open Brackets (Mark Part rule)

/-- A text of pairs of opening brackets, with a closing bracket between any two. -/
def grammar : Grammar Mark Part Mark Part where
  alphabet := Brackets.grammar.alphabet
  rules :=
    [rule .start [.nonterminal .text], rule .text [.nonterminal .group],
      rule .text [.nonterminal .text, .terminal .closing, .nonterminal .group],
      rule .group [.terminal .opening, .terminal .opening]]
  rules_ne_nil := List.cons_ne_nil _ _
  defined := defined_of_undefinedUse? rfl

/-- A pair may be missing. -/
def placeholders : List (Part × Tree Mark Part) := [(.group, .branch .group [])]

theorem exists_table : (grammar.table .start placeholders).toOption.isSome := by decide +kernel

/-- The parse table of pairs. -/
def table : Table Mark Part Mark Part :=
  (grammar.table .start placeholders).toOption.get exists_table

theorem table_eq : grammar.table .start placeholders = .ok table := eq_ok_get exists_table

/-- Two pairs, the first with a bracket too many. -/
def overlong : Progress Mark Part :=
  { input := [.opening, .opening, .opening, .closing, .opening, .opening] }

/-- A recovery pops the first pair, skips the third bracket and leaves the stacks well. Where the
goal is the start itself, the parse goes on to a reduction by the start rule, which has no goto. -/
theorem exists_loops : grammar.table .start placeholders = .ok table ∧
    (∃ d, table.Loops .start (.begin 0 overlong) d ∧ d.stats.recoveries = 1 ∧
      d.nodes = [.branch .group []] ∧ d.input.length = 3 ∧
      d.WellStacked table ∧ d.Faultless table .start .start) ∧
    (∀ diagnostic ∈ (table.drive .start 16 0 overlong).2.diagnostics,
      ∃ d, table.Loops .start (.begin 0 overlong) d ∧ d.Warrants table .start .start diagnostic) ∧
    (table.drive .start 16 0 overlong).2.diagnostics.getLast? =
      some (.noGoto "Start → Text" "Start" (some default)) := by
  obtain ⟨kept, reported⟩ := Driver.wellStacked_of_loops table_eq .start overlong
  refine ⟨table_eq, ?_, ?_, by decide +kernel⟩
  · have loops : table.Loops .start (.begin 0 overlong)
        (table.run .start 3 (overlong.machine 0)).2.driver :=
      Table.loops_of_continues (m := overlong.machine 0) (Table.continues_of_run (by decide +kernel))
    exact ⟨_, loops, by decide +kernel, by decide +kernel, by decide +kernel, kept _ loops⟩
  · obtain ⟨added, same, warranted⟩ := reported 16
    rw [same]
    exact warranted

end Pairs

end ShiftReduce
