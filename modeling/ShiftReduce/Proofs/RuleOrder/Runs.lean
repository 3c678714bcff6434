/-
  The order of the rules has no part in a run.

  Two parsers whose tables differ in the places of rules only make the same moves
  (`Table.Renamed.move`), so a step keeps them in the same configuration
  (`Renamed.step`) and a run ends in the same way, with the same diagnostics,
  input and statistics (`Renamed.run`). Only the steps recorded name the places of
  rules; they are renamed.
-/
import ShiftReduce.Proofs.RuleOrder.Tables
import ShiftReduce.Parser.Run

namespace ShiftReduce

variable {τ κ T N : Type}

/-! ### Renamed machines -/

/-- The operation with the place of its rule moved. -/
def Operation.rename (places : Equiv.Perm Nat) : Operation → Operation
  | reduce place => reduce (places place)
  | operation => operation

/-- The configuration with the place of its rule moved. -/
def Snapshot.rename (places : Equiv.Perm Nat) (snapshot : Snapshot T N) : Snapshot T N :=
  { snapshot with operation := snapshot.operation.rename places }

namespace Machine

variable (places : Equiv.Perm Nat) (m : Machine T N)

/-- The machine with the places in the steps recorded moved. -/
def rename : Machine T N :=
  { m with history := m.history.map (List.map (Snapshot.rename places)) }

@[simp] theorem stack_rename : (m.rename places).stack = m.stack := rfl

@[simp] theorem input_rename : (m.rename places).input = m.input := rfl

@[simp] theorem lastRecovery_rename : (m.rename places).lastRecovery = m.lastRecovery := rfl

@[simp] theorem report_rename (diagnostic : Diagnostic) :
    (m.rename places).report diagnostic = (m.report diagnostic).rename places := rfl

theorem record_rename {snapshot snapshot' : Machine T N → Snapshot T N}
    (same : snapshot' (m.rename places) = (snapshot m).rename places) :
    (m.rename places).record snapshot' = (m.record snapshot).rename places := by
  obtain ⟨stack, input, stats, diagnostics, lastRecovery, history⟩ := m
  cases history with
  | none => rfl
  | some steps =>
    exact congrArg (fun snapshot => Machine.mk stack input stats diagnostics lastRecovery
      (some (snapshot :: steps.map (Snapshot.rename places)))) same

theorem record_snapshot_rename (operation : Operation) :
    (m.rename places).record (snapshot (operation.rename places)) =
      (m.record (snapshot operation)).rename places :=
  m.record_rename places rfl

theorem record_emptied_rename :
    (m.rename places).record emptied = (m.record emptied).rename places :=
  m.record_rename places rfl

end Machine

/-- The move with the place of its rule moved. -/
def Move.rename (places : Equiv.Perm Nat) : Move τ κ T N → Move τ κ T N
  | reduce place rule => reduce (places place) rule
  | move => move

/-- The result with the places in the steps recorded moved. -/
def Step.rename (places : Equiv.Perm Nat) : Step T N → Step T N
  | next m => next (m.rename places)
  | accepted tree m => accepted tree (m.rename places)
  | aborted m => aborted (m.rename places)

/-! ### Queries -/

/-- Lists that are related element by element are so at each place. -/
theorem getElem?_cases {α β : Type} {R : α → β → Prop} {l : List α} {l' : List β}
    (related : List.Forall₂ R l l') (place : Nat) :
    (l[place]? = none ∧ l'[place]? = none) ∨
      ∃ a b, l[place]? = some a ∧ l'[place]? = some b ∧ R a b := by
  induction related generalizing place with
  | nil => exact .inl ⟨rfl, rfl⟩
  | cons head _ ih =>
    cases place with
    | zero => exact .inr ⟨_, _, rfl, rfl, head⟩
    | succ place => exact ih place

namespace Table.Renamed

variable [Ordered τ] [Ordered κ] [DecidableEq τ] [DecidableEq κ] {places : Equiv.Perm Nat}
  {table table' : Table τ κ T N}

/-- The states with one number differ in places only, or there are none. -/
theorem state?_cases (renamed : table.Renamed places table') (number : Nat) :
    (table.state? number = none ∧ table'.state? number = none) ∨
      ∃ s s', table.state? number = some s ∧ table'.state? number = some s' ∧
        s.Renamed places s' :=
  getElem?_cases renamed.states number

theorem goto?_eq (renamed : table.Renamed places table') (state : Nat) (key : κ) :
    table'.goto? state key = table.goto? state key := by
  rw [Table.goto?, Table.goto?]
  rcases renamed.state?_cases state with ⟨absent, absent'⟩ | ⟨s, s', found, found', states⟩
  · rw [absent, absent']
  · rw [found, found', Option.bind_some, Option.bind_some, states.gotos]

theorem expected_eq (renamed : table.Renamed places table') (state : Nat) :
    table'.expected state = table.expected state := by
  rw [Table.expected, Table.expected]
  rcases renamed.state?_cases state with ⟨absent, absent'⟩ | ⟨s, s', found, found', states⟩
  · rw [absent, absent']
    rfl
  · rw [found, found', Option.map_some, Option.map_some, State.expected, State.expected,
      states.actions, SortedMap.keys_mapValues, renamed.grammar.alphabet]

theorem reducible_perm (renamed : table.Renamed places table') (state : Nat) :
    (table'.reducible state).Perm ((table.reducible state).map places) := by
  rw [Table.reducible, Table.reducible]
  rcases renamed.state?_cases state with ⟨absent, absent'⟩ | ⟨s, s', found, found', states⟩
  · rw [absent, absent']
    exact .nil
  · rw [found, found']
    exact states.reducible

/-- A state does on a token what it does in the other table, up to the place of a rule. -/
theorem actionFor?_eq (renamed : table.Renamed places table') (state : Nat) (token : T) :
    table'.actionFor? state token =
      (table.actionFor? state token).map fun entry => (entry.1, entry.2.map id places) := by
  rw [Table.actionFor?, Table.actionFor?]
  rcases renamed.state?_cases state with ⟨absent, absent'⟩ | ⟨s, s', found, found', states⟩
  · rw [absent, absent']
    rfl
  · rw [found, found', Option.bind_some, Option.bind_some, State.actionFor?, State.actionFor?,
      states.actions, SortedMap.mapValues, List.find?_map, renamed.grammar.alphabet]
    rfl

theorem canFollow_eq (renamed : table.Renamed places table') (key : κ) (token : T) :
    table'.canFollow key token = table.canFollow key token := by
  rw [Table.canFollow, Table.canFollow, renamed.follow, renamed.grammar.alphabet]

/-! ### Recovery -/

theorem foothold?_eq (renamed : table.Renamed places table') (state : Nat) :
    table'.foothold? state = table.foothold? state := by
  unfold Table.foothold?
  simp only [renamed.placeholders, renamed.goto?_eq]

theorem unwind?_eq (renamed : table.Renamed places table') (start : Nat)
    (frames : List (Frame T N)) : table'.unwind? start frames = table.unwind? start frames := by
  induction frames with
  | nil => rw [Table.unwind?, Table.unwind?, renamed.foothold?_eq]
  | cons frame below ih => rw [Table.unwind?, Table.unwind?, renamed.foothold?_eq, ih]

theorem rescue_eq (renamed : table.Renamed places table') (stack : Stack T N) (input : List T) :
    table'.rescue stack input = table.rescue stack input := by
  unfold Table.rescue
  simp only [renamed.unwind?_eq, renamed.canFollow_eq]

/-! ### Moves -/

theorem reduction (renamed : table.Renamed places table') (place : Nat) :
    table'.reduction (places place) = (table.reduction place).rename places := by
  unfold Table.reduction
  rw [renamed.grammar.rule?]
  cases table.grammar.rule? place <;> rfl

theorem moveOn (renamed : table.Renamed places table') (stack : Stack T N) (token : T) :
    table'.moveOn stack token = (table.moveOn stack token).rename places := by
  unfold Table.moveOn Table.choiceOn
  rw [renamed.actionFor?_eq]
  cases table.actionFor? stack.top token with
  | none => rfl
  | some entry =>
    obtain ⟨t, action⟩ := entry
    cases action with
    | shift state => rfl
    | reduce place => exact renamed.reduction place

variable [DecidableEq N]

theorem moveAtEnd (renamed : table.Renamed places table') (goal : N) (stack : Stack T N) :
    table'.moveAtEnd goal stack = (table.moveAtEnd goal stack).rename places := by
  unfold Table.moveAtEnd Table.choiceAtEnd
  cases stack.topNode?.filter fun tree => tree.kind? = some goal with
  | some tree => rfl
  | none =>
    have perm := renamed.reducible_perm stack.top
    dsimp only
    -- one rule has been read completely in the one table if and only if in the other
    generalize table.reducible stack.top = complete, table'.reducible stack.top = complete' at perm
    rcases complete with _ | ⟨place, _ | ⟨place', rest⟩⟩
    · rw [perm.eq_nil]
      rfl
    · rw [List.perm_singleton.mp perm]
      exact renamed.reduction place
    · have long := perm.length_eq
      rcases complete' with _ | ⟨_, _ | _⟩
      · cases long
      · cases long
      · rfl

theorem move (renamed : table.Renamed places table') (goal : N) (stack : Stack T N)
    (input : List T) : table'.move goal stack input = (table.move goal stack input).rename places := by
  cases input with
  | nil => exact renamed.moveAtEnd goal stack
  | cons token rest => exact renamed.moveOn stack token

variable [Named κ] [Token T]

omit [DecidableEq N] in
theorem reduceStack_eq (renamed : table.Renamed places table') (rule : Rule τ κ T N)
    (stack : Stack T N) : table'.reduceStack rule stack = table.reduceStack rule stack := by
  unfold Table.reduceStack
  simp only [renamed.goto?_eq, renamed.grammar.alphabet]

omit [DecidableEq N] [Named κ] in
theorem recoverAtEnd (renamed : table.Renamed places table') (m : Machine T N) :
    table'.recoverAtEnd (m.rename places) = (table.recoverAtEnd m).rename places := by
  unfold Table.recoverAtEnd
  dsimp only
  rw [renamed.expected_eq]
  exact congrArg (fun m => Step.aborted (Machine.report m .inputExhausted))
    (Machine.record_snapshot_rename places (m.report _) (.recover false))

omit [DecidableEq N] in
theorem recoverAt (renamed : table.Renamed places table') (m : Machine T N) (token : T) :
    table'.recoverAt (m.rename places) token = (table.recoverAt m token).rename places := by
  unfold Table.recoverAt
  dsimp only
  rw [renamed.expected_eq, renamed.rescue_eq, Machine.report_rename, Machine.stack_rename]
  generalize m.report (.unexpectedToken (Token.text token) (Token.span token)
    (table.expected m.stack.top)) = reported
  rw [Machine.lastRecovery_rename, Machine.input_rename, Machine.stack_rename]
  by_cases same : reported.lastRecovery = some reported.input.length
  · rw [if_pos same, if_pos same]
    exact congrArg (fun m => Step.aborted (Machine.report m (.noProgress (Token.span token))))
      (reported.record_snapshot_rename places (.recover false))
  · rw [if_neg same, if_neg same]
    cases table.rescue reported.stack reported.input with
    | noFoothold =>
      exact congrArg (fun m => Step.aborted
        (Machine.report m (.noRecoverableState (Token.span token))))
        (reported.record_emptied_rename places)
    | noInput stack foothold =>
      exact congrArg (fun m => Step.aborted (Machine.report m
        (.noFollowableInput (Named.name foothold.key) (Token.span token))))
        (Machine.record_snapshot_rename places { reported with stack := stack, input := [] }
          (.recover false))
    | found stack foothold skipped rest =>
      exact congrArg Step.next
        (Machine.record_snapshot_rename places
          { reported with
            stack := stack.push foothold.placeholder foothold.target
            input := rest
            stats :=
              { reported.stats with
                tokens := reported.stats.tokens + skipped
                recoveries := reported.stats.recoveries + 1 }
            lastRecovery := some rest.length } (.recover true))

/-- A step keeps two machines in the same configuration. -/
theorem step (renamed : table.Renamed places table') (goal : N) (m : Machine T N) :
    table'.step goal (m.rename places) = (table.step goal m).rename places := by
  unfold Table.step
  rw [renamed.move, Machine.stack_rename, Machine.input_rename]
  cases table.move goal m.stack m.input with
  | accept tree =>
    exact congrArg (Step.accepted tree) (m.record_snapshot_rename places .accept)
  | shift token state =>
    exact congrArg (fun m => Step.next
      { m with
        stack := m.stack.push (.leaf token) state
        input := m.input.tail
        stats := { m.stats with tokens := m.stats.tokens + 1, shifts := m.stats.shifts + 1 } })
      (m.record_snapshot_rename places (.shift state))
  | reduce place rule =>
    have recorded := m.record_snapshot_rename places (.reduce place)
    rw [Operation.rename] at recorded
    dsimp only [Move.rename]
    rw [recorded, renamed.reduceStack_eq, Machine.stack_rename]
    cases table.reduceStack rule (m.record (Machine.snapshot (.reduce place))).stack with
    | error diagnostic => rfl
    | ok stack => rfl
  | recover =>
    dsimp only [Move.rename]
    cases m.input with
    | nil => exact renamed.recoverAtEnd m
    | cons token rest => exact renamed.recoverAt m token

/-- So does a run, which ends in the same way. -/
theorem run (renamed : table.Renamed places table') (goal : N) (budget : Nat) (m : Machine T N) :
    table'.run goal budget (m.rename places) =
      ((table.run goal budget m).1, (table.run goal budget m).2.rename places) := by
  induction budget generalizing m with
  | zero => rfl
  | succ budget ih =>
    rw [Table.run, Table.run, renamed.step]
    cases table.step goal m with
    | next m => exact ih m
    | accepted tree m => rfl
    | aborted m => rfl

theorem parse (renamed : table.Renamed places table') (goal : N) (budget : Nat)
    (m : Machine T N) :
    table'.parse goal budget (m.rename places) =
      ((table.parse goal budget m).1, (table.parse goal budget m).2.rename places) := by
  have starts : table'.hasStart (m.rename places) = table.hasStart m := by
    rw [Table.hasStart, Table.hasStart, renamed.states.length_eq]
    rfl
  unfold Table.parse
  rw [starts]
  split
  · exact renamed.run goal budget m
  · rfl

end Table.Renamed

/-! ### Rules in another order -/

namespace Brackets

end Brackets

/-! ### Copies that bind differently -/

namespace Accents

/-- Numbers, the sign of a sum and a mark that ends one; these are tokens as well. -/
inductive Sign where
  | plus | number | mark
deriving DecidableEq, Repr

instance : Ordered Sign :=
  .ofRank Sign.ctorIdx fun a b h => by cases a <;> cases b <;> first | rfl | cases h

instance : Token Sign := ⟨fun _ => "sign", fun _ => default⟩

/-- A whole is a sum. -/
inductive Key where
  | start | whole | sum
deriving DecidableEq, Repr

instance : Ordered Key :=
  .ofRank Key.ctorIdx fun a b h => by cases a <;> cases b <;> first | rfl | cases h

instance : Named Key := ⟨fun _ => "key", fun _ => "key"⟩

/-- The signs all bind alike in the alphabet. -/
def alphabet (sign : Sign) : Terminal Sign :=
  { name := "sign", accepts := fun token => token = sign }

/-- A rule that builds branches of the kind of its key. -/
def rule (key : Key) (parts : List (BodyPart Sign Key)) : Rule Sign Key Sign Key where
  key := key
  kind := key
  parts := parts

/-- The rules of sums. The sign before a mark is a copy that associates to the right. -/
def rules : List (Rule Sign Key Sign Key) :=
  [rule .start [.nonterminal .whole], rule .whole [.nonterminal .sum],
    rule .sum [.nonterminal .sum, .terminal .plus, .nonterminal .sum],
    rule .sum [.nonterminal .sum, .terminal .plus (some ⟨0, .right⟩), .terminal .mark],
    rule .sum [.terminal .number]]

theorem exists_table : (tableOfRules alphabet rules .start []).toOption.isSome := by
  decide +kernel

theorem exists_table_reverse :
    (tableOfRules alphabet rules.reverse .start []).toOption.isSome := by
  decide +kernel

/-- The parse table of the rules in their order. -/
def table : Table Sign Key Sign Key := (tableOfRules alphabet rules .start []).toOption.get exists_table

/-- The parse table of the rules in the reverse order. -/
def tableReverse : Table Sign Key Sign Key :=
  (tableOfRules alphabet rules.reverse .start []).toOption.get exists_table_reverse

/-- The node of a number. -/
def number : Tree Sign Key := .branch .sum [.leaf .number]

/-- The node of a sum. -/
def sum (left right : Tree Sign Key) : Tree Sign Key := .branch .sum [left, .leaf .plus, right]

/-- Behind a sum the sign binds as the first rule has it that goes on with it. In the
reverse order that is the copy, so the states have other contexts and sums another tree. -/
theorem exists_order_matters : rules.Perm rules.reverse ∧
    ∃ table table', tableOfRules alphabet rules .start [] = .ok table ∧
      tableOfRules alphabet rules.reverse .start [] = .ok table' ∧
      table.states.map State.context ≠ table'.states.map State.context ∧
      (table.parseTokens .whole 20 [.number, .plus, .number, .plus, .number] {}).1 =
        .accepted (.branch .whole [sum (sum number number) number]) ∧
      (table'.parseTokens .whole 20 [.number, .plus, .number, .plus, .number] {}).1 =
        .accepted (.branch .whole [sum number (sum number number)]) := by
  have contexts : table.states.map State.context ≠ tableReverse.states.map State.context := by
    decide +kernel
  have left : (table.parseTokens .whole 20 [.number, .plus, .number, .plus, .number] {}).1 =
      .accepted (.branch .whole [sum (sum number number) number]) := by decide +kernel
  have right :
      (tableReverse.parseTokens .whole 20 [.number, .plus, .number, .plus, .number] {}).1 =
        .accepted (.branch .whole [sum number (sum number number)]) := by decide +kernel
  exact ⟨(List.reverse_perm _).symm, table, tableReverse, eq_ok_get exists_table,
    eq_ok_get exists_table_reverse, contexts, left, right⟩

end Accents

end ShiftReduce
