/-
  A parser does not read how a token is spelled.

  It asks a token which terminals accept it and where it stands, and its text is quoted in
  messages only. Let the tokens be spelled in another way (`Respelling`), so that the terminals
  accept the same tokens, the rules build the same nodes and the placeholders do not change
  (`Table.IgnoresSpelling`). Then a step from the tokens spelled so is the step from the tokens as
  they were, spelled so in the trees, the input, the messages and the record
  (`step_respell`), and so is a whole parse (`parse_respell`).
-/
import ShiftReduce.Proofs.Parser.Safety

namespace ShiftReduce

/-- Another way to spell the tokens, and the texts of tokens. A token stays where it is. -/
structure Respelling (T : Type) [Token T] where
  token : T → T
  text : String → String
  text_token : ∀ t, Token.text (token t) = text (Token.text t)
  span_token : ∀ t, Token.span (token t) = Token.span t

variable {τ κ T N : Type} [Token T] (respelling : Respelling T)

/-! ### Trees -/

namespace Tree

mutual

/-- The tree with its tokens spelled in another way. -/
def respell : Tree T N → Tree T N
  | leaf token => leaf (respelling.token token)
  | branch kind children => branch kind (respellForest children)

/-- The trees with their tokens spelled in another way. -/
def respellForest : List (Tree T N) → List (Tree T N)
  | [] => []
  | tree :: rest => respell tree :: respellForest rest

end

theorem respellForest_eq (forest : List (Tree T N)) :
    respellForest respelling forest = forest.map (respell respelling) := by
  induction forest with
  | nil => rfl
  | cons tree rest ih => rw [respellForest, ih, List.map_cons]

@[simp] theorem respell_leaf (token : T) :
    respell respelling (.leaf token : Tree T N) = .leaf (respelling.token token) := by
  rw [respell]

@[simp] theorem respell_branch (kind : N) (children : List (Tree T N)) :
    respell respelling (.branch kind children) =
      .branch kind (children.map (respell respelling)) := by
  rw [respell, respellForest_eq]

@[simp] theorem kind?_respell (tree : Tree T N) : (respell respelling tree).kind? = tree.kind? := by
  cases tree with
  | leaf token => rw [respell_leaf]; rfl
  | branch kind children => rw [respell_branch]; rfl

mutual

theorem firstToken?_respell : (tree : Tree T N) →
    (respell respelling tree).firstToken? = tree.firstToken?.map respelling.token
  | .leaf token => by rw [respell, firstToken?, firstToken?, Option.map_some]
  | .branch kind children => by
    rw [respell, firstToken?, firstToken?, firstTokenIn?_respell children]

theorem firstTokenIn?_respell : (forest : List (Tree T N)) →
    firstTokenIn? (respellForest respelling forest) =
      (firstTokenIn? forest).map respelling.token
  | [] => by rw [respellForest, firstTokenIn?, Option.map_none]
  | tree :: rest => by
    rw [respellForest, firstTokenIn?, firstTokenIn?, firstToken?_respell tree,
      firstTokenIn?_respell rest, Option.map_or]

end

mutual

theorem lastToken?_respell : (tree : Tree T N) →
    (respell respelling tree).lastToken? = tree.lastToken?.map respelling.token
  | .leaf token => by rw [respell, lastToken?, lastToken?, Option.map_some]
  | .branch kind children => by
    rw [respell, lastToken?, lastToken?, lastTokenIn?_respell children]

theorem lastTokenIn?_respell : (forest : List (Tree T N)) →
    lastTokenIn? (respellForest respelling forest) = (lastTokenIn? forest).map respelling.token
  | [] => by rw [respellForest, lastTokenIn?, Option.map_none]
  | tree :: rest => by
    rw [respellForest, lastTokenIn?, lastTokenIn?, lastToken?_respell tree,
      lastTokenIn?_respell rest, Option.map_or]

end

/-- The tree covers the same range of the source. -/
@[simp] theorem span?_respell (tree : Tree T N) : (respell respelling tree).span? = tree.span? := by
  unfold span?
  rw [firstToken?_respell, lastToken?_respell]
  cases tree.firstToken? with
  | none => rfl
  | some first =>
    cases tree.lastToken? with
    | none => rfl
    | some last =>
      show some ((Token.span (respelling.token first)).merge (Token.span (respelling.token last))) =
        some ((Token.span first).merge (Token.span last))
      rw [respelling.span_token, respelling.span_token]

end Tree

/-! ### Machines -/

/-- The diagnostic with the texts of tokens spelled in another way. -/
def Diagnostic.respell : Diagnostic → Diagnostic
  | unexpectedToken text span expected => .unexpectedToken (respelling.text text) span expected
  | unexpectedEnd last expected =>
    .unexpectedEnd (last.map (Prod.map respelling.text id)) expected
  | diagnostic => diagnostic

@[simp] theorem Diagnostic.span?_respell (diagnostic : Diagnostic) :
    (diagnostic.respell respelling).span? = diagnostic.span? := by
  cases diagnostic with
  | unexpectedEnd last expected => cases last <;> rfl
  | _ => rfl

/-- The frame with its tokens spelled in another way. -/
def Frame.respell (frame : Frame T N) : Frame T N :=
  ⟨frame.node.respell respelling, frame.state⟩

namespace Stack

variable (stack : Stack T N)

/-- The stack with its tokens spelled in another way. -/
def respell : Stack T N := ⟨stack.start, stack.frames.map (Frame.respell respelling)⟩

@[simp] theorem top_respell : (stack.respell respelling).top = stack.top := by
  unfold respell top
  rw [List.head?_map, Option.map_map]
  rfl

@[simp] theorem topNode?_respell :
    (stack.respell respelling).topNode? = stack.topNode?.map (Tree.respell respelling) := by
  unfold respell topNode?
  rw [List.head?_map, Option.map_map, Option.map_map]
  rfl

@[simp] theorem states_respell : (stack.respell respelling).states = stack.states := by
  unfold respell states
  rw [List.map_map]
  rfl

@[simp] theorem nodes_respell :
    (stack.respell respelling).nodes = stack.nodes.map (Tree.respell respelling) := by
  unfold respell nodes
  rw [List.map_map, List.map_reverse, List.map_map]
  rfl

@[simp] theorem length_frames_respell :
    (stack.respell respelling).frames.length = stack.frames.length :=
  List.length_map _

@[simp] theorem drop_respell (count : Nat) :
    (stack.respell respelling).drop count = (stack.drop count).respell respelling := by
  unfold respell drop
  rw [List.map_drop]

@[simp] theorem topNodes_respell (count : Nat) :
    (stack.respell respelling).topNodes count =
      (stack.topNodes count).map (Tree.respell respelling) := by
  unfold respell topNodes
  rw [← List.map_take, List.map_map, List.map_reverse, List.map_map]
  rfl

end Stack

/-- The recorded step with its tokens spelled in another way. -/
def Snapshot.respell (snapshot : Snapshot T N) : Snapshot T N :=
  { snapshot with
    nodes := snapshot.nodes.map (Tree.respell respelling)
    input := snapshot.input.map respelling.token }

/-- What a driver shares with its caller, with the tokens spelled in another way. -/
def Progress.respell (progress : Progress T N) : Progress T N :=
  { progress with
    input := progress.input.map respelling.token
    diagnostics := progress.diagnostics.map (Diagnostic.respell respelling)
    history := progress.history.map (List.map (Snapshot.respell respelling)) }

namespace Machine

variable (m : Machine T N)

/-- The machine with its tokens spelled in another way. -/
def respell : Machine T N :=
  { m with
    stack := m.stack.respell respelling
    input := m.input.map respelling.token
    diagnostics := m.diagnostics.map (Diagnostic.respell respelling)
    history := m.history.map (List.map (Snapshot.respell respelling)) }

/-- What is shared with the caller is respelled with the machine. -/
theorem progress_respell : (m.respell respelling).progress = m.progress.respell respelling := rfl

@[simp] theorem stack_respell : (m.respell respelling).stack = m.stack.respell respelling := rfl

@[simp] theorem input_respell : (m.respell respelling).input = m.input.map respelling.token := rfl

@[simp] theorem lastRecovery_respell : (m.respell respelling).lastRecovery = m.lastRecovery := rfl

theorem report_respell (diagnostic : Diagnostic) :
    (m.respell respelling).report (diagnostic.respell respelling) =
      (m.report diagnostic).respell respelling := by
  unfold respell report
  rw [List.map_append, List.map_singleton]

theorem record_respell {snapshot snapshot' : Machine T N → Snapshot T N}
    (same : snapshot' (m.respell respelling) = (snapshot m).respell respelling) :
    (m.respell respelling).record snapshot' = (m.record snapshot).respell respelling := by
  rw [record_eq, record_eq, same]
  unfold respell
  rw [Option.map_map, Option.map_map]
  rfl

theorem record_snapshot_respell (operation : Operation) :
    (m.respell respelling).record (snapshot operation) =
      (m.record (snapshot operation)).respell respelling := by
  refine m.record_respell respelling ?_
  unfold snapshot Snapshot.respell
  rw [stack_respell, Stack.nodes_respell, Stack.states_respell, input_respell]

theorem record_emptied_respell :
    (m.respell respelling).record emptied = (m.record emptied).respell respelling :=
  m.record_respell respelling rfl

end Machine

/-- The move with its tokens spelled in another way. -/
def Move.respell : Move τ κ T N → Move τ κ T N
  | shift token state => shift (respelling.token token) state
  | accept tree => accept (tree.respell respelling)
  | move => move

/-- The result of a step with its tokens spelled in another way. -/
def Step.respell : Step T N → Step T N
  | next m => next (m.respell respelling)
  | accepted tree m => accepted (tree.respell respelling) (m.respell respelling)
  | aborted m => aborted (m.respell respelling)

/-- The outcome with its tokens spelled in another way. -/
def Outcome.respell : Outcome T N → Outcome T N
  | accepted tree => accepted (tree.respell respelling)
  | aborted diagnostics => aborted (diagnostics.map (Diagnostic.respell respelling))
  | unfinished => unfinished

/-- The foothold with the tokens of its placeholder spelled in another way. -/
def Foothold.respell (foothold : Foothold κ T N) : Foothold κ T N :=
  { foothold with placeholder := foothold.placeholder.respell respelling }

/-- The attempt to recover with its tokens spelled in another way. -/
def Rescue.respell : Rescue κ T N → Rescue κ T N
  | noFoothold => noFoothold
  | noInput stack foothold => noInput (stack.respell respelling) (foothold.respell respelling)
  | found stack foothold skipped rest =>
    found (stack.respell respelling) (foothold.respell respelling) skipped
      (rest.map respelling.token)

/-! ### Tables -/

variable [Ordered τ] [Ordered κ]

/-- What a table has to be like so that the spelling of tokens makes no difference: its terminals
accept a token however it is spelled, its rules build from nodes without a look at the spelling, and
the placeholders are spelled one way only. -/
structure Table.IgnoresSpelling (table : Table τ κ T N) : Prop where
  accepts : ∀ t token,
    (table.grammar.alphabet t).accepts (respelling.token token) =
      (table.grammar.alphabet t).accepts token
  build : ∀ rule ∈ table.grammar.rules, ∀ nodes,
    rule.build (nodes.map (Tree.respell respelling)) = (rule.build nodes).respell respelling
  placeholder : ∀ entry ∈ table.placeholders, entry.2.respell respelling = entry.2

namespace Table.IgnoresSpelling

variable {respelling} {table : Table τ κ T N}

/-! ### Moves -/

theorem actionFor?_eq (ignores : table.IgnoresSpelling respelling) (state : Nat) (token : T) :
    table.actionFor? state (respelling.token token) = table.actionFor? state token := by
  unfold Table.actionFor? State.actionFor?
  simp only [ignores.accepts]

theorem reduction_respell (place : Nat) :
    (table.reduction place).respell respelling = table.reduction place := by
  unfold Table.reduction
  cases table.grammar.rule? place <;> rfl

theorem moveOn_respell (ignores : table.IgnoresSpelling respelling) (stack : Stack T N)
    (token : T) :
    table.moveOn (stack.respell respelling) (respelling.token token) =
      (table.moveOn stack token).respell respelling := by
  unfold Table.moveOn Table.choiceOn
  rw [Stack.top_respell, ignores.actionFor?_eq]
  rcases table.actionFor? stack.top token with _ | ⟨t, state | place⟩
  · rfl
  · rfl
  · exact (reduction_respell place).symm

theorem moveAtEnd_respell [DecidableEq N] (goal : N) (stack : Stack T N) :
    table.moveAtEnd goal (stack.respell respelling) =
      (table.moveAtEnd goal stack).respell respelling := by
  have goals : (stack.respell respelling).topNode?.filter (fun tree => tree.kind? = some goal) =
      (stack.topNode?.filter fun tree => tree.kind? = some goal).map
        (Tree.respell respelling) := by
    rw [Stack.topNode?_respell]
    cases stack.topNode? with
    | none => rfl
    | some tree =>
      rw [Option.map_some, Option.filter_some, Option.filter_some, Tree.kind?_respell]
      split_ifs <;> rfl
  unfold Table.moveAtEnd Table.choiceAtEnd
  rw [goals, Stack.top_respell]
  cases stack.topNode?.filter fun tree => tree.kind? = some goal with
  | some tree => rfl
  | none =>
    dsimp only [Option.map_none]
    rcases table.reducible stack.top with _ | ⟨place, _ | ⟨place', rest⟩⟩
    · rfl
    · exact (reduction_respell place).symm
    · rfl

theorem move_respell [DecidableEq N] (ignores : table.IgnoresSpelling respelling) (goal : N)
    (stack : Stack T N) (input : List T) :
    table.move goal (stack.respell respelling) (input.map respelling.token) =
      (table.move goal stack input).respell respelling := by
  cases input with
  | nil => exact moveAtEnd_respell goal stack
  | cons token rest => exact ignores.moveOn_respell stack token

/-! ### Reductions -/

variable [DecidableEq κ]

theorem reduceStack_respell [Named κ] (ignores : table.IgnoresSpelling respelling)
    {rule : Rule τ κ T N} (isRule : rule ∈ table.grammar.rules) (stack : Stack T N) :
    table.reduceStack rule (stack.respell respelling) =
      ((table.reduceStack rule stack).mapError (Diagnostic.respell respelling)).map
        (Stack.respell respelling) := by
  unfold Table.reduceStack
  dsimp only
  rw [Stack.length_frames_respell, Stack.drop_respell, Stack.top_respell, Stack.topNodes_respell,
    ignores.build rule isRule, Tree.span?_respell]
  split_ifs
  · rfl
  · cases table.goto? (stack.drop rule.length).top rule.key <;> rfl

/-! ### Recovery -/

theorem canFollow_eq (ignores : table.IgnoresSpelling respelling) (key : κ) (token : T) :
    table.canFollow key (respelling.token token) = table.canFollow key token := by
  unfold Table.canFollow
  simp only [ignores.accepts]

/-- Placeholders are spelled one way only. -/
theorem respell_of_foothold? (ignores : table.IgnoresSpelling respelling) {state : Nat}
    {foothold : Foothold κ T N} (found : table.foothold? state = some foothold) :
    foothold.respell respelling = foothold := by
  obtain ⟨entry, isIn, isFoothold⟩ := List.exists_of_findSome?_eq_some found
  obtain ⟨target, _, rfl⟩ := Option.map_eq_some_iff.mp isFoothold
  rw [Foothold.respell, ignores.placeholder entry isIn]

theorem unwind?_respell (ignores : table.IgnoresSpelling respelling) (start : Nat)
    (frames : List (Frame T N)) :
    table.unwind? start (frames.map (Frame.respell respelling)) =
      (table.unwind? start frames).map
        (Prod.map (Stack.respell respelling) (Foothold.respell respelling)) := by
  induction frames with
  | nil =>
    rw [List.map_nil, Table.unwind?]
    cases found : table.foothold? start with
    | none => rfl
    | some foothold =>
      exact congrArg (fun held => some (Stack.mk start [], held))
        (ignores.respell_of_foothold? found).symm
  | cons frame below ih =>
    rw [List.map_cons, Table.unwind?, Table.unwind?, ih, Frame.respell]
    cases found : table.foothold? frame.state with
    | none => rfl
    | some foothold =>
      exact congrArg
        (fun held => some ((Stack.mk start (frame :: below)).respell respelling, held))
        (ignores.respell_of_foothold? found).symm

theorem rescue_respell (ignores : table.IgnoresSpelling respelling) (stack : Stack T N)
    (input : List T) :
    table.rescue (stack.respell respelling) (input.map respelling.token) =
      (table.rescue stack input).respell respelling := by
  unfold Table.rescue
  rw [Stack.respell, ignores.unwind?_respell]
  cases table.unwind? stack.start stack.frames with
  | none => rfl
  | some unwound =>
    -- the same tokens are skipped
    have skips : (fun token => !table.canFollow unwound.2.key token) ∘ respelling.token =
        fun token => !table.canFollow unwound.2.key token := by
      funext token
      exact congrArg _ (ignores.canFollow_eq _ token)
    simp only [Option.map_some, Prod.map, Foothold.respell, List.dropWhile_map, skips,
      List.isEmpty_map, List.length_map]
    split_ifs <;> rfl

omit [DecidableEq κ] in
theorem recoverAtEnd_respell (m : Machine T N) :
    table.recoverAtEnd (m.respell respelling) = (table.recoverAtEnd m).respell respelling := by
  have last : ((m.respell respelling).stack.topNode?.bind Tree.lastToken?).map
        (fun token => (Token.text token, Token.span token)) =
      ((m.stack.topNode?.bind Tree.lastToken?).map
        fun token => (Token.text token, Token.span token)).map (Prod.map respelling.text id) := by
    rw [Machine.stack_respell, Stack.topNode?_respell]
    cases m.stack.topNode? with
    | none => rfl
    | some tree =>
      rw [Option.map_some, Option.bind_some, Option.bind_some, Tree.lastToken?_respell,
        Option.map_map, Option.map_map]
      congr 1
      funext token
      exact Prod.ext (respelling.text_token token) (respelling.span_token token)
  unfold Table.recoverAtEnd
  dsimp only
  rw [last, Machine.stack_respell, Stack.top_respell]
  have reported := m.report_respell respelling
    (.unexpectedEnd ((m.stack.topNode?.bind Tree.lastToken?).map
      fun token => (Token.text token, Token.span token)) (table.expected m.stack.top))
  rw [Diagnostic.respell] at reported
  rw [reported, Machine.record_snapshot_respell]
  exact congrArg Step.aborted (Machine.report_respell respelling _ .inputExhausted)

theorem recoverAt_respell [Named κ] (ignores : table.IgnoresSpelling respelling) (m : Machine T N)
    (token : T) :
    table.recoverAt (m.respell respelling) (respelling.token token) =
      (table.recoverAt m token).respell respelling := by
  unfold Table.recoverAt
  dsimp only
  have reports := m.report_respell respelling
    (.unexpectedToken (Token.text token) (Token.span token) (table.expected m.stack.top))
  rw [Diagnostic.respell] at reports
  rw [respelling.text_token, respelling.span_token, Machine.stack_respell, Stack.top_respell,
    reports]
  -- what follows is done by the machine that has reported the token
  generalize m.report (.unexpectedToken (Token.text token) (Token.span token)
    (table.expected m.stack.top)) = reported
  rw [Machine.lastRecovery_respell, Machine.input_respell, Machine.stack_respell, List.length_map,
    ignores.rescue_respell]
  split_ifs
  · rw [Machine.record_snapshot_respell]
    exact congrArg Step.aborted
      (Machine.report_respell respelling _ (.noProgress (Token.span token)))
  · cases table.rescue reported.stack reported.input with
    | noFoothold =>
      dsimp only [Rescue.respell]
      rw [Machine.record_emptied_respell]
      exact congrArg Step.aborted
        (Machine.report_respell respelling _ (.noRecoverableState (Token.span token)))
    | noInput stack foothold =>
      have records := Machine.record_snapshot_respell respelling
        { reported with stack := stack, input := [] } (.recover false)
      exact (congrArg (fun m => Step.aborted (Machine.report m
          (.noFollowableInput (Named.name foothold.key) (Token.span token)))) records).trans
        (congrArg Step.aborted (Machine.report_respell respelling _
          (.noFollowableInput (Named.name foothold.key) (Token.span token))))
    | found stack foothold skipped rest =>
      have records := Machine.record_snapshot_respell respelling
        { reported with
          stack := stack.push foothold.placeholder foothold.target
          input := rest
          stats :=
            { reported.stats with
              tokens := reported.stats.tokens + skipped
              recoveries := reported.stats.recoveries + 1 }
          lastRecovery := some rest.length } (.recover true)
      dsimp only [Rescue.respell]
      rw [List.length_map]
      exact congrArg Step.next records

/-! ### Runs -/

variable [DecidableEq N] [Named κ]

/-- A step from the tokens in another spelling is the step from the tokens, in this spelling. -/
theorem step_respell (ignores : table.IgnoresSpelling respelling) (goal : N)
    (m : Machine T N) :
    table.step goal (m.respell respelling) = (table.step goal m).respell respelling := by
  unfold Table.step
  rw [Machine.stack_respell, Machine.input_respell, ignores.move_respell]
  cases moves : table.move goal m.stack m.input with
  | accept tree =>
    exact congrArg (Step.accepted (tree.respell respelling))
      (m.record_snapshot_respell respelling .accept)
  | shift token state =>
    dsimp only [Move.respell]
    rw [Machine.record_snapshot_respell, Machine.input_respell, ← List.map_tail,
      ← Tree.respell_leaf]
    rfl
  | reduce place rule =>
    have isRule : rule ∈ table.grammar.rules := List.mem_of_getElem? (rule?_of_move moves)
    dsimp only [Move.respell]
    rw [Machine.record_snapshot_respell, Machine.stack_respell, Machine.stack_record,
      ignores.reduceStack_respell isRule]
    cases table.reduceStack rule m.stack with
    | error diagnostic =>
      exact congrArg Step.aborted (Machine.report_respell respelling _ diagnostic)
    | ok stack => rfl
  | recover =>
    dsimp only [Move.respell]
    cases m.input with
    | nil => exact recoverAtEnd_respell m
    | cons token rest => exact ignores.recoverAt_respell m token

/-- So is a run, which ends in the same way. -/
theorem run_respell (ignores : table.IgnoresSpelling respelling) (goal : N)
    (budget : Nat) (m : Machine T N) :
    table.run goal budget (m.respell respelling) =
      ((table.run goal budget m).1.respell respelling,
        (table.run goal budget m).2.respell respelling) := by
  induction budget generalizing m with
  | zero => rfl
  | succ budget ih =>
    rw [Table.run, Table.run, ignores.step_respell]
    cases table.step goal m with
    | next m => exact ih m
    | accepted tree m => rfl
    | aborted m => rfl

/-- So is a parse, from whatever it starts. -/
theorem parse_respell (ignores : table.IgnoresSpelling respelling) (goal : N)
    (budget : Nat) (m : Machine T N) :
    table.parse goal budget (m.respell respelling) =
      ((table.parse goal budget m).1.respell respelling,
        (table.parse goal budget m).2.respell respelling) := by
  have starts : table.hasStart (m.respell respelling) = table.hasStart m := rfl
  unfold Table.parse
  rw [starts]
  split_ifs
  · exact ignores.run_respell goal budget m
  · have reports := m.report_respell respelling (.unknownStart m.stack.start)
    exact congrArg (fun m => (Outcome.aborted m.diagnostics, m)) reports

theorem parseTokens_respell (ignores : table.IgnoresSpelling respelling) (goal : N)
    (budget : Nat) (tokens : List T) (stats : Stats) :
    table.parseTokens goal budget (tokens.map respelling.token) stats =
      ((table.parseTokens goal budget tokens stats).1.respell respelling,
        (table.parseTokens goal budget tokens stats).2.respell respelling) :=
  ignores.parse_respell goal budget { stack := .base 0, input := tokens, stats := stats }

end Table.IgnoresSpelling

end ShiftReduce
