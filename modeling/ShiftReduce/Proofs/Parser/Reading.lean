/-
  A run without errors, seen as the reading of derivations.

  A reading is a configuration of the parser in which every node on the stack is
  known by a derivation that builds it. Its steps (`Table.Reads`) are the shifts
  and reductions of the parser: a shift puts a leaf on the stack, a reduction
  a branch over the derivations that it takes away. They are determined by the
  configuration (`Reads.unique`).

  A machine that shadows a reading takes the same steps, and as long as it
  adds no diagnostic it takes no others: a run that accepts without a diagnostic
  is a run of readings (`exists_readsIn_of_run`), and every run of readings that
  ends with the goal on top is one of the machine (`run_of_readsIn`).
-/
import ShiftReduce.Proofs.Derivation
import ShiftReduce.Proofs.Parser.Results

namespace ShiftReduce

variable {τ κ T N : Type}

/-! ### Readings -/

/-- A configuration whose nodes are known by derivations: the frames, the
topmost first, each with the state entered over it, and the tokens to come. -/
structure Reading (τ κ T N : Type) where
  frames : List (Derivation τ κ T N × Nat)
  input : List T

namespace Reading

/-- The state on top of some frames, which is the start state if there are
none. -/
def topState (frames : List (Derivation τ κ T N × Nat)) : Nat :=
  ((frames.head?).map Prod.snd).getD 0

/-- The parser's stack, which holds the trees that the derivations build. -/
def stack (r : Reading τ κ T N) : Stack T N :=
  ⟨0, r.frames.map fun frame => ⟨frame.1.build, frame.2⟩⟩

/-- The symbols on the stack, the lowest first. -/
def symbols (frames : List (Derivation τ κ T N × Nat)) : List (Symbol τ κ) :=
  (frames.map fun frame => frame.1.root).reverse

/-- The derivations of the topmost frames, the lowest first. -/
def topmost (frames : List (Derivation τ κ T N × Nat)) (count : Nat) :
    List (Derivation τ κ T N) :=
  ((frames.take count).map Prod.fst).reverse

@[simp] theorem symbols_cons (frame : Derivation τ κ T N × Nat)
    (frames : List (Derivation τ κ T N × Nat)) :
    symbols (frame :: frames) = symbols frames ++ [frame.1.root] := by
  rw [symbols, List.map_cons, List.reverse_cons, symbols]

theorem fst_eq_drop_append_topmost (frames : List (Derivation τ κ T N × Nat)) (count : Nat) :
    frames.reverse.map Prod.fst =
      (frames.drop count).reverse.map Prod.fst ++ topmost frames count := by
  conv_lhs => rw [← List.take_append_drop count frames]
  rw [List.reverse_append, List.map_append, topmost, List.map_reverse, List.map_reverse]

/-- The tokens that some frames have read. -/
def spelled (frames : List (Derivation τ κ T N × Nat)) : List T :=
  frames.reverse.flatMap fun frame => frame.1.tokens

theorem spelled_cons (frame : Derivation τ κ T N × Nat)
    (frames : List (Derivation τ κ T N × Nat)) :
    spelled (frame :: frames) = spelled frames ++ frame.1.tokens := by
  rw [spelled, List.reverse_cons, List.flatMap_append, List.flatMap_singleton]
  rfl

/-- The tokens stay in order when nodes are put back as one. -/
theorem spelled_reduced (rule : Rule τ κ T N) (target count : Nat)
    (frames : List (Derivation τ κ T N × Nat)) :
    spelled ((.branch rule (topmost frames count), target) :: frames.drop count) =
      spelled frames := by
  have parts := fst_eq_drop_append_topmost frames count
  rw [spelled_cons, Derivation.tokens_branch]
  calc _ = ((frames.drop count).reverse.map Prod.fst ++ topmost frames count).flatMap
          Derivation.tokens := by
        rw [List.flatMap_append, List.flatMap_map]
        rfl
    _ = spelled frames := by
        rw [← parts, List.flatMap_map]
        rfl

variable (r : Reading τ κ T N)

theorem top_stack : r.stack.top = topState r.frames := by
  rw [Stack.top, stack, List.head?_map, Option.map_map]
  rfl

theorem topNode?_stack : r.stack.topNode? = r.frames.head?.map fun frame => frame.1.build := by
  rw [Stack.topNode?, stack, List.head?_map, Option.map_map]
  rfl

theorem topNodes_stack (count : Nat) :
    r.stack.topNodes count = (topmost r.frames count).map Derivation.build := by
  rw [Stack.topNodes, stack, topmost, ← List.map_take, List.map_map, ← List.map_reverse,
    ← List.map_reverse, List.map_map]
  rfl

theorem drop_stack (count : Nat) :
    r.stack.drop count = (⟨r.frames.drop count, r.input⟩ : Reading τ κ T N).stack := by
  rw [Stack.drop, stack, ← List.map_drop]
  rfl

end Reading

/-! ### Machines -/

namespace Machine

/-- A machine shadows a reading if it has the same configuration. -/
def Shadows (m : Machine T N) (r : Reading τ κ T N) : Prop :=
  m.stack = r.stack ∧ m.input = r.input

end Machine

/-- The tree of an accepted parse. -/
def Outcome.tree? : Outcome T N → Option (Tree T N)
  | accepted tree => some tree
  | _ => none

theorem Outcome.eq_accepted {outcome : Outcome T N} {tree : Tree T N}
    (found : outcome.tree? = some tree) : outcome = .accepted tree := by
  cases outcome with
  | accepted other => rw [Option.some.inj found]
  | aborted diagnostics => cases found
  | unfinished => cases found

/-! ### Steps of a reading -/

variable [Ordered τ] [Ordered κ] [DecidableEq κ] [DecidableEq N]

namespace Table

/-- `table.Reads goal r r'` says that the parser, looking for a node of the kind
`goal`, shifts or reduces from `r` to `r'`. -/
inductive Reads (table : Table τ κ T N) (goal : N) : Reading τ κ T N → Reading τ κ T N → Prop
  | shift {frames : List (Derivation τ κ T N × Nat)} {token : T} {rest : List T} {t : τ}
      {target : Nat}
      (acts : table.actionFor? (Reading.topState frames) token = some (t, .shift target)) :
      table.Reads goal ⟨frames, token :: rest⟩ ⟨(.leaf (t, token), target) :: frames, rest⟩
  | reduce {frames : List (Derivation τ κ T N × Nat)} {input : List T} {place : Nat}
      {rule : Rule τ κ T N} {target : Nat}
      (moves : table.move goal (Reading.stack ⟨frames, input⟩) input = .reduce place rule)
      (enough : rule.length ≤ frames.length)
      (goes : table.goto? (Reading.topState (frames.drop rule.length)) rule.key = some target) :
      table.Reads goal ⟨frames, input⟩
        ⟨(.branch rule (Reading.topmost frames rule.length), target) ::
          frames.drop rule.length, input⟩

/-- Several steps of a reading, counted. -/
inductive ReadsIn (table : Table τ κ T N) (goal : N) :
    Nat → Reading τ κ T N → Reading τ κ T N → Prop
  | refl (r : Reading τ κ T N) : table.ReadsIn goal 0 r r
  | step {n : Nat} {r next last : Reading τ κ T N} (first : table.Reads goal r next)
      (others : table.ReadsIn goal n next last) : table.ReadsIn goal (n + 1) r last

end Table

/-- A reading is finished when the input is read and the tree on top is of the
kind asked for. -/
def Reading.Finished (goal : N) (r : Reading τ κ T N) : Prop :=
  r.input = [] ∧ ∃ D state below, r.frames = (D, state) :: below ∧ D.build.kind? = some goal

namespace Table

variable {table : Table τ κ T N} {goal : N} {r r' r'' : Reading τ κ T N}

/-- A step of a reading leads to one reading only. -/
theorem Reads.unique (one : table.Reads goal r r') (other : table.Reads goal r r'') : r' = r'' := by
  cases one with
  | @shift frames _ rest _ _ acts =>
    cases other with
    | shift acts' =>
      obtain ⟨rfl, same⟩ := Prod.mk.inj (Option.some.inj (acts.symm.trans acts'))
      rw [Action.shift.inj same]
    | reduce moves enough goes =>
      rw [← Reading.top_stack ⟨frames, []⟩] at acts
      cases (move_of_actionFor?_shift acts).symm.trans moves
  | reduce moves enough goes =>
    cases other with
    | shift acts =>
      rw [← Reading.top_stack ⟨_, []⟩] at acts
      cases (move_of_actionFor?_shift acts).symm.trans moves
    | reduce moves' enough' goes' =>
      injection moves.symm.trans moves' with _ same
      subst same
      rw [Option.some.inj (goes.symm.trans goes')]

omit [DecidableEq κ] in
theorem move_of_finished (table : Table τ κ T N) (finished : r.Finished goal) :
    ∃ D state below, r.frames = (D, state) :: below ∧
      table.move goal r.stack r.input = .accept D.build := by
  obtain ⟨ends, D, state, below, frames, kind⟩ := finished
  refine ⟨D, state, below, frames, ?_⟩
  rw [ends, Table.move]
  refine moveAtEnd_of_kind ?_ kind
  rw [Reading.topNode?_stack, frames]
  rfl

/-- A finished reading goes no further. -/
theorem not_reads_of_finished (finished : r.Finished goal) : ¬ table.Reads goal r r' := by
  intro next
  obtain ⟨D, state, below, _, accepts⟩ := move_of_finished table finished
  cases next with
  | shift _ => cases finished.1
  | reduce moves _ _ => cases accepts.symm.trans moves

theorem ReadsIn.trans {n k : Nat} (front : table.ReadsIn goal n r r')
    (back : table.ReadsIn goal k r' r'') : table.ReadsIn goal (n + k) r r'' := by
  induction front with
  | refl r =>
    rw [Nat.zero_add]
    exact back
  | step first _ ih =>
    rw [Nat.succ_add_eq_add_succ]
    exact .step first (ih back)

theorem Reads.input_suffix (reads : table.Reads goal r r') : r'.input <:+ r.input := by
  cases reads with
  | shift _ => exact List.suffix_cons _ _
  | reduce _ _ _ => exact List.suffix_rfl

/-- Before the end of the input a step depends on the next token alone. -/
theorem Reads.append (reads : table.Reads goal r r') (ahead : r.input ≠ []) (more : List T) :
    table.Reads goal ⟨r.frames, r.input ++ more⟩ ⟨r'.frames, r'.input ++ more⟩ := by
  cases reads with
  | shift acts => exact .shift acts
  | @reduce frames input place rule target moves enough goes =>
    cases input with
    | nil => exact absurd rfl ahead
    | cons token rest => exact .reduce moves enough goes

/-- So do several steps, as long as a token is left. -/
theorem ReadsIn.append {n : Nat} (reads : table.ReadsIn goal n r r') (ahead : r'.input ≠ [])
    (more : List T) :
    table.ReadsIn goal n ⟨r.frames, r.input ++ more⟩ ⟨r'.frames, r'.input ++ more⟩ ∧
      r.input ≠ [] := by
  induction reads with
  | refl r => exact ⟨.refl _, ahead⟩
  | step first _ ih =>
    obtain ⟨others, ahead'⟩ := ih ahead
    have nonempty : _ ≠ [] := fun none => ahead' (List.suffix_nil.mp (none ▸ first.input_suffix))
    exact ⟨.step (first.append nonempty more) others, nonempty⟩

/-- From one reading only one finished reading is reached. -/
theorem ReadsIn.unique {n k : Nat} (one : table.ReadsIn goal n r r')
    (other : table.ReadsIn goal k r r'') (finished : r'.Finished goal)
    (finished' : r''.Finished goal) : r' = r'' := by
  induction one generalizing k with
  | refl r =>
    cases other with
    | refl => rfl
    | step first _ => exact absurd first (not_reads_of_finished finished)
  | step first _ ih =>
    cases other with
    | refl => exact absurd first (not_reads_of_finished finished')
    | step first' others =>
      obtain rfl := first.unique first'
      exact ih others finished

end Table

/-! ### Steps of a machine -/

namespace Table

variable [Named κ] [Token T] {table : Table τ κ T N} {goal : N} {r r' : Reading τ κ T N}
  {m m' : Machine T N}

theorem step_of_shift {token : T} {target : Nat}
    (moves : table.move goal m.stack m.input = .shift token target) :
    ∃ m', table.step goal m = .next m' ∧ m'.stack = m.stack.push (.leaf token) target ∧
      m'.input = m.input.tail ∧ m'.diagnostics = m.diagnostics := by
  unfold step
  rw [moves]
  refine ⟨_, rfl, ?_, ?_, Machine.diagnostics_record m _⟩
  · rw [Machine.stack_record]
  · rw [Machine.input_record]

theorem step_of_reduce {place : Nat} {rule : Rule τ κ T N} {stack : Stack T N}
    (moves : table.move goal m.stack m.input = .reduce place rule)
    (reduced : table.reduceStack rule m.stack = .ok stack) :
    ∃ m', table.step goal m = .next m' ∧ m'.stack = stack ∧ m'.input = m.input ∧
      m'.diagnostics = m.diagnostics := by
  unfold step
  rw [moves]
  dsimp only
  rw [Machine.stack_record, reduced]
  exact ⟨_, rfl, rfl, Machine.input_record m _, Machine.diagnostics_record m _⟩

theorem step_of_accept {tree : Tree T N} (moves : table.move goal m.stack m.input = .accept tree) :
    ∃ m', table.step goal m = .accepted tree m' ∧ m'.diagnostics = m.diagnostics := by
  unfold step
  rw [moves]
  exact ⟨_, rfl, Machine.diagnostics_record m _⟩

/-- A machine takes the steps of the reading that it shadows. -/
theorem step_of_reads (shadows : m.Shadows r) (reads : table.Reads goal r r') :
    ∃ m', table.step goal m = .next m' ∧ m'.Shadows r' ∧ m'.diagnostics = m.diagnostics := by
  obtain ⟨stack, input⟩ := shadows
  cases reads with
  | @shift frames token rest t target acts =>
    rw [← Reading.top_stack ⟨frames, token :: rest⟩] at acts
    have moves : table.move goal m.stack m.input = .shift token target := by
      rw [stack, input]
      exact move_of_actionFor?_shift acts
    obtain ⟨m', next, stack', input', diagnostics⟩ := step_of_shift moves
    refine ⟨m', next, ⟨?_, ?_⟩, diagnostics⟩
    · rw [stack', stack]
      rfl
    · rw [input', input]
      rfl
  | @reduce frames tokens place rule target moves enough goes =>
    have moves' : table.move goal m.stack m.input = .reduce place rule := by
      rw [stack, input]
      exact moves
    have held : rule.length ≤ m.stack.frames.length := by
      rw [stack, Reading.stack, List.length_map]
      exact enough
    rw [← Reading.top_stack ⟨frames.drop rule.length, tokens⟩,
      ← Reading.drop_stack ⟨frames, tokens⟩, ← stack] at goes
    obtain ⟨m', next, stack', input', diagnostics⟩ :=
      step_of_reduce moves' (reduceStack_of_goto? held goes)
    refine ⟨m', next, ⟨?_, input'.trans input⟩, diagnostics⟩
    rw [stack', stack, Reading.drop_stack, Reading.topNodes_stack, ← Derivation.build_branch]
    rfl

theorem move_of_step_accepted {tree : Tree T N} (accepted : table.step goal m = .accepted tree m') :
    table.move goal m.stack m.input = .accept tree ∧ m'.diagnostics = m.diagnostics := by
  have performs := performs_step table goal m
  rw [accepted] at performs
  cases performs with
  | accept moves => exact ⟨moves, rfl⟩

/-- A step that reports nothing is one of the reading. -/
theorem reads_of_step (shadows : m.Shadows r) (next : table.step goal m = .next m') :
    m'.diagnostics.length = m.diagnostics.length + 1 ∨
      m'.diagnostics = m.diagnostics ∧ ∃ r', table.Reads goal r r' ∧ m'.Shadows r' := by
  obtain ⟨frames, tokens⟩ := r
  obtain ⟨stack, input⟩ := shadows
  have performs := performs_step table goal m
  rw [next] at performs
  cases performs with
  | @shift token rest state moves isInput =>
    rw [stack, isInput] at moves
    obtain rfl : token :: rest = tokens := isInput.symm.trans input
    obtain ⟨_, t, acts⟩ := actionFor?_of_moveOn_shift moves
    rw [Reading.top_stack] at acts
    refine .inr ⟨rfl, _, .shift acts, ?_, rfl⟩
    rw [stack]
    rfl
  | reduce moves reduced =>
    rw [stack] at reduced
    rw [stack, input] at moves
    obtain ⟨enough, target, goes, rfl⟩ := reduceStack_eq_ok reduced
    rw [Reading.stack, List.length_map] at enough
    rw [Reading.drop_stack, Reading.top_stack] at goes
    refine .inr ⟨rfl, _, .reduce moves enough goes, ?_, input⟩
    rw [Reading.drop_stack, Reading.topNodes_stack, ← Derivation.build_branch]
    rfl
  | recover _ _ _ _ _ _ => exact .inl List.length_append

/-! ### Runs of a machine -/

/-- A step reports at most more. -/
theorem length_diagnostics_step (next : table.step goal m = .next m') :
    m.diagnostics.length ≤ m'.diagnostics.length := by
  have performs := performs_step table goal m
  rw [next] at performs
  cases performs with
  | shift _ _ => exact Nat.le_refl _
  | reduce _ _ => exact Nat.le_refl _
  | recover _ _ _ _ _ _ => exact (List.prefix_append _ _).length_le

/-- What was reported stays reported. -/
theorem length_diagnostics_run {budget : Nat} {tree : Tree T N}
    (ran : table.run goal budget m = (.accepted tree, m')) :
    m.diagnostics.length ≤ m'.diagnostics.length := by
  induction budget generalizing m with
  | zero => cases congrArg Prod.fst ran
  | succ budget ih =>
    rw [run] at ran
    split at ran
    · rename_i next isNext
      exact Nat.le_trans (length_diagnostics_step isNext) (ih ran)
    · rename_i tree' last accepted
      obtain ⟨_, rfl⟩ := Prod.mk.inj ran
      exact Nat.le_of_eq (congrArg List.length (move_of_step_accepted accepted).2.symm)
    · cases congrArg Prod.fst ran

/-- A machine that accepts keeps its configuration. -/
theorem shadows_of_step_accepted {tree : Tree T N} (shadows : m.Shadows r)
    (accepted : table.step goal m = .accepted tree m') : m'.Shadows r := by
  have moves := (move_of_step_accepted accepted).1
  unfold step at accepted
  rw [moves] at accepted
  injection accepted with _ same
  rw [← same, Machine.Shadows, Machine.stack_record, Machine.input_record]
  exact shadows

/-- A run that accepts without a new diagnostic is one of the reading, and
the machine that it ends with shadows the last one. -/
theorem exists_readsIn_of_run {budget : Nat} {tree : Tree T N} (shadows : m.Shadows r)
    (ran : table.run goal budget m = (.accepted tree, m'))
    (clean : m'.diagnostics.length ≤ m.diagnostics.length) :
    ∃ n last D state below, table.ReadsIn goal n r last ∧ last.input = [] ∧
      last.frames = (D, state) :: below ∧ D.build = tree ∧ tree.kind? = some goal ∧
      m'.Shadows last := by
  induction budget generalizing m r with
  | zero => cases congrArg Prod.fst ran
  | succ budget ih =>
    rw [run] at ran
    split at ran
    · rename_i next isNext
      rcases reads_of_step shadows isNext with reported | ⟨same, r', first, shadows'⟩
      · -- a recovery would have left its diagnostic
        have later := length_diagnostics_run ran
        omega
      · obtain ⟨n, last, D, state, below, others, rest⟩ := ih shadows' ran (by rw [same]; exact clean)
        exact ⟨n + 1, last, D, state, below, .step first others, rest⟩
    · rename_i tree' last accepted
      obtain ⟨same, rfl⟩ := Prod.mk.inj ran
      obtain rfl := Outcome.accepted.inj same
      -- a parser accepts at the end only, and there the node on top
      obtain ⟨moves, _⟩ := move_of_step_accepted accepted
      rw [shadows.1, shadows.2] at moves
      obtain ⟨frames, tokens⟩ := r
      cases tokens with
      | nil =>
        obtain ⟨top, kind⟩ := topNode?_of_moveAtEnd moves
        rw [Reading.topNode?_stack, Option.map_eq_some_iff] at top
        obtain ⟨⟨D, state⟩, top, rfl⟩ := top
        obtain ⟨below, isTop⟩ := List.head?_eq_some_iff.mp top
        exact ⟨0, _, D, state, below, .refl _, rfl, isTop, rfl, kind,
          shadows_of_step_accepted shadows accepted⟩
      | cons token rest => exact absurd moves (moveOn_ne_accept _)
    · cases congrArg Prod.fst ran

/-- A machine follows the reading that it shadows to the end. -/
theorem run_of_readsIn {n budget : Nat} {last : Reading τ κ T N} (shadows : m.Shadows r)
    (reads : table.ReadsIn goal n r last) (finished : last.Finished goal) (enough : n < budget) :
    ∃ D state below m', last.frames = (D, state) :: below ∧
      table.run goal budget m = (.accepted D.build, m') ∧ m'.diagnostics = m.diagnostics := by
  obtain ⟨budget, rfl⟩ := Nat.exists_eq_add_of_lt enough
  induction reads generalizing m with
  | refl r =>
    obtain ⟨D, state, below, frames, accepts⟩ := move_of_finished table finished
    rw [← shadows.1, ← shadows.2] at accepts
    obtain ⟨m', accepted, diagnostics⟩ := step_of_accept accepts
    exact ⟨D, state, below, m', frames, by rw [run, accepted], diagnostics⟩
  | @step n r next last first others ih =>
    -- the budget counts down with the steps of the reading
    obtain ⟨m₁, isNext, shadows', diagnostics⟩ := step_of_reads shadows first
    obtain ⟨D, state, below, m', frames, ran, same⟩ := ih shadows' finished (by omega)
    refine ⟨D, state, below, m', frames, ?_, same.trans diagnostics⟩
    rw [show n + 1 + budget + 1 = (n + budget + 1) + 1 by omega, run, isNext]
    exact ran

end Table

end ShiftReduce
