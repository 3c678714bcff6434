/-
  What one recovery does.

  A parser that recovers looks for the topmost state that goes on at a key with a placeholder.
  The keys are tried in the order in which they were registered, and of a key that was registered
  more than once the first place and the last tree count (`find?_keys_registerPlaceholders`,
  `find?_registerPlaceholders`). All frames above that state are taken away
  (`unwindsTo_of_unwind?`), and the tokens are skipped up to the first that can follow the key. So
  a recovery is known from the stack, the input and the placeholders that the table was built with
  (`recovers_of_table`).
-/
import Mathlib.Data.List.TakeWhile
import ShiftReduce.Proofs.Parser.Safety

namespace ShiftReduce

variable {τ κ T N : Type}

/-! ### Placeholders -/

section Placeholders

variable [DecidableEq κ]

theorem registerPlaceholders_concat (entries : List (κ × Tree T N)) (entry : κ × Tree T N) :
    registerPlaceholders (entries ++ [entry]) =
      registerPlaceholder entry.1 entry.2 (registerPlaceholders entries) :=
  List.foldl_concat _ _ _ _

/-- The keys are looked through in the order in which they were registered first. -/
theorem find?_keys_registerPlaceholders (p : κ → Bool) (entries : List (κ × Tree T N)) :
    ((registerPlaceholders entries).map Prod.fst).find? p = (entries.map Prod.fst).find? p := by
  induction entries using List.reverseRecOn with
  | nil => rfl
  | append_singleton entries entry ih =>
    rw [registerPlaceholders_concat, keys_registerPlaceholder, List.map_append, List.find?_append,
      ← ih]
    split_ifs with known
    · -- a key that is known already was looked at before
      cases found : ((registerPlaceholders entries).map Prod.fst).find? p with
      | some key => rfl
      | none =>
        have refused := List.find?_eq_none.mp found entry.1 known
        rw [List.map_singleton, List.find?_cons_of_neg refused]
        rfl
    · exact List.find?_append

theorem find?_registerPlaceholder (key : κ) (tree : Tree T N) (registered : List (κ × Tree T N))
    (other : κ) :
    (registerPlaceholder key tree registered).find? (fun entry => entry.1 = other) =
      if key = other then some (key, tree) else registered.find? fun entry => entry.1 = other := by
  induction registered with
  | nil =>
    rw [registerPlaceholder]
    by_cases same : key = other <;> simp [same]
  | cons entry rest ih =>
    rw [registerPlaceholder]
    by_cases here : entry.1 = key
    · by_cases same : key = other <;> simp [here, same]
    · rw [if_neg here, List.find?_cons, List.find?_cons, ih]
      by_cases same : key = other
      · have differs : ¬ entry.1 = other := fun eq => here (eq.trans same.symm)
        simp [differs, same]
      · simp [same]

/-- The tree of a key is the one that was registered last. -/
theorem find?_registerPlaceholders (key : κ) (entries : List (κ × Tree T N)) :
    (registerPlaceholders entries).find? (fun entry => entry.1 = key) =
      entries.reverse.find? fun entry => entry.1 = key := by
  induction entries using List.reverseRecOn with
  | nil => rfl
  | append_singleton entries entry ih =>
    rw [registerPlaceholders_concat, find?_registerPlaceholder, ih, List.reverse_concat,
      List.find?_cons]
    by_cases same : entry.1 = key
    · rw [if_pos same, decide_eq_true same, ← same]
    · rw [if_neg same, decide_eq_false same]

end Placeholders

variable [Ordered τ] [Ordered κ] [DecidableEq τ] [DecidableEq κ]

/-- `g.Resumes key token` says that a terminal that can follow the key accepts the token. -/
def Grammar.Resumes (g : Grammar τ κ T N) (key : κ) (token : T) : Prop :=
  ∃ t ∈ g.followOf key, (g.alphabet t).accepts token = true

namespace Table

variable {g : Grammar τ κ T N} {start : κ} {table : Table τ κ T N}
  {placeholders : List (κ × Tree T N)} {stack base : Stack T N} {above : List (Frame T N)}
  {foothold : Foothold κ T N}

/-! ### Footholds -/

/-- `table.UnwindsTo placeholders stack above base foothold` says where a parser with these
placeholders recovers. The state on top of `base` is the topmost that goes on at a key with a
placeholder, for no state above it does. The key of the foothold is the first such key, its tree is
the one registered last for the key, and its target is the goto. -/
structure UnwindsTo (table : Table τ κ T N) (placeholders : List (κ × Tree T N))
    (stack : Stack T N) (above : List (Frame T N)) (base : Stack T N)
    (foothold : Foothold κ T N) : Prop where
  stack_eq : stack = ⟨base.start, above ++ base.frames⟩
  above : ∀ frame ∈ above, ∀ key ∈ placeholders.map Prod.fst, table.goto? frame.state key = none
  key : (placeholders.map Prod.fst).find? (fun key => (table.goto? base.top key).isSome) =
    some foothold.key
  tree : placeholders.reverse.find? (fun entry => entry.1 = foothold.key) =
    some (foothold.key, foothold.placeholder)
  target : table.goto? base.top foothold.key = some foothold.target

section Built

variable (registers : table.placeholders = registerPlaceholders placeholders)

include registers

omit [DecidableEq τ] in
/-- A state has no foothold if it goes on at no key with a placeholder. -/
theorem foothold?_eq_none_iff (number : Nat) : table.foothold? number = none ↔
    ∀ key ∈ placeholders.map Prod.fst, table.goto? number key = none := by
  have keys := find?_keys_registerPlaceholders (fun key => (table.goto? number key).isSome)
    placeholders
  rw [← registers] at keys
  have none : (∀ key ∈ placeholders.map Prod.fst, table.goto? number key = none) ↔
      (placeholders.map Prod.fst).find? (fun key => (table.goto? number key).isSome) = none := by
    simp
  rw [none, ← keys, foothold?]
  simp

omit [DecidableEq τ] in
/-- The foothold of a state is at the first key that it goes on at. -/
theorem of_foothold?_eq_some {number : Nat} (found : table.foothold? number = some foothold) :
    (placeholders.map Prod.fst).find? (fun key => (table.goto? number key).isSome) =
      some foothold.key ∧
    placeholders.reverse.find? (fun entry => entry.1 = foothold.key) =
      some (foothold.key, foothold.placeholder) ∧
    table.goto? number foothold.key = some foothold.target := by
  obtain ⟨isTree, goes⟩ := of_foothold? found
  refine ⟨?_, ?_, goes⟩
  · obtain ⟨front, entry, back, split, isFoothold, passed⟩ := List.findSome?_eq_some_iff.mp found
    obtain ⟨target, _, rfl⟩ := Option.map_eq_some_iff.mp isFoothold
    rw [← find?_keys_registerPlaceholders, ← registers, List.find?_eq_some_iff_append]
    refine ⟨by rw [goes]; rfl, front.map Prod.fst, back.map Prod.fst, by rw [split]; simp, ?_⟩
    intro key isKey
    obtain ⟨other, isOther, rfl⟩ := List.mem_map.mp isKey
    rw [Option.map_eq_none_iff.mp (passed other isOther)]
    rfl
  · obtain ⟨entry, isEntry, tree⟩ := Option.map_eq_some_iff.mp isTree
    have key : entry.1 = foothold.key := by simpa using List.find?_some isEntry
    rw [← find?_registerPlaceholders, ← registers, isEntry, ← key, ← tree]

end Built

omit [DecidableEq τ] in
/-- Nothing is unwound to if no state on the stack has a foothold. -/
theorem unwind?_eq_none_iff {first : Nat} {frames : List (Frame T N)} :
    table.unwind? first frames = none ↔
      ∀ number ∈ Stack.states (⟨first, frames⟩ : Stack T N), table.foothold? number = none := by
  induction frames with
  | nil =>
    have states : Stack.states (⟨first, []⟩ : Stack T N) = [first] := rfl
    rw [unwind?, Option.map_eq_none_iff, states, List.forall_mem_singleton]
  | cons frame below ih =>
    rw [unwind?, Stack.states_cons, List.forall_mem_append, List.forall_mem_singleton, ← ih]
    cases table.foothold? frame.state <;> simp

omit [DecidableEq τ] in
/-- The frames that are taken away have no foothold. -/
theorem exists_above_of_unwind? {first : Nat} {frames : List (Frame T N)}
    (found : table.unwind? first frames = some (base, foothold)) :
    ∃ above, frames = above ++ base.frames ∧ base.start = first ∧
      (∀ frame ∈ above, table.foothold? frame.state = none) ∧
      table.foothold? base.top = some foothold := by
  induction frames with
  | nil =>
    rw [unwind?, Option.map_eq_some_iff] at found
    obtain ⟨held, isFoothold, same⟩ := found
    cases same
    exact ⟨[], rfl, rfl, List.forall_mem_nil _, isFoothold⟩
  | cons frame below ih =>
    rw [unwind?] at found
    cases here : table.foothold? frame.state with
    | some held =>
      rw [here] at found
      cases found
      exact ⟨[], rfl, rfl, List.forall_mem_nil _, here⟩
    | none =>
      rw [here] at found
      obtain ⟨above, split, isStart, passed, isFoothold⟩ := ih found
      exact ⟨frame :: above, by rw [split, List.cons_append], isStart,
        List.forall_mem_cons.mpr ⟨here, passed⟩, isFoothold⟩

omit [DecidableEq τ] in
theorem unwindsTo_of_unwind? (registers : table.placeholders = registerPlaceholders placeholders)
    (found : table.unwind? stack.start stack.frames = some (base, foothold)) :
    ∃ above, table.UnwindsTo placeholders stack above base foothold := by
  obtain ⟨above, split, isStart, passed, isFoothold⟩ := exists_above_of_unwind? found
  obtain ⟨key, tree, target⟩ := of_foothold?_eq_some registers isFoothold
  have barren : ∀ frame ∈ above, ∀ key ∈ placeholders.map Prod.fst,
      table.goto? frame.state key = none := fun frame isIn =>
    (foothold?_eq_none_iff registers frame.state).mp (passed frame isIn)
  refine ⟨above, ?_, barren, key, tree, target⟩
  rw [isStart, ← split]

/-! ### Recovery -/

/-- The tokens that cannot follow a key are skipped up to the first that can. -/
theorem exists_skipped (built : g.Automaton start table) (key : κ) (input : List T) :
    ∃ skipped, input = skipped ++ input.dropWhile (fun token => !table.canFollow key token) ∧
      (∀ word ∈ skipped, ¬ g.Resumes key word) ∧
      ∀ word ∈ (input.dropWhile fun token => !table.canFollow key token).head?,
        g.Resumes key word := by
  refine ⟨input.takeWhile fun token => !table.canFollow key token,
    List.takeWhile_append_dropWhile.symm, fun word isIn => ?_, fun word isHead => ?_⟩
  · have skips := List.mem_takeWhile_imp isIn
    rw [Grammar.Resumes, ← built.canFollow_iff]
    simpa using skips
  · have kept := List.head?_dropWhile_not (fun token => !table.canFollow key token) input
    rw [Option.mem_def.mp isHead] at kept
    rw [Grammar.Resumes, ← built.canFollow_iff]
    simpa using kept

variable [DecidableEq N] [Named κ] [Token T] {goal : N} {m : Machine T N} {token : T}
  {rest : List T}

omit [DecidableEq τ] in
/-- Where no state has a foothold, the parse is given up with the input as it is. -/
theorem step_of_unwind?_eq_none (input : m.input = token :: rest)
    (enters : table.move goal m.stack m.input = .recover)
    (progress : m.lastRecovery ≠ some m.input.length)
    (missing : table.unwind? m.stack.start m.stack.frames = none) :
    ∃ m', table.step goal m = .aborted m' ∧ m'.input = m.input ∧
      m'.diagnostics = m.diagnostics ++
        [.unexpectedToken (Token.text token) (Token.span token) (table.expected m.stack.top),
          .noRecoverableState (Token.span token)] := by
  have performs := performs_step table goal m
  generalize table.step goal m = result at performs
  cases performs with
  | accept moves | shift moves | reduce moves | breakOff moves => cases moves.symm.trans enters
  | recover _ _ _ found => cases missing.symm.trans found
  | giveUp _ givesUp =>
    cases givesUp with
    | exhausted empty => cases empty.symm.trans input
    | stalled _ again => exact absurd again progress
    | unfounded input' =>
      cases input'.symm.trans input
      exact ⟨_, rfl, rfl, rfl⟩
    | unfollowed _ _ found => cases missing.symm.trans found

omit [DecidableEq τ] in
/-- Where there is a foothold, the parse is given up with an empty input or goes on from there. -/
theorem step_of_unwind?_eq_some (input : m.input = token :: rest)
    (enters : table.move goal m.stack m.input = .recover)
    (progress : m.lastRecovery ≠ some m.input.length)
    (found : table.unwind? m.stack.start m.stack.frames = some (base, foothold)) {left : List T}
    (skips : (m.input.dropWhile fun token => !table.canFollow foothold.key token) = left) :
    (left = [] → ∃ m', table.step goal m = .aborted m' ∧ m'.stack = base ∧ m'.input = [] ∧
      m'.diagnostics = m.diagnostics ++
        [.unexpectedToken (Token.text token) (Token.span token) (table.expected m.stack.top),
          .noFollowableInput (Named.name foothold.key) (Token.span token)]) ∧
    (left ≠ [] → ∃ m', table.step goal m = .next m' ∧
      m'.stack = base.push foothold.placeholder foothold.target ∧ m'.input = left ∧
      m'.diagnostics = m.diagnostics ++
        [.unexpectedToken (Token.text token) (Token.span token)
          (table.expected m.stack.top)]) := by
  have performs := performs_step table goal m
  generalize table.step goal m = result at performs
  cases performs with
  | accept moves | shift moves | reduce moves | breakOff moves => cases moves.symm.trans enters
  | recover _ input' _ found' skips' resumes =>
    cases found'.symm.trans found
    cases input'.symm.trans input
    cases skips'.symm.trans skips
    exact ⟨fun none => absurd none resumes, fun _ => ⟨_, rfl, rfl, rfl, rfl⟩⟩
  | giveUp _ givesUp =>
    cases givesUp with
    | exhausted empty => cases empty.symm.trans input
    | stalled _ again => exact absurd again progress
    | unfounded _ _ missing => cases missing.symm.trans found
    | unfollowed input' _ found' skips' =>
      cases found'.symm.trans found
      cases input'.symm.trans input
      cases skips'.symm.trans skips
      exact ⟨fun _ => ⟨_, rfl, rfl, rfl, rfl⟩, fun resumes => absurd rfl resumes⟩

/-- What a recovery does, on any stack and input. If no state on the stack goes on at a key with a
placeholder, the parse is given up for want of a state, and the input stays as it is. Otherwise the
stack is unwound to the topmost state that does, and the tokens are skipped that cannot follow the
key, up to the first that can. If there is none, the parse is given up for want of a token; if there
is, the placeholder is put on top, the goto of its key is entered over it, and the run goes on with
that token. Either way the unexpected token is reported first. -/
theorem recovers_of_table (built : g.table start placeholders = .ok table)
    (input : m.input = token :: rest) (enters : table.move goal m.stack m.input = .recover)
    (progress : m.lastRecovery ≠ some m.input.length) :
    ((∀ state ∈ m.stack.states, ∀ key ∈ placeholders.map Prod.fst,
        table.goto? state key = none) →
      ∃ m', table.step goal m = .aborted m' ∧ m'.input = m.input ∧
        m'.diagnostics = m.diagnostics ++
          [.unexpectedToken (Token.text token) (Token.span token) (table.expected m.stack.top),
            .noRecoverableState (Token.span token)]) ∧
    ((∃ state ∈ m.stack.states, ∃ key ∈ placeholders.map Prod.fst,
        table.goto? state key ≠ none) →
      ∃ above base foothold skipped left,
        table.UnwindsTo placeholders m.stack above base foothold ∧
        m.input = skipped ++ left ∧ (∀ word ∈ skipped, ¬ g.Resumes foothold.key word) ∧
        (∀ word ∈ left.head?, g.Resumes foothold.key word) ∧
        (left = [] → ∃ m', table.step goal m = .aborted m' ∧ m'.stack = base ∧ m'.input = [] ∧
          m'.diagnostics = m.diagnostics ++
            [.unexpectedToken (Token.text token) (Token.span token) (table.expected m.stack.top),
              .noFollowableInput (Named.name foothold.key) (Token.span token)]) ∧
        (left ≠ [] → ∃ m', table.step goal m = .next m' ∧
          m'.stack = base.push foothold.placeholder foothold.target ∧ m'.input = left ∧
          m'.diagnostics = m.diagnostics ++
            [.unexpectedToken (Token.text token) (Token.span token)
              (table.expected m.stack.top)])) := by
  have registers : table.placeholders = registerPlaceholders placeholders := by
    obtain ⟨_, _, _, rfl⟩ := Grammar.exists_explores_of_table built
    rfl
  have missing : table.unwind? m.stack.start m.stack.frames = none ↔
      ∀ state ∈ m.stack.states, ∀ key ∈ placeholders.map Prod.fst,
        table.goto? state key = none := by
    simp only [unwind?_eq_none_iff, foothold?_eq_none_iff registers]
  -- with no state that goes on the stack cannot be unwound, and else there is a topmost one
  refine ⟨fun barren => step_of_unwind?_eq_none input enters progress (missing.mpr barren), ?_⟩
  rintro ⟨state, isState, key, isKey, goes⟩
  cases found : table.unwind? m.stack.start m.stack.frames with
  | none => exact absurd (missing.mp found state isState key isKey) goes
  | some rescued =>
    obtain ⟨base, foothold⟩ := rescued
    obtain ⟨above, unwinds⟩ := unwindsTo_of_unwind? registers found
    obtain ⟨skipped, split, refused, resumes⟩ :=
      exists_skipped (Grammar.automaton_of_table built) foothold.key m.input
    exact ⟨above, base, foothold, skipped, _, unwinds, split, refused, resumes,
      step_of_unwind?_eq_some input enters progress found rfl⟩

end Table

/-! ### Pairs of brackets -/

namespace Pairs

open Brackets (Mark Part)

/-- A parser that has read a pair and finds a third opening bracket. -/
def stranded : Machine Mark Part :=
  (table.run .text 2 { stack := .base 0, input := [.opening, .opening, .opening, .closing] }).2

/-- The two brackets are taken from the stack, for only the start state goes on at a pair, and the
third is skipped, for only a closing bracket can come behind a pair. -/
theorem exists_unwindsTo : grammar.table .start placeholders = .ok table ∧
    stranded.input = [.opening, .closing] ∧
    table.move .text stranded.stack stranded.input = .recover ∧
    stranded.lastRecovery ≠ some stranded.input.length ∧
    ∃ above base foothold skipped left m,
      table.UnwindsTo placeholders stranded.stack above base foothold ∧ above.length = 2 ∧
      stranded.input = skipped ++ left ∧ skipped = [.opening] ∧
      (∀ word ∈ skipped, ¬ grammar.Resumes foothold.key word) ∧
      (∀ word ∈ left.head?, grammar.Resumes foothold.key word) ∧
      table.step .text stranded = .next m ∧
      m.stack = base.push foothold.placeholder foothold.target ∧ m.input = left := by
  have input : stranded.input = [.opening, .closing] := by decide +kernel
  have idle : table.actionFor? stranded.stack.top .opening = none := by decide +kernel
  have enters : table.move .text stranded.stack stranded.input = .recover := by
    simp only [input, Table.move, Table.moveOn, Table.choiceOn, idle]
  have progress : stranded.lastRecovery ≠ some stranded.input.length := by decide +kernel
  have goes : ∃ state ∈ stranded.stack.states, ∃ key ∈ placeholders.map Prod.fst,
      table.goto? state key ≠ none := by
    decide +kernel
  obtain ⟨above, base, foothold, skipped, left, unwinds, split, refused, resumes, gives, rescues⟩ :=
    (Table.recovers_of_table table_eq input enters progress).2 goes
  -- the step that the table takes is told by running it
  have ran : (table.run .text 1 stranded).1 = .unfinished ∧
      (table.run .text 1 stranded).2.stack.frames.length = 1 ∧
      (table.run .text 1 stranded).2.input = [.closing] ∧ stranded.stack.frames.length = 2 := by
    decide +kernel
  have remains : left ≠ [] := by
    intro none
    obtain ⟨m, aborts, _⟩ := gives none
    rw [Table.run, aborts] at ran
    cases ran.1
  obtain ⟨m, next, stack, left_eq, _⟩ := rescues remains
  rw [Table.run, next] at ran
  have frames : m.stack.frames.length = 1 := ran.2.1
  have rest : m.input = [.closing] := ran.2.2.1
  have held := ran.2.2.2
  have bare : base.frames.length = 0 := by
    rw [stack] at frames
    exact Nat.succ.inj frames
  have taken : above.length = 2 := by
    rw [unwinds.stack_eq, List.length_append, bare] at held
    exact held
  have kept : left = [.closing] := left_eq.symm.trans rest
  have lost : skipped = [.opening] := by
    rw [input, kept] at split
    exact (List.append_cancel_right (split : [Mark.opening] ++ [.closing] = _)).symm
  exact ⟨table_eq, input, enters, progress, above, base, foothold, skipped, left, m, unwinds, taken,
    split, lost, refused, resumes, next, stack, left_eq⟩

end Pairs

end ShiftReduce
