/-
  Where a parser of the Pascal subset goes on after an error.

  A parser that has recovered stands behind an empty statement, before a token that can come
  behind a statement: a semicolon, an `end` or an `else`. A state that is entered over a
  statement reduces before a semicolon and before an `end`, and what it reduces to is a
  statement again, or the list of statements that the token goes on with
  (`settles_checked`). Each reduction makes the stack shorter or climbs from one sort of
  statement to the next, so the parser comes to shift the token, whatever the statement
  stands in (`exists_shift_of_over`).

  Only before an `else` can it be stuck where it has just recovered, so only there is
  recovery given up for want of progress (`resumes_of_parse`).
-/
import ShiftReduce.Proofs.Parser.Recoveries
import ShiftReduce.Proofs.Pascal.Recovered

namespace ShiftReduce.Pascal

/-! ### Statements before a semicolon or an `end` -/

/-- The terminals that close a statement in a list. -/
def closers : List Terminal := [.semicolon, .endWord]

/-- How many reductions there are from a key to a list of statements, if the key is a sort of
statement that may lack its end. -/
def climb? : Nonterminal → Option Nat
  | .statements => some 0
  | .statement => some 1
  | .ifStatement => some 2
  | .forStatement => some 2
  | _ => none

/-- Whether a state that is entered at this height shifts a terminal, or reduces before it and
comes nearer to a list: to less of a stack, or to a shorter climb. -/
def settles (height : Nat) : Option Action → Bool
  | some (.shift _) => true
  | some (.reduce place) =>
    (grammar.rule? place).any fun rule =>
      (climb? rule.key).any fun height' => 3 + height' < 3 * rule.length + height
  | none => false

set_option maxRecDepth 100000 in
theorem settles_checked : ∀ s ∈ table.states, ∀ entry ∈ s.gotos.entries, ∀ t ∈ closers,
    (climb? entry.1).all fun height =>
      settles height ((table.state? entry.2).bind fun above => above.actions.get? t) := by
  decide +kernel

set_option maxRecDepth 100000 in
theorem follow_checked : ∀ t ∈ (grammar.followOf .statement).toList, t ∈ .elseWord :: closers := by
  decide +kernel

/-- The topmost frame of a stack was entered over a key. -/
def Over (key : Nonterminal) (stack : Stack Token NodeKind) : Prop :=
  ∃ frame below, stack.frames = frame :: below ∧
    table.goto? (Stack.top ⟨stack.start, below⟩) key = some frame.state

theorem over_push {key : Nonterminal} {stack : Stack Token NodeKind} {target : Nat}
    (goes : table.goto? stack.top key = some target) (node : Tree) :
    Over key (stack.push node target) :=
  ⟨⟨node, target⟩, stack.frames, rfl, goes⟩

/-- What is entered over a statement shifts a closing token or reduces before it. -/
theorem cases_of_over {key : Nonterminal} {height : Nat} {stack : Stack Token NodeKind}
    {t : Terminal} {token : Token} (entered : Over key stack) (climbs : climb? key = some height)
    (closes : t ∈ closers) (kind : token.kind = t.kind) :
    (∃ state, table.actionFor? stack.top token = some (t, .shift state)) ∨
      ∃ place rule height', table.actionFor? stack.top token = some (t, .reduce place) ∧
        grammar.rule? place = some rule ∧ climb? rule.key = some height' ∧
        3 + height' < 3 * rule.length + height := by
  obtain ⟨start, frames⟩ := stack
  obtain ⟨frame, below, rfl, goes⟩ := entered
  rw [Table.goto?, Option.bind_eq_some_iff] at goes
  obtain ⟨s, isState, isGoto⟩ := goes
  have settled := settles_checked s (List.mem_of_getElem? isState) (key, frame.state)
    (SortedMap.mem_entries.mpr isGoto) t closes
  have accepts : (grammar.alphabet t).accepts token = true := decide_eq_true kind
  rw [climbs, Option.all_some] at settled
  cases acts : (table.state? frame.state).bind fun above => above.actions.get? t with
  | none =>
    rw [acts] at settled
    cases settled
  | some action =>
    rw [acts] at settled
    obtain ⟨above, isAbove, acts⟩ := Option.bind_eq_some_iff.mp acts
    have found := Table.actionFor?_of_get? automaton distinct isAbove acts accepts
    cases action with
    | shift state => exact .inl ⟨state, found⟩
    | reduce place =>
      obtain ⟨rule, isRule, settled⟩ := (Option.any_eq_true _ _).mp settled
      obtain ⟨height', climbs', less⟩ := (Option.any_eq_true _ _).mp settled
      exact .inr ⟨place, rule, height', found, isRule, climbs', of_decide_eq_true less⟩

variable {goal : NodeKind} {m m' : Machine Token NodeKind} {token : Token} {rest : List Token}

/-- Before a closing token such a parser shifts or reduces, and a reduction leaves it before
the token in the same way, but nearer to the shift. -/
theorem step_of_over {key : Nonterminal} {height : Nat} {t : Terminal}
    (footed : table.Footed m.stack) (entered : Over key m.stack) (climbs : climb? key = some height)
    (input : m.input = token :: rest) (closes : t ∈ closers) (kind : token.kind = t.kind) :
    (∃ state, table.move goal m.stack m.input = .shift token state) ∨
      ∃ m' key' height', table.step goal m = .next m' ∧ m'.input = m.input ∧
        m'.diagnostics = m.diagnostics ∧ Over key' m'.stack ∧ climb? key' = some height' ∧
        3 * m'.stack.frames.length + height' < 3 * m.stack.frames.length + height := by
  rcases cases_of_over entered climbs closes kind with
    ⟨state, acts⟩ | ⟨place, rule, height', acts, found, climbs', less⟩
  · refine .inl ⟨state, ?_⟩
    rw [input]
    exact Table.move_of_actionFor?_shift acts
  · rw [← automaton.grammar] at found
    have moves : table.move goal m.stack m.input = .reduce place rule := by
      rw [input]
      exact Table.move_of_actionFor?_reduce acts found
    obtain ⟨enough, ⟨target, goes⟩ | ⟨isStart, _⟩⟩ := footed.reduction automaton moves
    · obtain ⟨m', next, stack, same, diagnostics⟩ :=
        Table.step_of_reduce moves (Table.reduceStack_of_goto? enough goes)
      refine .inr ⟨m', rule.key, height', next, same, diagnostics, ?_, climbs', ?_⟩
      · rw [stack]
        exact over_push goes _
      · have count : m'.stack.frames.length = m.stack.frames.length - rule.length + 1 := by
          rw [stack, Stack.push, List.length_cons, Stack.drop, List.length_drop]
        omega
    · rw [isStart] at climbs'
      cases climbs'

/-- A parser behind a statement comes to shift the token that closes it, by reductions only. -/
theorem exists_shift_of_over {key : Nonterminal} {height : Nat} {t : Terminal}
    (footed : table.Footed m.stack) (entered : Over key m.stack) (climbs : climb? key = some height)
    (input : m.input = token :: rest) (closes : t ∈ closers) (kind : token.kind = t.kind) :
    ∃ last state, table.Continues goal m last ∧ last.input = m.input ∧
      last.diagnostics = m.diagnostics ∧
      table.move goal last.stack last.input = .shift token state := by
  -- each reduction leaves fewer frames, or the same frames and a shorter climb
  induction measure : 3 * m.stack.frames.length + height using Nat.strong_induction_on
    generalizing m key height with
  | _ n ih =>
    rcases step_of_over footed entered climbs input closes kind with
      ⟨state, moves⟩ | ⟨m', key', height', next, same, diagnostics, entered', climbs', less⟩
    · exact ⟨m, state, .refl, rfl, rfl, moves⟩
    · have footed' := footed.step next
      obtain ⟨last, state, continues, same', diagnostics', moves⟩ :=
        ih _ (measure ▸ less) footed' entered' climbs' (same.trans input) rfl
      exact ⟨last, state, .head next continues, same'.trans same, diagnostics'.trans diagnostics,
        moves⟩

/-- What cannot go on behind a statement is not before a closing token. -/
theorem not_recover_of_over {key : Nonterminal} {height : Nat} {t : Terminal}
    (entered : Over key m.stack) (climbs : climb? key = some height)
    (input : m.input = token :: rest) (closes : t ∈ closers) (kind : token.kind = t.kind) :
    table.move goal m.stack m.input ≠ .recover := by
  intro moves
  rw [input] at moves
  rcases cases_of_over entered climbs closes kind with
    ⟨state, acts⟩ | ⟨place, rule, height', acts, found, _, _⟩
  · cases (Table.move_of_actionFor?_shift acts).symm.trans moves
  · rw [← automaton.grammar] at found
    cases (Table.move_of_actionFor?_reduce acts found).symm.trans moves

/-! ### Recovery -/

theorem key_of_foothold? {number : Nat} {foothold : Foothold Nonterminal Token NodeKind}
    (found : table.foothold? number = some foothold) : foothold.key = .statement := by
  obtain ⟨entry, member, goes⟩ := List.exists_of_findSome?_eq_some found
  rw [placeholders_table] at member
  obtain rfl := List.mem_singleton.mp member
  obtain ⟨_, _, rfl⟩ := Option.map_eq_some_iff.mp goes
  rfl

/-- A parser that has recovered is behind a statement, and before a token that can come there. -/
theorem over_of_recover (moves : table.move goal m.stack m.input = .recover)
    (next : table.step goal m = .next m') :
    Over .statement m'.stack ∧ ∃ token rest, m'.input = token :: rest ∧
      ∃ t ∈ .elseWord :: closers, token.kind = t.kind := by
  cases Table.effect_of_step next with
  | shift moves' _ _ _ _ _ => cases moves.symm.trans moves'
  | reduce moves' _ _ _ _ _ _ _ => cases moves.symm.trans moves'
  | @recover unwound foothold _ _ _ found stack _ _ resumes =>
    obtain ⟨count, rfl, isFoothold⟩ := Table.of_unwind? found
    have key := key_of_foothold? isFoothold
    obtain ⟨_, goes⟩ := Table.of_foothold? isFoothold
    obtain ⟨token, rest, input, follows⟩ := resumes
    rw [key] at goes follows
    obtain ⟨t, isNext, accepts⟩ := automaton.canFollow_iff.mp follows
    rw [stack]
    exact ⟨over_push goes _, token, rest, input, t,
      follow_checked t (SortedSet.mem_toList.mpr isNext), of_decide_eq_true accepts⟩

/-- A parser that has not got further than its last recovery is before an `else`, or it is
behind a statement and before a token that closes it. -/
def Resuming (m : Machine Token NodeKind) : Prop :=
  m.lastRecovery = some m.input.length → ∃ token rest, m.input = token :: rest ∧
    (token.kind = .keyword .elseWord ∨
      ∃ t ∈ closers, token.kind = t.kind ∧
        ∃ key height, Over key m.stack ∧ climb? key = some height)

theorem resuming_of_recover (moves : table.move goal m.stack m.input = .recover)
    (next : table.step goal m = .next m') : Resuming m' := by
  obtain ⟨entered, token, rest, input, t, follows, kind⟩ := over_of_recover moves next
  refine fun _ => ⟨token, rest, input, ?_⟩
  rcases List.mem_cons.mp follows with rfl | closes
  · exact .inl kind
  · exact .inr ⟨t, closes, kind, .statement, 1, entered, rfl⟩

/-- Before a closing token a reduction leads from one sort of statement to another. -/
theorem Resuming.step (resuming : Resuming m) (ahead : m.Ahead)
    (next : table.step goal m = .next m') : Resuming m' := by
  cases Table.effect_of_step next with
  | shift _ input _ _ _ lastRecovery =>
    intro same
    have before := ahead _ (lastRecovery ▸ same)
    rw [input, List.length_cons] at before
    omega
  | @reduce place target rule moves input _ goes stack _ _ lastRecovery =>
    intro same
    rw [lastRecovery, input] at same
    obtain ⟨token, rest, isInput, onElse | ⟨t, closes, kind, key, height, entered, climbs⟩⟩ :=
      resuming same
    · exact ⟨token, rest, input.trans isInput, .inl onElse⟩
    · refine ⟨token, rest, input.trans isInput, .inr ⟨t, closes, kind, ?_⟩⟩
      rw [isInput] at moves
      rcases cases_of_over entered climbs closes kind with
        ⟨state, acts⟩ | ⟨place', rule', height', acts, found, climbs', _⟩
      · cases (Table.move_of_actionFor?_shift acts).symm.trans moves
      · rw [← automaton.grammar] at found
        injection (Table.move_of_actionFor?_reduce acts found).symm.trans moves with _ sameRule
        subst sameRule
        refine ⟨rule'.key, height', ?_, climbs'⟩
        rw [stack]
        exact over_push goes _
  | recover moves _ _ _ _ _ _ _ => exact resuming_of_recover moves next

/-- What is kept through a run from the start state. -/
structure Steady (m : Machine Token NodeKind) : Prop where
  footed : table.Footed m.stack
  ahead : m.Ahead
  resuming : Resuming m

theorem Steady.step (steady : Steady m) (next : table.step goal m = .next m') : Steady m' where
  footed := steady.footed.step next
  ahead := Table.ahead_of_step steady.ahead next
  resuming := steady.resuming.step steady.ahead next

theorem Steady.continues (steady : Steady m) (continues : table.Continues goal m m') :
    Steady m' := by
  induction continues with
  | refl => exact steady
  | tail _ next ih => exact ih.step next

/-- A parser that is stuck where it has recovered is before an `else`. -/
theorem Steady.stalled (steady : Steady m) (moves : table.move goal m.stack m.input = .recover)
    (input : m.input = token :: rest) (again : m.lastRecovery = some m.input.length) :
    token.kind = .keyword .elseWord := by
  obtain ⟨token', rest', isInput, onElse | ⟨t, closes, kind, key, height, entered, climbs⟩⟩ :=
    steady.resuming again
  · obtain ⟨rfl, _⟩ := List.cons.inj (input.symm.trans isInput)
    exact onElse
  · exact absurd moves (not_recover_of_over entered climbs isInput closes kind)

/-- A diagnostic that recovery made no progress is about an `else` that is next. -/
def OnElse (m : Machine Token NodeKind) (diagnostic : Diagnostic) : Prop :=
  ∀ span, diagnostic = .noProgress span →
    ∃ token rest, m.input = token :: rest ∧ token.kind = .keyword .elseWord ∧ token.span = span

/-- Recovery is given up for want of progress before an `else` only. -/
theorem Steady.givesUp (steady : Steady m) (moves : table.move goal m.stack m.input = .recover)
    (givesUp : table.GivesUp m m') : m.Adds (OnElse m') m' := by
  cases givesUp with
  | exhausted input last => exact ⟨_, rfl, by simp [OnElse]⟩
  | @stalled token rest input again =>
    have onElse := steady.stalled moves input again
    refine ⟨_, rfl, List.forall_mem_cons.mpr ⟨nofun, List.forall_mem_singleton.mpr ?_⟩⟩
    rintro span same
    exact ⟨token, rest, input, onElse, Diagnostic.noProgress.inj same⟩
  | unfounded input progress missing => exact ⟨_, rfl, by simp [OnElse]⟩
  | unfollowed input progress found skips => exact ⟨_, rfl, by simp [OnElse]⟩

/-- So however a run ends, it says so before an `else` only. -/
theorem Steady.ends {outcome : Outcome Token NodeKind} (steady : Steady m)
    (ends : table.Ends goal m outcome m') : m.Adds (OnElse m') m' := by
  cases ends with
  | unfinished => exact .refl m
  | accepted accepts =>
    have performs := Table.performs_step table goal m
    rw [accepts] at performs
    cases performs with
    | accept _ => exact .of_eq rfl
  | aborted aborts =>
    have performs := Table.performs_step table goal m
    rw [aborts] at performs
    cases performs with
    | breakOff _ failed =>
      have reason := Table.abort?_of_reduceStack failed
      refine ⟨_, rfl, List.forall_mem_singleton.mpr fun span same => ?_⟩
      rw [same] at reason
      cases reason
    | giveUp moves givesUp => exact steady.givesUp moves givesUp

/-- From the start state, a parser that recovers before a semicolon or an `end` shifts this
token next, and no error comes before that. So a parse reports that recovery has made no
progress only where the next token is an `else`. -/
theorem resumes_of_parse (fresh : m.stack = .base 0) (unmarked : m.lastRecovery = none)
    (goal : NodeKind) :
    (∀ before after token rest, table.Continues goal m before →
      table.move goal before.stack before.input = .recover →
      table.step goal before = .next after → after.input = token :: rest →
      token.kind = .operator .semicolon ∨ token.kind = .keyword .endWord →
      ∃ last state next, table.Continues goal after last ∧ last.input = after.input ∧
        last.diagnostics = after.diagnostics ∧
        table.move goal last.stack last.input = .shift token state ∧
        table.step goal last = .next next ∧ next.input = rest ∧
        next.diagnostics = after.diagnostics) ∧
    ∀ budget, ∃ added, (table.parse goal budget m).2.diagnostics = m.diagnostics ++ added ∧
      ∀ span, .noProgress span ∈ added →
        ∃ token rest, (table.parse goal budget m).2.input = token :: rest ∧
          token.kind = .keyword .elseWord ∧ token.span = span := by
  have footed : table.Footed m.stack := fresh ▸ Table.footed_base table
  have none : ∀ {left}, m.lastRecovery ≠ some left := by
    intro left is
    cases unmarked.symm.trans is
  have steady : Steady m := ⟨footed, fun _ is => absurd is none, fun is => absurd is none⟩
  constructor
  · intro before after token rest continues moves next input kind
    obtain ⟨t, closes, kind⟩ : ∃ t ∈ closers, token.kind = t.kind := by
      rcases kind with kind | kind
      · exact ⟨.semicolon, by decide, kind⟩
      · exact ⟨.endWord, by decide, kind⟩
    have footed' := ((steady.continues continues).step next).footed
    -- recovery leaves a statement on top, behind which the token is shifted
    obtain ⟨entered, _⟩ := over_of_recover moves next
    obtain ⟨last, state, later, same, diagnostics, shifts⟩ :=
      exists_shift_of_over footed' entered rfl input closes kind
    obtain ⟨m', shifted, _, input', diagnostics'⟩ := Table.step_of_shift shifts
    refine ⟨last, state, m', later, same, diagnostics, shifts, shifted, ?_,
      diagnostics'.trans diagnostics⟩
    rw [input', same, input, List.tail_cons]
  · intro budget
    rw [Table.parse, if_pos (Table.hasStart_of_base automaton fresh)]
    obtain ⟨last, takes, ends⟩ := Table.exists_ends_of_run table goal budget m
    -- only the end of a run can report that there was no progress
    obtain ⟨added, same, _, goesOn⟩ := takes.balances.reports
    obtain ⟨added', same', onElse⟩ := (steady.continues takes.continues).ends ends
    refine ⟨added ++ added', by rw [same', same, List.append_assoc], fun span member => ?_⟩
    rcases List.mem_append.mp member with early | late
    · cases goesOn _ early
    · exact onElse _ late span rfl

/-- The tokens of `program p; begin while a < b do if a < b then x := ) ; while a < b do
x := * else ; y := 1 end.`, by their kinds. -/
def stray : List Token :=
  [Terminal.programWord, .identifier, .semicolon, .beginWord, .whileWord, .identifier, .less,
    .identifier, .doWord, .ifWord, .identifier, .less, .identifier, .thenWord, .identifier, .assign,
    .rightParen, .semicolon, .whileWord, .identifier, .less, .identifier, .doWord, .identifier,
    .assign, .star, .elseWord, .semicolon, .identifier, .assign, .integer, .endWord,
    .dot].map fun t => ⟨t.kind, t.name, default⟩

/-- A parser that is to read them. -/
def strayMachine : Machine Token NodeKind := { stack := .base 0, input := stray }

set_option maxRecDepth 100000 in
/-- Inside a loop and a condition the parser recovers before a semicolon, and goes on with it.
Later it recovers before an `else` that has no `if`, and fails there. -/
theorem resumes_stray : strayMachine.stack = .base 0 ∧ strayMachine.lastRecovery = none ∧
    (∃ before after token rest last state, table.Continues .program strayMachine before ∧
      table.move .program before.stack before.input = .recover ∧
      table.step .program before = .next after ∧ after.input = token :: rest ∧
      token.kind = .operator .semicolon ∧ table.Continues .program after last ∧
      last.diagnostics = after.diagnostics ∧
      table.move .program last.stack last.input = .shift token state) ∧
    .noProgress default ∈ (table.parse .program 64 strayMachine).2.diagnostics ∧
    ∃ token rest, (table.parse .program 64 strayMachine).2.input = token :: rest ∧
      token.kind = .keyword .elseWord := by
  have fresh : strayMachine.stack = .base 0 := rfl
  have unmarked : strayMachine.lastRecovery = none := rfl
  have ran : let before := (table.run .program 26 strayMachine).2
      (table.run .program 26 strayMachine).1 = .unfinished ∧
        (table.move .program before.stack before.input).recovers = true ∧
        (table.run .program 1 before).1 = .unfinished ∧
        (table.run .program 1 before).2.input.head?.map Token.kind =
          some (.operator .semicolon) ∧
        .noProgress default ∈ (table.parse .program 64 strayMachine).2.diagnostics := by
    decide +kernel
  obtain ⟨goesOn, recovers, one, kind, reported⟩ := ran
  obtain ⟨resumes, stuck⟩ := resumes_of_parse fresh unmarked .program
  have continues := Table.continues_of_run goesOn
  have moves := Move.eq_recover recovers
  have next := Table.step_of_run_one one
  refine ⟨fresh, unmarked, ?_, reported, ?_⟩
  · obtain ⟨token, isHead, isSemicolon⟩ := Option.map_eq_some_iff.mp kind
    obtain ⟨rest, input⟩ := List.head?_eq_some_iff.mp isHead
    obtain ⟨last, state, _, later, _, same, shifts, _⟩ :=
      resumes _ _ token rest continues moves next input (.inl isSemicolon)
    exact ⟨_, _, token, rest, last, state, continues, moves, next, input, isSemicolon, later, same,
      shifts⟩
  · obtain ⟨added, same, onElse⟩ := stuck 64
    rw [same] at reported
    obtain ⟨token, rest, input, isElse, _⟩ := onElse default reported
    exact ⟨token, rest, input, isElse⟩

end ShiftReduce.Pascal
