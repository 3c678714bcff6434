/-
  The accounts of a parse: its statistics and its diagnostics against its input.

  A step that goes on keeps the balance between the tokens that are counted and those that
  are gone from the input, and between the recoveries and the diagnostics
  (`Machine.Balances`). A parse that is given up reports one or two diagnostics more, by
  what it fails at (`Abort.reports`), and only where no token can follow it clears an input
  that it does not count.
-/
import ShiftReduce.Proofs.Parser.Safety

namespace ShiftReduce

variable {T N : Type}

/-! ### What a parse fails at -/

/-- What a parse fails at. -/
inductive Abort where
  /-- The state to start in is none of the table. -/
  | start
  /-- A reduction lacks its nodes or its goto. -/
  | reduction
  /-- Recovery is given up. -/
  | recovery
deriving DecidableEq, Repr

/-- How many diagnostics a failure adds. -/
def Abort.reports : Abort → Nat
  | start => 1
  | reduction => 1
  | recovery => 2

/-- What the parse has failed at, if a diagnostic says so. -/
def Diagnostic.abort? : Diagnostic → Option Abort
  | .unexpectedToken .. => none
  | .unexpectedEnd .. => none
  | .unknownStart .. => some .start
  | .emptyStack => some .start
  | .underflow .. => some .reduction
  | .noGoto .. => some .reduction
  | .inputExhausted => some .recovery
  | .noProgress .. => some .recovery
  | .noRecoverableState .. => some .recovery
  | .noFollowableInput .. => some .recovery
  | .noPlaceholder .. => some .recovery

/-- The last diagnostic of an aborted parse. -/
def Outcome.reason? : Outcome T N → Option Diagnostic
  | aborted diagnostics => diagnostics.getLast?
  | _ => none

/-- What an aborted parse has failed at. -/
def Outcome.abort? (outcome : Outcome T N) : Option Abort := outcome.reason?.bind Diagnostic.abort?

/-! ### Balances -/

namespace Machine

/-- The number of tokens that some recoveries have skipped. -/
def skipped (recovered : List (Machine T N × Machine T N)) : Nat :=
  (recovered.map fun step => step.1.input.length - step.2.input.length).sum

/-- `m.Balances recovered m'` says that the counts of `m'` are those of `m`, brought up to date
with the input and the diagnostics by a run with these recoveries. -/
structure Balances (m : Machine T N) (recovered : List (Machine T N × Machine T N))
    (m' : Machine T N) : Prop where
  input : m'.input <:+ m.input
  /-- A token is counted when it is taken from the input. -/
  taken : m'.stats.tokens + m'.input.length = m.stats.tokens + m.input.length
  /-- It is shifted, or else it is skipped. -/
  read : m'.stats.tokens + m.stats.shifts = m.stats.tokens + m'.stats.shifts + skipped recovered
  recoveries : m'.stats.recoveries = m.stats.recoveries + recovered.length
  /-- A recovery adds one diagnostic, which is not the end, and nothing else does. -/
  reports : ∃ added, m'.diagnostics = m.diagnostics ++ added ∧ added.length = recovered.length ∧
    ∀ diagnostic ∈ added, diagnostic.abort? = none

/-- `m.Closes abort m'` says that `m'` is `m` with the reports of a failure. The input stays as
it is, or is cleared for want of a token that can follow. -/
structure Closes (m : Machine T N) (abort : Abort) (m' : Machine T N) : Prop where
  stats : m'.stats = m.stats
  reports : ∃ before reason, m'.diagnostics = m.diagnostics ++ (before ++ [reason]) ∧
    reason.abort? = some abort ∧ before.length + 1 = abort.reports ∧
    ((m'.input = m.input ∧ ∀ key span, reason ≠ .noFollowableInput key span) ∨
      (m'.input = [] ∧ m.input ≠ [] ∧ ∃ key span, reason = .noFollowableInput key span))

variable {m m' m'' : Machine T N} {recovered later : List (Machine T N × Machine T N)}

theorem Balances.refl (m : Machine T N) : m.Balances [] m :=
  ⟨List.suffix_rfl, rfl, rfl, rfl, [], (List.append_nil _).symm, rfl, nofun⟩

theorem Balances.trans (front : m.Balances recovered m') (back : m'.Balances later m'') :
    m.Balances (recovered ++ later) m'' := by
  have taken := front.taken
  have read := front.read
  have recoveries := front.recoveries
  have taken' := back.taken
  have read' := back.read
  have recoveries' := back.recoveries
  obtain ⟨added, same, count, goes⟩ := front.reports
  obtain ⟨added', same', count', goes'⟩ := back.reports
  have sum : skipped (recovered ++ later) = skipped recovered + skipped later := by
    rw [skipped, List.map_append, List.sum_append, skipped, skipped]
  refine ⟨back.input.trans front.input, by omega, by omega, ?_, added ++ added', ?_, ?_, ?_⟩
  · rw [List.length_append]
    omega
  · rw [same', same, List.append_assoc]
  · rw [List.length_append, List.length_append, count, count']
  · exact List.forall_mem_append.mpr ⟨goes, goes'⟩

theorem Closes.abort?_eq {abort : Abort} (closes : m.Closes abort m') :
    (Outcome.aborted m'.diagnostics : Outcome T N).abort? = some abort := by
  obtain ⟨before, reason, reported, isAbort, _⟩ := closes.reports
  rw [Outcome.abort?, Outcome.reason?, reported, ← List.append_assoc, List.getLast?_concat]
  exact isAbort

end Machine

variable {τ κ : Type} [Ordered τ] [Ordered κ] [DecidableEq κ] [DecidableEq N] [Named κ] [Token T]

namespace Table

variable {table : Table τ κ T N} {goal : N} {m m' : Machine T N}

omit [DecidableEq κ] [Named κ] [Token T] in
theorem recoveriesOf_cons (step : Machine T N × Machine T N)
    (steps : List (Machine T N × Machine T N)) :
    table.recoveriesOf goal (step :: steps) =
      table.recoveriesOf goal [step] ++ table.recoveriesOf goal steps :=
  List.filter_append [step] steps

/-- A step that goes on keeps the balance. -/
theorem balances_of_step (next : table.step goal m = .next m') :
    m.Balances (table.recoveriesOf goal [(m, m')]) m' := by
  have performs := performs_step table goal m
  rw [next] at performs
  cases performs with
  | @shift token rest state moves input =>
    have none : (table.move goal m.stack m.input).recovers = false := by rw [moves]; rfl
    have shorter : m.input.length = rest.length + 1 := by rw [input, List.length_cons]
    rw [recoveriesOf, List.filter_singleton, none]
    refine ⟨?_, ?_, ?_, rfl, [], (List.append_nil _).symm, rfl, nofun⟩
    · rw [input]
      exact List.suffix_cons token rest
    · show m.stats.tokens + 1 + rest.length = m.stats.tokens + m.input.length
      omega
    · show m.stats.tokens + 1 + m.stats.shifts = m.stats.tokens + (m.stats.shifts + 1) + 0
      omega
  | reduce moves _ =>
    have none : (table.move goal m.stack m.input).recovers = false := by rw [moves]; rfl
    rw [recoveriesOf, List.filter_singleton, none]
    exact ⟨List.suffix_rfl, rfl, rfl, rfl, [], (List.append_nil _).symm, rfl, nofun⟩
  | @recover token rest left unwound foothold moves input _ _ skips _ =>
    have recovers : (table.move goal m.stack m.input).recovers = true := by rw [moves]; rfl
    have suffix : left <:+ m.input := by
      rw [← skips]
      exact List.dropWhile_suffix _
    have shorter := suffix.length_le
    rw [recoveriesOf, List.filter_singleton, recovers]
    refine ⟨suffix, ?_, ?_, rfl, _, rfl, rfl, List.forall_mem_singleton.mpr rfl⟩
    · show m.stats.tokens + (m.input.length - left.length) + left.length =
        m.stats.tokens + m.input.length
      omega
    · show m.stats.tokens + (m.input.length - left.length) + m.stats.shifts =
        m.stats.tokens + m.stats.shifts + (m.input.length - left.length + 0)
      omega

/-- So does a run as far as it goes on. -/
theorem Takes.balances {steps : List (Machine T N × Machine T N)}
    (takes : table.Takes goal m steps m') : m.Balances (table.recoveriesOf goal steps) m' := by
  induction takes with
  | nil m => exact .refl m
  | cons first _ ih =>
    rw [recoveriesOf_cons]
    exact (balances_of_step first).trans ih

/-! ### Failures -/

/-- `table.Fails goal m abort` says that a run from the machine `m` fails, and what at. -/
inductive Fails (table : Table τ κ T N) (goal : N) (m : Machine T N) : Abort → Prop
  | start (unknown : table.hasStart m = false) : table.Fails goal m .start
  | reduction {last : Machine T N} {place : Nat} {rule : Rule τ κ T N} {diagnostic : Diagnostic}
      (continues : table.Continues goal m last)
      (moves : table.move goal last.stack last.input = .reduce place rule)
      (failed : table.reduceStack rule last.stack = .error diagnostic) :
      table.Fails goal m .reduction
  | recovery {last m' : Machine T N} (continues : table.Continues goal m last)
      (moves : table.move goal last.stack last.input = .recover)
      (givesUp : table.GivesUp last m') : table.Fails goal m .recovery

omit [DecidableEq N] in
theorem abort?_of_reduceStack {rule : Rule τ κ T N} {stack : Stack T N} {diagnostic : Diagnostic}
    (failed : table.reduceStack rule stack = .error diagnostic) :
    diagnostic.abort? = some .reduction := by
  unfold reduceStack at failed
  dsimp only at failed
  split at failed
  · rw [← Except.error.inj failed]
    rfl
  · split at failed
    · cases failed
    · rw [← Except.error.inj failed]
      rfl

omit [DecidableEq N] in
theorem GivesUp.closes (givesUp : table.GivesUp m m') : m.Closes .recovery m' := by
  cases givesUp with
  | exhausted input last => exact ⟨rfl, [_], _, rfl, rfl, rfl, .inl ⟨rfl, nofun⟩⟩
  | stalled input again => exact ⟨rfl, [_], _, rfl, rfl, rfl, .inl ⟨rfl, nofun⟩⟩
  | unfounded input progress missing => exact ⟨rfl, [_], _, rfl, rfl, rfl, .inl ⟨rfl, nofun⟩⟩
  | unfollowed input progress found skips =>
    have some : m.input ≠ [] := by
      rw [input]
      exact List.cons_ne_nil _ _
    exact ⟨rfl, [_], _, rfl, rfl, rfl, .inr ⟨rfl, some, _, _, rfl⟩⟩

/-- A step that aborts fails at a reduction or gives recovery up. -/
theorem exists_closes_of_aborted {last : Machine T N} (continues : table.Continues goal m last)
    (aborts : table.step goal last = .aborted m') :
    ∃ abort, table.Fails goal m abort ∧ last.Closes abort m' := by
  have performs := performs_step table goal last
  rw [aborts] at performs
  cases performs with
  | @breakOff place rule diagnostic moves failed =>
    have reason := abort?_of_reduceStack failed
    have kept : ∀ key span, diagnostic ≠ .noFollowableInput key span := by
      rintro key span rfl
      cases reason
    exact ⟨.reduction, .reduction continues moves failed, rfl, [], _, rfl, reason, rfl,
      .inl ⟨rfl, kept⟩⟩
  | giveUp moves givesUp => exact ⟨.recovery, .recovery continues moves givesUp, givesUp.closes⟩

/-! ### Whole parses -/

/-- What a parse of `m` leaves is accounted for. The diagnostics are the earlier ones and then
one for each recovery, and as many as the failure has where the parse fails. The tokens that
are counted are those that were shifted and those that recoveries have skipped, and these are
the tokens that are gone from the input, unless recovery has failed because no token could
follow. -/
structure Accounts (table : Table τ κ T N) (goal : N) (m : Machine T N)
    (recovered : List (Machine T N × Machine T N)) (outcome : Outcome T N) (last : Machine T N) :
    Prop where
  input : last.input <:+ m.input
  read : last.stats.tokens + m.stats.shifts =
    m.stats.tokens + last.stats.shifts + Machine.skipped recovered
  recoveries : last.stats.recoveries = m.stats.recoveries + recovered.length
  taken : last.stats.tokens + last.input.length = m.stats.tokens + m.input.length ↔
    ∀ key span, outcome.reason? ≠ some (.noFollowableInput key span)
  reports : ∃ added, last.diagnostics = m.diagnostics ++ added ∧
    match outcome with
    | .accepted _ => added.length = recovered.length ∧ last.input = [] ∧
        last.stats.tokens = m.stats.tokens + m.input.length
    | .aborted diagnostics => diagnostics = last.diagnostics ∧
        ∃ abort reason, table.Fails goal m abort ∧ added.getLast? = some reason ∧
          reason.abort? = some abort ∧ added.length = recovered.length + abort.reports
    | .unfinished => added.length = recovered.length

/-- A machine that a run has come to by steps that go on. -/
theorem accounts_of_ends {recovered : List (Machine T N × Machine T N)} {last : Machine T N}
    {outcome : Outcome T N} (continues : table.Continues goal m last)
    (balances : m.Balances recovered last) (ends : table.Ends goal last outcome m') :
    table.Accounts goal m recovered outcome m' := by
  obtain ⟨input, taken, read, recoveries, added, same, count, _⟩ := balances
  cases ends with
  | unfinished => exact ⟨input, read, recoveries, iff_of_true taken nofun, added, same, count⟩
  | @accepted tree _ accepts =>
    have performs := performs_step table goal last
    rw [accepts] at performs
    cases performs with
    | accept moves =>
      have done : last.input = [] := by
        cases isInput : last.input with
        | nil => rfl
        | cons token rest =>
          rw [isInput] at moves
          exact absurd moves (moveOn_ne_accept _)
      have counted := taken
      rw [done] at counted
      exact ⟨input, read, recoveries, iff_of_true taken nofun, added, same, count, done, counted⟩
  | aborted aborts =>
    obtain ⟨abort, fails, stats, before, reason, reported, isAbort, reports, closes⟩ :=
      exists_closes_of_aborted continues aborts
    have isReason : (Outcome.aborted m'.diagnostics : Outcome T N).reason? = some reason := by
      rw [Outcome.reason?, reported, ← List.append_assoc, List.getLast?_concat]
    have suffix : m'.input <:+ last.input := by
      rcases closes with ⟨kept, _⟩ | ⟨cleared, _, _⟩
      · rw [kept]
      · rw [cleared]
        exact List.nil_suffix
    refine ⟨suffix.trans input, by rw [stats]; exact read, by rw [stats]; exact recoveries, ?_,
      added ++ (before ++ [reason]), by rw [reported, same, List.append_assoc], rfl, abort, reason,
      fails, ?_, isAbort, ?_⟩
    · rw [isReason, stats]
      rcases closes with ⟨kept, other⟩ | ⟨cleared, some, key, span, isUnfollowed⟩
      · refine iff_of_true (by rw [kept]; exact taken) fun key span is => ?_
        exact other key span (Option.some.inj is)
      · -- the tokens that are cleared are not counted
        have left := List.length_pos_iff.mpr some
        refine iff_of_false ?_ fun other => other key span (congrArg _ isUnfollowed)
        rw [cleared, List.length_nil]
        omega
    · rw [← List.append_assoc, List.getLast?_concat]
    · rw [List.length_append, List.length_append, List.length_singleton, count, reports]

theorem accounts_of_run (table : Table τ κ T N) (goal : N) (budget : Nat) (m : Machine T N) :
    table.Accounts goal m (table.recoveriesOf goal (table.course goal budget m))
      (table.run goal budget m).1 (table.run goal budget m).2 := by
  obtain ⟨last, takes, ends⟩ := exists_ends_of_run table goal budget m
  exact accounts_of_ends takes.continues takes.balances ends

theorem accounts_of_unknown (goal : N) (unknown : table.hasStart m = false) :
    table.Accounts goal m [] (.aborted (m.report (.unknownStart m.stack.start)).diagnostics)
      (m.report (.unknownStart m.stack.start)) := by
  have isReason : (Outcome.aborted (m.report (.unknownStart m.stack.start)).diagnostics :
      Outcome T N).reason? = some (.unknownStart m.stack.start) := List.getLast?_concat
  refine ⟨List.suffix_rfl, rfl, rfl, iff_of_true rfl fun key span is => ?_, [_], rfl, rfl, .start,
    _, .start unknown, rfl, rfl, rfl⟩
  cases isReason.symm.trans is

/-- There are at most two diagnostics that are not of a recovery. -/
theorem Accounts.exists_added {recovered : List (Machine T N × Machine T N)}
    {outcome : Outcome T N} (accounts : table.Accounts goal m recovered outcome m') :
    ∃ added, m'.diagnostics = m.diagnostics ++ added ∧ added.length ≤ recovered.length + 2 := by
  obtain ⟨added, same, ends⟩ := accounts.reports
  refine ⟨added, same, ?_⟩
  split at ends
  · have counted := ends.1
    omega
  · obtain ⟨_, abort, _, _, _, _, counted⟩ := ends
    have two : abort.reports ≤ 2 := by cases abort <;> decide
    omega
  · omega

/-- What a parse leaves is accounted for by what it was given and by its recoveries. -/
theorem accounts_of_parse (table : Table τ κ T N) (goal : N) (budget : Nat) (m : Machine T N) :
    table.Accounts goal m (table.recoveries goal budget m) (table.parse goal budget m).1
      (table.parse goal budget m).2 := by
  rw [recoveries, parse]
  by_cases starts : table.hasStart m = true
  · rw [if_pos starts, if_pos starts]
    exact accounts_of_run table goal budget m
  · rw [if_neg starts, if_neg starts]
    exact accounts_of_unknown goal (Bool.eq_false_iff.mpr starts)

end Table

end ShiftReduce
