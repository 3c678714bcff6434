/-
  A parse with recoveries is a clean parse of the tokens that it keeps.

  A parser looks at the first token to come and no further. So what stands on the
  stack up to its last token was read without a look at what comes behind, and is
  read in the same way if something else comes there (`Table.Replayed`). If
  recoveries are made only right behind a token, and the parser also reads the
  spare derivation by itself where it was put in place (`Table.Seamless`), the
  tokens that were skipped leave no trace: the parser comes to the same stack from
  the others, without an error (`exists_readsIn_of_mends`).
-/
import ShiftReduce.Proofs.Parser.Mending
import ShiftReduce.Proofs.Precedence.Settled

namespace ShiftReduce

variable {τ κ T N : Type}

namespace Reading

/-- Nothing stands above the last token on the stack. -/
def Open (frames : List (Derivation τ κ T N × Nat)) : Prop :=
  ∀ frame ∈ frames.head?, ∃ entry, frame.1 = .leaf entry

end Reading

variable [Ordered τ] [Ordered κ]

namespace Table

section Moves

variable [DecidableEq N] {table : Table τ κ T N} {goal : N}

/-- A move depends on the first token only. -/
theorem move_congr (stack : Stack T N) {input input' : List T} (same : input.head? = input'.head?) :
    table.move goal stack input = table.move goal stack input' := by
  cases input with
  | nil =>
    rw [List.head?_nil, eq_comm, List.head?_eq_none_iff] at same
    rw [same]
  | cons token rest =>
    obtain ⟨rest', rfl⟩ := List.head?_eq_some_iff.mp same.symm
    rfl

end Moves

variable [DecidableEq τ] [DecidableEq κ] [DecidableEq N] {g : Grammar τ κ T N} {start : κ}
  {table : Table τ κ T N} {spare : κ → Derivation τ κ T N} {goal : N} {tokens : List T}
  {r r' : Reading τ κ T N}

/-- Recoveries are seamless if they are made behind tokens only, and if the parser reads the
spare derivation of a key, without an error, before every token at which it is put in place. -/
structure Seamless (table : Table τ κ T N) (spare : κ → Derivation τ κ T N) (goal : N) : Prop where
  opens : ∀ {frames : List (Derivation τ κ T N × Nat)} {key : κ} {target : Nat},
    table.Walked frames → (spare key).root = .nonterminal key →
    table.goto? (Reading.topState frames) key = some target → Reading.Open frames
  reads : ∀ {frames : List (Derivation τ κ T N × Nat)} {key : κ} {target : Nat} {token : T}
    (rest : List T), table.Walked frames → (spare key).root = .nonterminal key →
    table.goto? (Reading.topState frames) key = some target → table.canFollow key token = true →
    ∃ n, table.ReadsIn goal n ⟨frames, token :: rest⟩ ⟨(spare key, target) :: frames, token :: rest⟩

/-- The parser comes to the frames of a reading from their tokens alone, with any input that
begins as that of the reading, and to the frames up to a token with any input at all. -/
structure Replayed (table : Table τ κ T N) (goal : N) (r : Reading τ κ T N) : Prop where
  frames : ∀ rest, rest.head? = r.input.head? →
    ∃ n, table.ReadsIn goal n ⟨[], Reading.spelled r.frames ++ rest⟩ ⟨r.frames, rest⟩
  opened : ∀ count rest, Reading.Open (r.frames.drop count) →
    ∃ n, table.ReadsIn goal n ⟨[], Reading.spelled (r.frames.drop count) ++ rest⟩
      ⟨r.frames.drop count, rest⟩

omit [DecidableEq τ] in
theorem replayed_start (table : Table τ κ T N) (goal : N) (tokens : List T) :
    table.Replayed goal ⟨[], tokens⟩ where
  frames rest _ := ⟨0, .refl _⟩
  opened count rest _ := by
    rw [List.drop_nil]
    exact ⟨0, .refl _⟩

/-! ### Tokens ahead -/

/-- Where a key is expected, a rule that has no text for it is reduced before every token that
can come behind the key, unless it yields to the terminal. -/
theorem reads_empty (built : g.Automaton start table) (distinct : g.Distinct) {place : Nat}
    {rule : Rule τ κ T N} (found : g.rule? place = some rule) (blank : rule.length = 0)
    (keeps : ∀ t, ¬ table.Decides true rule t) {frames : List (Derivation τ κ T N × Nat)}
    (walked : table.Walked frames) {target : Nat}
    (goes : table.goto? (Reading.topState frames) rule.key = some target) {token : T}
    (resumes : table.canFollow rule.key token = true) (rest : List T) :
    table.Reads goal ⟨frames, token :: rest⟩ ⟨(.branch rule [], target) :: frames, token :: rest⟩ := by
  obtain ⟨t, behind, accepted⟩ := built.canFollow_iff.mp resumes
  -- the state that goes on at the key has predicted the rule
  obtain ⟨s, isState, reached⟩ := walked.reaches built
  have next : s.next? (.nonterminal rule.key) = some target := by
    rw [goto?, isState] at goes
    exact goes
  obtain ⟨_, item, member, expected⟩ := built.of_next? isState next
  have predicted : (⟨place, 0⟩ : Item) ∈ s.items :=
    reached.predictive item member _ (g.mem_predicted.mpr
      ⟨rule.key, expected, g.mem_startItems.mpr ⟨rfl, rule, found, rfl⟩⟩)
  have upcoming : g.Upcoming [(t, token)] := by
    intro entry inside
    obtain rfl := List.mem_singleton.mp inside
    exact ⟨accepted, Grammar.mem_terminalOccurrences_of_mem_follow behind⟩
  have ending : [(t, token)] = [] → table.Single ∧ Reading.Quiet goal ([] ++ frames) :=
    fun isNil => absurd isNil (List.cons_ne_nil _ _)
  have count : ([] : List (Derivation τ κ T N × Nat)).length = rule.length := blank.symm
  refine (reads_reduction built distinct found count isState (blank.symm ▸ predicted) ending upcoming
    ?_ ?_ goes).append (List.cons_ne_nil token []) rest
  · intro _ _ r isResolution _ held
    by_contra shifts
    rw [Bool.not_eq_false] at shifts
    exact keeps r.terminal ⟨_, s, r, isState, isResolution, built.grammar ▸ held, rfl, shifts⟩
  · intro u isNext
    obtain rfl : t = u := Option.some.inj isNext
    exact behind

/-! ### Steps -/

omit [DecidableEq τ] in
/-- A token that is shifted is shifted whatever comes behind it. -/
theorem Replayed.shift {frames : List (Derivation τ κ T N × Nat)} {token : T} {rest : List T}
    (replayed : table.Replayed goal ⟨frames, token :: rest⟩) {t : τ} {target : Nat}
    (acts : table.actionFor? (Reading.topState frames) token = some (t, .shift target)) :
    table.Replayed goal ⟨(.leaf (t, token), target) :: frames, rest⟩ := by
  have anew : ∀ rest' : List T, ∃ n, table.ReadsIn goal n
      ⟨[], Reading.spelled ((.leaf (t, token), target) :: frames) ++ rest'⟩
      ⟨(.leaf (t, token), target) :: frames, rest'⟩ := by
    intro rest'
    obtain ⟨n, reads⟩ := replayed.frames (token :: rest') rfl
    rw [Reading.spelled_cons, List.append_assoc]
    exact ⟨n + 1, reads.trans (.step (.shift acts) (.refl _))⟩
  refine ⟨fun rest' _ => anew rest', fun count rest' isOpen => ?_⟩
  cases count with
  | zero => exact anew rest'
  | succ count => exact replayed.opened count rest' isOpen

omit [DecidableEq τ] in
/-- A reduction is made before every input that begins in the same way. -/
theorem Replayed.reduce {frames : List (Derivation τ κ T N × Nat)} {input : List T}
    (replayed : table.Replayed goal ⟨frames, input⟩) {place target : Nat} {rule : Rule τ κ T N}
    (moves : table.move goal (Reading.stack ⟨frames, input⟩) input = .reduce place rule)
    (enough : rule.length ≤ frames.length)
    (goes : table.goto? (Reading.topState (frames.drop rule.length)) rule.key = some target) :
    table.Replayed goal ⟨(.branch rule (Reading.topmost frames rule.length), target) ::
      frames.drop rule.length, input⟩ := by
  refine ⟨fun rest begins => ?_, fun count rest isOpen => ?_⟩
  · obtain ⟨n, reads⟩ := replayed.frames rest begins
    rw [Reading.spelled_reduced]
    rw [← move_congr _ begins] at moves
    exact ⟨n + 1, reads.trans (.step (.reduce moves enough goes) (.refl _))⟩
  · cases count with
    | zero =>
      -- a branch on top is no token
      obtain ⟨entry, isLeaf⟩ := isOpen _ rfl
      cases isLeaf
    | succ count =>
      have below : ((.branch rule (Reading.topmost frames rule.length), target) ::
          frames.drop rule.length).drop (count + 1) = frames.drop (rule.length + count) := by
        rw [List.drop_succ_cons, List.drop_drop]
      simp only [below] at isOpen ⊢
      exact replayed.opened (rule.length + count) rest isOpen

/-- What a recovery puts in place is read by the parser itself. -/
theorem Replayed.recover {frames : List (Derivation τ κ T N × Nat)} {input rest : List T}
    (replayed : table.Replayed goal ⟨frames, input⟩) (seamless : table.Seamless spare goal)
    (empty : ∀ key, (spare key).tokens = []) {token : T} {key : κ} {target : Nat} (count : Nat)
    (walked : table.Walked (frames.drop count)) (root : (spare key).root = .nonterminal key)
    (goes : table.goto? (Reading.topState (frames.drop count)) key = some target)
    (resumes : table.canFollow key token = true) :
    table.Replayed goal ⟨(spare key, target) :: frames.drop count, token :: rest⟩ := by
  refine ⟨fun input' begins => ?_, fun more rest' isOpen => ?_⟩
  · obtain ⟨rest', rfl⟩ := List.head?_eq_some_iff.mp begins
    obtain ⟨n, front⟩ :=
      replayed.opened count (token :: rest') (seamless.opens walked root goes)
    obtain ⟨k, back⟩ := seamless.reads rest' walked root goes resumes
    rw [Reading.spelled_cons, empty, List.append_nil]
    exact ⟨n + k, front.trans back⟩
  · cases more with
    | zero =>
      -- nor is the spare derivation of a key
      obtain ⟨entry, isLeaf⟩ := isOpen _ rfl
      cases root.symm.trans (congrArg Derivation.root isLeaf)
    | succ more =>
      have below : ((spare key, target) :: frames.drop count).drop (more + 1) =
          frames.drop (count + more) := by
        rw [List.drop_succ_cons, List.drop_drop]
      simp only [below] at isOpen ⊢
      exact replayed.opened (count + more) rest' isOpen

/-- Every step of a reading that mends can be replayed. -/
theorem Replayed.mends (seamless : table.Seamless spare goal)
    (empty : ∀ key, (spare key).tokens = []) (sound : table.Sound g tokens r)
    (replayed : table.Replayed goal r) (mends : table.Mends spare goal r r') :
    table.Replayed goal r' := by
  cases mends with
  | reads reads =>
    cases reads with
    | shift acts => exact replayed.shift acts
    | reduce moves enough goes => exact replayed.reduce moves enough goes
  | recover count _ root goes resumes =>
    exact replayed.recover seamless empty count (sound.walked.drop count) root goes resumes

/-! ### Runs -/

/-- The parser comes to the end of a reading that mends from some of the tokens, without an
error. -/
theorem exists_readsIn_of_mends (built : g.Automaton start table)
    (seamless : table.Seamless spare goal)
    (derived : ∀ key, (spare key).root = .nonterminal key → g.IsDerivation (spare key))
    (empty : ∀ key, (spare key).tokens = [])
    (mends : Relation.ReflTransGen (table.Mends spare goal) ⟨[], tokens⟩ r) :
    ∃ kept n, kept.Sublist tokens ∧ table.Sound g kept r ∧ table.ReadsIn goal n ⟨[], kept⟩ r := by
  suffices both : ∃ kept, kept.Sublist tokens ∧ table.Sound g kept r ∧ table.Replayed goal r by
    obtain ⟨kept, isKept, sound, replayed⟩ := both
    obtain ⟨n, reads⟩ := replayed.frames r.input rfl
    have whole : Reading.spelled r.frames ++ r.input = kept := sound.tokens
    rw [whole] at reads
    exact ⟨kept, n, isKept, sound, reads⟩
  induction mends with
  | refl =>
    exact ⟨tokens, List.Sublist.refl _, sound_start table g tokens, replayed_start table goal tokens⟩
  | tail _ last ih =>
    obtain ⟨kept, isKept, sound, replayed⟩ := ih
    obtain ⟨kept', isKept', sound'⟩ := exists_sound_of_mends built derived empty sound last
    exact ⟨kept', isKept'.trans isKept, sound', replayed.mends seamless empty sound last⟩

end Table

end ShiftReduce
