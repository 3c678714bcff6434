/-
  The correct-prefix property: where no resolution interferes, a parser shifts a
  token if and only if some sentence goes on with it.

  What has been read without an error begins a sentence (`begins_of_continues`).
  For the converse, take a sentence that goes on with a terminal. Its rewriting has
  a spine (`Grammar.Spine`), which leads from the start key down to the terminal and
  has derivations of the tokens before on its left. The parser reads these
  derivations, each before a terminal that can come behind it, and shifts the
  terminal (`Spine.exists_readsIn`). So the first token at which an error is reported
  is the first that no sentence goes on with (`correctPrefix_of_table`).
-/
import ShiftReduce.Proofs.Lookahead.Exactness
import ShiftReduce.Proofs.Parser.Completeness
import ShiftReduce.Proofs.Parser.Viable

namespace ShiftReduce

open ContextFreeGrammar (Letter)

variable {τ κ T N : Type}

namespace Grammar

/-! ### Spines -/

/-- `g.Spine t letter left` says that a letter is rewritten to a form that begins
with the terminals of some leaves and then with `t`. Every key on the way to `t` has
derivations of the leaves on its left. -/
inductive Spine (g : Grammar τ κ T N) (t : τ) : Letter τ κ → List (τ × T) → Prop
  | tip : g.Spine t (.terminal t) []
  | branch {rule : Rule τ κ T N} {forest : List (Derivation τ κ T N)} {letter : Letter τ κ}
      {back : List (Letter τ κ)} {left : List (τ × T)} (isRule : rule ∈ g.rules)
      (derived : ∀ D ∈ forest, g.IsDerivation D)
      (body : letters rule.body = forest.map Derivation.letter ++ letter :: back)
      (inner : g.Spine t letter left) :
      g.Spine t (.nonterminal rule.key) (forest.flatMap Tree.leaves ++ left)

variable {g : Grammar τ κ T N} {t : τ} {letter : Letter τ κ} {left : List (τ × T)}

/-- Where a form is rewritten to a word that goes on with a terminal behind accepted
tokens, one of its letters has a spine to the terminal, and those before it have
derivations. -/
theorem exists_spine {form : List (Letter τ κ)} {front tail : List τ} {tokens : List T}
    (derives : g.Derives form (front.map .terminal ++ .terminal t :: tail.map .terminal))
    (accepted : List.Forall₂ (fun t token => (g.alphabet t).accepts token = true) front tokens) :
    ∃ (forest : List (Derivation τ κ T N)) (letter : Letter τ κ) (back : List (Letter τ κ))
      (left : List (τ × T)), (∀ D ∈ forest, g.IsDerivation D) ∧
      form = forest.map Derivation.letter ++ letter :: back ∧ g.Spine t letter left ∧
      forest.flatMap Derivation.tokens ++ left.map Prod.snd = tokens := by
  -- from the word backwards: each rewriting step gathers what its rule has written
  induction derives using Relation.ReflTransGen.head_induction_on with
  | refl =>
    obtain ⟨forest, derived, isFront, same⟩ := exists_leaves accepted
    refine ⟨forest, .terminal t, tail.map .terminal, [], derived, by rw [isFront], .tip, ?_⟩
    rw [List.map_nil, List.append_nil]
    exact same
  | head step _ ih =>
    obtain ⟨forest, letter, back, left, derived, isForm, spine, same⟩ := ih
    obtain ⟨rule, isRule, before, after, rfl, rfl⟩ := step.exists_parts
    rcases exists_of_append_eq isForm with ⟨rest, rfl, rfl⟩ | ⟨inside, behind, body, isFront, rfl⟩ |
      ⟨between, rfl, isFront⟩
    · -- the terminal is found before the rule
      refine ⟨forest, letter, rest ++ [.nonterminal rule.key] ++ after, left, derived, ?_, spine,
        same⟩
      simp
    · -- the terminal is found in the rule, so the spine grows by it
      obtain ⟨outer, inner, rfl, isBefore, isInside⟩ := List.map_eq_append_iff.mp isFront
      rw [List.forall_mem_append] at derived
      rw [← isInside] at body
      refine ⟨outer, .nonterminal rule.key, after, _, derived.1, ?_,
        .branch isRule derived.2 body spine, ?_⟩
      · rw [isBefore]
        simp
      · rw [← same, List.map_append, ← Derivation.tokens_eq_map_leaves, List.flatMap_append,
          List.append_assoc]
    · -- the terminal is found behind the rule, whose letters all have derivations
      obtain ⟨gathered, derived', isFront', same'⟩ := exists_gathered isRule derived isFront
      refine ⟨gathered, letter, back, left, derived', ?_, spine, by rw [same', same]⟩
      rw [isFront']
      simp

/-- Leaves to the left of a letter can be read where all the letters are in the body
of a rule. -/
theorem upcoming_of_letters {rule : Rule τ κ T N} (isRule : rule ∈ g.rules)
    {forest : List (Derivation τ κ T N)} {back : List (Letter τ κ)}
    (used : ∀ inside ∈ forest.map Derivation.letter ++ letter :: back,
      Symbol.ofLetter inside ∈ rule.body)
    (derived : ∀ D ∈ forest, g.IsDerivation D) {rest : List (τ × T)}
    (inner : (∀ u, letter = .terminal u → u ∈ g.terminalOccurrences) → g.Upcoming rest) :
    g.Upcoming (forest.flatMap Tree.leaves ++ rest) := by
  refine .append (upcoming_of_children isRule (fun D isTree => ?_) derived) (inner fun u same => ?_)
  · rw [← Derivation.ofLetter_letter]
    exact used _ (List.mem_append_left _ (List.mem_map_of_mem isTree))
  · refine mem_terminalOccurrences.mpr ⟨rule, isRule, ?_⟩
    exact used (.terminal u) (List.mem_append_right _ (same ▸ List.mem_cons_self))

namespace Spine

theorem derives [DecidableEq τ] [DecidableEq κ] (spine : g.Spine t letter left) :
    ∃ rest, g.Derives [letter] ((left.map Prod.fst).map .terminal ++ .terminal t :: rest) := by
  induction spine with
  | tip => exact ⟨[], .refl⟩
  | @branch rule forest letter back left isRule derived body _ ih =>
    obtain ⟨rest, inner⟩ := ih
    refine ⟨rest ++ back, ?_⟩
    have step := rewrites_of_mem isRule
    rw [body] at step
    have filled := (derives_terminals rule.key derived).append
      (Derives.append (v := back) inner .refl)
    rw [Derivation.terminals_eq_map_leaves] at filled
    refine .head step ?_
    simpa using filled

/-- The first of the leaves up to the terminal begins what the letters up to that of
the spine are rewritten to. -/
theorem exists_derives_head [DecidableEq τ] [DecidableEq κ] (spine : g.Spine t letter left)
    (start : κ) {forest : List (Derivation τ κ T N)} (derived : ∀ D ∈ forest, g.IsDerivation D)
    (back : List (Letter τ κ)) {token : T} {u : τ}
    (first : (forest.flatMap Tree.leaves ++ (left ++ [(t, token)])).head?.map Prod.fst = some u) :
    ∃ rest, g.Derives (forest.map Derivation.letter ++ letter :: back) (.terminal u :: rest) := by
  obtain ⟨rest, inner⟩ := spine.derives
  have whole := (derives_terminals start derived).append (Derives.append (v := back) inner .refl)
  rw [Derivation.terminals_eq_map_leaves] at whole
  have spelled : g.Derives (forest.map Derivation.letter ++ letter :: back)
      (((forest.flatMap Tree.leaves ++ (left ++ [(t, token)])).map Prod.fst).map .terminal ++
        (rest ++ back)) := by
    simpa using whole
  generalize forest.flatMap Tree.leaves ++ (left ++ [(t, token)]) = leaves at first spelled
  cases leaves with
  | nil => cases first
  | cons entry leaves =>
    obtain rfl := Option.some.inj first
    exact ⟨_, spelled⟩

/-- The leaves to the left of a spine can be read, and so can the terminal. -/
theorem upcoming (spine : g.Spine t letter left) {token : T}
    (accepted : (g.alphabet t).accepts token = true)
    (rooted : ∀ u, letter = .terminal u → u ∈ g.terminalOccurrences) :
    g.Upcoming (left ++ [(t, token)]) := by
  induction spine with
  | tip =>
    intro entry member
    obtain rfl := List.mem_singleton.mp member
    exact ⟨accepted, rooted t rfl⟩
  | @branch rule forest letter back left isRule derived body _ ih =>
    rw [List.append_assoc]
    exact upcoming_of_letters isRule (fun inside member => mem_of_mem_letters (body ▸ member))
      derived ih

end Spine

/-! ### Reading a spine -/

/-- A set of items is ready for a letter if some item expects it, where it is a
terminal, or if every rule for it is to be read, where it is a key. -/
def Ready [DecidableEq κ] (g : Grammar τ κ T N) (items : ItemSet) : Letter τ κ → Prop
  | .terminal t => ∃ item ∈ items, g.expected? item = some (.terminal t)
  | .nonterminal key => ∀ item ∈ g.startItems key, item ∈ items

theorem ready_of_expected [DecidableEq κ] {items : ItemSet} (predictive : g.Predictive (· ∈ items))
    {item : Item} (member : item ∈ items)
    (expected : g.expected? item = some (Symbol.ofLetter letter)) : g.Ready items letter := by
  cases letter with
  | terminal t => exact ⟨item, member, expected⟩
  | nonterminal key =>
    intro next isStart
    exact predictive item member next (g.mem_predicted.mpr ⟨key, expected, isStart⟩)

variable [Ordered τ] [Ordered κ] [DecidableEq τ] [DecidableEq κ]

/-- What the rest of a body is rewritten to begins with terminals that come behind
the key before it. -/
theorem mem_follow_of_derives {rule : Rule τ κ T N} (isRule : rule ∈ g.rules) {cursor : Nat}
    {key : κ} (here : rule.body[cursor]? = some (.nonterminal key)) {u : τ}
    {rest : List (Letter τ κ)}
    (derives : g.Derives (letters (rule.body.drop (cursor + 1))) (.terminal u :: rest)) :
    u ∈ g.followOf key := by
  refine mem_follow_of_first isRule (Rule.body_eq_append here) ?_
  rw [← FirstSets.ofForm_letters]
  exact mem_ofForm_iff.mpr ⟨rest, derives⟩

/-- Where the start key occurs in no body, nothing comes behind it. -/
theorem not_mem_followOf_start {start : κ}
    (unused : ∀ rule ∈ g.rules, .nonterminal start ∉ rule.body) (t : τ) :
    t ∉ g.followOf start := by
  have bound : g.FollowBound fun key _ => key ≠ start := by
    constructor
    · rintro rule isRule front inner rest split _ _ rfl
      exact unused rule isRule (split ▸ List.mem_append_right front List.mem_cons_self)
    · rintro rule isRule front inner rest split _ _ _ rfl
      exact unused rule isRule (split ▸ List.mem_append_right front List.mem_cons_self)
  exact fun member => follow_least bound member rfl

end Grammar

variable [Ordered τ] [Ordered κ] [DecidableEq τ] [DecidableEq κ]

namespace Table

variable [DecidableEq N] {g : Grammar τ κ T N} {start : κ} {table : Table τ κ T N} {goal : N}

variable {t : τ} {token : T} {letter : Letter τ κ} {back : List (Letter τ κ)} {left : List (τ × T)}

omit [DecidableEq N] in
/-- Where the cursor of a rule stands before a letter, some item expects it. -/
theorem expected_of_letters (built : g.Automaton start table)
    {frames : List (Derivation τ κ T N × Nat)} (walked : table.Walked frames) {s : State τ κ}
    (isState : table.state? (Reading.topState frames) = some s) {place cursor : Nat}
    {rule : Rule τ κ T N} (found : g.rule? place = some rule)
    (member : (⟨place, cursor⟩ : Item) ∈ s.items)
    (next : (letters rule.body).drop cursor = letter :: back) :
    g.expected? ⟨place, cursor⟩ = some (Symbol.ofLetter letter) ∧
      rule.body[cursor]? = some (Symbol.ofLetter letter) ∧
        letters (rule.body.drop (cursor + 1)) = back := by
  have symbols : rule.symbols.drop cursor =
      Symbol.ofLetter letter :: back.map Symbol.ofLetter := by
    rw [← rule.map_ofLetter_output, ← List.map_drop]
    exact congrArg (List.map Symbol.ofLetter) next
  have here : rule.symbols[cursor]? = some (Symbol.ofLetter letter) := by
    rw [← List.head?_drop, symbols, List.head?_cons]
  obtain ⟨expected, inBody, rest⟩ := expected_of_symbols built walked isState found member here
  refine ⟨expected, inBody, Symbol.ofLetter_injective.list_map ?_⟩
  rw [map_ofLetter_letters, ← rest, ← List.drop_drop, symbols]
  rfl

/-- The derivations to the left of a spine are read one after the other; the cursor
has passed those that are done. -/
theorem exists_readsIn_forest (built : g.Automaton start table) (distinct : g.Distinct)
    (unresolved : ∀ s ∈ table.states, s.resolutions = []) {place : Nat} {rule : Rule τ κ T N}
    (found : g.rule? place = some rule) (spine : g.Spine t letter left)
    (accepted : (g.alphabet t).accepts token = true) (more : List T) {cursor : Nat}
    {forest : List (Derivation τ κ T N)} (derived : ∀ D ∈ forest, g.IsDerivation D)
    (body : (letters rule.body).drop cursor = forest.map Derivation.letter ++ letter :: back)
    {frames : List (Derivation τ κ T N × Nat)} (walked : table.Walked frames) {s : State τ κ}
    (isState : table.state? (Reading.topState frames) = some s)
    (member : (⟨place, cursor⟩ : Item) ∈ s.items) :
    ∃ n frames' s', table.Walked frames' ∧ table.state? (Reading.topState frames') = some s' ∧
      g.Ready s'.items letter ∧
      table.ReadsIn goal n
        ⟨frames, forest.flatMap Derivation.tokens ++ (left.map Prod.snd ++ token :: more)⟩
        ⟨frames', left.map Prod.snd ++ token :: more⟩ := by
  have isRule : rule ∈ g.rules := List.mem_of_getElem? found
  induction forest generalizing cursor frames s with
  | nil =>
    obtain ⟨expected, _, _⟩ := expected_of_letters built walked isState found member body
    obtain ⟨s', isState', reached⟩ := walked.reaches built
    obtain rfl := Option.some.inj (isState.symm.trans isState')
    exact ⟨0, frames, s, walked, isState,
      Grammar.ready_of_expected reached.predictive member expected, .refl _⟩
  | cons c forest ih =>
    rw [List.forall_mem_cons] at derived
    rw [List.map_cons, List.cons_append] at body
    obtain ⟨expected, here, behind⟩ := expected_of_letters built walked isState found member body
    rw [Derivation.ofLetter_letter] at expected here
    -- the leaves up to the terminal of the spine can be read
    have rooted : ∀ inside ∈ forest.map Derivation.letter ++ letter :: back,
        Symbol.ofLetter inside ∈ rule.body := fun inside isInside =>
      List.mem_of_mem_drop (mem_of_mem_letters (behind ▸ isInside))
    have upcoming : g.Upcoming (forest.flatMap Tree.leaves ++ (left ++ [(t, token)])) :=
      Grammar.upcoming_of_letters isRule rooted derived.2 (spine.upcoming accepted)
    -- the first of them can come behind the derivation that is next
    have after : ∀ u key,
        (forest.flatMap Tree.leaves ++ (left ++ [(t, token)])).head?.map Prod.fst = some u →
          c.root = .nonterminal key → u ∈ g.followOf key := by
      intro u key first root
      rw [root] at here
      obtain ⟨rest, derives⟩ := spine.exists_derives_head start derived.2 back first
      rw [← behind] at derives
      exact Grammar.mem_follow_of_derives isRule here derives
    have ends : forest.flatMap Tree.leaves ++ (left ++ [(t, token)]) ≠ [] := by simp
    obtain ⟨state, s', walked', isState', member', reads⟩ := exists_reads_child built
      (follows_of_guide built distinct (guide_of_unresolved unresolved) derived.1) walked isState
      member expected (fun none => absurd none ends) upcoming trivial after
    have passed : (letters rule.body).drop (cursor + 1) =
        forest.map Derivation.letter ++ letter :: back := by
      rw [← List.drop_drop, body]
      rfl
    obtain ⟨n, frames', s₁, walked₁, isState₁, ready, others⟩ :=
      ih derived.2 passed walked' isState' member'
    refine ⟨c.size + n, frames', s₁, walked₁, isState₁, ready, .trans ?_ others⟩
    obtain ⟨reads, _⟩ := reads.append (by simp) more
    rw [List.flatMap_cons, Derivation.tokens_eq_map_leaves]
    simpa using reads

/-- The parser reads a spine where it is ready for its letter: the leaves on its
left, and then the terminal. -/
theorem exists_readsIn_of_spine (built : g.Automaton start table) (distinct : g.Distinct)
    (unresolved : ∀ s ∈ table.states, s.resolutions = []) (spine : g.Spine t letter left)
    (accepted : (g.alphabet t).accepts token = true) (more : List T)
    {frames : List (Derivation τ κ T N × Nat)} (walked : table.Walked frames) {s : State τ κ}
    (isState : table.state? (Reading.topState frames) = some s) (ready : g.Ready s.items letter) :
    ∃ n frames', table.ReadsIn goal n ⟨frames, left.map Prod.snd ++ token :: more⟩
      ⟨frames', more⟩ := by
  induction spine generalizing frames s with
  | tip =>
    obtain ⟨item, member, expected⟩ := ready
    obtain ⟨target, acts⟩ := built.exists_shift isState member expected fun r isResolution _ => by
      rw [unresolved s (List.mem_of_getElem? isState)] at isResolution
      exact absurd isResolution List.not_mem_nil
    exact ⟨1, _, .step (.shift (actionFor?_of_get? built distinct isState acts accepted)) (.refl _)⟩
  | @branch rule forest letter back left isRule derived body inner ih =>
    obtain ⟨place, found⟩ := List.mem_iff_getElem?.mp isRule
    have unread : (⟨place, 0⟩ : Item) ∈ s.items :=
      ready _ (g.mem_startItems.mpr ⟨rfl, rule, found, rfl⟩)
    have whole : (letters rule.body).drop 0 = forest.map Derivation.letter ++ letter :: back := body
    obtain ⟨n, frames', s', walked', isState', ready', reads⟩ :=
      exists_readsIn_forest built distinct unresolved found inner accepted more derived whole walked
        isState unread
    obtain ⟨k, last, others⟩ := ih walked' isState' ready'
    refine ⟨n + k, last, .trans ?_ others⟩
    rw [List.map_append, ← Derivation.tokens_eq_map_leaves, List.append_assoc]
    exact reads

/-- What begins a sentence is read from the start state, whatever comes behind. -/
theorem exists_readsIn_of_begins (built : g.Automaton start table) (distinct : g.Distinct)
    (unresolved : ∀ s ∈ table.states, s.resolutions = []) {tokens : List T}
    (begins : g.Begins start tokens) (more : List T) :
    ∃ n frames, table.ReadsIn goal n ⟨[], tokens ++ more⟩ ⟨frames, more⟩ := by
  obtain ⟨word, sentence, terminals, ⟨tail, rfl⟩, accepted⟩ := begins
  rcases List.eq_nil_or_concat tokens with rfl | ⟨before, token, rfl⟩
  · exact ⟨0, [], .refl _⟩
  rw [List.concat_eq_append] at accepted ⊢
  -- the spine leads to the terminal of the last token
  have acceptedBefore := List.forall₂_take_append terminals before [token] accepted
  obtain ⟨t, rest, acceptedLast, none, last⟩ := List.forall₂_cons_right_iff.mp
    (List.forall₂_drop_append terminals before [token] accepted)
  obtain rfl := List.forall₂_nil_right_iff.mp none
  have derives : g.Derives [.nonterminal start]
      ((terminals.take before.length).map .terminal ++ .terminal t :: tail.map .terminal) := by
    rw [← List.take_append_drop before.length terminals, last] at sentence
    rw [← Grammar.derives_contextFree g start]
    simpa using sentence
  obtain ⟨forest, letter, back, left, _, isForm, spine, same⟩ :=
    Grammar.exists_spine derives acceptedBefore
  have alone := congrArg List.length isForm
  simp only [List.length_append, List.length_cons, List.length_nil] at alone
  rw [List.length_map] at alone
  obtain rfl : forest = [] := List.eq_nil_of_length_eq_zero (by omega)
  obtain ⟨rfl, _⟩ := List.cons.inj isForm
  rw [List.flatMap_nil, List.nil_append] at same
  obtain ⟨s, isFirst, items⟩ := built.first
  have ready : g.Ready s.items (.nonterminal start) := fun item isStart =>
    items ▸ g.mem_startSet_of_mem_startItems isStart
  have nothing : table.Walked ([] : List (Derivation τ κ T N × Nat)) := trivial
  obtain ⟨n, frames, reads⟩ := exists_readsIn_of_spine built distinct unresolved spine
    acceptedLast more nothing isFirst ready
  refine ⟨n, frames, ?_⟩
  rw [same] at reads
  simpa using reads

/-! ### First reports -/

variable [Named κ] [Token T] {m m' m₁ : Machine T N}

/-- `table.FirstReport goal m m'` says that a run from `m` comes to `m'` without
reporting anything, and that the step from there reports something. -/
structure FirstReport (table : Table τ κ T N) (goal : N) (m m' : Machine T N) : Prop where
  continues : table.Continues goal m m'
  clean : m'.diagnostics = m.diagnostics
  reports : (table.step goal m').machine.diagnostics ≠ m'.diagnostics

omit [DecidableEq τ] in
/-- What a run comes to without reporting anything lies before its first report. -/
theorem FirstReport.continues_of_clean (first : table.FirstReport goal m m')
    (continues : table.Continues goal m m₁) (clean : m₁.diagnostics = m.diagnostics) :
    table.Continues goal m₁ m' := by
  have unique : Relator.RightUnique fun before after : Machine T N =>
      table.step goal before = .next after := by
    intro before one other next next'
    exact Step.next.inj (next.symm.trans next')
  rcases Relation.ReflTransGen.total_of_right_unique unique first.continues continues with
    later | earlier
  · rcases Relation.ReflTransGen.cases_head later with rfl | ⟨after, next, rest⟩
    · exact .refl
    · -- the report of the step would have stayed
      have kept := length_diagnostics_of_continues rest
      have reports := first.reports
      rw [next] at reports
      have sizes := congrArg List.length (clean.trans first.clean.symm)
      cases effect_of_step next with
      | shift _ _ _ _ diagnostics _ => exact absurd diagnostics reports
      | reduce _ _ _ _ _ _ diagnostics _ => exact absurd diagnostics reports
      | recover _ _ _ _ _ diagnostics _ => omega
  · exact earlier

/-- What begins a sentence is shifted before anything is reported. -/
theorem exists_continues_of_begins (built : g.Automaton start table) (distinct : g.Distinct)
    (unresolved : ∀ s ∈ table.states, s.resolutions = []) (fresh : m.stack = .base 0)
    {read rest : List T} (input : m.input = read ++ rest) (begins : g.Begins start read) :
    ∃ m', table.Continues goal m m' ∧ m'.diagnostics = m.diagnostics ∧ m'.input = rest ∧
      m'.stats.shifts = m.stats.shifts + read.length := by
  obtain ⟨n, frames, reads⟩ := exists_readsIn_of_begins built distinct unresolved begins rest
  have shadows : m.Shadows (⟨[], read ++ rest⟩ : Reading τ κ T N) := ⟨fresh, input⟩
  obtain ⟨m', continues, ⟨_, input'⟩, clean, _⟩ := continues_of_readsIn shadows reads
  have short : m'.diagnostics.length ≤ m.diagnostics.length := by rw [clean]
  refine ⟨m', continues, clean, input', ?_⟩
  have shifted := shifts_of_continues continues short
  rw [input', input, List.length_append] at shifted
  dsimp only at shifted
  omega

omit [DecidableEq τ] in
/-- Recovery at a token first reports the token. -/
theorem unexpected_of_recover (moves : table.move goal m.stack m.input = .recover) {token : T}
    {rest : List T} (input : m.input = token :: rest) :
    ∃ later, (table.step goal m).machine.diagnostics = m.diagnostics ++
      .unexpectedToken (Token.text token) (Token.span token) (table.expected m.stack.top) ::
        later := by
  have performs := performs_step table goal m
  generalize table.step goal m = result at performs
  have same : ∀ {other : T} {others : List T}, m.input = other :: others → other = token :=
    fun isInput => (List.cons.inj (isInput.symm.trans input)).1
  cases performs with
  | accept moves' => cases moves.symm.trans moves'
  | shift moves' _ => cases moves.symm.trans moves'
  | reduce moves' _ => cases moves.symm.trans moves'
  | breakOff moves' _ => cases moves.symm.trans moves'
  | recover _ isInput _ _ _ _ => exact ⟨[], by rw [← same isInput]; rfl⟩
  | giveUp _ givesUp =>
    cases givesUp with
    | exhausted none _ => cases input.symm.trans none
    | stalled isInput _ => exact ⟨[_], by rw [← same isInput]; rfl⟩
    | unfounded isInput _ _ => exact ⟨[_], by rw [← same isInput]; rfl⟩
    | unfollowed isInput _ _ _ => exact ⟨[_], by rw [← same isInput]; rfl⟩

omit [DecidableEq τ] in
/-- A parse that is given up has told why. -/
theorem diagnostics_ne_of_aborted (aborted : table.step goal m = .aborted m') :
    m'.diagnostics ≠ m.diagnostics := by
  have performs := performs_step table goal m
  rw [aborted] at performs
  cases performs with
  | breakOff _ _ => simp
  | giveUp _ givesUp => cases givesUp <;> simp

omit [DecidableEq τ] in
/-- A run that ends has reported something, or it has read all of the input. -/
theorem exists_firstReport_of_run {budget : Nat}
    (ends : (table.run goal budget m).1 ≠ .unfinished) :
    (∃ m', table.FirstReport goal m m') ∨
      ∃ m', table.Continues goal m m' ∧ m'.diagnostics = m.diagnostics ∧ m'.input = [] := by
  induction budget generalizing m with
  | zero => exact absurd rfl ends
  | succ budget ih =>
    rw [run] at ends
    cases taken : table.step goal m with
    | next after =>
      rw [taken] at ends
      by_cases same : after.diagnostics = m.diagnostics
      · rcases ih ends with ⟨m', first⟩ | ⟨m', continues, clean, input⟩
        · exact .inl ⟨m', .head taken first.continues, first.clean.trans same, first.reports⟩
        · exact .inr ⟨m', .head taken continues, clean.trans same, input⟩
      · exact .inl ⟨m, .refl, rfl, by rw [taken]; exact same⟩
    | accepted tree last =>
      obtain ⟨moves, _⟩ := move_of_step_accepted taken
      refine .inr ⟨m, .refl, rfl, ?_⟩
      cases input : m.input with
      | nil => rfl
      | cons token rest =>
        rw [input] at moves
        exact absurd moves (moveOn_ne_accept _)
    | aborted last =>
      exact .inl ⟨m, .refl, rfl, by rw [taken]; exact diagnostics_ne_of_aborted taken⟩

/-! ### Prompt reports -/

/-- `table.Prompt g start goal m` says that a run from `m` shifts whatever begins a
sentence before it reports anything, and that it reports the first token that no
sentence goes on with. -/
structure Prompt (table : Table τ κ T N) (g : Grammar τ κ T N) (start : κ) (goal : N)
    (m : Machine T N) : Prop where
  /-- What begins a sentence is shifted before anything is reported. -/
  shifted : ∀ read rest, m.input = read ++ rest → g.Begins start read →
    ∃ m', table.Continues goal m m' ∧ m'.diagnostics = m.diagnostics ∧ m'.input = rest ∧
      m'.stats.shifts = m.stats.shifts + read.length
  /-- The first report is made at a token if and only if some sentence begins with
  what is before, and none goes on with the token. -/
  located : ∀ m', table.FirstReport goal m m' → ∀ read token rest, m.input = read ++ token :: rest →
    (m'.input = token :: rest ↔ g.Begins start read ∧ ¬ g.Begins start (read ++ [token]))
  /-- Where the first report is made at a token, it is that of the token. -/
  named : ∀ m', table.FirstReport goal m m' → ∀ token rest, m'.input = token :: rest →
    ∃ later, (table.step goal m').machine.diagnostics = m'.diagnostics ++
      .unexpectedToken (Token.text token) (Token.span token) (table.expected m'.stack.top) :: later
  /-- A run does not end without a report if no sentence goes on with some token. -/
  noticed : ∀ budget, (table.parse goal budget m).1 ≠ .unfinished →
    ∀ read token rest, m.input = read ++ token :: rest → g.Begins start read →
      ¬ g.Begins start (read ++ [token]) →
        ∃ m', table.FirstReport goal m m' ∧ m'.input = token :: rest

variable {placeholders : List (κ × Tree T N)}

/-- A first report at a token is made because no sentence goes on with it, and such a
token is where the first report is made. -/
theorem FirstReport.input_iff (first : table.FirstReport goal m m')
    (built : g.table start placeholders = .ok table)
    (productive : ∀ key ∈ g.keys, ∃ word, word ∈ (g.contextFree key).language)
    (fresh : m.stack = .base 0) (unresolved : ∀ s ∈ table.states, s.resolutions = [])
    (distinct : g.Distinct) {read rest : List T} (input : m.input = read ++ token :: rest) :
    m'.input = token :: rest ↔ g.Begins start read ∧ ¬ g.Begins start (read ++ [token]) := by
  have automaton := Grammar.automaton_of_table built
  obtain ⟨before, split, _, begins⟩ :=
    begins_of_continues built productive fresh first.continues first.clean
  constructor
  · intro here
    rw [input, here] at split
    obtain rfl := List.append_cancel_right split
    refine ⟨begins, fun onward => ?_⟩
    -- the token would have been shifted before the report
    have input' : m.input = (read ++ [token]) ++ rest := by simp [input]
    obtain ⟨m₁, continues, clean, input₁, _⟩ :=
      exists_continues_of_begins automaton distinct unresolved fresh input' onward
    have suffix := input_suffix_of_continues (first.continues_of_clean continues clean)
    rw [here, input₁] at suffix
    have short := suffix.length_le
    rw [List.length_cons] at short
    omega
  · rintro ⟨sofar, stuck⟩
    obtain ⟨m₁, continues, clean, input₁, _⟩ :=
      exists_continues_of_begins automaton distinct unresolved fresh input sofar
    have suffix := input_suffix_of_continues (first.continues_of_clean continues clean)
    rw [input₁] at suffix
    rcases List.suffix_cons_iff.mp suffix with here | ⟨more, rfl⟩
    · exact here
    · -- the token would have been read without a report
      have whole : read ++ token :: more = before := by
        refine List.append_cancel_right (?_ : _ ++ m'.input = _ ++ m'.input)
        rw [← split, input]
        simp
      rw [← whole, List.append_cons] at begins
      exact absurd begins.of_append stuck

/-- Where the start key occurs in no body, a first report at a token is that of the
token. -/
theorem FirstReport.exists_unexpected (first : table.FirstReport goal m m')
    (built : g.table start placeholders = .ok table) (fresh : m.stack = .base 0)
    (unused : ∀ rule ∈ g.rules, .nonterminal start ∉ rule.body) {rest : List T}
    (input : m'.input = token :: rest) :
    ∃ later, (table.step goal m').machine.diagnostics = m'.diagnostics ++
      .unexpectedToken (Token.text token) (Token.span token) (table.expected m'.stack.top) ::
        later := by
  have automaton := Grammar.automaton_of_table built
  have footed : table.Footed m'.stack := by
    refine Footed.continues ?_ first.continues
    exact fresh ▸ footed_base table
  have reports := first.reports
  cases moves : table.move goal m'.stack m'.input with
  | accept tree =>
    rw [input] at moves
    exact absurd moves (moveOn_ne_accept _)
  | shift token target =>
    obtain ⟨_, next, _, _, same⟩ := step_of_shift moves
    rw [next] at reports
    exact absurd same reports
  | reduce place rule =>
    obtain ⟨enough, ⟨target, goes⟩ | ⟨isStart, _⟩⟩ := footed.reduction automaton moves
    · obtain ⟨_, next, _, _, same⟩ := step_of_reduce moves (reduceStack_of_goto? enough goes)
      rw [next] at reports
      exact absurd same reports
    · -- a start rule is not reduced on a token, since nothing comes behind its key
      rw [input] at moves
      obtain ⟨t, behind, _⟩ := automaton.canFollow_iff.mp (canFollow_of_move automaton moves)
      rw [isStart] at behind
      exact absurd behind (Grammar.not_mem_followOf_start unused t)
  | recover => exact unexpected_of_recover moves input

/-- Where every key has a text, whatever a run from the start state has shifted before
an error begins a sentence. If moreover the start key occurs in no body, no state has a
resolution and no token is accepted by two terminals, the run reports its errors
promptly: what begins a sentence is shifted before anything is reported, and the first
report at a token is made at the first one that no sentence goes on with. -/
theorem correctPrefix_of_table (built : g.table start placeholders = .ok table)
    (productive : ∀ key ∈ g.keys, ∃ word, word ∈ (g.contextFree key).language)
    (fresh : m.stack = .base 0) (goal : N) :
    (∀ m', table.Continues goal m m' → m'.diagnostics = m.diagnostics →
      ∃ read, m.input = read ++ m'.input ∧ m'.stats.shifts = m.stats.shifts + read.length ∧
        g.Begins start read) ∧
    ((∀ rule ∈ g.rules, .nonterminal start ∉ rule.body) →
      (∀ s ∈ table.states, s.resolutions = []) → g.Distinct → table.Prompt g start goal m) := by
  refine ⟨fun m' => begins_of_continues built productive fresh, ?_⟩
  intro unused unresolved distinct
  have automaton := Grammar.automaton_of_table built
  have located : ∀ m', table.FirstReport goal m m' → ∀ read token rest,
      m.input = read ++ token :: rest →
      (m'.input = token :: rest ↔ g.Begins start read ∧ ¬ g.Begins start (read ++ [token])) :=
    fun m' first _ _ _ => first.input_iff built productive fresh unresolved distinct
  refine ⟨fun _ _ => exists_continues_of_begins automaton distinct unresolved fresh, located,
    fun m' first _ _ => first.exists_unexpected built fresh unused, ?_⟩
  intro budget ends read token rest input sofar stuck
  rw [parse, if_pos (hasStart_of_base automaton fresh)] at ends
  rcases exists_firstReport_of_run ends with ⟨m', first⟩ | ⟨m', continues, clean, done⟩
  · exact ⟨m', first, (located m' first read token rest input).mpr ⟨sofar, stuck⟩⟩
  · -- all of the input would begin a sentence
    obtain ⟨before, split, _, begins⟩ := begins_of_continues built productive fresh continues clean
    rw [done, List.append_nil, input, List.append_cons] at split
    rw [← split] at begins
    exact absurd begins.of_append stuck

end Table

/-! ### A bracket too many -/

namespace Brackets

/-- Every part of a balanced text has a text of its own. -/
theorem productive (key : Part) : ∃ word, word ∈ (grammar.contextFree key).language := by
  have derived : ∃ D, grammar.IsDerivation D ∧ D.root = .nonterminal key := by
    cases key with
    | start =>
      refine ⟨.branch (rule .start [.nonterminal .text]) [nestText 0],
        .branch _ _ (by simp [grammar]) rfl ?_, rfl⟩
      exact List.forall_mem_singleton.mpr (isDerivation_nestText 0)
    | text => exact ⟨nestText 0, isDerivation_nestText 0, rfl⟩
    | list => exact ⟨nest 0, isDerivation_nest 0, rfl⟩
    | group =>
      refine ⟨.branch (rule .group [.terminal .opening, .nonterminal .list, .terminal .closing])
        [.leaf (.opening, .opening), nest 0, .leaf (.closing, .closing)],
        .branch _ _ (by simp [grammar]) rfl ?_, rfl⟩
      simp only [List.forall_mem_cons]
      exact ⟨.leaf _ _ rfl, isDerivation_nest 0, .leaf _ _ rfl, List.forall_mem_nil _⟩
  obtain ⟨D, isDerivation, root⟩ := derived
  obtain ⟨word, sentence, _⟩ :=
    Grammar.exists_isDerivation_iff.mp ⟨D, isDerivation, root, rfl⟩
  exact ⟨word, sentence⟩

/-- A parser that is to read a group and then a bracket without a partner. -/
def overrun : Machine Mark Part :=
  { stack := .base 0, input := [.opening, .closing, .closing, .opening] }

/-- After a group the second closing bracket is reported, which no balanced text has
there. -/
theorem exists_firstReport_overrun :
    grammar.table .start [] = .ok table ∧
    (∀ key ∈ grammar.keys, ∃ word, word ∈ (grammar.contextFree key).language) ∧
    overrun.stack = .base 0 ∧ (∀ r ∈ grammar.rules, .nonterminal .start ∉ r.body) ∧
    (∀ s ∈ table.states, s.resolutions = []) ∧ grammar.Distinct ∧
    (∃ m, table.FirstReport .text overrun m ∧ m.input = [.closing, .opening] ∧
      m.stats.shifts = 2) ∧
    grammar.Begins .start [.opening, .closing] ∧
    ¬ grammar.Begins .start [.opening, .closing, .closing] := by
  have texts : ∀ key ∈ grammar.keys, ∃ word, word ∈ (grammar.contextFree key).language :=
    fun key _ => productive key
  have unresolved : ∀ s ∈ table.states, s.resolutions = [] := by decide +kernel
  obtain ⟨_, prompt⟩ := Table.correctPrefix_of_table table_eq texts
    (rfl : overrun.stack = .base 0) .text
  have prompt := prompt framed.start_fresh unresolved distinct
  have continues : table.Continues .text overrun (table.run .text 6 overrun).2 :=
    Table.continues_of_run (by decide +kernel)
  have first : table.FirstReport .text overrun (table.run .text 6 overrun).2 :=
    ⟨continues, by decide +kernel, by decide +kernel⟩
  have input : (table.run .text 6 overrun).2.input = [.closing, .opening] := by decide +kernel
  obtain ⟨begins, stuck⟩ :=
    (prompt.located _ first [.opening, .closing] .closing [.opening] rfl).mp input
  exact ⟨table_eq, texts, rfl, framed.start_fresh, unresolved, distinct,
    ⟨_, first, input, by decide +kernel⟩, begins, stuck⟩

end Brackets

end ShiftReduce
