/-
  A parser follows a derivation where its resolutions do not lead it astray.

  To read a derivation is to shift its leaves and to reduce its branches in
  post-order, one step for each node. The items of the states allow for these
  steps; only the resolutions of a state may have given a shift or a reduction
  away. A guide (`Table.Guide`) is a predicate on derivations, at the state where
  they begin and before the terminal that comes behind them, which passes from a
  branch to its children and keeps such resolutions off. Under a guide the
  parser reads every derivation, whatever the input behind it
  (`readsIn_of_guided`).

  At the end of the input there is no terminal to decide a reduction; it is made
  where one rule alone has been read completely, and if the node on top is not
  taken for the goal (`Table.Closing`).
-/
import ShiftReduce.Proofs.Lookahead.First
import ShiftReduce.Proofs.Parser.Soundness

namespace ShiftReduce

variable {τ κ T N : Type}

/-! ### Input and goal -/

namespace Grammar

/-- No token is accepted by two terminals of the grammar. -/
def Distinct (g : Grammar τ κ T N) : Prop :=
  ∀ t ∈ g.terminalOccurrences, ∀ u ∈ g.terminalOccurrences, ∀ token,
    (g.alphabet t).accepts token = true → (g.alphabet u).accepts token = true → t = u

/-- Leaves that can be read: terminals of the grammar with tokens that they
accept. -/
def Upcoming (g : Grammar τ κ T N) (rest : List (τ × T)) : Prop :=
  ∀ entry ∈ rest, (g.alphabet entry.1).accepts entry.2 = true ∧ entry.1 ∈ g.terminalOccurrences

variable {g : Grammar τ κ T N}

theorem Upcoming.append {front back : List (τ × T)} (first : g.Upcoming front)
    (second : g.Upcoming back) : g.Upcoming (front ++ back) := by
  intro entry member
  rcases List.mem_append.mp member with h | h
  · exact first entry h
  · exact second entry h

/-- The terminals of a derivation occur in the grammar, unless it is but a
leaf. -/
theorem IsDerivation.occurs {D : Derivation τ κ T N} (derived : g.IsDerivation D)
    (rooted : ∀ t, D.root = .terminal t → t ∈ g.terminalOccurrences) : g.Upcoming D.leaves := by
  intro entry member
  refine ⟨derived.accepts_of_mem member, ?_⟩
  induction derived with
  | leaf t token _ =>
    obtain rfl := List.mem_singleton.mp member
    exact rooted t rfl
  | branch rule children isRule body _ ih =>
    rw [Derivation.leaves_branch, List.mem_flatMap] at member
    obtain ⟨child, isChild, inside⟩ := member
    refine ih child isChild (fun t root => ?_) inside
    have used := Derivation.root_mem_body body isChild
    exact Grammar.mem_terminalOccurrences.mpr ⟨rule, isRule, root ▸ used⟩

/-- So do those of several derivations whose roots are in the body of a rule. -/
theorem upcoming_of_children {rule : Rule τ κ T N} (isRule : rule ∈ g.rules)
    {children : List (Derivation τ κ T N)} (used : ∀ child ∈ children, child.root ∈ rule.body)
    (derived : ∀ child ∈ children, g.IsDerivation child) :
    g.Upcoming (children.flatMap Tree.leaves) := by
  intro entry inside
  obtain ⟨child, isChild, inside⟩ := List.mem_flatMap.mp inside
  refine (derived child isChild).occurs (fun t root => ?_) entry inside
  exact Grammar.mem_terminalOccurrences.mpr ⟨rule, isRule, root ▸ used child isChild⟩

end Grammar

/-- Nothing in the derivation builds a node of the kind `goal`. -/
inductive Derivation.Silent (goal : N) : Derivation τ κ T N → Prop
  | leaf (entry : τ × T) : Silent goal (.leaf entry)
  | branch (rule : Rule τ κ T N) (children : List (Derivation τ κ T N))
      (own : (build (.branch rule children)).kind? ≠ some goal)
      (below : ∀ child ∈ children, Silent goal child) : Silent goal (.branch rule children)

theorem Derivation.Silent.kind?_ne {goal : N} {D : Derivation τ κ T N}
    (silent : Derivation.Silent goal D) :
    D.build.kind? ≠ some goal := by
  cases silent with
  | leaf entry => nofun
  | branch rule children own _ => exact own

theorem Derivation.Silent.children {goal : N} {D : Derivation τ κ T N}
    (silent : Derivation.Silent goal D) :
    ∀ child ∈ D.children, Derivation.Silent goal child := by
  cases silent with
  | leaf entry => exact List.forall_mem_nil _
  | branch rule children _ below => exact below

/-- The symbols of frames are the roots of their derivations. -/
theorem Reading.symbols_eq_map_root {frames : List (Derivation τ κ T N × Nat)}
    {front : List (Derivation τ κ T N)} (done : frames.reverse.map Prod.fst = front) :
    Reading.symbols frames = front.map Derivation.root := by
  rw [← done, Reading.symbols, List.map_map, ← List.map_reverse]
  rfl

/-- The tree on top of some frames is not taken for the goal. -/
def Reading.Quiet (goal : N) (frames : List (Derivation τ κ T N × Nat)) : Prop :=
  ∀ frame ∈ frames.head?, frame.1.build.kind? ≠ some goal

variable [Ordered τ] [Ordered κ] [DecidableEq τ] [DecidableEq κ]

namespace Table

variable (table : Table τ κ T N) (g : Grammar τ κ T N)

/-- In every state at most one rule has been read completely. -/
def Single : Prop :=
  ∀ number s, table.state? number = some s → s.reducible.length ≤ 1

/-! ### Guides -/

/-- A guide keeps resolutions from misleading the parser: `guided number la D`
is to say that the derivation `D`, beginning at a state and with the terminal
`la` behind it, meets no resolution against a shift or a reduction that it
needs. -/
structure Guide (guided : Nat → Option τ → Derivation τ κ T N → Prop) : Prop where
  leaf : ∀ {number la t token s}, guided number la (.leaf (t, token)) →
    table.state? number = some s → ∀ r ∈ s.resolutions, r.terminal = t → r.shifts = true
  child : ∀ {number target la rule front c back},
    guided number la (.branch rule (front ++ c :: back)) →
    table.walk? number (front.map Derivation.root) = some target →
    guided target ((back.flatMap Derivation.terminals).head?.or la) c
  complete : ∀ {number target t rule children s}, guided number (some t) (.branch rule children) →
    table.walk? number (children.map Derivation.root) = some target →
    table.state? target = some s → ∀ r ∈ s.resolutions, r.terminal = t →
    g.rule? r.rule = some rule → r.shifts = false

variable {table g} {start : κ}

/-- The action of a state on a token is that of the only terminal of the grammar
that accepts it. -/
theorem actionFor?_of_get? (built : g.Automaton start table) (distinct : g.Distinct)
    {number : Nat} {s : State τ κ} (isState : table.state? number = some s) {t : τ}
    {action : Action} (acts : s.actions.get? t = some action) {token : T}
    (accepted : (g.alphabet t).accepts token = true) :
    table.actionFor? number token = some (t, action) := by
  rw [actionFor?, isState, built.grammar, Option.bind_some, State.actionFor?]
  cases found : s.actions.entries.find? fun entry => (g.alphabet entry.1).accepts token with
  | none =>
    have refused := List.find?_eq_none.mp found _ (SortedMap.mem_entries.mpr acts)
    exact absurd accepted refused
  | some entry =>
    have acts' : s.actions.get? entry.1 = some entry.2 :=
      SortedMap.mem_entries.mp (List.mem_of_find?_eq_some found)
    have accepted' : (g.alphabet entry.1).accepts token = true := by
      simpa using List.find?_some found
    -- another entry that accepts the token would be for the same terminal
    have same := distinct entry.1 (built.occurs_of_acts isState acts') t
      (built.occurs_of_acts isState acts) token accepted' accepted
    rw [same, acts] at acts'
    rw [Option.some.inj acts', ← same]

/-- The symbol that the next child is rooted in is expected. -/
theorem expected_of_symbols (built : g.Automaton start table)
    {frames : List (Derivation τ κ T N × Nat)} (walked : table.Walked frames) {s : State τ κ}
    (isState : table.state? (Reading.topState frames) = some s) {place cursor : Nat}
    {rule : Rule τ κ T N} (found : g.rule? place = some rule)
    (member : (⟨place, cursor⟩ : Item) ∈ s.items) {symbol : Symbol τ κ}
    (next : rule.symbols[cursor]? = some symbol) :
    g.expected? ⟨place, cursor⟩ = some symbol ∧ rule.body[cursor]? = some symbol ∧
      rule.symbols.drop (cursor + 1) =
        (rule.body.drop (cursor + 1)).filter fun symbol => !symbol.isEpsilon := by
  obtain ⟨s', isState', reached⟩ := walked.reaches built
  obtain rfl := Option.some.inj (isState.symm.trans isState')
  have within : cursor < rule.length := (List.getElem?_eq_some_iff.mp next).1
  have bound : cursor < rule.body.length := Nat.lt_of_lt_of_le within rule.length_le
  have expected : g.expected? ⟨place, cursor⟩ = some rule.body[cursor] :=
    g.expected?_eq_some_iff.mpr ⟨rule, found, within, List.getElem?_eq_getElem bound⟩
  -- no empty text has been read: the path is spelled by roots
  have passed : ∀ symbol ∈ rule.body.take cursor, symbol ≠ .epsilon := by
    intro symbol inside
    obtain ⟨spelled, _⟩ := reached.backed member found
    rw [← List.mem_reverse, spelled] at inside
    obtain ⟨frame, _, rfl⟩ := List.mem_map.mp (List.mem_of_mem_take inside)
    exact frame.1.root_ne_epsilon
  have real : ∀ symbol ∈ rule.body.take (cursor + 1), symbol ≠ .epsilon := by
    intro symbol inside
    rw [List.take_add_one, List.getElem?_eq_getElem bound] at inside
    rcases List.mem_append.mp inside with h | h
    · exact passed symbol h
    · obtain rfl := List.mem_singleton.mp h
      intro empty
      rw [empty] at expected
      exact built.expected_ne_epsilon isState member expected
  rw [Rule.getElem?_symbols real bound] at next
  refine ⟨?_, next, Rule.drop_symbols real bound⟩
  rw [expected, ← next, List.getElem?_eq_getElem bound]

variable [DecidableEq N] {goal : N}

/-- What the end of the input asks for behind a derivation: no state has two
rules to reduce, and neither the tree on top of the frames nor one below the
derivation is taken for the goal. -/
structure Closing (table : Table τ κ T N) (goal : N) (frames : List (Derivation τ κ T N × Nat))
    (D : Derivation τ κ T N) : Prop where
  single : table.Single
  quiet : Reading.Quiet goal frames
  silent : ∀ child ∈ D.children, Derivation.Silent goal child

/-- What guided derivations are to do: from a state that expects their root, the
parser reads them whatever comes behind. -/
def Follows (table : Table τ κ T N) (g : Grammar τ κ T N) (goal : N)
    (guided : Nat → Option τ → Derivation τ κ T N → Prop) (D : Derivation τ κ T N) : Prop :=
  ∀ frames rest, table.Walked frames → (rest = [] → table.Closing goal frames D) →
    g.Upcoming rest →
    (∃ s item, table.state? (Reading.topState frames) = some s ∧ item ∈ s.items ∧
      g.expected? item = some D.root) →
    guided (Reading.topState frames) (rest.head?.map Prod.fst) D →
    (∀ t key, rest.head?.map Prod.fst = some t → D.root = .nonterminal key →
      t ∈ g.followOf key) →
    ∃ state, table.edge? (Reading.topState frames) D.root = some state ∧
      table.ReadsIn goal D.size ⟨frames, D.tokens ++ rest.map Prod.snd⟩
        ⟨(D, state) :: frames, rest.map Prod.snd⟩

variable {guided : Nat → Option τ → Derivation τ κ T N → Prop}

/-- A leaf is shifted. -/
theorem follows_leaf (built : g.Automaton start table) (distinct : g.Distinct)
    (guide : table.Guide g guided) {t : τ} {token : T}
    (accepted : (g.alphabet t).accepts token = true) :
    table.Follows g goal guided (.leaf (t, token)) := by
  rintro frames rest walked _ _ ⟨s, item, isState, member, expected⟩ isGuided _
  obtain ⟨target, acts⟩ := built.exists_shift isState member expected
    (guide.leaf isGuided isState)
  refine ⟨target, ?_, ?_⟩
  · rw [edge?, isState]
    show s.next? (.terminal t) = some target
    simp only [State.next?, acts]
  · exact .step (.shift (actionFor?_of_get? built distinct isState acts accepted)) (.refl _)

/-- Where the cursor of a rule stands before the root of a derivation that the
parser follows, the derivation is read and the cursor passes its root. -/
theorem exists_reads_child (built : g.Automaton start table) {c : Derivation τ κ T N}
    (follows : table.Follows g goal guided c) {frames : List (Derivation τ κ T N × Nat)}
    (walked : table.Walked frames) {s : State τ κ}
    (isState : table.state? (Reading.topState frames) = some s) {item : Item}
    (member : item ∈ s.items) (expected : g.expected? item = some c.root) {rest : List (τ × T)}
    (ending : rest = [] → table.Closing goal frames c) (upcoming : g.Upcoming rest)
    (isGuided : guided (Reading.topState frames) (rest.head?.map Prod.fst) c)
    (behind : ∀ t key, rest.head?.map Prod.fst = some t → c.root = .nonterminal key →
      t ∈ g.followOf key) :
    ∃ state s', table.Walked ((c, state) :: frames) ∧ table.state? state = some s' ∧
      item.bump ∈ s'.items ∧
      table.ReadsIn goal c.size ⟨frames, c.tokens ++ rest.map Prod.snd⟩
        ⟨(c, state) :: frames, rest.map Prod.snd⟩ := by
  obtain ⟨state, edge, reads⟩ := follows frames rest walked ending upcoming
    ⟨s, item, isState, member, expected⟩ isGuided behind
  obtain ⟨s', isState', member'⟩ := built.bump_mem_of_edge? isState member expected edge
  exact ⟨state, s', ⟨edge, walked⟩, isState', member', reads⟩

/-- One step through the children of a branch: the frames of the children before
it stand above `base`, the cursor of the rule has passed them, and the next child
is read with the later ones still to come. -/
theorem exists_reads_next (built : g.Automaton start table) (guide : table.Guide g guided)
    {place : Nat} {rule : Rule τ κ T N} (found : g.rule? place = some rule)
    {front back : List (Derivation τ κ T N)} {c : Derivation τ κ T N}
    (spelled : (front ++ c :: back).map Derivation.root = rule.symbols)
    (derived : ∀ child ∈ back, g.IsDerivation child) (follows : table.Follows g goal guided c)
    {above base : List (Derivation τ κ T N × Nat)} {rest : List (τ × T)}
    (upcoming : g.Upcoming rest) (ending : rest = [] → table.Closing goal (above ++ base) c)
    (isGuided : guided (Reading.topState base) (rest.head?.map Prod.fst)
      (.branch rule (front ++ c :: back)))
    (behind : ∀ t, rest.head?.map Prod.fst = some t → t ∈ g.followOf rule.key)
    (done : above.reverse.map Prod.fst = front) (walked : table.Walked (above ++ base))
    {s : State τ κ} (isState : table.state? (Reading.topState (above ++ base)) = some s)
    (member : (⟨place, front.length⟩ : Item) ∈ s.items) :
    ∃ state s', table.Walked ((c, state) :: (above ++ base)) ∧ table.state? state = some s' ∧
      (⟨place, front.length + 1⟩ : Item) ∈ s'.items ∧
      table.ReadsIn goal c.size
        ⟨above ++ base, c.tokens ++ (back.flatMap Derivation.tokens ++ rest.map Prod.snd)⟩
        ⟨(c, state) :: (above ++ base), back.flatMap Derivation.tokens ++ rest.map Prod.snd⟩ := by
  have isRule : rule ∈ g.rules := List.mem_of_getElem? found
  have next : rule.symbols[front.length]? = some c.root := by
    rw [← spelled, List.map_append, List.getElem?_append_right (by simp), List.length_map,
      Nat.sub_self]
    rfl
  obtain ⟨expected, here, tail⟩ := expected_of_symbols built walked isState found member next
  have used : ∀ child ∈ back, child.root ∈ rule.body := fun child inside =>
    Derivation.root_mem_body spelled
      (List.mem_append_right front (List.mem_cons_of_mem c inside))
  have upcoming' : g.Upcoming (back.flatMap Tree.leaves ++ rest) :=
    (Grammar.upcoming_of_children isRule used derived).append upcoming
  have ending' : back.flatMap Tree.leaves ++ rest = [] → table.Closing goal (above ++ base) c :=
    fun ends => ending (List.append_eq_nil_iff.mp ends).2
  have walk : table.walk? (Reading.topState base) (front.map Derivation.root) =
      some (Reading.topState (above ++ base)) := by
    rw [← Reading.symbols_eq_map_root done]
    exact walked.walk_append
  -- what is guided and what comes behind, seen from the child
  have guidedChild := guide.child isGuided walk
  rw [← Derivation.head?_leaves_append] at guidedChild
  have after : ∀ t key, (back.flatMap Tree.leaves ++ rest).head?.map Prod.fst = some t →
      c.root = .nonterminal key → t ∈ g.followOf key := by
    intro t key isNext root
    rw [Derivation.head?_leaves_append] at isNext
    refine Grammar.mem_follow_of_child isRule (root ▸ here) ?_ derived behind isNext
    rw [← tail, ← spelled, ← List.map_drop, List.drop_append]
    simp
  obtain ⟨state, s', walked', isState', member', reads⟩ := exists_reads_child built follows walked
    isState member expected ending' upcoming' guidedChild after
  rw [List.map_append, ← Derivation.tokens_eq_map_leaves back] at reads
  exact ⟨state, s', walked', isState', member', reads⟩

/-- The children of a branch are read one after the other. The induction is on
the children that are left; each step is `exists_reads_next`. -/
theorem readsIn_children (built : g.Automaton start table) (guide : table.Guide g guided)
    {place : Nat} {rule : Rule τ κ T N} (found : g.rule? place = some rule)
    {children : List (Derivation τ κ T N)} (spelled : children.map Derivation.root = rule.symbols)
    (derived : ∀ child ∈ children, g.IsDerivation child)
    (follows : ∀ child ∈ children, table.Follows g goal guided child)
    {base : List (Derivation τ κ T N × Nat)} {rest : List (τ × T)} (upcoming : g.Upcoming rest)
    (ending : rest = [] → table.Single ∧ ∀ child ∈ children, Derivation.Silent goal child)
    (isGuided : guided (Reading.topState base) (rest.head?.map Prod.fst) (.branch rule children))
    (behind : ∀ t, rest.head?.map Prod.fst = some t → t ∈ g.followOf rule.key)
    {front back : List (Derivation τ κ T N)} (split : children = front ++ back)
    {above : List (Derivation τ κ T N × Nat)} (done : above.reverse.map Prod.fst = front)
    (walked : table.Walked (above ++ base))
    (quiet : rest = [] → Reading.Quiet goal (above ++ base))
    {s : State τ κ} (isState : table.state? (Reading.topState (above ++ base)) = some s)
    (member : (⟨place, front.length⟩ : Item) ∈ s.items) :
    ∃ frames s', frames.reverse.map Prod.fst = children ∧ table.Walked (frames ++ base) ∧
      (rest = [] → Reading.Quiet goal (frames ++ base)) ∧
      table.state? (Reading.topState (frames ++ base)) = some s' ∧
      (⟨place, rule.length⟩ : Item) ∈ s'.items ∧
      table.ReadsIn goal ((back.map Tree.size).sum)
        ⟨above ++ base, back.flatMap Derivation.tokens ++ rest.map Prod.snd⟩
        ⟨frames ++ base, rest.map Prod.snd⟩ := by
  induction back generalizing front above s with
  | nil =>
    rw [List.append_nil] at split
    refine ⟨above, s, done.trans split.symm, walked, quiet, isState, ?_, .refl _⟩
    rw [← Rule.length_symbols, ← spelled, List.length_map, split]
    exact member
  | cons c back ih =>
    have isChild : c ∈ children := split ▸ List.mem_append_right front List.mem_cons_self
    have later : ∀ child ∈ back, g.IsDerivation child := fun child inside =>
      derived child (split ▸ List.mem_append_right front (List.mem_cons_of_mem c inside))
    have closing : rest = [] → table.Closing goal (above ++ base) c := by
      intro last
      obtain ⟨single, silent⟩ := ending last
      exact ⟨single, quiet last, (silent c isChild).children⟩
    obtain ⟨state, s', walked', isState', member', reads⟩ := exists_reads_next built guide found
      (split ▸ spelled) later (follows c isChild) upcoming closing (split ▸ isGuided) behind done
      walked isState member
    -- from behind the child the induction goes on
    have split' : children = (front ++ [c]) ++ back := by
      rw [split, List.append_assoc]
      rfl
    have done' : ((c, state) :: above).reverse.map Prod.fst = front ++ [c] := by
      rw [List.reverse_cons, List.map_append, done]
      rfl
    have quiet' : rest = [] → Reading.Quiet goal (((c, state) :: above) ++ base) := by
      intro last frame isTop
      obtain rfl := Option.some.inj isTop
      exact ((ending last).2 c isChild).kind?_ne
    have passed : (⟨place, (front ++ [c]).length⟩ : Item) ∈ s'.items := by
      rw [List.length_append]
      exact member'
    obtain ⟨frames, s₁, all, walked₁, quiet₁, isState₁, member₁, others⟩ :=
      ih split' done' walked' quiet' isState' passed
    refine ⟨frames, s₁, all, walked₁, quiet₁, isState₁, member₁, ?_⟩
    rw [List.map_cons, List.sum_cons, List.flatMap_cons, List.append_assoc]
    exact .trans reads others

omit [DecidableEq N] in
/-- Where one rule has been read completely, it is the only one. -/
theorem reducible_eq_singleton (built : g.Automaton start table) (single : table.Single)
    {number : Nat} {s : State τ κ} (isState : table.state? number = some s) {place : Nat}
    (complete : place ∈ g.completeRules s.items) : s.reducible = [place] := by
  have listed := (built.mem_reducible isState).mpr complete
  have short := single number s isState
  obtain ⟨first, others, all⟩ := List.exists_cons_of_ne_nil (List.ne_nil_of_mem listed)
  rw [all, List.length_cons] at short
  have none : others = [] := List.eq_nil_of_length_eq_zero (by omega)
  rw [all, none, List.mem_singleton] at listed
  rw [all, none, listed]

/-- A rule that has been read completely is reduced. -/
theorem reads_reduction (built : g.Automaton start table) (distinct : g.Distinct) {place : Nat}
    {rule : Rule τ κ T N} (found : g.rule? place = some rule)
    {frames base : List (Derivation τ κ T N × Nat)} (count : frames.length = rule.length)
    {s : State τ κ} (isState : table.state? (Reading.topState (frames ++ base)) = some s)
    (member : (⟨place, rule.length⟩ : Item) ∈ s.items) {rest : List (τ × T)}
    (ending : rest = [] → table.Single ∧ Reading.Quiet goal (frames ++ base))
    (upcoming : g.Upcoming rest)
    (decided : ∀ t, rest.head?.map Prod.fst = some t → ∀ r ∈ s.resolutions, r.terminal = t →
      g.rule? r.rule = some rule → r.shifts = false)
    (behind : ∀ t, rest.head?.map Prod.fst = some t → t ∈ g.followOf rule.key) {target : Nat}
    (goes : table.goto? (Reading.topState base) rule.key = some target) :
    table.Reads goal ⟨frames ++ base, rest.map Prod.snd⟩
      ⟨(.branch rule (frames.reverse.map Prod.fst), target) :: base, rest.map Prod.snd⟩ := by
  have done : g.expected? ⟨place, rule.length⟩ = none := by
    rw [Grammar.expected?, found, Option.bind_some, Rule.symbolAt?_eq]
    exact if_neg (Nat.lt_irrefl _)
  have complete : place ∈ g.completeRules s.items :=
    g.mem_completeRules.mpr ⟨rule.length, member, done⟩
  have held : table.grammar.rule? place = some rule := built.grammar ▸ found
  have moves : table.move goal (Reading.stack ⟨frames ++ base, rest.map Prod.snd⟩)
      (rest.map Prod.snd) = .reduce place rule := by
    cases rest with
    | nil =>
      -- at the end no terminal decides: the rule must be the only one, the top not the goal
      obtain ⟨single, quiet⟩ := ending rfl
      refine moveAtEnd_of_reducible ?_ ?_ held
      · rw [Reading.topNode?_stack, Option.all_map, Option.all_eq_true]
        intro frame isTop
        simpa using quiet frame isTop
      · rw [Reading.top_stack, reducible, isState]
        exact reducible_eq_singleton built single isState complete
    | cons entry rest =>
      -- the terminal can come behind the rule, and no resolution has taken the reduction away
      have may : g.MayReduce g.followSets s.items entry.1 place :=
        ⟨complete, rule, found, behind entry.1 rfl⟩
      have reduces : s.actions.get? entry.1 = some (.reduce place) := by
        refine built.get?_reduce isState may fun r isResolution same => ?_
        obtain ⟨_, other, _⟩ := (built.mem_resolutions isState).mp isResolution
        rw [same] at other
        have agree := built.mayReduce_unique isState other may
        exact decided entry.1 rfl r isResolution same (agree ▸ found)
      have acts := actionFor?_of_get? built distinct isState reduces
        (upcoming entry List.mem_cons_self).1
      rw [← Reading.top_stack ⟨frames ++ base, []⟩] at acts
      exact move_of_actionFor?_reduce acts held
  have taken : Reading.topmost (frames ++ base) rule.length = frames.reverse.map Prod.fst := by
    rw [Reading.topmost, ← count, List.take_left, List.map_reverse]
  have left : (frames ++ base).drop rule.length = base := by
    rw [← count, List.drop_left]
  have enough : rule.length ≤ (frames ++ base).length := by
    rw [List.length_append, count]
    exact Nat.le_add_right _ _
  have step := Reads.reduce moves enough (left.symm ▸ goes)
  rwa [taken, left] at step

/-- Under a guide the parser follows every derivation. -/
theorem follows_of_guide (built : g.Automaton start table) (distinct : g.Distinct)
    (guide : table.Guide g guided) {D : Derivation τ κ T N}
    (derived : g.IsDerivation D) : table.Follows g goal guided D := by
  induction derived with
  | leaf t token accepted => exact follows_leaf built distinct guide accepted
  | branch rule children isRule spelled derived ih =>
    rintro frames rest walked closing upcoming ⟨s, item, isState, member, expected⟩ isGuided behind
    -- the branch begins where its root is expected, with nothing of its rule read
    have behindRule : ∀ t, rest.head?.map Prod.fst = some t → t ∈ g.followOf rule.key :=
      fun t next => behind t rule.key next rfl
    obtain ⟨place, found⟩ := List.mem_iff_getElem?.mp isRule
    obtain ⟨s', isState', reached⟩ := walked.reaches built
    obtain rfl := Option.some.inj (isState.symm.trans isState')
    have unread : (⟨place, 0⟩ : Item) ∈ s.items := by
      refine reached.predictive item member _ (g.mem_predicted.mpr ⟨rule.key, expected, ?_⟩)
      exact g.mem_startItems.mpr ⟨rfl, rule, found, rfl⟩
    have nothing : ([] : List (Derivation τ κ T N × Nat)).reverse.map Prod.fst = [] := rfl
    obtain ⟨above, s', all, walked', quiet', isState₁, complete, reads⟩ :=
      readsIn_children built guide found spelled derived ih upcoming
        (fun last => ⟨(closing last).single, (closing last).silent⟩) isGuided behindRule
        (List.nil_append children).symm nothing walked (fun last => (closing last).quiet) isState
        unread
    obtain ⟨target, goes⟩ := built.exists_goto isState member expected
    have count : above.length = rule.length := by
      rw [← Rule.length_symbols, ← spelled, List.length_map, ← all, List.length_map,
        List.length_reverse]
    have walk := walked'.walk_append
    rw [Reading.symbols_eq_map_root all] at walk
    have last := reads_reduction built distinct found count isState₁ complete
      (fun last => ⟨(closing last).single, quiet' last⟩) upcoming
      (fun t next => guide.complete (next ▸ isGuided) walk isState₁) behindRule
      (by rw [goto?, isState]; exact goes)
    rw [all] at last
    refine ⟨target, by rw [edge?, isState]; exact goes, ?_⟩
    rw [Derivation.size_branch, Nat.add_comm, Derivation.tokens_branch]
    exact reads.trans (.step last (.refl _))

/-- From the start state the parser reads every guided derivation of a key that
the start set expects, in as many steps as the derivation has nodes. -/
theorem exists_readsIn_of_guide (built : g.Automaton start table) (distinct : g.Distinct)
    (single : table.Single) (guide : table.Guide g guided) {D : Derivation τ κ T N}
    (derived : g.IsDerivation D) (silent : ∀ child ∈ D.children, Derivation.Silent goal child)
    {item : Item} (member : item ∈ g.startSet start) (expected : g.expected? item = some D.root)
    (isGuided : guided 0 none D) :
    ∃ state, table.ReadsIn goal D.size ⟨[], D.tokens⟩ ⟨[(D, state)], []⟩ := by
  obtain ⟨s, isState, items⟩ := built.first
  have follows : table.Follows g goal guided D :=
    follows_of_guide built distinct guide derived
  obtain ⟨state, _, reads⟩ := follows [] [] trivial (fun _ => ⟨single, nofun, silent⟩)
    (List.forall_mem_nil _)
    ⟨s, item, isState, items ▸ member, expected⟩ isGuided nofun
  rw [List.map_nil, List.append_nil] at reads
  exact ⟨state, reads⟩

end Table

end ShiftReduce
