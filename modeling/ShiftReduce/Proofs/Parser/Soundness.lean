/-
  Parses without errors are derivations.

  A reading is sound (`Sound`) if its derivations are those of the grammar,
  their roots are the symbols of a walk along the edges of the table, and their
  leaves with the tokens to come are the input. A reduction finds the body of
  its rule on the stack, since the items of the state on top are backed by the
  walk (`Walked.body`); so every step keeps a reading sound (`Sound.reads`), and
  the tree of a clean parse is built by a derivation.

  A parse is accepted as soon as a node of the kind asked for is on top of the
  stack, whatever lies below it. Where the goal frames the grammar nothing can
  lie below, and the derivation is one of the whole input.
-/
import ShiftReduce.Proofs.Brackets
import ShiftReduce.Proofs.Parser.Reading
import ShiftReduce.Proofs.Table.Automaton

namespace ShiftReduce

variable {τ κ T N : Type} [Ordered τ] [Ordered κ] [DecidableEq τ] [DecidableEq κ]

/-! ### Walks -/

/-- The frames are those of a walk: each state is the one that an edge leads
to from the state below, along the root of its derivation. -/
def Table.Walked (table : Table τ κ T N) : List (Derivation τ κ T N × Nat) → Prop
  | [] => True
  | (D, state) :: below =>
    table.edge? (Reading.topState below) D.root = some state ∧ table.Walked below

namespace Table.Walked

variable {g : Grammar τ κ T N} {start : κ} {table : Table τ κ T N}
  {frames : List (Derivation τ κ T N × Nat)}

/-- From the top of some frames the frames above it are a walk. -/
theorem walk_append {above : List (Derivation τ κ T N × Nat)}
    (walked : table.Walked (above ++ frames)) :
    table.walk? (Reading.topState frames) (Reading.symbols above) =
      some (Reading.topState (above ++ frames)) := by
  induction above with
  | nil => rfl
  | cons frame below ih =>
    obtain ⟨edge, rest⟩ := walked
    rw [Reading.symbols_cons, walk?_concat, ih rest]
    exact edge

theorem walk (walked : table.Walked frames) :
    table.walk? 0 (Reading.symbols frames) = some (Reading.topState frames) := by
  have whole : table.Walked (frames ++ []) := by rwa [List.append_nil]
  have end_ := whole.walk_append
  rwa [List.append_nil] at end_

theorem drop (walked : table.Walked frames) (count : Nat) : table.Walked (frames.drop count) := by
  induction frames generalizing count with
  | nil =>
    rw [List.drop_nil]
    trivial
  | cons frame below ih =>
    cases count with
    | zero => exact walked
    | succ count => exact ih walked.2 count

/-- The state on top and the path to its item set. -/
theorem reaches (walked : table.Walked frames) (built : g.Automaton start table) :
    ∃ s, table.state? (Reading.topState frames) = some s ∧
      g.Reaches start (frames.map fun frame => frame.1.root) s.items := by
  obtain ⟨s, isState, reached⟩ := built.reaches_of_walk walked.walk
  rw [Reading.symbols, List.reverse_reverse] at reached
  exact ⟨s, isState, reached⟩

/-- The set below a frame expects the root of its derivation. -/
theorem exists_expected {D : Derivation τ κ T N} {state : Nat}
    (walked : table.Walked ((D, state) :: frames)) (built : g.Automaton start table) :
    ∃ items, g.Reaches start (frames.map fun frame => frame.1.root) items ∧
      ∃ item ∈ items, g.expected? item = some D.root := by
  obtain ⟨edge, rest⟩ := walked
  obtain ⟨s, isState, reached⟩ := rest.reaches built
  rw [edge?, isState] at edge
  obtain ⟨_, item, member, expected⟩ := built.of_next? isState edge
  exact ⟨s.items, reached, item, member, expected⟩

/-- A rule that the state on top has read completely has its body on top of
the stack, and below it the state has the rule with nothing read. -/
theorem body (walked : table.Walked frames) (built : g.Automaton start table) {s : State τ κ}
    (isState : table.state? (Reading.topState frames) = some s) {place : Nat}
    (complete : place ∈ g.completeRules s.items) {rule : Rule τ κ T N}
    (found : g.rule? place = some rule) :
    rule.length ≤ frames.length ∧
      (Reading.topmost frames rule.length).map Derivation.root = rule.symbols := by
  obtain ⟨s', isState', reached⟩ := walked.reaches built
  obtain rfl := Option.some.inj (isState.symm.trans isState')
  obtain ⟨cursor, member, done⟩ := g.mem_completeRules.mp complete
  obtain rfl := reached.cursor_eq_length member found done
  obtain ⟨spelled, _⟩ := reached.backed member found
  -- the path to the state is spelled by the frames, so its end is the body
  have roots : rule.body.take rule.length =
      (Reading.topmost frames rule.length).map Derivation.root := by
    rw [← List.reverse_reverse (rule.body.take rule.length), spelled, Reading.topmost,
      List.map_reverse, List.map_map, ← List.map_take]
    rfl
  constructor
  · have held := reached.length_le member found
    rwa [List.length_map] at held
  · rw [← roots]
    refine (Rule.symbols_eq_take fun symbol inside => ?_).symm
    rw [roots] at inside
    obtain ⟨D, _, rfl⟩ := List.mem_map.mp inside
    exact D.root_ne_epsilon

end Table.Walked

/-! ### Sound readings -/

/-- A reading is sound for some tokens if its derivations are those of the
grammar, on the frames of a walk, and their leaves with the tokens to come are
these tokens. -/
structure Table.Sound (table : Table τ κ T N) (g : Grammar τ κ T N) (tokens : List T)
    (r : Reading τ κ T N) : Prop where
  derived : ∀ frame ∈ r.frames, g.IsDerivation frame.1
  walked : table.Walked r.frames
  tokens : (r.frames.reverse.flatMap fun frame => frame.1.tokens) ++ r.input = tokens

namespace Table

variable {g : Grammar τ κ T N} {start : κ} {table : Table τ κ T N} {tokens : List T}
  {r r' : Reading τ κ T N}

theorem sound_start (table : Table τ κ T N) (g : Grammar τ κ T N) (tokens : List T) :
    table.Sound g tokens ⟨[], tokens⟩ where
  derived := List.forall_mem_nil _
  walked := trivial
  tokens := rfl

/-- The terminal that a parser shifts by accepts the token and has an edge. -/
theorem edge_of_actionFor? (built : g.Automaton start table) {number target : Nat} {token : T}
    {t : τ} (acts : table.actionFor? number token = some (t, .shift target)) :
    table.edge? number (.terminal t) = some target ∧ (g.alphabet t).accepts token = true := by
  rw [actionFor?, Option.bind_eq_some_iff] at acts
  obtain ⟨s, isState, acts⟩ := acts
  rw [State.actionFor?, built.grammar] at acts
  have listed := SortedMap.mem_entries.mp (List.mem_of_find?_eq_some acts)
  refine ⟨?_, by simpa using List.find?_some acts⟩
  rw [edge?, isState]
  simp only [Option.bind_some, State.next?, listed]

/-- A rule that a state reduces at the end of the input has been read
completely. -/
theorem complete_of_reducible (built : g.Automaton start table) {number place : Nat}
    {s : State τ κ} (isState : table.state? number = some s)
    (isReducible : place ∈ table.reducible number) : place ∈ g.completeRules s.items := by
  rw [reducible, isState] at isReducible
  exact (built.mem_reducible isState).mp isReducible

/-- A rule that a state reduces on a token has been read completely. -/
theorem complete_of_actionFor? (built : g.Automaton start table) {number place : Nat}
    {s : State τ κ} (isState : table.state? number = some s) {token : T} {t : τ}
    (acts : table.actionFor? number token = some (t, .reduce place)) :
    place ∈ g.completeRules s.items := by
  rw [actionFor?, isState] at acts
  have listed : (t, Action.reduce place) ∈ s.actions.entries := List.mem_of_find?_eq_some acts
  exact (built.mayReduce_of_get? isState (SortedMap.mem_entries.mp listed)).1

variable [DecidableEq N] {goal : N}

/-- The rule that a parser reduces by has been read completely. -/
theorem complete_of_move (built : g.Automaton start table) {input : List T} {stack : Stack T N}
    {place : Nat} {rule : Rule τ κ T N}
    (moves : table.move goal stack input = .reduce place rule) {s : State τ κ}
    (isState : table.state? stack.top = some s) :
    place ∈ g.completeRules s.items ∧ g.rule? place = some rule := by
  cases input with
  | nil =>
    obtain ⟨only, found⟩ := reducible_of_moveAtEnd moves
    rw [built.grammar] at found
    have isReducible : place ∈ table.reducible stack.top := by
      rw [only]
      exact List.mem_singleton_self place
    exact ⟨complete_of_reducible built isState isReducible, found⟩
  | cons token rest =>
    obtain ⟨⟨t, acts⟩, found⟩ := actionFor?_of_moveOn_reduce moves
    rw [built.grammar] at found
    exact ⟨complete_of_actionFor? built isState acts, found⟩

/-- So it has been by the state on top of the frames of a walk. -/
theorem Walked.complete_of_move {frames : List (Derivation τ κ T N × Nat)}
    (walked : table.Walked frames) (built : g.Automaton start table) {input : List T} {place : Nat}
    {rule : Rule τ κ T N}
    (moves : table.move goal (Reading.stack ⟨frames, input⟩) input = .reduce place rule) :
    ∃ s, table.state? (Reading.topState frames) = some s ∧
      g.Reaches start (frames.map fun frame => frame.1.root) s.items ∧
      place ∈ g.completeRules s.items ∧ g.rule? place = some rule := by
  obtain ⟨s, isState, reached⟩ := walked.reaches built
  have isTop := isState
  rw [← Reading.top_stack ⟨frames, input⟩] at isTop
  exact ⟨s, isState, reached, Table.complete_of_move built moves isTop⟩

/-- A rule is reduced only on a token that can come behind its key. -/
theorem canFollow_of_move (built : g.Automaton start table) {stack : Stack T N} {token : T}
    {rest : List T} {place : Nat} {rule : Rule τ κ T N}
    (moves : table.move goal stack (token :: rest) = .reduce place rule) :
    table.canFollow rule.key token = true := by
  obtain ⟨⟨t, acts⟩, found⟩ := actionFor?_of_moveOn_reduce moves
  rw [built.grammar] at found
  rw [actionFor?, Option.bind_eq_some_iff] at acts
  obtain ⟨s, isState, acts⟩ := acts
  rw [State.actionFor?, built.grammar] at acts
  have listed : (t, Action.reduce place) ∈ s.actions.entries := List.mem_of_find?_eq_some acts
  obtain ⟨_, rule', found', behind⟩ :=
    built.mayReduce_of_get? isState (SortedMap.mem_entries.mp listed)
  obtain rfl := Option.some.inj (found.symm.trans found')
  exact built.canFollow_iff.mpr ⟨t, behind, by simpa using List.find?_some acts⟩

/-- Every step keeps a reading sound. -/
theorem Sound.reads (built : g.Automaton start table) (sound : table.Sound g tokens r)
    (reads : table.Reads goal r r') : table.Sound g tokens r' := by
  cases reads with
  | @shift frames token rest t target acts =>
    obtain ⟨edge, accepted⟩ := edge_of_actionFor? built acts
    refine ⟨?_, ⟨edge, sound.walked⟩, ?_⟩
    · intro frame member
      rcases List.mem_cons.mp member with rfl | below
      · exact .leaf t token accepted
      · exact sound.derived frame below
    · rw [← sound.tokens, List.reverse_cons, List.flatMap_append, List.append_assoc]
      rfl
  | @reduce frames input place rule target moves enough goes =>
    obtain ⟨s, isState, _, complete, found⟩ := sound.walked.complete_of_move built moves
    obtain ⟨_, spelled⟩ := sound.walked.body built isState complete found
    -- the nodes taken are derivations that spell the body
    have children : ∀ D ∈ Reading.topmost frames rule.length, g.IsDerivation D := by
      intro D member
      obtain ⟨frame, isFrame, rfl⟩ := List.mem_map.mp (List.mem_reverse.mp member)
      exact sound.derived frame (List.mem_of_mem_take isFrame)
    refine ⟨?_, ⟨?_, sound.walked.drop rule.length⟩, ?_⟩
    · intro frame member
      rcases List.mem_cons.mp member with rfl | below
      · exact .branch rule _ (List.mem_of_getElem? found) spelled children
      · exact sound.derived frame (List.mem_of_mem_drop below)
    · rw [goto?, Option.bind_eq_some_iff] at goes
      obtain ⟨under, isUnder, goes⟩ := goes
      rw [edge?, isUnder]
      exact goes
    · rw [← sound.tokens]
      exact congrArg (· ++ input) (Reading.spelled_reduced rule target rule.length frames)

theorem Sound.readsIn (built : g.Automaton start table) (sound : table.Sound g tokens r) {n : Nat}
    (reads : table.ReadsIn goal n r r') : table.Sound g tokens r' := by
  induction reads with
  | refl => exact sound
  | step first _ ih => exact ih (sound.reads built first)

end Table

/-! ### Clean parses -/

variable [DecidableEq N] [Named κ] [Token T]

namespace Table

variable {g : Grammar τ κ T N} {start : κ} {table : Table τ κ T N} {goal : N} {budget : Nat}
  {tokens : List T} {stats : Stats} {tree : Tree T N} {m : Machine T N}

/-- The reading that a clean parse ends with, and the machine with it. -/
theorem exists_shadowed_of_parseTokens (built : g.Automaton start table)
    (accepted : table.parseTokens goal budget tokens stats = (.accepted tree, m))
    (clean : m.diagnostics = []) :
    ∃ D state below, table.Sound g tokens ⟨(D, state) :: below, []⟩ ∧ D.build = tree ∧
      tree.kind? = some goal ∧ m.Shadows (⟨(D, state) :: below, []⟩ : Reading τ κ T N) := by
  unfold parseTokens parse at accepted
  split at accepted
  · have shadows : (⟨.base 0, tokens, stats, [], none, none⟩ : Machine T N).Shadows
        (⟨[], tokens⟩ : Reading τ κ T N) := ⟨rfl, rfl⟩
    obtain ⟨n, ⟨frames, input⟩, D, state, below, reads, rfl, rfl, builds, kind, shadowed⟩ :=
      exists_readsIn_of_run shadows accepted (by rw [clean])
    have sound := (sound_start table g tokens).readsIn built reads
    exact ⟨D, state, below, sound, builds, kind, shadowed⟩
  · cases congrArg Prod.fst accepted

/-- The reading that a clean parse ends with. -/
theorem exists_sound_of_parseTokens (built : g.Automaton start table)
    (accepted : table.parseTokens goal budget tokens stats = (.accepted tree, m))
    (clean : m.diagnostics = []) :
    ∃ D state below, table.Sound g tokens ⟨(D, state) :: below, []⟩ ∧ D.build = tree ∧
      tree.kind? = some goal := by
  obtain ⟨D, state, below, sound, builds, kind, _⟩ :=
    exists_shadowed_of_parseTokens built accepted clean
  exact ⟨D, state, below, sound, builds, kind⟩

omit [DecidableEq N] [Named κ] [Token T] in
/-- Where the goal frames the grammar, nothing lies below it. -/
theorem Sound.alone {D : Derivation τ κ T N} {state : Nat}
    {below : List (Derivation τ κ T N × Nat)} {input : List T} {key : κ}
    (sound : table.Sound g tokens ⟨(D, state) :: below, input⟩) (built : g.Automaton start table)
    (framed : g.Framed start key) (root : D.root = .nonterminal key) : below = [] := by
  obtain ⟨items, reached, item, member, expected⟩ := sound.walked.exists_expected built
  rw [root] at expected
  -- a set that expects the goal has nothing read before it
  have bottom := framed.path_eq_nil reached member expected
  rwa [List.map_eq_nil_iff] at bottom

/-- Whenever a parse is accepted without a diagnostic, the tree is built by the
last of some derivations whose roots spell a walk from the start state and
whose leaves are the tokens. If only derivations of one key build nodes of the
kind asked for and this key frames the grammar, it is a derivation of that key
and the only one. -/
theorem exists_derivation_of_parseTokens {placeholders : List (κ × Tree T N)}
    (built : g.table start placeholders = .ok table)
    (accepted : table.parseTokens goal budget tokens stats = (.accepted tree, m))
    (clean : m.diagnostics = []) :
    ∃ below D, (∀ E ∈ below ++ [D], g.IsDerivation E) ∧
      (∃ state, table.walk? 0 ((below ++ [D]).map Derivation.root) = some state) ∧
      (below ++ [D]).flatMap Derivation.tokens = tokens ∧ D.build = tree ∧
      ∀ key, (∀ E, g.IsDerivation E → E.build.kind? = some goal → E.root = .nonterminal key) →
        g.Framed start key → below = [] ∧ D.root = .nonterminal key := by
  have automaton := Grammar.automaton_of_table built
  obtain ⟨D, state, below, sound, builds, kind⟩ :=
    exists_sound_of_parseTokens automaton accepted clean
  have listed : below.reverse.map Prod.fst ++ [D] =
      ((D, state) :: below).reverse.map Prod.fst := by
    rw [List.reverse_cons, List.map_append]
    rfl
  refine ⟨below.reverse.map Prod.fst, D, ?_, ⟨state, ?_⟩, ?_, builds, ?_⟩
  · intro E member
    rw [listed] at member
    obtain ⟨frame, isFrame, rfl⟩ := List.mem_map.mp member
    exact sound.derived frame (List.mem_reverse.mp isFrame)
  · rw [listed, List.map_map, List.map_reverse]
    exact sound.walked.walk
  · rw [listed, List.flatMap_map, ← sound.tokens, List.append_nil]
  · intro key only framed
    have root := only D (sound.derived _ List.mem_cons_self) (builds ▸ kind)
    have bottom := sound.alone automaton framed root
    exact ⟨by rw [bottom, List.reverse_nil, List.map_nil], root⟩

end Table

/-! ### Balanced brackets -/

namespace Brackets

theorem exists_table : (grammar.table .start []).toOption.isSome := by decide +kernel

/-- The parse table of balanced brackets. -/
def table : Table Mark Part Mark Part := (grammar.table .start []).toOption.get exists_table

theorem table_eq : grammar.table .start [] = .ok table := eq_ok_get exists_table

theorem framed : grammar.Framed .start .text := ⟨by decide, by decide⟩

theorem build_rule : ∀ r ∈ grammar.rules, r.build = Tree.branch r.kind := by
  simp [grammar, rule]

theorem kind_rule : ∀ r ∈ grammar.rules, r.kind = r.key := by decide

/-- Only derivations of a key build nodes of that kind. -/
theorem root_of_kind {D : Derivation Mark Part Mark Part} (derived : grammar.IsDerivation D)
    {key : Part} (kind : D.build.kind? = some key) : D.root = .nonterminal key := by
  cases derived with
  | leaf t token _ => cases kind
  | branch r children isRule _ _ =>
    rw [Derivation.build_branch, build_rule r isRule] at kind
    rw [Derivation.root, ← kind_rule r isRule]
    exact congrArg Symbol.nonterminal (Option.some.inj kind)

/-- The tokens of one group in another. -/
def nested : List Mark := [.opening, .opening, .closing, .closing]

/-- Nested brackets are read as a text, which is derived as a whole. -/
theorem exists_derivation_of_nested : ∃ tree m,
    grammar.table .start [] = .ok table ∧
    table.parseTokens .text 16 nested {} = (.accepted tree, m) ∧ m.diagnostics = [] ∧
    ∃ below D, (∀ E ∈ below ++ [D], grammar.IsDerivation E) ∧
      (∃ state, table.walk? 0 ((below ++ [D]).map Derivation.root) = some state) ∧
      (below ++ [D]).flatMap Derivation.tokens = nested ∧ D.build = tree ∧
      below = [] ∧ D.root = .nonterminal .text := by
  have clean : (table.parseTokens .text 16 nested {}).2.diagnostics = [] := by decide +kernel
  have accepts : (table.parseTokens .text 16 nested {}).1.tree?.isSome := by decide +kernel
  generalize ran : table.parseTokens .text 16 nested {} = result at clean accepts
  obtain ⟨outcome, m⟩ := result
  obtain ⟨tree, found⟩ := Option.isSome_iff_exists.mp accepts
  obtain rfl : outcome = .accepted tree := Outcome.eq_accepted found
  obtain ⟨below, D, derived, walk, tokens, builds, whole⟩ :=
    Table.exists_derivation_of_parseTokens table_eq ran clean
  obtain ⟨alone, root⟩ := whole .text (fun _ derived kind => root_of_kind derived kind) framed
  exact ⟨tree, m, table_eq, rfl, clean, below, D, derived, walk, tokens, builds, alone, root⟩

end Brackets

end ShiftReduce
