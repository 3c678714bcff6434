/-
  How much of the input the tree of a clean parse covers.

  A parse is accepted as soon as a node of the kind asked for is on top of the
  stack at the end of the input. The nodes that lie below it are not part of
  the result, but they have their tokens: with those of the tree they are the
  input (`Table.leaves_of_parseTokens`). So a list whose tail is a list is
  accepted with its last element alone (`Rows.exists_uncovered`).

  Where nothing but quiet symbols can come before the keys of that kind
  (`Grammar.Leading`), only quiet symbols are on the stack when one of them is
  expected (`Leading.quiet_of_expected`), and what lies below the tree is quiet.
-/
import ShiftReduce.Proofs.Parser.Soundness

namespace ShiftReduce

variable {τ κ T N : Type}

/-! ### Keys that lead -/

namespace Grammar

/-- Wherever one of the keys is used, the symbols before it are quiet, and the
rule's own key is one of the keys. -/
def Leading (g : Grammar τ κ T N) (keys : κ → Prop) (quiet : Symbol τ κ → Prop) : Prop :=
  ∀ rule ∈ g.rules, ∀ front key back, rule.body = front ++ .nonterminal key :: back → keys key →
    keys rule.key ∧ ∀ symbol ∈ front, quiet symbol

/-- A symbol is silent if only the empty text can be read as it. -/
def Silent (g : Grammar τ κ T N) (symbol : Symbol τ κ) : Prop :=
  ∀ D, g.IsDerivation D → D.root = symbol → D.tokens = []

variable {g : Grammar τ κ T N} {start goal : κ}

/-- Where a goal frames the grammar, it leads with nothing before it. -/
theorem Framed.leading (framed : g.Framed start goal) :
    g.Leading (fun key => key = start ∨ key = goal) (fun _ => False) := by
  rintro rule isRule front key back body (rfl | rfl)
  · have used : .nonterminal key ∈ rule.body := by
      rw [body]
      exact List.mem_append_right front List.mem_cons_self
    exact absurd used (framed.start_fresh rule isRule)
  · have used : .nonterminal key ∈ rule.body := by
      rw [body]
      exact List.mem_append_right front List.mem_cons_self
    obtain ⟨isStart, whole⟩ := framed.goal_framed rule isRule used
    -- the body has one symbol, so there is none before the goal
    have nothing : front = [] := by
      have count := congrArg List.length (body.symm.trans whole)
      rw [List.length_append, List.length_cons, List.length_singleton] at count
      exact List.eq_nil_of_length_eq_zero (by omega)
    rw [nothing]
    exact ⟨.inl isStart, List.forall_mem_nil _⟩

namespace Leading

variable [DecidableEq κ] [DecidableEq τ] {keys : κ → Prop} {quiet : Symbol τ κ → Prop}
  {path : List (Symbol τ κ)} {items : ItemSet}

/-- Where an item expects one of the keys, the path is quiet if it is so up to
where the item's rule began. -/
theorem quiet_of_item (leading : g.Leading keys quiet) (reached : g.Reaches start path items)
    {item : Item} (member : item ∈ items) {key : κ}
    (expected : g.expected? item = some (.nonterminal key)) (isKey : keys key)
    (before : ∀ rule, g.rule? item.rule = some rule → keys rule.key →
      ∀ symbol ∈ path.drop item.cursor, quiet symbol) : ∀ symbol ∈ path, quiet symbol := by
  obtain ⟨rule, found, _, next⟩ := g.expected?_eq_some_iff.mp expected
  obtain ⟨bound, here⟩ := List.getElem?_eq_some_iff.mp next
  have body : rule.body = rule.body.take item.cursor ++
      .nonterminal key :: rule.body.drop (item.cursor + 1) := by
    rw [← here, ← List.drop_eq_getElem_cons bound, List.take_append_drop]
  obtain ⟨leads, front⟩ := leading rule (List.mem_of_getElem? found) _ _ _ body isKey
  obtain ⟨spelled, _⟩ := reached.backed member found
  intro symbol inside
  rw [← List.take_append_drop item.cursor path, List.mem_append, ← spelled, List.mem_reverse]
    at inside
  rcases inside with read | earlier
  · exact front symbol read
  · exact before rule found leads symbol earlier

/-- Before the rule of one of the keys began, only quiet symbols were read. -/
theorem quiet_of_mem (leading : g.Leading keys quiet) (reached : g.Reaches start path items)
    {item : Item} (member : item ∈ items) {rule : Rule τ κ T N}
    (found : g.rule? item.rule = some rule) (isKey : keys rule.key) :
    ∀ symbol ∈ path.drop item.cursor, quiet symbol := by
  induction reached generalizing item rule with
  | start =>
    rw [List.drop_nil]
    exact List.forall_mem_nil _
  | @read path items symbol prior reached inside expected ih =>
    have reached' : g.Reaches start (symbol :: path) (g.advance items symbol) :=
      .read reached inside expected
    -- leastness is used for the conjunction: what predicts is to be in the set
    have both : item ∈ g.advance items symbol ∧ ∀ rule, g.rule? item.rule = some rule →
        keys rule.key → ∀ other ∈ (symbol :: path).drop item.cursor, quiet other := by
      refine g.closure_least (S := fun item => item ∈ g.advance items symbol ∧
        ∀ rule, g.rule? item.rule = some rule → keys rule.key →
          ∀ other ∈ (symbol :: path).drop item.cursor, quiet other) ?_ ?_ item member
      · intro parent isParent next predicted
        refine ⟨reached'.predictive parent isParent.1 next predicted, ?_⟩
        intro rule found isKey
        obtain ⟨key, asks, isStart⟩ := g.mem_predicted.mp predicted
        obtain ⟨unread, rule', found', same⟩ := g.mem_startItems.mp isStart
        obtain rfl := Option.some.inj (found.symm.trans found')
        rw [unread, List.drop_zero]
        exact leading.quiet_of_item reached' isParent.1 asks (same ▸ isKey) isParent.2
      · intro bumped isKernel
        obtain ⟨prior, isPrior, asks, rfl⟩ := g.mem_kernel.mp isKernel
        refine ⟨g.bump_mem_advance isPrior asks, ?_⟩
        intro rule found isKey
        exact ih isPrior found isKey
    exact both.2 rule found isKey

/-- Where one of the keys is expected, only quiet symbols have been read. -/
theorem quiet_of_expected (leading : g.Leading keys quiet) (reached : g.Reaches start path items)
    {item : Item} (member : item ∈ items) {key : κ}
    (expected : g.expected? item = some (.nonterminal key)) (isKey : keys key) :
    ∀ symbol ∈ path, quiet symbol :=
  leading.quiet_of_item reached member expected isKey
    fun _ found leads => leading.quiet_of_mem reached member found leads

end Leading

end Grammar

/-! ### Leaves of the stack -/

variable [Ordered τ] [Ordered κ] [DecidableEq τ] [DecidableEq κ]

namespace Table

variable {g : Grammar τ κ T N} {start : κ} {table : Table τ κ T N} {tokens : List T}
  {frames below : List (Derivation τ κ T N × Nat)}

/-- Where no rule drops, adds or moves tokens, the nodes on the stack have the
tokens that were read. -/
theorem Sound.leaves (sound : table.Sound g tokens ⟨frames, []⟩)
    (keeps : ∀ rule ∈ g.rules, ∀ nodes : List (Tree T N),
      (rule.build nodes).leaves = Tree.forestLeaves nodes) :
    (Reading.stack ⟨frames, []⟩).nodes.flatMap Tree.leaves = tokens := by
  have all := sound.tokens
  rw [List.append_nil] at all
  rw [Stack.nodes, Reading.stack, List.map_map, ← List.map_reverse, List.flatMap_map, ← all]
  apply List.flatMap_congr
  intro frame member
  show frame.1.build.leaves = frame.1.tokens
  exact (sound.derived frame (List.mem_reverse.mp member)).leaves_build keeps

/-- Below a node of a leading key, the stack is quiet. -/
theorem Sound.quiet {keys : κ → Prop} {quiet : Symbol τ κ → Prop}
    {D : Derivation τ κ T N} {state : Nat} {input : List T}
    (sound : table.Sound g tokens ⟨(D, state) :: below, input⟩) (built : g.Automaton start table)
    (leading : g.Leading keys quiet) {key : κ} (root : D.root = .nonterminal key)
    (isKey : keys key) : ∀ frame ∈ below, quiet frame.1.root := by
  obtain ⟨items, reached, item, member, expected⟩ := sound.walked.exists_expected built
  rw [root] at expected
  have path := leading.quiet_of_expected reached member expected isKey
  intro frame isFrame
  exact path frame.1.root (List.mem_map_of_mem isFrame)

end Table

/-! ### Clean parses -/

variable [DecidableEq N] [Named κ] [Token T]

namespace Table

variable {g : Grammar τ κ T N} {start : κ} {table : Table τ κ T N} {goal : N} {budget : Nat}
  {tokens : List T} {stats : Stats} {tree : Tree T N} {m : Machine T N}

/-- Whenever a parse is accepted without a diagnostic, the nodes on the stack,
the tree on top of them, have the tokens for leaves, in order. So the tree has
all of them if and only if the nodes below it have none. Where the keys that
build nodes of the kind asked for lead, nothing is left below the tree if
nothing can come before them, and no token if only silent symbols can. -/
theorem leaves_of_parseTokens {placeholders : List (κ × Tree T N)}
    (built : g.table start placeholders = .ok table)
    (plain : ∀ rule ∈ g.rules, rule.build = Tree.branch rule.kind)
    (accepted : table.parseTokens goal budget tokens stats = (.accepted tree, m))
    (clean : m.diagnostics = []) :
    ∃ below, m.stack.nodes = below ++ [tree] ∧
      below.flatMap Tree.leaves ++ tree.leaves = tokens ∧
      (tree.leaves = tokens ↔ ∀ node ∈ below, node.leaves = []) ∧
      ∀ keys quiet, g.Leading keys quiet → (∀ rule ∈ g.rules, rule.kind = goal → keys rule.key) →
        ((∀ symbol, ¬ quiet symbol) → below = []) ∧
        ((∀ symbol, quiet symbol → g.Silent symbol) → tree.leaves = tokens) := by
  have automaton := Grammar.automaton_of_table built
  have keeps : ∀ rule ∈ g.rules, ∀ nodes : List (Tree T N),
      (rule.build nodes).leaves = Tree.forestLeaves nodes := by
    intro rule isRule nodes
    rw [plain rule isRule]
    rfl
  obtain ⟨D, state, frames, sound, rfl, kind, shadows⟩ :=
    exists_shadowed_of_parseTokens automaton accepted clean
  have nodes : m.stack.nodes = (Reading.stack ⟨frames, []⟩).nodes ++ [D.build] := by
    rw [shadows.1]
    simp [Reading.stack, Stack.nodes]
  -- nothing was reported, so the nodes have all the tokens for leaves
  have all : (Reading.stack ⟨frames, []⟩).nodes.flatMap Tree.leaves ++ D.build.leaves = tokens := by
    have leaves := sound.leaves keeps
    rw [← shadows.1, nodes, List.flatMap_append, List.flatMap_singleton] at leaves
    exact leaves
  have whole : D.build.leaves = tokens ↔
      ∀ node ∈ (Reading.stack ⟨frames, []⟩).nodes, node.leaves = [] := by
    rw [← List.flatMap_eq_nil_iff, ← all, List.self_eq_append_left]
  refine ⟨_, nodes, all, whole, ?_⟩
  intro keys quiet leading only
  -- rules build branches of their kind, so the tree comes from one of the keys
  obtain ⟨key, root, isKey⟩ : ∃ key, D.root = .nonterminal key ∧ keys key := by
    cases sound.derived _ List.mem_cons_self with
    | leaf t token _ => cases kind
    | branch rule children isRule _ _ =>
      rw [Derivation.build_branch, plain rule isRule] at kind
      exact ⟨rule.key, rfl, only rule isRule (Option.some.inj kind)⟩
  have below := sound.quiet automaton leading root isKey
  constructor
  · intro loud
    cases frames with
    | nil => rfl
    | cons frame rest => exact absurd (below frame List.mem_cons_self) (loud frame.1.root)
  · intro silent
    refine whole.mpr fun node isNode => ?_
    obtain ⟨entry, isEntry, rfl⟩ := List.mem_map.mp (List.mem_reverse.mp isNode)
    obtain ⟨frame, isFrame, rfl⟩ := List.mem_map.mp isEntry
    have derived := sound.derived frame (List.mem_cons_of_mem _ isFrame)
    show frame.1.build.leaves = []
    rw [derived.leaves_build keeps]
    exact silent _ (below frame isFrame) frame.1 derived rfl

end Table

namespace Brackets

/-- Nested brackets are read as a text, which covers them. -/
theorem leaves_of_nested : ∃ tree m,
    grammar.table .start [] = .ok table ∧
    (∀ rule ∈ grammar.rules, rule.build = Tree.branch rule.kind) ∧
    table.parseTokens .text 16 nested {} = (.accepted tree, m) ∧ m.diagnostics = [] ∧
    m.stack.nodes = [tree] ∧ tree.leaves = nested := by
  have clean : (table.parseTokens .text 16 nested {}).2.diagnostics = [] := by decide +kernel
  have accepts : (table.parseTokens .text 16 nested {}).1.tree?.isSome := by decide +kernel
  generalize ran : table.parseTokens .text 16 nested {} = result at clean accepts
  obtain ⟨outcome, m⟩ := result
  obtain ⟨tree, found⟩ := Option.isSome_iff_exists.mp accepts
  obtain rfl : outcome = .accepted tree := Outcome.eq_accepted found
  obtain ⟨below, nodes, _, _, covers⟩ :=
    Table.leaves_of_parseTokens table_eq build_rule ran clean
  have texts : ∀ r ∈ grammar.rules, r.kind = .text → r.key = .start ∨ r.key = .text := by decide
  obtain ⟨alone, whole⟩ := covers _ _ framed.leading texts
  have nothing : below = [] := alone fun _ never => never
  rw [nothing, List.nil_append] at nodes
  exact ⟨tree, m, table_eq, build_rule, rfl, clean, nodes, whole fun _ never => never.elim⟩

end Brackets

/-! ### Rows of brackets -/

namespace Rows

open Brackets (Mark Part rule)

/-- A row of opening brackets, a list whose tail is a list. -/
def grammar : Grammar Mark Part Mark Part where
  alphabet := Brackets.grammar.alphabet
  rules :=
    [rule .start [.nonterminal .list], rule .list [.terminal .opening, .nonterminal .list],
      rule .list [.terminal .opening]]
  rules_ne_nil := List.cons_ne_nil _ _
  defined := defined_of_undefinedUse? rfl

theorem exists_table : (grammar.table .start []).toOption.isSome := by decide +kernel

/-- The parse table of rows. -/
def table : Table Mark Part Mark Part := (grammar.table .start []).toOption.get exists_table

theorem table_eq : grammar.table .start [] = .ok table := eq_ok_get exists_table

/-- A row of two brackets is accepted as the list of its last bracket, and the
first one is left below it. -/
theorem exists_uncovered : ∃ tree m,
    grammar.table .start [] = .ok table ∧
    (∀ rule ∈ grammar.rules, rule.build = Tree.branch rule.kind) ∧
    table.parseTokens .list 8 [.opening, .opening] {} = (.accepted tree, m) ∧
    m.diagnostics = [] ∧ m.stack.nodes = [.leaf .opening, tree] ∧
    tree.leaves ≠ [.opening, .opening] := by
  have plain : ∀ r ∈ grammar.rules, r.build = Tree.branch r.kind := by simp [grammar, rule]
  have clean : (table.parseTokens .list 8 [.opening, .opening] {}).2.diagnostics = [] := by
    decide +kernel
  have accepts : (table.parseTokens .list 8 [.opening, .opening] {}).1.tree? =
      some (.branch .list [.leaf .opening]) := by
    decide +kernel
  have nodes : (table.parseTokens .list 8 [.opening, .opening] {}).2.stack.nodes =
      [.leaf .opening, .branch .list [.leaf .opening]] := by
    decide +kernel
  exact ⟨.branch .list [.leaf .opening], _, table_eq, plain,
    Prod.ext (Outcome.eq_accepted accepts) rfl, clean, nodes, by decide⟩

end Rows

end ShiftReduce
