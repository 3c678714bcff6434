/-
  The item sets behind the symbols that a parser can have on its stack.

  `g.Reaches start path items` says that reading the symbols of `path`, which
  lists the last one read first, leads from the start set to `items`, every
  symbol being expected when it is read. Every item of such a set is backed by
  the path: what its cursor has passed are the latest symbols read, and before
  them the rule was predicted (`Reaches.backed`). This is what lets a
  reduction find its whole body on the stack.

  A grammar is framed by a start key and a goal key if the start key is used
  nowhere and the goal key only as the whole body of start rules. Then the goal
  is expected at the bottom of the stack alone (`Framed.path_eq_nil`).
-/
import ShiftReduce.Proofs.Closure
import ShiftReduce.Proofs.Derivation

namespace ShiftReduce

variable {τ κ T N : Type} [DecidableEq κ] [DecidableEq τ]

namespace Grammar

/-- All items of a grammar. -/
def allItems (g : Grammar τ κ T N) : List Item :=
  g.rules.zipIdx.flatMap fun entry => (List.range (entry.1.length + 1)).map (⟨entry.2, ·⟩)

/-- The item sets that reading symbols leads to, with the symbols read, the
last one first. -/
inductive Reaches (g : Grammar τ κ T N) (start : κ) : List (Symbol τ κ) → ItemSet → Prop
  | start : g.Reaches start [] (g.startSet start)
  | read {path : List (Symbol τ κ)} {items : ItemSet} {symbol : Symbol τ κ} {item : Item}
      (reached : g.Reaches start path items) (member : item ∈ items)
      (expected : g.expected? item = some symbol) :
      g.Reaches start (symbol :: path) (g.advance items symbol)

namespace Reaches

variable {g : Grammar τ κ T N} {start : κ} {path : List (Symbol τ κ)} {items : ItemSet}

/-- A rule of which nothing has been read is a start rule at the bottom, or
some item of the set predicts it. -/
theorem predicted_of_unread (reached : g.Reaches start path items) {place : Nat}
    (member : (⟨place, 0⟩ : Item) ∈ items) :
    (path = [] ∧ (⟨place, 0⟩ : Item) ∈ g.startItems start) ∨
      ∃ parent ∈ items, (⟨place, 0⟩ : Item) ∈ g.predicted parent := by
  cases reached with
  | start =>
    rcases g.mem_closure_cases member with h | h
    · exact .inl ⟨rfl, SortedSet.mem_ofList.mp h⟩
    · exact .inr h
  | read _ _ _ =>
    rcases g.mem_advance_cases member with ⟨prior, _, _, same⟩ | ⟨_, h⟩
    · have cursor := congrArg Item.cursor same
      exact absurd cursor (Nat.succ_ne_zero _)
    · exact .inr h

/-- Every item belongs to a rule, which holds its cursor. -/
theorem exists_rule (reached : g.Reaches start path items) {item : Item} (member : item ∈ items) :
    ∃ rule, g.rule? item.rule = some rule ∧ item.cursor ≤ rule.length := by
  have unread : ∀ {place : Nat} {key : κ}, (⟨place, 0⟩ : Item) ∈ g.startItems key →
      ∃ rule, g.rule? place = some rule := by
    intro place key isStart
    obtain ⟨_, rule, found, _⟩ := g.mem_startItems.mp isStart
    exact ⟨rule, found⟩
  obtain ⟨place, cursor⟩ := item
  cases cursor with
  | zero =>
    have found : ∃ rule, g.rule? place = some rule := by
      rcases reached.predicted_of_unread member with ⟨_, h⟩ | ⟨parent, _, h⟩
      · exact unread h
      · obtain ⟨key, _, isStart⟩ := g.mem_predicted.mp h
        exact unread isStart
    obtain ⟨rule, found⟩ := found
    exact ⟨rule, found, Nat.zero_le _⟩
  | succ cursor =>
    cases reached with
    | start => exact absurd (g.cursor_of_mem_startSet member) (Nat.succ_ne_zero cursor)
    | read _ _ _ =>
      obtain ⟨_, expected⟩ := g.mem_of_succ_mem_advance member
      obtain ⟨rule, found, within, _⟩ := g.expected?_eq_some_iff.mp expected
      exact ⟨rule, found, within⟩

/-- Only items of the grammar are found. -/
theorem mem_allItems (reached : g.Reaches start path items) {item : Item}
    (member : item ∈ items) : item ∈ g.allItems := by
  obtain ⟨rule, found, within⟩ := reached.exists_rule member
  rw [allItems, List.mem_flatMap]
  refine ⟨(rule, item.rule), List.mem_zipIdx_iff_getElem?.mpr found, ?_⟩
  exact List.mem_map.mpr ⟨item.cursor, List.mem_range.mpr (Nat.lt_succ_of_le within), rfl⟩

/-- What a cursor has passed are the latest symbols read, and where they began
the rule was predicted. -/
theorem backed (reached : g.Reaches start path items) {rule : Rule τ κ T N} {place cursor : Nat}
    (member : (⟨place, cursor⟩ : Item) ∈ items) (found : g.rule? place = some rule) :
    (rule.body.take cursor).reverse = path.take cursor ∧
      ∃ before, g.Reaches start (path.drop cursor) before ∧ (⟨place, 0⟩ : Item) ∈ before := by
  induction reached generalizing cursor with
  | start =>
    obtain rfl : cursor = 0 := g.cursor_of_mem_startSet member
    exact ⟨rfl, _, .start, member⟩
  | @read path items symbol item reached inside expected ih =>
    cases cursor with
    | zero => exact ⟨rfl, _, .read reached inside expected, member⟩
    | succ cursor =>
      obtain ⟨prior, expected⟩ := g.mem_of_succ_mem_advance member
      obtain ⟨rule', found', within, next⟩ := g.expected?_eq_some_iff.mp expected
      obtain rfl := Option.some.inj (found.symm.trans found')
      obtain ⟨spelled, before⟩ := ih prior
      refine ⟨?_, before⟩
      rw [List.take_add_one, next, Option.toList_some, List.reverse_append, spelled]
      rfl

/-- A path leads to one set only. -/
theorem unique {items' : ItemSet} (reached : g.Reaches start path items)
    (reached' : g.Reaches start path items') : items = items' := by
  induction reached generalizing items' with
  | start =>
    cases reached' with
    | start => rfl
  | read _ _ _ ih =>
    cases reached' with
    | read before _ _ => rw [ih before]

/-- No more has been read of a rule than there are symbols on the path. -/
theorem length_le (reached : g.Reaches start path items) {rule : Rule τ κ T N} {place : Nat}
    (member : (⟨place, rule.length⟩ : Item) ∈ items) (found : g.rule? place = some rule) :
    rule.length ≤ path.length := by
  have spelled := congrArg List.length (reached.backed member found).1
  have bounded := rule.length_le
  rw [List.length_reverse, List.length_take, List.length_take] at spelled
  omega

/-- An item that expects nothing has read its whole rule. -/
theorem cursor_eq_length (reached : g.Reaches start path items) {rule : Rule τ κ T N}
    {place cursor : Nat} (member : (⟨place, cursor⟩ : Item) ∈ items)
    (found : g.rule? place = some rule) (done : g.expected? ⟨place, cursor⟩ = none) :
    cursor = rule.length := by
  obtain ⟨rule', found', within⟩ := reached.exists_rule member
  obtain rfl := Option.some.inj (found.symm.trans found')
  by_contra short
  have before : cursor < rule.length := Nat.lt_of_le_of_ne within short
  have bound : cursor < rule.body.length := Nat.lt_of_lt_of_le before rule.length_le
  have expected : g.expected? ⟨place, cursor⟩ = some rule.body[cursor] :=
    g.expected?_eq_some_iff.mpr ⟨rule, found, before, List.getElem?_eq_getElem bound⟩
  cases done.symm.trans expected

/-- Every set holds what its items predict. -/
theorem predictive (reached : g.Reaches start path items) : g.Predictive (· ∈ items) := by
  cases reached with
  | start => exact g.closure_predictive _
  | read _ _ _ => exact g.closure_predictive _

/-- A property holds of every item that is reached if the start items have it, an item
passes it on to what it predicts, and reading a symbol keeps it. -/
theorem item_induction {P : List (Symbol τ κ) → Item → Prop}
    (first : ∀ item ∈ g.startItems start, P [] item)
    (predicts : ∀ path items, g.Reaches start path items → ∀ item ∈ items, P path item →
      ∀ next ∈ g.predicted item, P path next)
    (reads : ∀ path item symbol, P path item → g.expected? item = some symbol →
      P (symbol :: path) item.bump)
    (reached : g.Reaches start path items) : ∀ item ∈ items, P path item := by
  -- leastness of a closure is used for the conjunction: predictions come from items of the set
  have closed : ∀ {path : List (Symbol τ κ)} {kernel : ItemSet},
      g.Reaches start path (g.closure kernel) → (∀ item ∈ kernel, P path item) →
        ∀ item ∈ g.closure kernel, P path item := by
    intro path kernel reached base item member
    refine (g.closure_least (S := fun item => item ∈ g.closure kernel ∧ P path item) ?_ ?_ item
      member).2
    · rintro parent ⟨inside, has⟩ next predicted
      exact ⟨g.closure_predictive kernel parent inside next predicted,
        predicts path _ reached parent inside has next predicted⟩
    · exact fun item member => ⟨g.subset_closure member, base item member⟩
  induction reached with
  | start =>
    exact closed .start fun item member => first item (SortedSet.mem_ofList.mp member)
  | @read path items symbol item reached member expected ih =>
    refine closed (.read reached member expected) fun next isNext => ?_
    obtain ⟨prior, inside, expected', rfl⟩ := g.mem_kernel.mp isNext
    exact reads path prior symbol (ih prior inside) expected'

/-- A rule with nothing read stands behind a symbol only if some other item has
read the symbol and expects a nonterminal. -/
theorem exists_of_unread {symbol : Symbol τ κ} (reached : g.Reaches start (symbol :: path) items)
    {place : Nat} (member : (⟨place, 0⟩ : Item) ∈ items) :
    ∃ place' cursor key, (⟨place', cursor + 1⟩ : Item) ∈ items ∧
      g.expected? ⟨place', cursor + 1⟩ = some (.nonterminal key) := by
  cases reached with
  | read _ _ _ =>
    rcases g.mem_or_exists_of_mem_closure member with h | ⟨base, h, key, expected⟩
    · obtain ⟨prior, _, _, same⟩ := g.mem_kernel.mp h
      exact absurd (congrArg Item.cursor same) (Nat.succ_ne_zero _)
    · obtain ⟨prior, _, _, rfl⟩ := g.mem_kernel.mp h
      exact ⟨prior.rule, prior.cursor, key, g.subset_closure h, expected⟩

end Reaches

/-! ### Framed grammars -/

/-- The start key occurs in no body, and the key `goal` in none but that of
start rules, which it is the whole of. -/
structure Framed (g : Grammar τ κ T N) (start goal : κ) : Prop where
  start_fresh : ∀ rule ∈ g.rules, .nonterminal start ∉ rule.body
  goal_framed : ∀ rule ∈ g.rules, .nonterminal goal ∈ rule.body →
    rule.key = start ∧ rule.body = [.nonterminal goal]

namespace Framed

variable {g : Grammar τ κ T N} {start goal : κ} {path : List (Symbol τ κ)} {items : ItemSet}

/-- A start rule of which nothing has been read is found at the bottom only. -/
theorem path_eq_nil_of_unread (framed : g.Framed start goal)
    (reached : g.Reaches start path items) {place : Nat} {rule : Rule τ κ T N}
    (member : (⟨place, 0⟩ : Item) ∈ items) (found : g.rule? place = some rule)
    (isStart : rule.key = start) : path = [] := by
  rcases reached.predicted_of_unread member with ⟨h, _⟩ | ⟨parent, _, predicted⟩
  · exact h
  · obtain ⟨key, expected, unread⟩ := g.mem_predicted.mp predicted
    obtain ⟨_, rule', found', same⟩ := g.mem_startItems.mp unread
    obtain rfl := Option.some.inj (found.symm.trans found')
    obtain ⟨user, isRule, used⟩ := g.exists_mem_body_of_expected expected
    rw [← same, isStart] at used
    exact absurd used (framed.start_fresh user isRule)

/-- The goal is expected at the bottom only. -/
theorem path_eq_nil (framed : g.Framed start goal) (reached : g.Reaches start path items)
    {item : Item} (member : item ∈ items)
    (expected : g.expected? item = some (.nonterminal goal)) : path = [] := by
  obtain ⟨rule, found, within, next⟩ := g.expected?_eq_some_iff.mp expected
  have isRule : rule ∈ g.rules := List.mem_of_getElem? found
  obtain ⟨isStart, body⟩ := framed.goal_framed rule isRule (List.mem_of_getElem? next)
  have unread : item.cursor = 0 := by
    have bound : item.cursor < rule.body.length := (List.getElem?_eq_some_iff.mp next).1
    rw [body] at bound
    exact Nat.lt_one_iff.mp bound
  obtain ⟨place, cursor⟩ := item
  obtain rfl : cursor = 0 := unread
  exact framed.path_eq_nil_of_unread reached member found isStart

end Framed

end Grammar

end ShiftReduce
