/-
  The closure of an item set is the least set that holds it and all that it
  predicts.

  `Grammar.closeFrom` spends one step of its budget on every item that it
  expands, and expands every item at most once, so the budget that
  `Grammar.closure` gives it is never used up. What holds at every step is
  `Grammar.Expanding`: an item is passed over (`Expanding.pass`) or the
  nonterminal that it expects is entered (`Expanding.enter`), and once nothing
  is pending the set is closed (`closeFrom_predictive`). The three laws
  `subset_closure`, `closure_predictive` and `closure_least` are all that is
  used of the closure afterwards; `mem_advance_cases` and `bump_mem_advance` say
  the same of reading a symbol.
-/
import ShiftReduce.Item
import Mathlib.Data.List.Basic

namespace ShiftReduce

variable {τ κ T N : Type}

/-- A symbol with no binding of its own is a copy that binds as the alphabet says. -/
theorem BodyPart.eq_of_copyOf?_plain [DecidableEq τ] {alphabet : τ → Terminal T} {t : τ}
    {symbol : Symbol τ κ} {copy : Terminal T}
    (isCopy : (plain symbol).copyOf? alphabet t = some copy) : copy = alphabet t := by
  cases symbol with
  | terminal s =>
    obtain ⟨_, same⟩ := Option.ite_none_right_eq_some.mp isCopy
    exact (Option.some.inj same).symm
  | nonterminal | epsilon => cases isCopy

namespace Grammar

variable (g : Grammar τ κ T N)

/-! ### Single items -/

theorem expected?_eq_some_iff {item : Item} {symbol : Symbol τ κ} :
    g.expected? item = some symbol ↔ ∃ rule, g.rule? item.rule = some rule ∧
      item.cursor < rule.length ∧ rule.body[item.cursor]? = some symbol := by
  simp only [expected?, Option.bind_eq_some_iff, Rule.symbolAt?_eq]
  refine exists_congr fun rule => and_congr_right fun _ => ?_
  split
  · rename_i within
    exact ⟨fun h => ⟨within, h⟩, fun h => h.2⟩
  · rename_i past
    exact ⟨fun h => absurd h (Option.some_ne_none symbol).symm, fun h => absurd h.1 past⟩

/-- What an item expects is used in the body of a rule. -/
theorem exists_mem_body_of_expected {item : Item} {symbol : Symbol τ κ}
    (expected : g.expected? item = some symbol) : ∃ rule ∈ g.rules, symbol ∈ rule.body := by
  obtain ⟨rule, found, _, next⟩ := g.expected?_eq_some_iff.mp expected
  exact ⟨rule, List.mem_of_getElem? found, List.mem_of_getElem? next⟩

variable [DecidableEq κ]

theorem mem_rulesFor {key : κ} {place : Nat} :
    place ∈ g.rulesFor key ↔ ∃ rule, g.rule? place = some rule ∧ rule.key = key := by
  simp only [rulesFor, List.mem_filterMap, Prod.exists, List.mem_zipIdx_iff_getElem?, rule?]
  constructor
  · rintro ⟨rule, _, found, h⟩
    split at h
    · rename_i same
      obtain rfl := Option.some.inj h
      exact ⟨rule, found, same⟩
    · exact absurd h (Option.some_ne_none place).symm
  · rintro ⟨rule, found, same⟩
    exact ⟨rule, place, found, by rw [if_pos same]⟩

theorem mem_startItems {key : κ} {item : Item} :
    item ∈ g.startItems key ↔
      item.cursor = 0 ∧ ∃ rule, g.rule? item.rule = some rule ∧ rule.key = key := by
  simp only [startItems, List.mem_map, mem_rulesFor]
  constructor
  · rintro ⟨place, found, rfl⟩
    exact ⟨rfl, found⟩
  · rintro ⟨unread, found⟩
    exact ⟨item.rule, found, by cases item; cases unread; rfl⟩

theorem mem_predicted {item next : Item} :
    next ∈ g.predicted item ↔
      ∃ key, g.expected? item = some (.nonterminal key) ∧ next ∈ g.startItems key := by
  unfold predicted
  split
  · rename_i key expected
    simp [expected]
  · rename_i other
    simp only [List.not_mem_nil, false_iff]
    rintro ⟨key, expected, _⟩
    exact other key expected

/-! ### Closure -/

/-- A set of items is predictive if it holds all that its items predict. -/
def Predictive (S : Item → Prop) : Prop := ∀ item, S item → ∀ next ∈ g.predicted item, S next

/-- The number of rules whose key is not in a list. -/
def rulesOutside (keys : List κ) : Nat := g.rules.countP fun rule => rule.key ∉ keys

theorem length_startItems (key : κ) :
    (g.startItems key).length = g.rules.countP fun rule => rule.key = key := by
  have places : ∀ entry : Rule τ κ T N × Nat,
      (if entry.1.key = key then some entry.2 else none).isSome = decide (entry.1.key = key) := by
    intro entry
    split <;> simp_all
  rw [startItems, List.length_map, rulesFor, List.length_filterMap_eq_countP]
  conv_rhs => rw [← List.zipIdx_map_fst 0 g.rules, List.countP_map]
  exact List.countP_congr fun entry _ => by simp [places]

/-- Entering a new key takes its rules from those outside. -/
theorem rulesOutside_cons {keys : List κ} {key : κ} (fresh : key ∉ keys) :
    g.rulesOutside (key :: keys) + (g.startItems key).length = g.rulesOutside keys := by
  rw [length_startItems, rulesOutside, rulesOutside]
  induction g.rules with
  | nil => rfl
  | cons rule rest ih =>
    simp only [List.countP_cons, List.mem_cons, not_or, Bool.decide_and, Bool.and_eq_true,
      decide_eq_true_eq] at ih ⊢
    -- a rule of the key leaves those outside for the items of the key, any other stays
    by_cases same : rule.key = key
    · simp only [same, not_true_eq_false, false_and, fresh, not_false_eq_true, ite_true, ite_false]
      omega
    · simp only [same, not_false_eq_true, true_and, ite_false]
      omega

theorem subset_closeFrom {budget : Nat} {pending : List Item} {keys : List κ} {closed : ItemSet}
    {item : Item} (member : item ∈ closed) : item ∈ g.closeFrom budget pending keys closed := by
  fun_induction closeFrom g budget pending keys closed with
  | case1 => exact member
  | case2 => exact member
  | case3 budget next pending keys closed key expected known ih => exact ih member
  | case4 budget next pending keys closed key expected new fresh ih =>
    exact ih (SortedSet.mem_insertAll.mpr (.inr member))
  | case5 budget next pending keys closed other ih => exact ih member

/-- Whatever is predictive and holds the items that are pending or closed
already holds the result. -/
theorem closeFrom_least {S : Item → Prop} (predictive : g.Predictive S) {budget : Nat}
    {pending : List Item} {keys : List κ} {closed : ItemSet} (pendingIn : ∀ item ∈ pending, S item)
    (closedIn : ∀ item ∈ closed, S item) :
    ∀ item ∈ g.closeFrom budget pending keys closed, S item := by
  fun_induction closeFrom g budget pending keys closed with
  | case1 => exact closedIn
  | case2 => exact closedIn
  | case3 budget next pending keys closed key expected known ih =>
    exact ih (fun item member => pendingIn item (List.mem_cons_of_mem _ member)) closedIn
  | case4 budget next pending keys closed key expected new fresh ih =>
    -- fresh items are predicted by one that `S` holds of
    have freshIn : ∀ item ∈ fresh, S item := by
      intro item member
      exact predictive next (pendingIn next List.mem_cons_self) item
        (g.mem_predicted.mpr ⟨key, expected, List.mem_of_mem_filter member⟩)
    apply ih
    · intro item member
      rcases List.mem_append.mp member with h | h
      · exact freshIn item h
      · exact pendingIn item (List.mem_cons_of_mem _ h)
    · intro item member
      rcases SortedSet.mem_insertAll.mp member with h | h
      · exact freshIn item h
      · exact closedIn item h
  | case5 budget next pending keys closed other ih =>
    exact ih (fun item member => pendingIn item (List.mem_cons_of_mem _ member)) closedIn

/-- What holds of the three lists of `closeFrom` whenever it is called: an item
that is no longer pending has been expanded, so that the nonterminal it expects
is among `keys`, and the rules of those are all in the set. -/
structure Expanding (pending : List Item) (keys : List κ) (closed : ItemSet) : Prop where
  pendingIn : ∀ item ∈ pending, item ∈ closed
  entered : ∀ key ∈ keys, ∀ item ∈ g.startItems key, item ∈ closed
  expanded : ∀ item ∈ closed, item ∉ pending →
    ∀ key, g.expected? item = some (.nonterminal key) → key ∈ keys

section Expanding

variable {g} {next : Item} {pending : List Item} {keys : List κ} {closed : ItemSet}

/-- At first every item is pending and no nonterminal has been entered. -/
theorem expanding_toList (items : ItemSet) : g.Expanding items.toList [] items where
  pendingIn := fun _ member => member
  entered := fun _ member => absurd member List.not_mem_nil
  expanded := fun _ member passed => absurd member passed

/-- With nothing pending, nothing is left to be predicted. -/
theorem Expanding.predictive (expanding : g.Expanding [] keys closed) :
    g.Predictive (· ∈ closed) := by
  intro item member next predicted
  obtain ⟨key, expected, isStart⟩ := g.mem_predicted.mp predicted
  exact expanding.entered key (expanding.expanded item member List.not_mem_nil key expected)
    next isStart

/-- Once the next pending item has been expanded, so have all that are no longer
pending. -/
theorem Expanding.expanded_of_next {keys' : List κ}
    (expanding : g.Expanding (next :: pending) keys closed)
    (nextDone : ∀ key, g.expected? next = some (.nonterminal key) → key ∈ keys')
    (kept : ∀ key ∈ keys, key ∈ keys') :
    ∀ item ∈ closed, item ∉ pending →
      ∀ key, g.expected? item = some (.nonterminal key) → key ∈ keys' := by
  intro item member passed key expected
  by_cases same : item = next
  · exact nextDone key (same ▸ expected)
  · have passed' : item ∉ next :: pending := by
      rw [List.mem_cons, not_or]
      exact ⟨same, passed⟩
    exact kept key (expanding.expanded item member passed' key expected)

/-- An item that expects nothing new is passed over. -/
theorem Expanding.pass (expanding : g.Expanding (next :: pending) keys closed)
    (nextDone : ∀ key, g.expected? next = some (.nonterminal key) → key ∈ keys) :
    g.Expanding pending keys closed where
  pendingIn := fun item member => expanding.pendingIn item (List.mem_cons_of_mem next member)
  entered := expanding.entered
  expanded := expanding.expanded_of_next nextDone fun _ old => old

/-- An item that expects a nonterminal is expanded by entering it, with those of
its start items that are new to the set. -/
theorem Expanding.enter {key : κ} {fresh : List Item}
    (expanding : g.Expanding (next :: pending) keys closed)
    (expected : g.expected? next = some (.nonterminal key))
    (isFresh : fresh = (g.startItems key).filter fun item => item ∉ closed) :
    g.Expanding (fresh ++ pending) (key :: keys) (closed.insertAll fresh) where
  pendingIn := by
    intro item member
    rw [SortedSet.mem_insertAll]
    rcases List.mem_append.mp member with h | h
    · exact .inl h
    · exact .inr (expanding.pendingIn item (List.mem_cons_of_mem next h))
  entered := by
    intro key' member item isStart
    rw [SortedSet.mem_insertAll]
    by_cases old : item ∈ closed
    · exact .inr old
    · rcases List.mem_cons.mp member with rfl | h
      · rw [isFresh]
        exact .inl (List.mem_filter.mpr ⟨isStart, by simpa using old⟩)
      · exact absurd (expanding.entered key' h item isStart) old
  expanded := by
    intro item member passed
    rw [List.mem_append, not_or] at passed
    have nextDone : ∀ key', g.expected? next = some (.nonterminal key') → key' ∈ key :: keys := by
      intro key' expected'
      obtain rfl := Symbol.nonterminal.inj (Option.some.inj (expected.symm.trans expected'))
      exact List.mem_cons_self
    -- a fresh item is still pending, so the item was in the set before
    rcases SortedSet.mem_insertAll.mp member with h | h
    · exact absurd h passed.1
    · exact expanding.expanded_of_next nextDone (fun key' old => List.mem_cons_of_mem key old)
        item h passed.2

end Expanding

/-- Expanding ends before the budget does, and then nothing is left to be
predicted. -/
theorem closeFrom_predictive {budget : Nat} {pending : List Item} {keys : List κ}
    {closed : ItemSet} (enough : pending.length + g.rulesOutside keys ≤ budget)
    (expanding : g.Expanding pending keys closed) :
    g.Predictive (· ∈ g.closeFrom budget pending keys closed) := by
  fun_induction closeFrom g budget pending keys closed with
  | case1 pending keys closed =>
    -- the budget is used up, so nothing was pending
    have none : pending = [] := List.eq_nil_of_length_eq_zero (by omega)
    subst none
    exact expanding.predictive
  | case2 budget keys closed => exact expanding.predictive
  | case3 budget next pending keys closed key expected known ih =>
    rw [List.length_cons] at enough
    refine ih (by omega) (expanding.pass ?_)
    intro key' expected'
    obtain rfl := Symbol.nonterminal.inj (Option.some.inj (expected.symm.trans expected'))
    exact known
  | case4 budget next pending keys closed key expected new fresh ih =>
    -- the rules of the new key leave those outside, so the budget lasts for its items
    have count : fresh.length ≤ (g.startItems key).length := List.length_filter_le _ _
    have rest := g.rulesOutside_cons new
    rw [List.length_cons] at enough
    refine ih ?_ (expanding.enter expected rfl)
    rw [List.length_append]
    omega
  | case5 budget next pending keys closed other ih =>
    rw [List.length_cons] at enough
    exact ih (by omega) (expanding.pass fun key expected => absurd expected (other key))

theorem subset_closure {items : ItemSet} {item : Item} (member : item ∈ items) :
    item ∈ g.closure items := g.subset_closeFrom member

theorem closure_predictive (items : ItemSet) : g.Predictive (· ∈ g.closure items) := by
  refine g.closeFrom_predictive ?_ (expanding_toList items)
  have all : g.rulesOutside [] = g.rules.length := by
    rw [rulesOutside, List.countP_eq_length]
    intro rule _
    simp
  rw [all]
  exact Nat.le_refl _

theorem closure_least {items : ItemSet} {S : Item → Prop} (predictive : g.Predictive S)
    (base : ∀ item ∈ items, S item) : ∀ item ∈ g.closure items, S item :=
  g.closeFrom_least predictive base base

/-- An item of a closure was there before, or some item of the closure
predicts it. -/
theorem mem_closure_cases {items : ItemSet} {item : Item} (member : item ∈ g.closure items) :
    item ∈ items ∨ ∃ parent ∈ g.closure items, item ∈ g.predicted parent := by
  -- leastness is used for the conjunction: the parent is to be in the closure
  have both : item ∈ g.closure items ∧
      (item ∈ items ∨ ∃ parent ∈ g.closure items, item ∈ g.predicted parent) := by
    refine g.closure_least (S := fun item => item ∈ g.closure items ∧
      (item ∈ items ∨ ∃ parent ∈ g.closure items, item ∈ g.predicted parent)) ?_ ?_ item member
    · intro parent inside next predicted
      exact ⟨g.closure_predictive items parent inside.1 next predicted,
        .inr ⟨parent, inside.1, predicted⟩⟩
    · exact fun item member => ⟨g.subset_closure member, .inl member⟩
  exact both.2

/-- Something is added by a closure only if some item of the set expects a
nonterminal. -/
theorem mem_or_exists_of_mem_closure {items : ItemSet} {item : Item}
    (member : item ∈ g.closure items) :
    item ∈ items ∨ ∃ base ∈ items, ∃ key, g.expected? base = some (.nonterminal key) := by
  refine g.closure_least (S := fun item => item ∈ items ∨
    ∃ base ∈ items, ∃ key, g.expected? base = some (.nonterminal key)) ?_ ?_ item member
  · rintro parent (base | found) next predicted
    · obtain ⟨key, expected, _⟩ := g.mem_predicted.mp predicted
      exact .inr ⟨parent, base, key, expected⟩
    · exact .inr found
  · exact fun item member => .inl member

/-! ### Reading a symbol -/

theorem mem_startSet_of_mem_startItems {key : κ} {item : Item} (member : item ∈ g.startItems key) :
    item ∈ g.startSet key :=
  g.subset_closure (SortedSet.mem_ofList.mpr member)

/-- The start set has only items of which nothing has been read. -/
theorem cursor_of_mem_startSet {key : κ} {item : Item} (member : item ∈ g.startSet key) :
    item.cursor = 0 := by
  rcases g.mem_closure_cases member with h | ⟨parent, _, h⟩
  · exact (g.mem_startItems.mp (SortedSet.mem_ofList.mp h)).1
  · obtain ⟨key', _, isStart⟩ := g.mem_predicted.mp h
    exact (g.mem_startItems.mp isStart).1

variable [DecidableEq τ]

theorem mem_kernel {items : ItemSet} {symbol : Symbol τ κ} {item : Item} :
    item ∈ g.kernel items symbol ↔
      ∃ prior ∈ items, g.expected? prior = some symbol ∧ prior.bump = item := by
  simp only [kernel, SortedSet.mem_ofList, List.mem_map, List.mem_filter, decide_eq_true_eq,
    SortedSet.mem_toList, and_assoc]

theorem bump_mem_advance {items : ItemSet} {symbol : Symbol τ κ} {item : Item}
    (member : item ∈ items) (expected : g.expected? item = some symbol) :
    item.bump ∈ g.advance items symbol :=
  g.subset_closure (g.mem_kernel.mpr ⟨item, member, expected, rfl⟩)

/-- An item of the set behind a symbol has just read the symbol, or it has
read nothing and an item of that set predicts it. -/
theorem mem_advance_cases {items : ItemSet} {symbol : Symbol τ κ} {item : Item}
    (member : item ∈ g.advance items symbol) :
    (∃ prior ∈ items, g.expected? prior = some symbol ∧ prior.bump = item) ∨
      (item.cursor = 0 ∧ ∃ parent ∈ g.advance items symbol, item ∈ g.predicted parent) := by
  rcases g.mem_closure_cases member with h | ⟨parent, inside, predicted⟩
  · exact .inl (g.mem_kernel.mp h)
  · obtain ⟨key, _, isStart⟩ := g.mem_predicted.mp predicted
    exact .inr ⟨(g.mem_startItems.mp isStart).1, parent, inside, predicted⟩

/-- Before the last symbol was read, the cursor stood before it. -/
theorem mem_of_succ_mem_advance {items : ItemSet} {symbol : Symbol τ κ} {rule cursor : Nat}
    (member : (⟨rule, cursor + 1⟩ : Item) ∈ g.advance items symbol) :
    (⟨rule, cursor⟩ : Item) ∈ items ∧ g.expected? ⟨rule, cursor⟩ = some symbol := by
  rcases g.mem_advance_cases member with ⟨⟨rule', cursor'⟩, inside, expected, same⟩ | ⟨zero, _⟩
  · cases same
    exact ⟨inside, expected⟩
  · cases zero

/-! ### Copies of terminals -/

omit [DecidableEq κ]

/-- An item has a copy of a terminal if it expects the terminal, and of no other. -/
theorem copyOf?_isSome_iff {item : Item} {t : τ} :
    ((g.part? item).bind (BodyPart.copyOf? g.alphabet t)).isSome ↔
      g.expected? item = some (.terminal t) := by
  rw [← g.map_symbol_part?]
  cases g.part? item with
  | none => simp
  | some part => cases part <;> simp [BodyPart.copyOf?, BodyPart.symbol]

/-- The copy of a terminal in a set is a matter of the items that expect it. -/
theorem copyIn_congr {items items' : ItemSet} {t : τ}
    (same : ∀ item, g.expected? item = some (.terminal t) → (item ∈ items ↔ item ∈ items')) :
    g.copyIn items t = g.copyIn items' t := by
  let copy? : Item → Option (Terminal T) := fun item =>
    (g.part? item).bind (BodyPart.copyOf? g.alphabet t)
  have filtered : items.filter (fun item => (copy? item).isSome) =
      items'.filter fun item => (copy? item).isSome := by
    refine SortedSet.ext fun item => ?_
    rw [SortedSet.mem_filter, SortedSet.mem_filter]
    exact and_congr_left fun isSome => same item (g.copyOf?_isSome_iff.mp isSome)
  -- the items that do not expect the terminal do not matter for the first copy
  have only : ∀ items : ItemSet, items.toList.findSome? copy? =
      (items.filter fun item => (copy? item).isSome).toList.findSome? copy? := by
    intro items
    show _ = (items.toList.filter fun item => (copy? item).isSome).findSome? copy?
    rw [← List.head?_filterMap, ← List.head?_filterMap, List.filterMap_filter]
    refine congrArg List.head? (congrArg (List.filterMap · items.toList) (funext fun item => ?_))
    cases copy? item <;> rfl
  show (items.toList.findSome? copy?).getD _ = (items'.toList.findSome? copy?).getD _
  rw [only items, only items', filtered]

/-- The copy in a set that expects a terminal stands in a rule. -/
theorem exists_copyOf?_eq_copyIn {items : ItemSet} {t : τ} {item : Item} (member : item ∈ items)
    (expected : g.expected? item = some (.terminal t)) :
    ∃ rule ∈ g.rules, ∃ part ∈ rule.parts,
      part.copyOf? g.alphabet t = some (g.copyIn items t) := by
  have isSome : (items.toList.findSome? fun item =>
      (g.part? item).bind (BodyPart.copyOf? g.alphabet t)).isSome := by
    rw [List.findSome?_isSome_iff]
    exact ⟨item, member, g.copyOf?_isSome_iff.mpr expected⟩
  obtain ⟨copy, first⟩ := Option.isSome_iff_exists.mp isSome
  obtain ⟨item', _, found⟩ := List.exists_of_findSome?_eq_some first
  obtain ⟨part, isPart, isCopy⟩ := Option.bind_eq_some_iff.mp found
  obtain ⟨rule, isRule, here⟩ := Option.bind_eq_some_iff.mp isPart
  refine ⟨rule, List.mem_of_getElem? isRule, part, ?_, ?_⟩
  · rw [Rule.partAt?] at here
    split at here
    · exact List.mem_of_getElem? here
    · cases here
  · rw [isCopy, copyIn, first]
    rfl

/-- A terminal that a set does not expect is as the alphabet has it. -/
theorem copyIn_of_not_expected {items : ItemSet} {t : τ}
    (absent : ∀ item ∈ items, g.expected? item ≠ some (.terminal t)) :
    g.copyIn items t = g.alphabet t := by
  have none : (items.toList.findSome? fun item =>
      (g.part? item).bind (BodyPart.copyOf? g.alphabet t)) = none := by
    refine List.findSome?_eq_none_iff.mpr fun item member => ?_
    rw [← Option.not_isSome_iff_eq_none, copyOf?_isSome_iff]
    exact absent item member
  rw [copyIn, none, Option.getD_none]

/-- Where no part has a binding of its own, terminals are as the alphabet has them. -/
theorem copyIn_of_plain (plain : ∀ rule ∈ g.rules, ∀ part ∈ rule.parts, part = .plain part.symbol)
    (items : ItemSet) (t : τ) : g.copyIn items t = g.alphabet t := by
  by_cases expects : ∃ item ∈ items, g.expected? item = some (.terminal t)
  · obtain ⟨item, member, expected⟩ := expects
    obtain ⟨rule, isRule, part, isPart, isCopy⟩ := g.exists_copyOf?_eq_copyIn member expected
    rw [plain rule isRule part isPart] at isCopy
    exact BodyPart.eq_of_copyOf?_plain isCopy
  · exact g.copyIn_of_not_expected fun item member expected => expects ⟨item, member, expected⟩

variable [DecidableEq κ]

/-- Sets that a terminal leads on to one set from have the same copy of it. -/
theorem copyIn_eq_of_advance_eq {items items' : ItemSet} {t : τ}
    (same : g.advance items (.terminal t) = g.advance items' (.terminal t)) :
    g.copyIn items t = g.copyIn items' t := by
  refine g.copyIn_congr fun item expected => ⟨fun member => ?_, fun member => ?_⟩
  · have read := g.bump_mem_advance member expected
    rw [same] at read
    exact (g.mem_of_succ_mem_advance read).1
  · have read := g.bump_mem_advance member expected
    rw [← same] at read
    exact (g.mem_of_succ_mem_advance read).1

end Grammar

end ShiftReduce
