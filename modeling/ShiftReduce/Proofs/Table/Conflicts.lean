/-
  Building a table finds every conflict and reports no other.

  A set of items is contested before a terminal if it has read two rules
  completely and the terminal can come behind the keys of both
  (`Grammar.Contested`). The states of a table that was built are not contested,
  and none of their items expects the empty text. A build that fails although
  the keys it is given are defined tells a set of items that reading symbols
  from the start set leads to (`Grammar.Reaches`), where one of the two is the
  case: the obstacle that it names is found in this set.
-/
import ShiftReduce.Proofs.Table.Automaton

namespace ShiftReduce

variable {τ κ T N : Type} [Ordered τ] [Ordered κ] [DecidableEq τ] [DecidableEq κ]

namespace Grammar

/-! ### Contested sets -/

/-- Whether a terminal can come behind the key of the rule at a place. -/
def FollowsRule (g : Grammar τ κ T N) (t : τ) (place : Nat) : Prop :=
  ∃ rule, g.rule? place = some rule ∧ t ∈ g.followOf rule.key

/-- Whether a set of items has read the rules at two places completely, both
of which are to be reduced before a terminal. -/
structure Contested (g : Grammar τ κ T N) (items : ItemSet) (t : τ) (first second : Nat) : Prop where
  differ : first ≠ second
  first_complete : ∃ item ∈ items, item.rule = first ∧ g.isComplete item = true
  second_complete : ∃ item ∈ items, item.rule = second ∧ g.isComplete item = true
  follows_first : g.FollowsRule t first
  follows_second : g.FollowsRule t second

variable {g : Grammar τ κ T N} {start : κ} {placeholders : List (κ × Tree T N)}
  {path : List (Symbol τ κ)} {items : ItemSet} {t : τ} {place : Nat}

/-- A rule that may be reduced before a terminal has a complete item, and the
terminal can come behind its key. -/
theorem Reaches.complete_of_mayReduce (reached : g.Reaches start path items)
    (may : g.MayReduce g.followSets items t place) :
    (∃ item ∈ items, item.rule = place ∧ g.isComplete item = true) ∧ g.FollowsRule t place := by
  obtain ⟨complete, rule, found, behind⟩ := may
  obtain ⟨cursor, member, done⟩ := g.mem_completeRules.mp complete
  have read : cursor = rule.length := reached.cursor_eq_length member found done
  have whole : g.isComplete ⟨place, cursor⟩ = true := by
    rw [isComplete, found, read]
    exact decide_eq_true (Nat.le_refl _)
  exact ⟨⟨_, member, rfl, whole⟩, rule, found, behind⟩

/-! ### Failures -/

/-- An exploration that is blocked tells the obstacle of a set that is
reached. -/
theorem exists_reaches_of_blocked {number : Nat} {obstacle : Obstacle τ}
    (blocked : g.table start placeholders = .error (.blocked number obstacle)) :
    ∃ path items context, g.Reaches start path items ∧
      g.plan g.followSets items context = .error obstacle := by
  rw [table_eq] at blocked
  split at blocked
  · cases blocked
  · split at blocked
    · cases blocked
    · split at blocked
      · rename_i explored number' obstacle' ends
        obtain ⟨explores, _, told⟩ := g.explores_explore g.followSets start
        rw [ends] at explores told
        obtain ⟨rfl, rfl⟩ := TableError.blocked.inj (Except.error.inj blocked)
        obtain ⟨items, context, found, failed⟩ := told number' obstacle' rfl
        obtain ⟨path, reached⟩ := explores.exists_path found
        exact ⟨path, items, context, reached, failed⟩
      · cases blocked

/-- Where the start key and the keys of the placeholders are defined, only an
obstacle keeps a table from being built. -/
theorem exists_blocked_of_defines (startDefined : g.defines start = true)
    (keysDefined : ∀ entry ∈ placeholders, g.defines entry.1 = true) {error : TableError τ κ}
    (failed : g.table start placeholders = .error error) :
    ∃ number obstacle, error = .blocked number obstacle := by
  rw [table_eq] at failed
  split at failed
  · rename_i undefined
    exact absurd startDefined undefined
  · split at failed
    · rename_i entry found
      -- the key was registered with some placeholder, so it is defined
      have registered : entry ∈ registerPlaceholders placeholders := List.mem_of_find?_eq_some found
      obtain ⟨given, isGiven, same⟩ :=
        List.mem_map.mp (mem_keys_of_mem_registerPlaceholders registered)
      have undefined : ¬ g.defines entry.1 = true := by simpa using List.find?_some found
      rw [← same] at undefined
      exact absurd (keysDefined given isGiven) undefined
    · split at failed
      · exact ⟨_, _, (Except.error.inj failed).symm⟩
      · cases failed

/-! ### Detection -/

/-- A table that is built has no contested state and no item that expects the
empty text. If none is built, the terminal and the rules told are contested in a
set that is reached, or the item told expects the empty text there; and with
defined keys there is no other way to fail. -/
theorem conflicts_of_table (g : Grammar τ κ T N) (start : κ) (placeholders : List (κ × Tree T N)) :
    (∀ table, g.table start placeholders = .ok table → ∀ s ∈ table.states,
      (∀ t, ∀ one ∈ s.reducible, ∀ other ∈ s.reducible,
        g.FollowsRule t one → g.FollowsRule t other → one = other) ∧
      ∀ item ∈ s.items, g.expected? item ≠ some .epsilon) ∧
    (∀ number t first second,
      g.table start placeholders = .error (.blocked number (.contested t first second)) →
      ∃ path items, g.Reaches start path items ∧ g.Contested items t first second) ∧
    (∀ number item,
      g.table start placeholders = .error (.blocked number (.epsilonExpected item)) →
      ∃ path items, g.Reaches start path items ∧ item ∈ items ∧
        g.expected? item = some .epsilon) ∧
    (g.defines start = true → (∀ entry ∈ placeholders, g.defines entry.1 = true) →
      ∀ error, g.table start placeholders = .error error →
        (∃ number t first second, error = .blocked number (.contested t first second)) ∨
        ∃ number item, error = .blocked number (.epsilonExpected item)) := by
  refine ⟨?_, ?_, ?_, ?_⟩
  · intro table built s member
    have automaton := automaton_of_table built
    obtain ⟨number, isState⟩ := List.mem_iff_getElem?.mp member
    refine ⟨?_, fun item inside => automaton.expected_ne_epsilon isState inside⟩
    intro t one isOne other isOther follows follows'
    have may : g.MayReduce g.followSets s.items t one :=
      ⟨(automaton.mem_reducible isState).mp isOne, follows⟩
    have may' : g.MayReduce g.followSets s.items t other :=
      ⟨(automaton.mem_reducible isState).mp isOther, follows'⟩
    exact automaton.mayReduce_unique isState may may'
  · intro number t first second failed
    obtain ⟨path, items, context, reached, blocked⟩ := exists_reaches_of_blocked failed
    -- the state that is told has no plan, and this is why
    rcases g.obstacle_of_plan g.followSets blocked with ⟨_, _, _, same⟩ | ⟨_, _, _, may, may', differ, same⟩
    · cases same
    · obtain ⟨rfl, rfl, rfl⟩ := Obstacle.contested.inj same
      have one := reached.complete_of_mayReduce may
      have other := reached.complete_of_mayReduce may'
      exact ⟨path, items, reached, differ, one.1, other.1, one.2, other.2⟩
  · intro number item failed
    obtain ⟨path, items, context, reached, blocked⟩ := exists_reaches_of_blocked failed
    rcases g.obstacle_of_plan g.followSets blocked with ⟨_, member, expects, same⟩ | ⟨_, _, _, _, _, _, same⟩
    · obtain rfl := Obstacle.epsilonExpected.inj same
      exact ⟨path, items, reached, member, expects⟩
    · cases same
  · intro startDefined keysDefined error failed
    obtain ⟨number, obstacle, rfl⟩ := exists_blocked_of_defines startDefined keysDefined failed
    cases obstacle with
    | contested t first second => exact .inl ⟨number, t, first, second, rfl⟩
    | epsilonExpected item => exact .inr ⟨number, item, rfl⟩

end Grammar

/-! ### Two readings of one letter -/

namespace Twins

/-- Letters, which are terminals and tokens alike. -/
inductive Letter where
  | a | b
deriving DecidableEq, Repr

instance : Ordered Letter :=
  .ofRank Letter.ctorIdx fun s t h => by cases s <;> cases t <;> first | rfl | cases h

/-- A whole is a left or a right part with a letter behind it. -/
inductive Part where
  | whole | left | right
deriving DecidableEq, Repr

instance : Ordered Part :=
  .ofRank Part.ctorIdx fun a b h => by cases a <;> cases b <;> first | rfl | cases h

/-- A rule that builds branches of the kind of its key. -/
def rule (key : Part) (parts : List (BodyPart Letter Part)) : Rule Letter Part Letter Part where
  key := key
  kind := key
  parts := parts

/-- The grammar in which both parts are spelled alike. -/
def grammar : Grammar Letter Part Letter Part where
  alphabet letter := { name := "letter", accepts := fun token => token = letter }
  rules :=
    [rule .whole [.nonterminal .left, .terminal .b], rule .whole [.nonterminal .right, .terminal .b],
      rule .left [.terminal .a], rule .right [.terminal .a]]
  rules_ne_nil := List.cons_ne_nil _ _
  defined := defined_of_undefinedUse? rfl

theorem table_eq : grammar.table .whole [] = .error (.blocked 1 (.contested .b 2 3)) := by
  have told : (match grammar.table .whole [] with
      | .error failure => some failure
      | .ok _ => none) = some (.blocked 1 (.contested .b 2 3)) := by decide +kernel
  split at told
  · rename_i failure failed
    rw [failed, Option.some.inj told]
  · cases told

/-- Behind the letter that both parts are spelled with, their rules are contested. -/
theorem exists_contested : grammar.table .whole [] = .error (.blocked 1 (.contested .b 2 3)) ∧
    ∃ path items, grammar.Reaches .whole path items ∧ grammar.Contested items .b 2 3 :=
  ⟨table_eq, (grammar.conflicts_of_table .whole []).2.1 1 .b 2 3 table_eq⟩

end Twins

end ShiftReduce
