/-
  Grammars with the empty texts taken out of their rule bodies.

  The length of a rule counts the symbols that stand for text, but a cursor is
  a place in the body as it is written; an empty text in front of the cursor
  sets the two apart. An item is solid if none stands before its cursor or
  under it (`Grammar.Solid`). Taking the empty texts out of all bodies
  (`Grammar.erased`) changes nothing about solid items: they expect the same
  symbols (`expected?_erased`), and sets of them have the same closures and
  plans (`closure_erased`, `plan_erased`).  The FIRST and FOLLOW sets do not
  change at all (`symbolSets_erased`).

  A symbol that is read leads from a solid set to a solid set, or to one with
  an item that expects the empty text and so has no plan
  (`SolidSet.advance`).
-/
import ShiftReduce.Proofs.Table.Plan
import ShiftReduce.Proofs.Derivation
import ShiftReduce.Proofs.Lookahead.First

namespace ShiftReduce

variable {τ κ T N : Type}

/-! ### Rules -/

namespace Rule

/-- The rule without the empty texts in its body. -/
def erased (rule : Rule τ κ T N) : Rule τ κ T N :=
  { rule with parts := rule.parts.filter fun part => !part.symbol.isEpsilon }

variable (rule : Rule τ κ T N)

@[simp] theorem key_erased : rule.erased.key = rule.key := rfl

@[simp] theorem build_erased : rule.erased.build = rule.build := rfl

@[simp] theorem body_erased : rule.erased.body = rule.symbols := by
  rw [body, erased, symbols, body, List.filter_map]
  rfl

@[simp] theorem length_erased : rule.erased.length = rule.length := by
  rw [length, body_erased, symbols, List.filter_filter, length]
  simp only [Bool.and_self]

theorem mem_body_erased {rule : Rule τ κ T N} {symbol : Symbol τ κ} :
    symbol ∈ rule.erased.body ↔ symbol ∈ rule.body ∧ symbol ≠ .epsilon := by
  rw [body_erased]
  exact mem_symbols

/-- As long as no empty text has come up, the same stands under the cursor. -/
theorem partAt?_erased {rule : Rule τ κ T N} {cursor : Nat}
    (real : ∀ prior ≤ cursor, rule.symbolAt? prior ≠ some .epsilon) :
    rule.erased.partAt? cursor = rule.partAt? cursor := by
  unfold partAt?
  rw [length_erased]
  split
  · rename_i within
    have length := rule.length_le
    rw [body, List.length_map] at length
    have kept : (rule.parts.take (cursor + 1)).filter (fun part => !part.symbol.isEpsilon) =
        rule.parts.take (cursor + 1) := by
      refine List.filter_eq_self.mpr fun part member => ?_
      obtain ⟨prior, bound, rfl⟩ := List.mem_take_iff_getElem.mp member
      rw [Nat.lt_min] at bound
      have other := real prior (by omega)
      rw [symbolAt?, partAt?, if_pos (by omega), List.getElem?_eq_getElem bound.2] at other
      cases same : rule.parts[prior].symbol with
      | epsilon => exact absurd (congrArg some same) other
      | terminal | nonterminal => rfl
    have inside : cursor < (rule.parts.take (cursor + 1)).length := by
      rw [List.length_take]
      omega
    show (rule.parts.filter _)[cursor]? = _
    conv_lhs => rw [← List.take_append_drop (cursor + 1) rule.parts, List.filter_append, kept]
    rw [List.getElem?_append_left inside, List.getElem?_take_of_lt (Nat.lt_succ_self cursor)]
  · rfl

end Rule

namespace Grammar

variable (g : Grammar τ κ T N)

/-- The grammar without the empty texts in its rule bodies. -/
def erased : Grammar τ κ T N where
  alphabet := g.alphabet
  rules := g.rules.map Rule.erased
  rules_ne_nil := by simpa using g.rules_ne_nil
  defined := by
    intro rule member key used
    obtain ⟨written, isRule, rfl⟩ := List.mem_map.mp member
    rw [List.map_map]
    exact g.defined written isRule key (Rule.mem_body_erased.mp used).1

@[simp] theorem alphabet_erased : g.erased.alphabet = g.alphabet := rfl

@[simp] theorem rule?_erased (place : Nat) :
    g.erased.rule? place = (g.rule? place).map Rule.erased := List.getElem?_map

@[simp] theorem keys_rules_erased : g.erased.rules.map Rule.key = g.rules.map Rule.key := by
  rw [erased, List.map_map]
  rfl

theorem terminalOccurrences_erased : g.erased.terminalOccurrences = g.terminalOccurrences := by
  unfold terminalOccurrences erased
  rw [List.flatMap_map]
  refine congrArg (List.flatMap · g.rules) (funext fun rule => ?_)
  rw [Rule.body_erased, Rule.symbols, List.filterMap_filter]
  refine congrArg (List.filterMap · rule.body) (funext fun symbol => ?_)
  cases symbol <;> rfl

section Keys

variable [DecidableEq κ]

theorem keys_erased : g.erased.keys = g.keys := by rw [keys, keys_rules_erased, keys]

theorem defines_erased (key : κ) : g.erased.defines key = g.defines key := by
  rw [defines, erased, List.any_map]
  rfl

theorem startItems_erased (key : κ) : g.erased.startItems key = g.startItems key := by
  unfold startItems rulesFor erased
  rw [List.zipIdx_map, List.filterMap_map]
  rfl

end Keys

/-! ### Lookahead -/

section Lookahead

variable [Ordered τ] [DecidableEq κ]

theorem firstPass_erased : g.erased.firstPass = g.firstPass := by
  funext first
  unfold firstPass erased
  rw [List.foldl_map]
  simp only [Rule.key_erased, Rule.body_erased, Rule.symbols, FirstSets.ofBody_symbols]

theorem absorb_symbols (first : FirstSets τ κ) (key : κ) (body : List (Symbol τ κ))
    (follow : FollowSets τ κ) :
    FollowSets.absorb first key (body.filter fun symbol => !symbol.isEpsilon) follow =
      FollowSets.absorb first key body follow := by
  induction body generalizing follow with
  | nil => rfl
  | cons symbol rest ih =>
    cases symbol with
    | terminal t => exact ih follow
    | epsilon => exact ih follow
    | nonterminal inner =>
      rw [List.filter_cons_of_pos rfl, FollowSets.absorb, FollowSets.absorb,
        FollowSets.behind, FirstSets.ofBody_symbols]
      exact ih _

theorem followPass_erased (first : FirstSets τ κ) :
    g.erased.followPass first = g.followPass first := by
  funext follow
  unfold followPass erased
  rw [List.foldl_map]
  simp only [Rule.key_erased, Rule.body_erased, Rule.symbols, absorb_symbols]

variable [DecidableEq τ]

theorem firstSets_erased : g.erased.firstSets = g.firstSets := by
  rw [firstSets, firstRun, firstPass_erased, keys_erased, terminalOccurrences_erased]
  rfl

theorem followRun_erased (first : FirstSets τ κ) : g.erased.followRun first = g.followRun first := by
  rw [followRun, followPass_erased, keys_erased, terminalOccurrences_erased]
  rfl

theorem symbolSets_erased [Ordered κ] : g.erased.symbolSets = g.symbolSets := by
  rw [symbolSets_eq, symbolSets_eq, firstSets_erased, followRun_erased]

end Lookahead

/-! ### Solid items -/

/-- Whether no empty text stands before the cursor of an item or under it. -/
def Solid (item : Item) : Prop :=
  ∀ cursor ≤ item.cursor, g.expected? ⟨item.rule, cursor⟩ ≠ some .epsilon

variable {g} {item : Item} {items : ItemSet}

theorem Solid.expected_ne_epsilon (solid : g.Solid item) : g.expected? item ≠ some .epsilon :=
  solid item.cursor (Nat.le_refl _)

/-- An item with nothing read is solid, or it expects the empty text. -/
theorem solid_or_expects_of_cursor (unread : item.cursor = 0) :
    g.Solid item ∨ g.expected? item = some .epsilon := by
  by_cases expected : g.expected? item = some .epsilon
  · exact .inr expected
  · refine .inl fun cursor bound => ?_
    obtain rfl : cursor = item.cursor := by omega
    exact expected

/-- So is one that was solid before the last symbol was read. -/
theorem Solid.bump (solid : g.Solid item) :
    g.Solid item.bump ∨ g.expected? item.bump = some .epsilon := by
  by_cases expected : g.expected? item.bump = some .epsilon
  · exact .inr expected
  · refine .inl fun cursor bound => ?_
    rcases Nat.lt_or_eq_of_le bound with before | rfl
    · exact solid cursor (Nat.le_of_lt_succ before)
    · exact expected

/-- Under the cursor of a solid item stands what does without the empty texts. -/
theorem part?_erased (solid : g.Solid item) : g.erased.part? item = g.part? item := by
  unfold part?
  rw [rule?_erased]
  cases found : g.rule? item.rule with
  | none => rfl
  | some rule =>
    refine Rule.partAt?_erased fun prior bound => ?_
    have expected := solid prior bound
    rwa [expected?, found] at expected

theorem expected?_erased (solid : g.Solid item) : g.erased.expected? item = g.expected? item := by
  rw [← map_symbol_part?, part?_erased solid, map_symbol_part?]

/-- Whether all items of a set are solid. -/
def SolidSet (g : Grammar τ κ T N) (items : ItemSet) : Prop := ∀ item ∈ items, g.Solid item

/-- Whether some item of a set expects the empty text. -/
def Interrupted (g : Grammar τ κ T N) (items : ItemSet) : Prop :=
  ∃ item ∈ items, g.expected? item = some .epsilon

theorem SolidSet.not_interrupted (solid : g.SolidSet items) : ¬ g.Interrupted items :=
  fun ⟨item, member, expected⟩ => (solid item member).expected_ne_epsilon expected

/-! ### Sets of solid items -/

section Sets

variable [DecidableEq κ]

theorem predicted_erased (solid : g.Solid item) : g.erased.predicted item = g.predicted item := by
  unfold predicted
  simp only [expected?_erased solid, startItems_erased]

/-- Closing a set adds solid items, or one that expects the empty text. -/
theorem solid_or_interrupted_closure
    (each : ∀ item ∈ items, g.Solid item ∨ g.expected? item = some .epsilon) :
    g.SolidSet (g.closure items) ∨ g.Interrupted (g.closure items) := by
  by_cases interrupted : g.Interrupted (g.closure items)
  · exact .inr interrupted
  · refine .inl fun item member => ?_
    have solid : g.Solid item ∨ g.expected? item = some .epsilon := by
      rcases g.mem_closure_cases member with base | ⟨parent, _, predicted⟩
      · exact each item base
      · obtain ⟨key, _, isStart⟩ := g.mem_predicted.mp predicted
        exact solid_or_expects_of_cursor (g.mem_startItems.mp isStart).1
    exact solid.resolve_right fun expected => interrupted ⟨item, member, expected⟩

/-- A closure of solid items is the closure without the empty texts. -/
theorem closure_erased (solid : g.SolidSet (g.closure items)) :
    g.erased.closure items = g.closure items := by
  refine SortedSet.ext fun item => ⟨fun member => ?_, fun member => ?_⟩
  · refine g.erased.closure_least (fun item inside next predicted => ?_)
      (fun item base => g.subset_closure base) item member
    rw [predicted_erased (solid item inside)] at predicted
    exact g.closure_predictive items item inside next predicted
  · -- the items are in both closures, so they are solid as they are predicted
    have both : item ∈ g.closure items ∧ item ∈ g.erased.closure items := by
      refine g.closure_least (S := fun item => item ∈ g.closure items ∧
        item ∈ g.erased.closure items) ?_ ?_ item member
      · intro item inside next predicted
        refine ⟨g.closure_predictive items item inside.1 next predicted,
          g.erased.closure_predictive items item inside.2 next ?_⟩
        rwa [predicted_erased (solid item inside.1)]
      · exact fun item base => ⟨g.subset_closure base, g.erased.subset_closure base⟩
    exact both.2

theorem solid_or_interrupted_startSet (g : Grammar τ κ T N) (key : κ) :
    g.SolidSet (g.startSet key) ∨ g.Interrupted (g.startSet key) :=
  solid_or_interrupted_closure fun _ member =>
    solid_or_expects_of_cursor (g.mem_startItems.mp (SortedSet.mem_ofList.mp member)).1

theorem startSet_erased {key : κ} (solid : g.SolidSet (g.startSet key)) :
    g.erased.startSet key = g.startSet key := by
  rw [startSet, startItems_erased]
  exact closure_erased solid

variable [DecidableEq τ]

/-- Reading a symbol leads from a solid set to a solid one, or to one with an item that
expects the empty text. -/
theorem SolidSet.advance (solid : g.SolidSet items) (symbol : Symbol τ κ) :
    g.SolidSet (g.advance items symbol) ∨ g.Interrupted (g.advance items symbol) := by
  refine solid_or_interrupted_closure fun item member => ?_
  obtain ⟨prior, inside, _, rfl⟩ := g.mem_kernel.mp member
  exact (solid prior inside).bump

theorem advance_erased (solid : g.SolidSet items) {symbol : Symbol τ κ}
    (solid' : g.SolidSet (g.advance items symbol)) :
    g.erased.advance items symbol = g.advance items symbol := by
  have kernel : g.erased.kernel items symbol = g.kernel items symbol := by
    unfold Grammar.kernel
    rw [List.filter_congr fun item member => by rw [expected?_erased (solid item member)]]
  rw [Grammar.advance, kernel]
  exact closure_erased solid'

omit [DecidableEq κ] in
theorem copyIn_erased (solid : g.SolidSet items) (t : τ) :
    g.erased.copyIn items t = g.copyIn items t := by
  have first : ∀ l : List Item, (∀ item ∈ l, g.Solid item) →
      (l.findSome? fun item => (g.erased.part? item).bind (BodyPart.copyOf? g.alphabet t)) =
        l.findSome? fun item => (g.part? item).bind (BodyPart.copyOf? g.alphabet t) := by
    intro l each
    rw [← List.head?_filterMap, ← List.head?_filterMap]
    exact congrArg List.head? (List.filterMap_congr fun item member => by
      rw [part?_erased (each item member)])
  unfold copyIn
  rw [alphabet_erased, first _ solid]

/-! ### Plans -/

variable [Ordered τ] [Ordered κ]

/-- A solid set has the plan that it has without the empty texts. -/
theorem plan_erased (solid : g.SolidSet items) (follow : FollowSets τ κ) (context : Context) :
    g.erased.plan follow items context = g.plan follow items context := by
  have expected : ∀ item ∈ items.toList, g.erased.expected? item = g.expected? item :=
    fun item member => expected?_erased (solid item member)
  have unexpected : ∀ item ∈ items.toList, g.expected? item ≠ some .epsilon :=
    fun item member => (solid item member).expected_ne_epsilon
  have epsilon : g.erased.epsilonExpected? items = g.epsilonExpected? items := by
    unfold epsilonExpected?
    rw [List.find?_eq_none.mpr, List.find?_eq_none.mpr]
    · simpa using unexpected
    · intro item member
      simpa [expected item member] using unexpected item member
  have complete : g.erased.completeRules items = g.completeRules items := by
    unfold completeRules
    rw [List.filter_congr fun item member => by rw [expected item member]]
  have terminals : g.erased.expectedTerminals items = g.expectedTerminals items := by
    unfold expectedTerminals
    rw [List.filterMap_congr fun item member => by rw [expected item member]]
  have keys : g.erased.expectedKeys items = g.expectedKeys items := by
    unfold expectedKeys
    rw [List.filterMap_congr fun item member => by rw [expected item member]]
  have reductions : g.erased.reductionTerminals follow = g.reductionTerminals follow := by
    funext place
    unfold reductionTerminals
    rw [rule?_erased]
    cases g.rule? place <;> rfl
  have candidates : g.erased.candidateReductions follow items = g.candidateReductions follow items := by
    rw [candidateReductions, complete, reductions, candidateReductions]
  have copies : g.erased.copyIn items = g.copyIn items := funext (copyIn_erased solid)
  rw [Grammar.plan, epsilon, complete, terminals, keys, candidates, copies, Grammar.plan]

end Sets

end Grammar

end ShiftReduce
