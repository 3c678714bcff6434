/-
  The order of the rules has no part in what item sets ask for.

  Rules are known by their places, so a grammar with its rules in another order
  has other items. A permutation of the places renames them
  (`Grammar.Reorders`), and with them all that is computed of items: what they
  predict, closures and the sets behind symbols (`Reorders.advance`). What names
  no place stays the same: the terminals and keys that are expected, and the
  terminals that can come behind a key (`Reorders.neighbours_iff`). So a plan
  differs in the places that it names only (`Reorders.exists_plan`).
-/
import ShiftReduce.Proofs.Table.Visits
import Mathlib.Data.List.Sort
import Mathlib.Logic.Equiv.Basic

namespace ShiftReduce

/-! ### Sorted lists -/

/-- Lists with strictly increasing keys that have the same elements are the same list. -/
theorem eq_of_keys_of_mem_iff {α κ : Type} [Ordered κ] (key : α → κ) {l l' : List α}
    (sorted : l.Pairwise fun a b => compare (key a) (key b) = .lt)
    (sorted' : l'.Pairwise fun a b => compare (key a) (key b) = .lt)
    (same : ∀ a, a ∈ l ↔ a ∈ l') : l = l' := by
  have : Std.Irrefl fun a b : α => compare (key a) (key b) = .lt :=
    ⟨fun a => compare_self_ne_lt (key a)⟩
  have : Std.Antisymm fun a b : α => compare (key a) (key b) = .lt :=
    ⟨fun a b before after => absurd (Std.TransCmp.lt_trans before after) (compare_self_ne_lt _)⟩
  exact sorted.eq_of_mem_iff sorted' same

namespace SortedMap

variable {κ β γ : Type} [Ordered κ]

/-- Maps with the same values at all keys are equal. -/
theorem ext_get? [DecidableEq κ] {m m' : SortedMap κ β} (same : ∀ key, m.get? key = m'.get? key) :
    m = m' := by
  have entries : m.entries = m'.entries :=
    eq_of_keys_of_mem_iff Prod.fst m.sorted m'.sorted fun ⟨key, value⟩ => by
      rw [mem_entries, mem_entries, same]
  cases m
  cases m'
  cases entries
  rfl

/-- The map with a function applied to its values. -/
def mapValues (f : β → γ) (m : SortedMap κ β) : SortedMap κ γ :=
  ⟨m.entries.map fun entry => (entry.1, f entry.2), List.pairwise_map.mpr m.sorted⟩

theorem get?_mapValues [DecidableEq κ] (f : β → γ) (m : SortedMap κ β) (key : κ) :
    (m.mapValues f).get? key = (m.get? key).map f := by
  rw [get?, mapValues, List.find?_map, get?, Option.map_map, Option.map_map]
  rfl

theorem keys_mapValues (f : β → γ) (m : SortedMap κ β) : (m.mapValues f).keys = m.keys := by
  rw [keys, mapValues, List.map_map]
  rfl

end SortedMap

/-! ### Permutations of lists -/

/-- Whether moving each place of the one list gives the other. -/
def Permutes {α : Type} (places : Equiv.Perm Nat) (l l' : List α) : Prop :=
  ∀ place, l'[places place]? = l[place]?

namespace Permutes

variable {α : Type} {places : Equiv.Perm Nat} {l l' : List α}

theorem symm (permutes : Permutes places l l') : Permutes places.symm l' l := by
  intro place
  rw [← permutes, Equiv.apply_symm_apply]

theorem mem_iff (permutes : Permutes places l l') {a : α} : a ∈ l' ↔ a ∈ l := by
  rw [List.mem_iff_getElem?, List.mem_iff_getElem?]
  constructor
  · rintro ⟨place, found⟩
    exact ⟨places.symm place, by rw [permutes.symm, found]⟩
  · rintro ⟨place, found⟩
    exact ⟨places place, by rw [permutes, found]⟩

end Permutes

/-- The item with the place of its rule moved. -/
def Item.rename (places : Equiv.Perm Nat) (item : Item) : Item := ⟨places item.rule, item.cursor⟩

theorem Item.rename_injective (places : Equiv.Perm Nat) :
    Function.Injective (Item.rename places) := by
  intro item item' same
  have rules : item.rule = item'.rule := places.injective (congrArg Item.rule same)
  have cursors : (item.rename places).cursor = (item'.rename places).cursor := by rw [same]
  change item.cursor = item'.cursor at cursors
  cases item
  cases item'
  simp_all

theorem Item.exists_rename (places : Equiv.Perm Nat) (item : Item) :
    ∃ prior : Item, prior.rename places = item :=
  ⟨⟨places.symm item.rule, item.cursor⟩, by rw [rename, Equiv.apply_symm_apply]⟩

namespace ItemSet

/-- The set with the places of the rules moved. -/
def rename (places : Equiv.Perm Nat) (items : ItemSet) : ItemSet :=
  .ofList (items.toList.map (Item.rename places))

variable {places : Equiv.Perm Nat} {items items' : ItemSet} {item : Item}

theorem mem_rename : item ∈ rename places items ↔ ∃ prior ∈ items, prior.rename places = item := by
  rw [rename, SortedSet.mem_ofList, List.mem_map]
  exact Iff.rfl

@[simp] theorem rename_mem_rename : item.rename places ∈ rename places items ↔ item ∈ items := by
  rw [mem_rename]
  constructor
  · rintro ⟨prior, member, same⟩
    exact Item.rename_injective places same ▸ member
  · exact fun member => ⟨item, member, rfl⟩

/-- A set is a renaming if it has the renamed items of the other. -/
theorem eq_rename (same : ∀ item : Item, item.rename places ∈ items' ↔ item ∈ items) :
    items' = rename places items := by
  refine SortedSet.ext fun item => ?_
  obtain ⟨prior, rfl⟩ := item.exists_rename places
  rw [same, rename_mem_rename]

theorem rename_injective (places : Equiv.Perm Nat) : Function.Injective (rename places) := by
  intro items items' same
  refine SortedSet.ext fun item => ?_
  have renamed : item.rename places ∈ rename places items ↔
      item.rename places ∈ rename places items' := by rw [same]
  rwa [rename_mem_rename, rename_mem_rename] at renamed

theorem toList_rename_perm (places : Equiv.Perm Nat) (items : ItemSet) :
    (rename places items).toList.Perm (items.toList.map (Item.rename places)) := by
  refine (List.perm_ext_iff_of_nodup (SortedSet.nodup_toList _)
    (items.nodup_toList.map (Item.rename_injective places))).mpr fun item => ?_
  rw [List.mem_map, SortedSet.mem_toList, mem_rename]
  exact Iff.rfl

end ItemSet

/-! ### Grammars -/

variable {τ κ T N : Type}

/-- Whether two lists of rules have the same terminals: the copies of a terminal in the
one and in the other have one precedence and one associativity. -/
def SameTerminals [DecidableEq τ] (alphabet : τ → Terminal T)
    (rules rules' : List (Rule τ κ T N)) : Prop :=
  ∀ rule ∈ rules, ∀ rule' ∈ rules', ∀ part ∈ rule.parts, ∀ part' ∈ rule'.parts, ∀ t copy copy',
    part.copyOf? alphabet t = some copy → part'.copyOf? alphabet t = some copy' → copy = copy'

/-- `g.Reorders places g'` says that `g'` has the rules of `g` at other places, with the
same terminals. -/
structure Grammar.Reorders [DecidableEq τ] (places : Equiv.Perm Nat) (g g' : Grammar τ κ T N) :
    Prop where
  alphabet : g'.alphabet = g.alphabet
  rules : Permutes places g.rules g'.rules
  terminals : SameTerminals g.alphabet g.rules g'.rules

namespace Grammar.Reorders

variable [DecidableEq τ] {places : Equiv.Perm Nat} {g g' : Grammar τ κ T N} {items : ItemSet}
  {item next : Item}

theorem rule? (reorders : Reorders places g g') (place : Nat) :
    g'.rule? (places place) = g.rule? place := reorders.rules place

theorem expected? (reorders : Reorders places g g') (item : Item) :
    g'.expected? (item.rename places) = g.expected? item := by
  unfold Grammar.expected?
  rw [Item.rename, reorders.rule?]

theorem mem_rules_iff (reorders : Reorders places g g') {rule : Rule τ κ T N} :
    rule ∈ g'.rules ↔ rule ∈ g.rules := reorders.rules.mem_iff

theorem expects_iff (reorders : Reorders places g g') {symbol : Symbol τ κ} :
    g'.Expects (items.rename places) symbol ↔ g.Expects items symbol := by
  constructor
  · rintro ⟨item, member, expected⟩
    obtain ⟨prior, inside, rfl⟩ := ItemSet.mem_rename.mp member
    exact ⟨prior, inside, (reorders.expected? prior) ▸ expected⟩
  · rintro ⟨item, member, expected⟩
    exact ⟨item.rename places, ItemSet.rename_mem_rename.mpr member,
      (reorders.expected? item).trans expected⟩

/-- A renamed set expects the same copies of terminals. -/
theorem copyIn (reorders : Reorders places g g') (items : ItemSet) (t : τ) :
    g'.copyIn (items.rename places) t = g.copyIn items t := by
  by_cases expects : g.Expects items (.terminal t)
  · obtain ⟨item, member, expected⟩ := expects
    obtain ⟨item', member', expected'⟩ := reorders.expects_iff.mpr ⟨item, member, expected⟩
    obtain ⟨rule, isRule, part, isPart, isCopy⟩ := g.exists_copyOf?_eq_copyIn member expected
    obtain ⟨rule', isRule', part', isPart', isCopy'⟩ :=
      g'.exists_copyOf?_eq_copyIn member' expected'
    rw [reorders.alphabet] at isCopy'
    exact (reorders.terminals rule isRule rule' isRule' part isPart part' isPart' t _ _ isCopy
      isCopy').symm
  · rw [g.copyIn_of_not_expected fun item member expected => expects ⟨item, member, expected⟩,
      g'.copyIn_of_not_expected fun item member expected =>
        expects (reorders.expects_iff.mp ⟨item, member, expected⟩), reorders.alphabet]

/-- The rules that are read completely are the same, at other places. -/
theorem completeRules_perm (reorders : Reorders places g g') (items : ItemSet) :
    (g'.completeRules (items.rename places)).Perm ((g.completeRules items).map places) := by
  have same : (items.toList.map (Item.rename places)).filter (fun item => g'.expected? item = none) =
      (items.toList.filter fun item => g.expected? item = none).map (Item.rename places) := by
    rw [List.filter_map]
    simp only [Function.comp_def, reorders.expected?]
  have perm := ((ItemSet.toList_rename_perm places items).filter
    fun item => g'.expected? item = none).map Item.rule
  rw [same, List.map_map] at perm
  rw [Grammar.completeRules, Grammar.completeRules, List.map_map]
  exact perm

/-! ### Closures -/

variable [DecidableEq κ]

theorem defines_eq (reorders : Reorders places g g') (key : κ) : g'.defines key = g.defines key := by
  rw [Bool.eq_iff_iff, Grammar.defines, Grammar.defines, List.any_eq_true, List.any_eq_true]
  simp only [reorders.mem_rules_iff]

theorem mem_startItems_iff (reorders : Reorders places g g') {key : κ} :
    item.rename places ∈ g'.startItems key ↔ item ∈ g.startItems key := by
  rw [g'.mem_startItems, g.mem_startItems, Item.rename, reorders.rule?]

theorem mem_predicted_iff (reorders : Reorders places g g') :
    next.rename places ∈ g'.predicted (item.rename places) ↔ next ∈ g.predicted item := by
  rw [g'.mem_predicted, g.mem_predicted, reorders.expected?]
  simp only [reorders.mem_startItems_iff]

/-- The closure of a renamed set is the closure renamed. -/
theorem closure (reorders : Reorders places g g') (items : ItemSet) :
    g'.closure (items.rename places) = (g.closure items).rename places := by
  refine ItemSet.eq_rename fun item => ⟨fun member => ?_, fun member => ?_⟩
  · have renamed : ∀ item ∈ g'.closure (items.rename places),
        ∃ prior ∈ g.closure items, prior.rename places = item := by
      refine g'.closure_least ?_ ?_
      · rintro _ ⟨prior, inside, rfl⟩ next predicted
        obtain ⟨next, rfl⟩ := next.exists_rename places
        exact ⟨next, g.closure_predictive items prior inside next
          (reorders.mem_predicted_iff.mp predicted), rfl⟩
      · intro item member
        obtain ⟨prior, inside, rfl⟩ := ItemSet.mem_rename.mp member
        exact ⟨prior, g.subset_closure inside, rfl⟩
    obtain ⟨prior, inside, same⟩ := renamed _ member
    exact Item.rename_injective places same ▸ inside
  · refine g.closure_least
      (S := fun item => item.rename places ∈ g'.closure (items.rename places)) ?_ ?_ _ member
    · intro item inside next predicted
      exact g'.closure_predictive _ _ inside _ (reorders.mem_predicted_iff.mpr predicted)
    · exact fun item member => g'.subset_closure (ItemSet.rename_mem_rename.mpr member)

theorem startSet (reorders : Reorders places g g') (key : κ) :
    g'.startSet key = (g.startSet key).rename places := by
  have start : SortedSet.ofList (g'.startItems key) =
      ItemSet.rename places (.ofList (g.startItems key)) :=
    ItemSet.eq_rename fun item => by
      rw [SortedSet.mem_ofList, SortedSet.mem_ofList, reorders.mem_startItems_iff]
  rw [Grammar.startSet, start, reorders.closure, Grammar.startSet]

/-- The set behind a symbol of a renamed set is the set behind it renamed. -/
theorem advance (reorders : Reorders places g g') (items : ItemSet) (symbol : Symbol τ κ) :
    g'.advance (items.rename places) symbol = (g.advance items symbol).rename places := by
  have kernel : g'.kernel (items.rename places) symbol = (g.kernel items symbol).rename places := by
    refine ItemSet.eq_rename fun item => ?_
    rw [g'.mem_kernel, g.mem_kernel]
    constructor
    · rintro ⟨prior, member, expected, same⟩
      obtain ⟨prior, inside, rfl⟩ := ItemSet.mem_rename.mp member
      have bumped : prior.bump.rename places = item.rename places := same
      exact ⟨prior, inside, (reorders.expected? prior) ▸ expected,
        Item.rename_injective places bumped⟩
    · rintro ⟨prior, inside, expected, rfl⟩
      exact ⟨prior.rename places, ItemSet.rename_mem_rename.mpr inside,
        (reorders.expected? prior).trans expected, rfl⟩
  rw [Grammar.advance, kernel, reorders.closure, Grammar.advance]

/-! ### Reductions -/

/-- What stands behind a key does not depend on the order of the rules. -/
theorem neighbours_iff (reorders : Reorders places g g') {key : κ} {t : τ} :
    g'.Neighbours key t ↔ g.Neighbours key t := by
  have rewrites : g'.Rewrites = g.Rewrites := by
    funext before after
    simp only [Grammar.Rewrites, reorders.mem_rules_iff]
  have keys : ∀ key, key ∈ g'.keys ↔ key ∈ g.keys := fun key => by
    simp only [mem_keys, reorders.mem_rules_iff]
  simp only [Grammar.Neighbours, rewrites, keys]

theorem reduces_iff (reorders : Reorders places g g') {t : τ} {place : Nat} :
    g'.Reduces (items.rename places) t (places place) ↔ g.Reduces items t place := by
  rw [Grammar.Reduces, Grammar.Reduces, (reorders.completeRules_perm items).mem_iff,
    List.mem_map_of_injective places.injective, reorders.rule?]
  simp only [reorders.neighbours_iff]

theorem exists_reduces (reorders : Reorders places g g') {t : τ} {place : Nat}
    (reduces : g'.Reduces (items.rename places) t place) :
    ∃ prior, places prior = place ∧ g.Reduces items t prior := by
  obtain ⟨prior, rfl⟩ := places.surjective place
  exact ⟨prior, rfl, reorders.reduces_iff.mp reduces⟩

theorem shifts_iff (reorders : Reorders places g g') {context : Context} {t : τ} :
    g'.Shifts (items.rename places) context t ↔ g.Shifts items context t := by
  have free : (∀ place, ¬ g'.Reduces (items.rename places) t place) ↔
      ∀ place, ¬ g.Reduces items t place := by
    rw [← places.forall_congr_right]
    simp only [reorders.reduces_iff]
  rw [Grammar.Shifts, Grammar.Shifts, reorders.expects_iff, free, reorders.copyIn]

end Grammar.Reorders

/-! ### Plans -/

/-- The resolution with the place of its rule moved. -/
def Resolution.rename (places : Equiv.Perm Nat) (r : Resolution τ) : Resolution τ :=
  { r with rule := places r.rule }

/-- What is told of a refusal whatever the order of the rules: the key of a start or a
placeholder that is not defined, and the number of a state that has no plan. -/
inductive RefusalKind (κ : Type) where
  | noRules
  | undefinedKey
  | unknownStart (key : κ)
  | unknownPlaceholder (key : κ)
  | epsilonExpected (state : Nat)
  | contested (state : Nat)
deriving DecidableEq, Repr

/-- What is told of the obstacle in a state. -/
def Obstacle.kind (state : Nat) : Obstacle τ → RefusalKind κ
  | epsilonExpected _ => .epsilonExpected state
  | contested _ _ _ => .contested state

variable [Ordered τ] [Ordered κ]

/-- The two plans differ in the places that they name only. -/
structure Plan.Renamed (places : Equiv.Perm Nat) (plan plan' : Plan τ κ) : Prop where
  shifts : plan'.shifts = plan.shifts
  gotos : plan'.gotos = plan.gotos
  reductions : plan'.reductions = plan.reductions.mapValues places
  reducible : plan'.reducible.Perm (plan.reducible.map places)
  resolutions : plan'.resolutions = plan.resolutions.map (Resolution.rename places)

namespace Grammar.Reorders

variable [DecidableEq τ] [DecidableEq κ] {places : Equiv.Perm Nat} {g g' : Grammar τ κ T N}
  {items : ItemSet} {context : Context}

/-- Plans of a set and of the renamed set differ in the places that they name only. -/
theorem renamed_plan (reorders : Reorders places g g') {plan plan' : Plan τ κ}
    (ok : g.plan g.followSets items context = .ok plan)
    (ok' : g'.plan g'.followSets (items.rename places) context = .ok plan') :
    plan.Renamed places plan' := by
  have planned := g.planned_of_plan _ ok
  have planned' := g'.planned_of_plan _ ok'
  have shifts : plan'.shifts = plan.shifts := SortedSet.ext fun t => by
    rw [planned'.mem_shifts_iff, planned.mem_shifts_iff, reorders.shifts_iff]
  refine ⟨shifts, ?_, ?_, ?_, ?_⟩
  · rw [planned'.gotos, planned.gotos]
    refine SortedSet.ext fun key => ?_
    rw [g'.mem_expectedKeys, g.mem_expectedKeys]
    exact reorders.expects_iff
  · refine SortedMap.ext_get? fun t => Option.ext fun place => ?_
    rw [SortedMap.get?_mapValues, Option.map_eq_some_iff]
    simp only [planned'.reductions, planned.reductions, mayReduce_iff, shifts]
    constructor
    · rintro ⟨reduces, unshifted⟩
      obtain ⟨prior, rfl, reduces'⟩ := reorders.exists_reduces reduces
      exact ⟨prior, ⟨reduces', unshifted⟩, rfl⟩
    · rintro ⟨prior, ⟨reduces, unshifted⟩, rfl⟩
      exact ⟨reorders.reduces_iff.mpr reduces, unshifted⟩
  · rw [planned'.reducible, planned.reducible]
    exact reorders.completeRules_perm items
  · -- both lists are in terminal order
    refine eq_of_keys_of_mem_iff Resolution.terminal (g'.sorted_resolutions _ ok')
      (List.pairwise_map.mpr (g.sorted_resolutions _ ok)) fun r => ?_
    rw [planned'.resolutions, List.mem_map, g'.mem_expectedTerminals, mayReduce_iff,
      reorders.copyIn]
    simp only [planned.resolutions, g.mem_expectedTerminals, mayReduce_iff]
    constructor
    · rintro ⟨expects, reduces, chosen⟩
      obtain ⟨prior, isPlace, reduces⟩ := reorders.exists_reduces reduces
      exact ⟨{ r with rule := prior }, ⟨reorders.expects_iff.mp expects, reduces, chosen⟩,
        by rw [Resolution.rename, isPlace]⟩
    · rintro ⟨r, ⟨expects, reduces, chosen⟩, rfl⟩
      exact ⟨reorders.expects_iff.mpr expects, reorders.reduces_iff.mpr reduces, chosen⟩

/-- Where a set has a plan, so has the renamed set. -/
theorem exists_plan (reorders : Reorders places g g') {plan : Plan τ κ}
    (ok : g.plan g.followSets items context = .ok plan) :
    ∃ plan', g'.plan g'.followSets (items.rename places) context = .ok plan' ∧
      plan.Renamed places plan' := by
  have planned := g.planned_of_plan _ ok
  have real : ∀ item ∈ items.rename places, g'.expected? item ≠ some .epsilon := by
    intro item member expected
    obtain ⟨prior, inside, expected'⟩ := reorders.expects_iff.mp ⟨item, member, expected⟩
    exact planned.real prior inside expected'
  have unique : ∀ t one other, g'.MayReduce g'.followSets (items.rename places) t one →
      g'.MayReduce g'.followSets (items.rename places) t other → one = other := by
    intro t one other may may'
    rw [mayReduce_iff] at may may'
    obtain ⟨one, rfl, reduces⟩ := reorders.exists_reduces may
    obtain ⟨other, rfl, reduces'⟩ := reorders.exists_reduces may'
    rw [planned.unique t one other (mayReduce_iff.mpr reduces) (mayReduce_iff.mpr reduces')]
  obtain ⟨plan', ok'⟩ := g'.exists_plan g'.followSets context real unique
  exact ⟨plan', ok', reorders.renamed_plan ok ok'⟩

/-- Where a set has no plan, the renamed set has none for the same reason. -/
theorem exists_obstacle (reorders : Reorders places g g') {obstacle : Obstacle τ}
    (failed : g.plan g.followSets items context = .error obstacle) :
    ∃ obstacle', g'.plan g'.followSets (items.rename places) context = .error obstacle' ∧
      ∀ state, (obstacle'.kind state : RefusalKind κ) = obstacle.kind state := by
  rcases g.obstacle_of_plan _ failed with ⟨item, member, expected, rfl⟩ |
    ⟨t, one, other, may, may', differ, rfl⟩
  · obtain ⟨item', member', expected'⟩ := reorders.expects_iff.mpr ⟨item, member, expected⟩
    obtain ⟨item', failed'⟩ := g'.plan_of_expects_epsilon g'.followSets context member' expected'
    exact ⟨_, failed', fun state => rfl⟩
  · cases result : g'.plan g'.followSets (items.rename places) context with
    | ok plan' =>
      rw [mayReduce_iff] at may may'
      have same := (g'.planned_of_plan _ result).unique t (places one) (places other)
        (mayReduce_iff.mpr (reorders.reduces_iff.mpr may))
        (mayReduce_iff.mpr (reorders.reduces_iff.mpr may'))
      exact absurd (places.injective same) differ
    | error obstacle' =>
      refine ⟨obstacle', rfl, fun state => ?_⟩
      rcases g'.obstacle_of_plan _ result with ⟨item, member, expected, rfl⟩ |
        ⟨t, one, other, _, _, _, rfl⟩
      · -- an item that expects the empty text would have been told first
        obtain ⟨item, member, expected⟩ := reorders.expects_iff.mp ⟨item, member, expected⟩
        obtain ⟨item', failed'⟩ := g.plan_of_expects_epsilon g.followSets context member expected
        cases failed.symm.trans failed'
      · rfl

end Grammar.Reorders

end ShiftReduce
