/-
  The closure as an operator on item sets.

  What a set predicts is what its items predict one by one. So the closure of a set, the least
  set that holds it and the rules of every nonterminal under a cursor (`isLeast_closure`), grows
  with the set (`closure_subset_closure`), adds nothing to a set that is closed
  (`closure_closure`), and can be taken of two sets together or apart (`closure_union`).
-/
import Mathlib.Data.Set.Insert
import Mathlib.Order.Bounds.Defs
import ShiftReduce.Proofs.Brackets
import ShiftReduce.Proofs.Closure

namespace ShiftReduce

variable {τ κ T N : Type}

namespace Grammar

/-! ### Leastness -/

/-- `g.Extends items S` says that `S` holds these items and, with an item before a nonterminal,
every rule of the nonterminal with nothing read. -/
structure Extends (g : Grammar τ κ T N) (items : ItemSet) (S : Set Item) : Prop where
  base : ∀ item ∈ items, item ∈ S
  predicts : ∀ item ∈ S, ∀ key, g.expected? item = some (.nonterminal key) →
    ∀ place rule, g.rule? place = some rule → rule.key = key → ⟨place, 0⟩ ∈ S

variable [DecidableEq κ] (g : Grammar τ κ T N) {items others : ItemSet} {item : Item}

theorem extends_iff {S : Set Item} :
    g.Extends items S ↔ (∀ item ∈ items, item ∈ S) ∧ g.Predictive (· ∈ S) := by
  constructor
  · rintro ⟨base, predicts⟩
    refine ⟨base, fun item inside next predicted => ?_⟩
    obtain ⟨key, expected, isStart⟩ := g.mem_predicted.mp predicted
    obtain ⟨unread, rule, found, isKey⟩ := g.mem_startItems.mp isStart
    obtain ⟨place, cursor⟩ := next
    cases unread
    exact predicts item inside key expected place rule found isKey
  · rintro ⟨base, predictive⟩
    refine ⟨base, fun item inside key expected place rule found isKey => ?_⟩
    exact predictive item inside _
      (g.mem_predicted.mpr ⟨key, expected, g.mem_startItems.mpr ⟨rfl, rule, found, isKey⟩⟩)

theorem isLeast_closure (items : ItemSet) :
    IsLeast {S : Set Item | g.Extends items S} {item | item ∈ g.closure items} := by
  constructor
  · exact g.extends_iff.mpr ⟨fun item => g.subset_closure, g.closure_predictive items⟩
  · intro S holds item member
    obtain ⟨base, predictive⟩ := g.extends_iff.mp holds
    exact g.closure_least predictive base item member

/-- Of what is added, nothing has been read. -/
theorem cursor_of_mem_closure (member : item ∈ g.closure items) (added : item ∉ items) :
    item.cursor = 0 := by
  rcases g.mem_closure_cases member with base | ⟨parent, _, predicted⟩
  · exact absurd base added
  · obtain ⟨_, _, isStart⟩ := g.mem_predicted.mp predicted
    exact (g.mem_startItems.mp isStart).1

/-! ### Laws -/

/-- A closure has the closure of whatever it holds. -/
theorem closure_subset (inside : ∀ item ∈ items, item ∈ g.closure others) :
    ∀ item ∈ g.closure items, item ∈ g.closure others :=
  g.closure_least (g.closure_predictive others) inside

theorem closure_subset_closure (subset : ∀ item ∈ items, item ∈ others) :
    ∀ item ∈ g.closure items, item ∈ g.closure others :=
  g.closure_subset fun item member => g.subset_closure (subset item member)

theorem closure_closure (items : ItemSet) : g.closure (g.closure items) = g.closure items :=
  SortedSet.ext fun item => ⟨g.closure_subset (fun _ member => member) item, g.subset_closure⟩

theorem closure_union (items others : ItemSet) :
    g.closure (items ∪ others) = g.closure items ∪ g.closure others := by
  refine SortedSet.ext fun item => ⟨fun member => ?_, fun member => ?_⟩
  · -- an item predicts by itself, so the closures need nothing of each other
    refine g.closure_least (S := (· ∈ g.closure items ∪ g.closure others)) ?_ ?_ item member
    · intro parent inside next predicted
      rw [SortedSet.mem_union] at inside ⊢
      exact inside.imp (fun inside => g.closure_predictive items parent inside next predicted)
        fun inside => g.closure_predictive others parent inside next predicted
    · intro base isBase
      rw [SortedSet.mem_union] at isBase ⊢
      exact isBase.imp g.subset_closure g.subset_closure
  · rcases SortedSet.mem_union.mp member with left | right
    · exact g.closure_subset_closure (fun _ old => SortedSet.mem_union.mpr (.inl old)) item left
    · exact g.closure_subset_closure (fun _ old => SortedSet.mem_union.mpr (.inr old)) item right

variable [DecidableEq τ]

/-- The closure of a set is the least set that holds it and every rule, with nothing read, of a
nonterminal under one of its cursors, and all that it adds are such rules. Hence a closure is
its own closure, a larger set has a larger closure, and the closure of two sets together is that
of either. Reading a symbol leads to the closure of the items that expect it, each with its
cursor moved by one. -/
theorem closure_laws (items others : ItemSet) (symbol : Symbol τ κ) :
    IsLeast {S : Set Item | g.Extends items S} {item | item ∈ g.closure items} ∧
    (∀ item ∈ g.closure items, item ∉ items → item.cursor = 0) ∧
    g.closure (g.closure items) = g.closure items ∧
    ((∀ item ∈ items, item ∈ others) → ∀ item ∈ g.closure items, item ∈ g.closure others) ∧
    g.closure (items ∪ others) = g.closure items ∪ g.closure others ∧
    ∃ read : ItemSet, g.advance items symbol = g.closure read ∧
      ∀ place cursor, ⟨place, cursor⟩ ∈ read ↔ ∃ before, ⟨place, before⟩ ∈ items ∧
        g.expected? ⟨place, before⟩ = some symbol ∧ cursor = before + 1 := by
  refine ⟨g.isLeast_closure items, fun item => g.cursor_of_mem_closure, g.closure_closure items,
    g.closure_subset_closure, g.closure_union items others, g.kernel items symbol, rfl,
    fun place cursor => ?_⟩
  rw [g.mem_kernel]
  constructor
  · rintro ⟨⟨place, before⟩, member, expected, same⟩
    cases same
    exact ⟨before, member, expected, rfl⟩
  · rintro ⟨before, member, expected, rfl⟩
    exact ⟨⟨place, before⟩, member, expected, rfl⟩

end Grammar

/-! ### Behind a bracket -/

namespace Brackets

/-- The item that has read an opening bracket. -/
def inside : ItemSet := .ofList [⟨4, 1⟩]

/-- The same item, and the one that has read a list and expects a group. -/
def insideOrBetween : ItemSet := .ofList [⟨3, 1⟩, ⟨4, 1⟩]

/-- Behind an opening bracket a list is predicted, and each of its two rules with it. The closure
of the larger set has these items too, and predicts a group besides. -/
theorem isLeast_inside : (∀ item ∈ inside, item ∈ insideOrBetween) ∧
    IsLeast {S : Set Item | grammar.Extends inside S} {⟨2, 0⟩, ⟨3, 0⟩, ⟨4, 1⟩} ∧
    (∀ item ∈ grammar.closure inside, item ∈ grammar.closure insideOrBetween) ∧
    grammar.closure insideOrBetween = .ofList [⟨2, 0⟩, ⟨3, 0⟩, ⟨3, 1⟩, ⟨4, 0⟩, ⟨4, 1⟩] := by
  have subset : ∀ item ∈ inside, item ∈ insideOrBetween := by
    intro item member
    exact (by decide : ∀ item ∈ inside.toList, item ∈ insideOrBetween) item member
  have isClosure : grammar.closure inside = .ofList [⟨2, 0⟩, ⟨3, 0⟩, ⟨4, 1⟩] := by decide +kernel
  obtain ⟨least, _, _, monotone, _⟩ :=
    grammar.closure_laws inside insideOrBetween (.nonterminal .list)
  refine ⟨subset, ?_, monotone subset, by decide +kernel⟩
  have same : {item | item ∈ grammar.closure inside} =
      ({⟨2, 0⟩, ⟨3, 0⟩, ⟨4, 1⟩} : Set Item) := by
    ext item
    simp [isClosure]
  rwa [same] at least

end Brackets

end ShiftReduce
