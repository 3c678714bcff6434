/-
  Building a table ends by itself.

  The loops of the construction run on a budget. Here they are said without one,
  each as a relation that holds of a loop that has come to its end: the passes of
  the lookahead sets (`Settles`), the worklist of a closure (`Grammar.Expands`) and
  that of the states (`Exploration.Ends`). The last two push new work while they
  run. A closure ends since each item that it adds is a rule with nothing read that
  was not in the set (`length_unread`), so it expands every item of the result once.
  An exploration ends since the sets that it discovers are different and hold items
  of the grammar only.

  `Grammar.Builds` puts the loops together. It holds of one result for every grammar,
  start key and placeholders, and this is the one that `Grammar.table` finds
  (`builds_iff`).
-/
import ShiftReduce.Proofs.Table.Automaton

namespace ShiftReduce

variable {τ κ T N : Type}

namespace Grammar

/-! ### Expanding an item set -/

section Expansion

variable [DecidableEq κ] (g : Grammar τ κ T N)

/-- The items that an item predicts and a set does not hold. -/
def fresh (item : Item) (closed : ItemSet) : List Item :=
  (g.predicted item).filter fun next => next ∉ closed

/-- `g.Expands pending closed expanded result` says that a closure that has come as
far as `closed`, and is to expand the items `pending`, the last one added first, goes
on to expand just the items of `expanded`, in this order, and ends with `result`. -/
inductive Expands : List Item → ItemSet → List Item → ItemSet → Prop
  | done {closed : ItemSet} : Expands [] closed [] closed
  | next {item : Item} {pending expanded : List Item} {closed result : ItemSet}
      (rest : Expands ((g.fresh item closed).reverse ++ pending)
        (closed.insertAll (g.fresh item closed)) expanded result) :
      Expands (item :: pending) closed (item :: expanded) result

/-- The rules of which the first item is not in a set. -/
def unread (closed : ItemSet) : List Nat :=
  (List.range g.rules.length).filter fun place => (⟨place, 0⟩ : Item) ∉ closed

variable {g}

theorem nodup_rulesFor (key : κ) : (g.rulesFor key).Nodup := by
  have places : (g.rules.zipIdx.map Prod.snd).Nodup := by
    rw [List.zipIdx_map_snd]
    exact List.nodup_range'
  refine List.pairwise_filterMap.mpr ((List.pairwise_map.mp places).imp ?_)
  intro entry entry' differ place found place' found'
  rw [Option.ite_none_right_eq_some] at found found'
  rw [← Option.some.inj found.2, ← Option.some.inj found'.2]
  exact differ

theorem nodup_predicted (item : Item) : (g.predicted item).Nodup := by
  unfold predicted
  split
  · rename_i key _
    refine (nodup_rulesFor key).map fun place place' same => ?_
    exact congrArg Item.rule same
  · exact List.nodup_nil

theorem mem_fresh {item next : Item} {closed : ItemSet} :
    next ∈ g.fresh item closed ↔ next ∈ g.predicted item ∧ next ∉ closed := by
  rw [fresh, List.mem_filter, decide_eq_true_eq]

omit [DecidableEq κ] in
theorem mem_unread {place : Nat} {closed : ItemSet} :
    place ∈ g.unread closed ↔ place < g.rules.length ∧ (⟨place, 0⟩ : Item) ∉ closed := by
  rw [unread, List.mem_filter, List.mem_range, decide_eq_true_eq]

/-- What is predicted is a rule of which nothing has been read. -/
theorem eq_unread_of_predicted {item next : Item} (predicted : next ∈ g.predicted item) :
    next.rule < g.rules.length ∧ next = ⟨next.rule, 0⟩ := by
  obtain ⟨key, _, isStart⟩ := g.mem_predicted.mp predicted
  obtain ⟨zero, rule, found, _⟩ := g.mem_startItems.mp isStart
  refine ⟨(List.getElem?_eq_some_iff.mp found).1, ?_⟩
  cases next
  cases zero
  rfl

/-- Every fresh item takes its rule from the unread ones. -/
theorem length_unread (item : Item) (closed : ItemSet) :
    (g.fresh item closed).length + (g.unread (closed.insertAll (g.fresh item closed))).length ≤
      (g.unread closed).length := by
  have nodup : (((g.fresh item closed).map Item.rule) ++
      g.unread (closed.insertAll (g.fresh item closed))).Nodup := by
    refine List.nodup_append.mpr ⟨?_, List.nodup_range.filter _, ?_⟩
    · refine ((nodup_predicted item).filter _).map_on fun a isA b isB same => ?_
      rw [(eq_unread_of_predicted (mem_fresh.mp isA).1).2, same,
        ← (eq_unread_of_predicted (mem_fresh.mp isB).1).2]
    · intro place isFresh place' isUnread same
      obtain ⟨next, member, rfl⟩ := List.mem_map.mp isFresh
      refine (mem_unread.mp isUnread).2 (SortedSet.mem_insertAll.mpr (.inl ?_))
      rw [← same, ← (eq_unread_of_predicted (mem_fresh.mp member).1).2]
      exact member
  have subset : ((g.fresh item closed).map Item.rule) ++
      g.unread (closed.insertAll (g.fresh item closed)) ⊆ g.unread closed := by
    intro place member
    rcases List.mem_append.mp member with isFresh | isUnread
    · obtain ⟨next, isNext, rfl⟩ := List.mem_map.mp isFresh
      obtain ⟨predicted, new⟩ := mem_fresh.mp isNext
      obtain ⟨bound, same⟩ := eq_unread_of_predicted predicted
      exact mem_unread.mpr ⟨bound, same ▸ new⟩
    · obtain ⟨bound, new⟩ := mem_unread.mp isUnread
      exact mem_unread.mpr ⟨bound, fun old => new (SortedSet.mem_insertAll.mpr (.inr old))⟩
  have count := (nodup.subperm subset).length_le
  rwa [List.length_append, List.length_map] at count

/-- Expanding ends: each step takes one item from those pending, and puts back as many
as it takes from the unread rules. -/
theorem exists_expands (pending : List Item) (closed : ItemSet) :
    ∃ expanded result, g.Expands pending closed expanded result := by
  induction work : pending.length + (g.unread closed).length using Nat.strong_induction_on
    generalizing pending closed with
  | h n ih =>
    cases pending with
    | nil => exact ⟨[], closed, .done⟩
    | cons item pending =>
      have less : ((g.fresh item closed).reverse ++ pending).length +
          (g.unread (closed.insertAll (g.fresh item closed))).length < n := by
        have taken := length_unread (g := g) item closed
        rw [List.length_cons] at work
        rw [List.length_append, List.length_reverse]
        omega
      obtain ⟨expanded, result, rest⟩ := ih _ less _ _ rfl
      exact ⟨item :: expanded, result, .next rest⟩

namespace Expands

variable {pending expanded : List Item} {closed result : ItemSet}

theorem subset (expands : g.Expands pending closed expanded result) :
    ∀ item ∈ closed, item ∈ result := by
  induction expands with
  | done => exact fun item member => member
  | next _ ih => exact fun item member => ih item (SortedSet.mem_insertAll.mpr (.inr member))

/-- What is expanded is in the result. -/
theorem expanded_subset (expands : g.Expands pending closed expanded result)
    (pendingIn : ∀ item ∈ pending, item ∈ closed) : ∀ item ∈ expanded, item ∈ result := by
  induction expands with
  | done => exact fun item member => absurd member List.not_mem_nil
  | @next first pending expanded closed result rest ih =>
    rw [List.forall_mem_cons] at pendingIn ⊢
    have kept : ∀ item ∈ closed, item ∈ closed.insertAll (g.fresh first closed) :=
      fun item member => SortedSet.mem_insertAll.mpr (.inr member)
    refine ⟨rest.subset first (kept first pendingIn.1), ih fun item member => ?_⟩
    rcases List.mem_append.mp member with new | old
    · exact SortedSet.mem_insertAll.mpr (.inl (List.mem_reverse.mp new))
    · exact kept item (pendingIn.2 item old)

/-- What is expanded has its predictions in the result. -/
theorem predicted_subset (expands : g.Expands pending closed expanded result) :
    ∀ item ∈ expanded, ∀ next ∈ g.predicted item, next ∈ result := by
  induction expands with
  | done => exact fun item member => absurd member List.not_mem_nil
  | @next item pending expanded closed result rest ih =>
    intro first member next predicted
    rcases List.mem_cons.mp member with rfl | later
    · refine rest.subset next (SortedSet.mem_insertAll.mpr ?_)
      by_cases old : next ∈ closed
      · exact .inr old
      · exact .inl (mem_fresh.mpr ⟨predicted, old⟩)
    · exact ih first later next predicted

/-- The result has nothing but what was there and what was predicted. -/
theorem least {S : Item → Prop} (predictive : g.Predictive S)
    (expands : g.Expands pending closed expanded result) (pendingIn : ∀ item ∈ pending, S item)
    (closedIn : ∀ item ∈ closed, S item) : ∀ item ∈ result, S item := by
  induction expands with
  | done => exact closedIn
  | @next item pending expanded closed result rest ih =>
    rw [List.forall_mem_cons] at pendingIn
    have freshIn : ∀ next ∈ g.fresh item closed, S next := fun next member =>
      predictive item pendingIn.1 next (mem_fresh.mp member).1
    apply ih
    · intro next member
      rcases List.mem_append.mp member with new | old
      · exact freshIn next (List.mem_reverse.mp new)
      · exact pendingIn.2 next old
    · intro next member
      rcases SortedSet.mem_insertAll.mp member with new | old
      · exact freshIn next new
      · exact closedIn next old

/-- Every item of the result is expanded, unless it was done with before. -/
theorem mem_expanded (expands : g.Expands pending closed expanded result) :
    ∀ item ∈ result, item ∈ expanded ∨ (item ∈ closed ∧ item ∉ pending) := by
  induction expands with
  | done => exact fun item member => .inr ⟨member, List.not_mem_nil⟩
  | @next first pending expanded closed result rest ih =>
    intro item member
    rw [List.mem_cons, List.mem_cons]
    rcases ih item member with later | ⟨isClosed, notPending⟩
    · exact .inl (.inr later)
    · rw [List.mem_append, List.mem_reverse, not_or] at notPending
      have old : item ∈ closed := (SortedSet.mem_insertAll.mp isClosed).resolve_left notPending.1
      by_cases here : item = first
      · exact .inl (.inl here)
      · exact .inr ⟨old, fun h => h.elim here notPending.2⟩

/-- No item is expanded twice, and none that was done with before. -/
theorem nodup (expands : g.Expands pending closed expanded result) (distinct : pending.Nodup)
    (pendingIn : ∀ item ∈ pending, item ∈ closed) :
    expanded.Nodup ∧ ∀ item ∈ expanded, item ∈ pending ∨ item ∉ closed := by
  induction expands with
  | done => exact ⟨List.nodup_nil, fun item member => absurd member List.not_mem_nil⟩
  | @next item pending expanded closed result rest ih =>
    rw [List.forall_mem_cons] at pendingIn
    obtain ⟨once, distinct⟩ := List.nodup_cons.mp distinct
    have freshNodup : (g.fresh item closed).reverse.Nodup :=
      List.nodup_reverse.mpr ((nodup_predicted item).filter _)
    have apart : ∀ next ∈ (g.fresh item closed).reverse, next ∉ closed := fun next member =>
      (mem_fresh.mp (List.mem_reverse.mp member)).2
    obtain ⟨nodup, new⟩ := ih
      (List.nodup_append.mpr ⟨freshNodup, distinct, fun next isFresh other isPending same =>
        apart next isFresh (same ▸ pendingIn.2 other isPending)⟩)
      (fun next member => by
        rw [SortedSet.mem_insertAll]
        rcases List.mem_append.mp member with h | h
        · exact .inl (List.mem_reverse.mp h)
        · exact .inr (pendingIn.2 next h))
    have later : ∀ next ∈ expanded, next ∈ pending ∨ next ∉ closed := by
      intro next member
      rcases new next member with h | h
      · rcases List.mem_append.mp h with isFresh | isPending
        · exact .inr (apart next isFresh)
        · exact .inl isPending
      · exact .inr fun old => h (SortedSet.mem_insertAll.mpr (.inr old))
    refine ⟨List.nodup_cons.mpr ⟨fun again => ?_, nodup⟩, ?_⟩
    · rcases later item again with h | h
      · exact once h
      · exact h pendingIn.1
    · intro next member
      rcases List.mem_cons.mp member with rfl | h
      · exact .inl List.mem_cons_self
      · exact (later next h).imp_left (List.mem_cons_of_mem _)

end Expands

/-- The worklist of a closure ends with the closure, and expands every item of it
once. -/
theorem exists_expands_closure (g : Grammar τ κ T N) (items : ItemSet) :
    ∃ expanded, g.Expands items.toList.reverse items expanded (g.closure items) ∧
      expanded.Nodup ∧ ∀ item, item ∈ expanded ↔ item ∈ g.closure items := by
  obtain ⟨expanded, result, expands⟩ := exists_expands (g := g) items.toList.reverse items
  have pendingIn : ∀ item ∈ items.toList.reverse, item ∈ items := fun item member =>
    List.mem_reverse.mp member
  have all : ∀ item ∈ result, item ∈ expanded := by
    intro item member
    refine (expands.mem_expanded item member).resolve_right fun ⟨isClosed, notPending⟩ => ?_
    exact notPending (List.mem_reverse.mpr isClosed)
  have same : result = g.closure items := by
    refine SortedSet.ext fun item => ⟨fun member => ?_, fun member => ?_⟩
    · exact expands.least (g.closure_predictive items)
        (fun item member => g.subset_closure (pendingIn item member))
        (fun item member => g.subset_closure member) item member
    · exact g.closure_least (fun item inside next predicted =>
        expands.predicted_subset item (all item inside) next predicted) expands.subset item member
  subst same
  obtain ⟨nodup, _⟩ := expands.nodup (List.nodup_reverse.mpr items.nodup_toList) pendingIn
  exact ⟨expanded, expands, nodup, fun item =>
    ⟨expands.expanded_subset pendingIn item, all item⟩⟩

end Expansion

end Grammar

/-! ### Filling states -/

section Filling

variable [Ordered τ] [Ordered κ] [DecidableEq τ] [DecidableEq κ]

namespace Exploration

/-- `Ends g follow e result` says that filling states from `e` on, as long as one is
left and has a plan, ends with this result. -/
inductive Ends (g : Grammar τ κ T N) (follow : FollowSets τ κ) :
    Exploration τ κ → Exploration τ κ × Option (Nat × Obstacle τ) → Prop
  | done {e : Exploration τ κ} (last : e.discovered[e.states.length]? = none) :
      Ends g follow e (e, none)
  | blocked {e : Exploration τ κ} {items : ItemSet} {context : Context} {obstacle : Obstacle τ}
      (next : e.discovered[e.states.length]? = some (items, context))
      (failed : g.plan follow items context = .error obstacle) :
      Ends g follow e (e, some (e.states.length, obstacle))
  | fill {e : Exploration τ κ} {items : ItemSet} {context : Context} {plan : Plan τ κ}
      {result : Exploration τ κ × Option (Nat × Obstacle τ)}
      (next : e.discovered[e.states.length]? = some (items, context))
      (planned : g.plan follow items context = .ok plan)
      (rest : Ends g follow (e.fill g items context plan) result) : Ends g follow e result

variable {g : Grammar τ κ T N} {follow : FollowSets τ κ} {start : κ} {e : Exploration τ κ}
  {result result' : Exploration τ κ × Option (Nat × Obstacle τ)}

/-- Filling states ends in one way only. -/
theorem Ends.unique (ends : Ends g follow e result) (ends' : Ends g follow e result') :
    result = result' := by
  induction ends with
  | done last =>
    cases ends' with
    | done => rfl
    | blocked next => cases last.symm.trans next
    | fill next => cases last.symm.trans next
  | blocked next failed =>
    cases ends' with
    | done last => cases last.symm.trans next
    | blocked next' failed' =>
      obtain ⟨rfl, rfl⟩ := Prod.mk.inj (Option.some.inj (next.symm.trans next'))
      rw [Except.error.inj (failed.symm.trans failed')]
    | fill next' planned =>
      obtain ⟨rfl, rfl⟩ := Prod.mk.inj (Option.some.inj (next.symm.trans next'))
      cases failed.symm.trans planned
  | fill next planned _ ih =>
    cases ends' with
    | done last => cases last.symm.trans next
    | blocked next' failed =>
      obtain ⟨rfl, rfl⟩ := Prod.mk.inj (Option.some.inj (next.symm.trans next'))
      cases failed.symm.trans planned
    | fill next' planned' rest' =>
      obtain ⟨rfl, rfl⟩ := Prod.mk.inj (Option.some.inj (next.symm.trans next'))
      obtain rfl := Except.ok.inj (planned.symm.trans planned')
      exact ih rest'

/-- A run with enough budget comes to the end of the loop. -/
theorem ends_run {budget : Nat} (explores : Explores g follow start e)
    (enough : 2 ^ g.itemCount ≤ budget + e.states.length) :
    Ends g follow e (run g follow budget e) := by
  induction budget generalizing e with
  | zero =>
    -- there are as many states as there can be sets, so none is left
    have upper := explores.length_discovered_le
    exact .done (List.getElem?_eq_none_iff.mpr (by omega))
  | succ budget ih =>
    rw [run]
    split
    · rename_i last
      exact .done last
    · rename_i items context next
      split
      · rename_i obstacle failed
        exact .blocked next failed
      · rename_i plan planned
        refine .fill next planned (ih (explores.fill next planned) ?_)
        obtain ⟨_, _, s, states, _⟩ :=
          filledNext_fill explores.nodup (g.planned_of_plan follow planned)
        rw [states, List.length_append, List.length_singleton]
        omega

/-- The states belong to the first sets discovered, in their order. -/
theorem Explores.map_items_prefix (explores : Explores g follow start e) :
    e.states.map State.items <+: e.sets := by
  rw [List.prefix_iff_getElem?]
  intro number bound
  rw [List.length_map] at bound
  have known := explores.known number _ (List.getElem?_eq_getElem bound)
  rw [sets, List.getElem?_map, known, List.getElem_map, Option.map_some]

/-- Every set discovered is made of items of the grammar. -/
theorem Explores.exists_rule (explores : Explores g follow start e) {items : ItemSet}
    (discovered : items ∈ e.sets) {item : Item} (member : item ∈ items) :
    ∃ rule, g.rule? item.rule = some rule ∧ item.cursor ≤ rule.length := by
  obtain ⟨⟨_, context⟩, isEntry, rfl⟩ := List.mem_map.mp discovered
  obtain ⟨number, found⟩ := List.mem_iff_getElem?.mp isEntry
  obtain ⟨path, reached⟩ := explores.exists_path found
  exact reached.exists_rule member

end Exploration

namespace Builder

/-- `Ends g follow b result` says that filling the states in the queue of `b`, and those
that this adds to it, ends with this result. -/
inductive Ends (g : Grammar τ κ T N) (follow : FollowSets τ κ) :
    Builder τ κ → Builder τ κ × Option (Nat × Obstacle τ) → Prop
  | done {b : Builder τ κ} (last : b.queue = []) : Ends g follow b (b, none)
  | blocked {b : Builder τ κ} {number : Nat} {queue : List Nat} {s : State τ κ}
      {obstacle : Obstacle τ} (next : b.queue = number :: queue)
      (known : b.arena[number]? = some s)
      (failed : g.plan follow s.items s.context = .error obstacle) :
      Ends g follow b (b, some (number, obstacle))
  | fill {b : Builder τ κ} {number : Nat} {queue : List Nat} {s : State τ κ} {plan : Plan τ κ}
      {result : Builder τ κ × Option (Nat × Obstacle τ)} (next : b.queue = number :: queue)
      (known : b.arena[number]? = some s) (planned : g.plan follow s.items s.context = .ok plan)
      (rest : Ends g follow
        (Builder.fill g { b with queue := queue } number s.items s.context plan) result) :
      Ends g follow b result

variable {g : Grammar τ κ T N} {follow : FollowSets τ κ} {start : κ} {b : Builder τ κ}
  {e : Exploration τ κ} {result result' : Builder τ κ × Option (Nat × Obstacle τ)}

/-- A queue is worked off in one way only. -/
theorem Ends.unique (ends : Ends g follow b result) (ends' : Ends g follow b result') :
    result = result' := by
  induction ends with
  | done last =>
    cases ends' with
    | done => rfl
    | blocked next => cases last.symm.trans next
    | fill next => cases last.symm.trans next
  | blocked next known failed =>
    cases ends' with
    | done last => cases last.symm.trans next
    | blocked next' known' failed' =>
      obtain ⟨rfl, rfl⟩ := List.cons.inj (next.symm.trans next')
      obtain rfl := Option.some.inj (known.symm.trans known')
      rw [Except.error.inj (failed.symm.trans failed')]
    | fill next' known' planned =>
      obtain ⟨rfl, rfl⟩ := List.cons.inj (next.symm.trans next')
      obtain rfl := Option.some.inj (known.symm.trans known')
      cases failed.symm.trans planned
  | fill next known planned _ ih =>
    cases ends' with
    | done last => cases last.symm.trans next
    | blocked next' known' failed =>
      obtain ⟨rfl, rfl⟩ := List.cons.inj (next.symm.trans next')
      obtain rfl := Option.some.inj (known.symm.trans known')
      cases failed.symm.trans planned
    | fill next' known' planned' rest' =>
      obtain ⟨rfl, rfl⟩ := List.cons.inj (next.symm.trans next')
      obtain rfl := Option.some.inj (known.symm.trans known')
      obtain rfl := Except.ok.inj (planned.symm.trans planned')
      exact ih rest'

/-- A construction with enough budget comes to the end of its queue, since there are no
more states than sets of items. -/
theorem Holds.ends_run (holds : b.Holds e e.states.length)
    (explores : e.Explores g follow start) {budget : Nat}
    (enough : 2 ^ g.itemCount ≤ budget + e.states.length) :
    Ends g follow b (Builder.run g follow budget b) := by
  induction budget generalizing b e with
  | zero =>
    have upper := explores.length_discovered_le
    exact .done (holds.queue_eq_nil (List.getElem?_eq_none_iff.mpr (by omega)))
  | succ budget ih =>
    rw [Builder.run]
    cases next : e.discovered[e.states.length]? with
    | none =>
      rw [holds.queue_eq_nil next]
      exact .done (holds.queue_eq_nil next)
    | some entry =>
      obtain ⟨queue, s, isQueue, isState, rfl, taken⟩ := holds.next next
      rw [isQueue]
      dsimp only
      rw [isState]
      dsimp only
      cases planned : g.plan follow s.items s.context with
      | error obstacle => exact .blocked isQueue isState planned
      | ok plan =>
        obtain ⟨filled, _⟩ := taken.fill explores.nodup next plan
        refine .fill isQueue isState planned (ih filled (explores.fill next planned) ?_)
        obtain ⟨_, _, s, states, _⟩ :=
          Exploration.filledNext_fill explores.nodup (g.planned_of_plan follow planned)
        rw [states, List.length_append, List.length_singleton]
        omega

end Builder

/-! ### Building a table -/

/-- Repeated passes settle in one way only. -/
theorem Settles.unique {α : Type} {pass : α → α} {a b c : α} {passes passes' : Nat}
    (settles : Settles pass a passes b) (settles' : Settles pass a passes' c) : b = c := by
  induction settles generalizing passes' with
  | idle fixed =>
    cases settles' with
    | idle => rfl
    | again changed => exact absurd fixed changed
  | again changed _ ih =>
    cases settles' with
    | idle fixed => exact absurd fixed changed
    | again _ rest => exact ih rest

namespace Grammar

/-- `g.Builds start placeholders result` says that building a table for the start key
with these placeholders returns the result, each loop of the construction having come
to its end by itself. -/
inductive Builds (g : Grammar τ κ T N) (start : κ) (placeholders : List (κ × Tree T N)) :
    Except (TableError τ κ) (Table τ κ T N) → Prop
  | unknownStart (undefined : g.defines start = false) :
      Builds g start placeholders (.error (.unknownStart start))
  | unknownPlaceholder {entry : κ × Tree T N} (defined : g.defines start = true)
      (found : (registerPlaceholders placeholders).find? (fun entry => ¬ g.defines entry.1) =
        some entry) :
      Builds g start placeholders (.error (.unknownPlaceholder entry.1))
  | constructed {sets : SymbolSets τ κ} {passes passes' : Nat} {built : Builder τ κ}
      {ended : Option (Nat × Obstacle τ)} (defined : g.defines start = true)
      (known : (registerPlaceholders placeholders).find? (fun entry => ¬ g.defines entry.1) = none)
      (settlesFirst : Settles g.collectFirst (.const g.keys ∅) passes sets.first)
      (settlesFollow : Settles (g.collectFollow sets.first) (.const g.keys ∅) passes' sets.follow)
      (ends : Builder.Ends g sets.followers (.start (g.startSet start)) (built, ended)) :
      Builds g start placeholders
        (match ended with
        | some (number, obstacle) => .error (.blocked number obstacle)
        | none => .ok ⟨g, sets, built.arena, built.index, start,
            registerPlaceholders placeholders, built.mismatches⟩)

/-- The exploration from the start set of a key ends. -/
theorem ends_explore (g : Grammar τ κ T N) (follow : FollowSets τ κ) (start : κ) :
    Exploration.Ends g follow (.start (g.startSet start)) (g.explore follow start) :=
  Exploration.ends_run Exploration.explores_start (Nat.le_add_right _ _)

/-- The construction from the start set of a key ends. -/
theorem ends_construct (g : Grammar τ κ T N) (follow : FollowSets τ κ) (start : κ) :
    Builder.Ends g follow (.start (g.startSet start)) (g.construct follow start) :=
  Builder.Holds.ends_run (Builder.holds_start _) Exploration.explores_start (Nat.le_add_right _ _)

/-- What building a table returns is what is found on a budget: each loop can end in
one way only. -/
theorem Builds.eq_table {g : Grammar τ κ T N} {start : κ} {placeholders : List (κ × Tree T N)}
    {result : Except (TableError τ κ) (Table τ κ T N)}
    (builds : g.Builds start placeholders result) : result = g.table start placeholders := by
  cases builds with
  | unknownStart undefined =>
    unfold table
    rw [if_pos (by simp [undefined])]
  | unknownPlaceholder defined found =>
    unfold table
    rw [if_neg (by simp [defined]), found]
  | @constructed sets _ _ built ended defined known settlesFirst settlesFollow ends =>
    have first : sets.first = g.symbolSets.first := settlesFirst.unique g.settles_firstSymbols
    rw [first] at settlesFollow
    have follow : sets.follow = g.symbolSets.follow := settlesFollow.unique g.settles_followSymbols
    obtain rfl : sets = g.symbolSets := congrArg₂ SymbolSets.mk first follow
    have same : g.construct g.followSets start = (built, ended) :=
      (g.ends_construct g.followSets start).unique ends
    unfold table
    rw [if_neg (by simp [defined]), known]
    dsimp only
    rw [followSets] at same
    rw [same]
    split <;> rfl

/-- Building a table returns, since each of its loops comes to an end. -/
theorem builds_table (g : Grammar τ κ T N) (start : κ) (placeholders : List (κ × Tree T N)) :
    g.Builds start placeholders (g.table start placeholders) := by
  unfold table
  split
  · rename_i undefined
    exact .unknownStart (by simpa using undefined)
  · rename_i defined
    rw [not_not] at defined
    split
    · rename_i entry found
      exact .unknownPlaceholder defined found
    · rename_i known
      have ends := g.ends_construct g.symbolSets.followers start
      dsimp only
      generalize g.construct g.symbolSets.followers start = result at ends
      obtain ⟨built, ended⟩ := result
      have builds : g.Builds start placeholders _ :=
        .constructed defined known g.settles_firstSymbols g.settles_followSymbols ends
      split at builds
      · exact builds
      · exact builds

/-- Building a table returns, for every grammar, start key and placeholders: its loops
come to their end, with the result that is found on a budget. The worklist of a closure
expands every item of the closure once and nothing else. The sets that the worklist of
the states discovers are different, so each is entered once; they are filled in their
order, each once; and they hold items of the grammar only, with a cursor that is not
past the end of the rule. The arena, the index and the queue of the construction hold
just these sets. -/
theorem builds_iff (g : Grammar τ κ T N) (start : κ) (placeholders : List (κ × Tree T N)) :
    (∀ result, g.Builds start placeholders result ↔ result = g.table start placeholders) ∧
    (∀ items : ItemSet, ∃ expanded,
      g.Expands items.toList.reverse items expanded (g.closure items) ∧
        expanded.Nodup ∧ ∀ item, item ∈ expanded ↔ item ∈ g.closure items) ∧
    ∃ built explored ended,
      Builder.Ends g g.followSets (.start (g.startSet start)) (built, ended) ∧
        built.Holds explored explored.states.length ∧
      Exploration.Ends g g.followSets (.start (g.startSet start)) (explored, ended) ∧
        explored.sets.Nodup ∧ explored.states.map State.items <+: explored.sets ∧
        (ended = none → explored.states.map State.items = explored.sets) ∧
        (∀ items ∈ explored.sets, ∀ item ∈ items,
          ∃ rule, g.rule? item.rule = some rule ∧ item.cursor ≤ rule.length) ∧
        explored.sets.length ≤ 2 ^ g.itemCount := by
  refine ⟨fun result => ⟨Builds.eq_table, ?_⟩, g.exists_expands_closure, ?_⟩
  · rintro rfl
    exact g.builds_table start placeholders
  · obtain ⟨explores, complete, _⟩ := g.explores_explore g.followSets start
    obtain ⟨same, holds⟩ := g.construct_eq g.followSets start
    have ends := g.ends_construct g.followSets start
    have ends' := g.ends_explore g.followSets start
    have few := explores.length_discovered_le
    rw [← List.length_map Prod.fst] at few
    exact ⟨(g.construct g.followSets start).1, _, _, same ▸ ends, holds, ends', explores.nodup,
      explores.map_items_prefix, fun finished => explores.map_items (complete finished),
      fun items discovered item member => explores.exists_rule discovered member, few⟩

end Grammar

end Filling

end ShiftReduce
