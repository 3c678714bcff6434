/-
  What the plan of an item set holds, said in terms of its items.

  A rule may be reduced before a terminal if some item has read it completely
  and the terminal can come behind its key (`Grammar.MayReduce`). A plan gives
  every such pair its reduction unless the terminal is shifted, shifts what is
  expected unless a reduction is preferred, and keeps every choice between the
  two as a resolution.  There is a plan unless an item expects the empty text
  or two rules may be reduced before one terminal (`exists_plan`).
-/
import ShiftReduce.Table.Plan
import ShiftReduce.Proofs.Closure
import ShiftReduce.Proofs.Lookahead.Saturation
import Mathlib.Data.List.Nodup

namespace ShiftReduce

variable {τ κ T N : Type}

/-! ### Settling reductions -/

section Settle

variable [Ordered τ] [DecidableEq τ]

theorem get?_settleReductions {candidates : List (τ × Nat)} {held settled : SortedMap τ Nat}
    (ok : settleReductions candidates held = .ok settled) {t : τ} {rule : Nat} :
    settled.get? t = some rule ↔ held.get? t = some rule ∨ (t, rule) ∈ candidates := by
  induction candidates generalizing held with
  | nil =>
    obtain rfl := Except.ok.inj ok
    simp
  | cons candidate rest ih =>
    obtain ⟨s, new⟩ := candidate
    simp only [settleReductions] at ok
    rw [List.mem_cons, Prod.mk.injEq]
    split at ok
    · rename_i free
      rw [ih ok, SortedMap.get?_insert]
      by_cases same : s = t
      · subst same
        simp [free, eq_comm]
      · simp [same, Ne.symm same]
    · rename_i holder held'
      split at ok
      · rename_i agrees
        subst agrees
        rw [ih ok]
        constructor
        · rintro (h | h)
          · exact .inl h
          · exact .inr (.inr h)
        · rintro (h | ⟨rfl, rfl⟩ | h)
          · exact .inl h
          · exact .inl held'
          · exact .inr h
      · cases ok

/-- The claims that are left once a claim has been held are among those before. -/
theorem claimed_of_insert {held : SortedMap τ Nat} {rest : List (τ × Nat)} {s t : τ}
    {new place : Nat}
    (claimed : (held.insert s new).get? t = some place ∨ (t, place) ∈ rest) :
    held.get? t = some place ∨ (t, place) ∈ (s, new) :: rest := by
  rcases claimed with h | h
  · rw [SortedMap.get?_insert] at h
    split at h
    · rename_i same
      obtain rfl := Option.some.inj h
      exact .inr (same ▸ List.mem_cons_self)
    · exact .inl h
  · exact .inr (List.mem_cons_of_mem _ h)

/-- Reductions are settled unless two rules claim one terminal. -/
theorem exists_settleReductions {candidates : List (τ × Nat)} {held : SortedMap τ Nat}
    (agree : ∀ t first second, (held.get? t = some first ∨ (t, first) ∈ candidates) →
      (t, second) ∈ candidates → first = second) :
    ∃ settled, settleReductions candidates held = .ok settled := by
  induction candidates generalizing held with
  | nil => exact ⟨held, rfl⟩
  | cons candidate rest ih =>
    obtain ⟨s, new⟩ := candidate
    simp only [settleReductions]
    split
    · apply ih
      intro t first second claimed member
      exact agree t first second (claimed_of_insert claimed) (List.mem_cons_of_mem _ member)
    · rename_i holder taken
      -- the terminal is taken, but by the same rule
      have agrees : holder = new := agree s holder new (.inl taken) List.mem_cons_self
      rw [if_pos agrees]
      apply ih
      intro t first second h member
      refine agree t first second ?_ (List.mem_cons_of_mem _ member)
      exact h.imp_right (List.mem_cons_of_mem _)

/-- Where reductions are not settled, two rules claim the terminal that is
told. -/
theorem contested_of_settleReductions {candidates : List (τ × Nat)} {held : SortedMap τ Nat}
    {obstacle : Obstacle τ} (failed : settleReductions candidates held = .error obstacle) :
    ∃ t first second, obstacle = .contested t first second ∧ first ≠ second ∧
      (held.get? t = some first ∨ (t, first) ∈ candidates) ∧ (t, second) ∈ candidates := by
  induction candidates generalizing held with
  | nil => cases failed
  | cons candidate rest ih =>
    obtain ⟨s, new⟩ := candidate
    simp only [settleReductions] at failed
    split at failed
    · obtain ⟨t, first, second, same, differ, claimed, member⟩ := ih failed
      exact ⟨t, first, second, same, differ, claimed_of_insert claimed,
        List.mem_cons_of_mem _ member⟩
    · rename_i holder taken
      split at failed
      · obtain ⟨t, first, second, same, differ, claimed, member⟩ := ih failed
        exact ⟨t, first, second, same, differ, claimed.imp_right (List.mem_cons_of_mem _),
          List.mem_cons_of_mem _ member⟩
      · rename_i differ
        exact ⟨s, holder, new, (Except.error.inj failed).symm, differ, .inl taken,
          List.mem_cons_self⟩

end Settle

namespace Grammar

variable (g : Grammar τ κ T N)

/-! ### What items ask for -/

theorem mem_expectedTerminals [Ordered τ] {items : ItemSet} {t : τ} :
    t ∈ g.expectedTerminals items ↔ ∃ item ∈ items, g.expected? item = some (.terminal t) := by
  simp only [expectedTerminals, SortedSet.mem_ofList, List.mem_filterMap, SortedSet.mem_toList,
    Option.bind_eq_some_iff]
  refine exists_congr fun item => and_congr_right fun _ => ⟨?_, fun h => ⟨_, h, rfl⟩⟩
  rintro ⟨symbol, expected, same⟩
  cases symbol with
  | terminal s =>
    obtain rfl := Option.some.inj same
    exact expected
  | nonterminal key => cases same
  | epsilon => cases same

theorem mem_expectedKeys [Ordered κ] {items : ItemSet} {key : κ} :
    key ∈ g.expectedKeys items ↔ ∃ item ∈ items, g.expected? item = some (.nonterminal key) := by
  simp only [expectedKeys, SortedSet.mem_ofList, List.mem_filterMap, SortedSet.mem_toList,
    Option.bind_eq_some_iff]
  refine exists_congr fun item => and_congr_right fun _ => ⟨?_, fun h => ⟨_, h, rfl⟩⟩
  rintro ⟨symbol, expected, same⟩
  cases symbol with
  | terminal s => cases same
  | nonterminal inner =>
    obtain rfl := Option.some.inj same
    exact expected
  | epsilon => cases same

theorem mem_completeRules {items : ItemSet} {place : Nat} :
    place ∈ g.completeRules items ↔
      ∃ cursor, (⟨place, cursor⟩ : Item) ∈ items ∧ g.expected? ⟨place, cursor⟩ = none := by
  simp only [completeRules, List.mem_map, List.mem_filter, decide_eq_true_eq]
  constructor
  · rintro ⟨⟨place', cursor⟩, ⟨member, complete⟩, rfl⟩
    exact ⟨cursor, member, complete⟩
  · rintro ⟨cursor, member, complete⟩
    exact ⟨⟨place, cursor⟩, ⟨member, complete⟩, rfl⟩

variable [Ordered τ] [DecidableEq κ] (follow : FollowSets τ κ)

/-- Whether an item set has read a rule completely that may be reduced before
a terminal. -/
def MayReduce (items : ItemSet) (t : τ) (place : Nat) : Prop :=
  place ∈ g.completeRules items ∧
    ∃ rule, g.rule? place = some rule ∧ t ∈ (follow.get? rule.key).getD ∅

theorem mem_candidateReductions {items : ItemSet} {t : τ} {place : Nat} :
    (t, place) ∈ g.candidateReductions follow items ↔ g.MayReduce follow items t place := by
  simp only [candidateReductions, List.mem_flatMap, List.mem_map, Prod.mk.injEq, MayReduce]
  constructor
  · rintro ⟨place', complete, t', behind, rfl, rfl⟩
    refine ⟨complete, ?_⟩
    unfold reductionTerminals at behind
    split at behind
    · exact absurd behind List.not_mem_nil
    · rename_i rule found
      exact ⟨rule, found, behind⟩
  · rintro ⟨complete, rule, found, behind⟩
    refine ⟨place, complete, t, ?_, rfl, rfl⟩
    rw [reductionTerminals, found]
    exact behind

/-! ### Plans -/

variable [Ordered κ] [DecidableEq τ]

/-- What a plan says of the item set that it belongs to. -/
structure Planned (items : ItemSet) (context : Context) (plan : Plan τ κ) : Prop where
  real : ∀ item ∈ items, g.expected? item ≠ some .epsilon
  unique : ∀ t first second, g.MayReduce follow items t first → g.MayReduce follow items t second →
    first = second
  shifts : ∀ t, t ∈ plan.shifts ↔ t ∈ g.expectedTerminals items ∧
    ((∀ place, ¬ g.MayReduce follow items t place) ∨ context.prefersShift (g.copyIn items t) = true)
  gotos : plan.gotos = g.expectedKeys items
  reductions : ∀ t place, plan.reductions.get? t = some place ↔
    g.MayReduce follow items t place ∧ t ∉ plan.shifts
  reducible : plan.reducible = g.completeRules items
  resolutions : ∀ r, r ∈ plan.resolutions ↔ r.terminal ∈ g.expectedTerminals items ∧
    g.MayReduce follow items r.terminal r.rule ∧
      r.shifts = context.prefersShift (g.copyIn items r.terminal)

theorem planned_of_plan {items : ItemSet} {context : Context} {plan : Plan τ κ}
    (ok : g.plan follow items context = .ok plan) : g.Planned follow items context plan := by
  unfold Grammar.plan at ok
  split at ok
  · cases ok
  · rename_i clean
    split at ok
    · cases ok
    · rename_i settled isSettled
      obtain rfl := Except.ok.inj ok
      have reduces : ∀ t place, settled.get? t = some place ↔ g.MayReduce follow items t place := by
        intro t place
        rw [get?_settleReductions isSettled, SortedMap.get?_empty, ← mem_candidateReductions]
        simp
      refine ⟨?_, ?_, ?_, rfl, ?_, rfl, ?_⟩
      · intro item member
        have h := List.find?_eq_none.mp clean item member
        simpa using h
      · intro t first second one other
        rw [← reduces] at one other
        exact Option.some.inj (one.symm.trans other)
      · intro t
        have free : (settled.get? t).isNone = true ↔ ∀ place, ¬ g.MayReduce follow items t place := by
          rw [Option.isNone_iff_eq_none, Option.eq_none_iff_forall_ne_some]
          exact forall_congr' fun place => not_congr (reduces t place)
        rw [SortedSet.mem_filter, Bool.or_eq_true, free]
      · intro t place
        rw [SortedMap.get?_filter, reduces, decide_eq_true_eq]
      · intro r
        simp only [List.mem_filterMap, SortedSet.mem_toList, Option.map_eq_some_iff, reduces]
        constructor
        · rintro ⟨t, expected, place, may, rfl⟩
          exact ⟨expected, may, rfl⟩
        · rintro ⟨expected, may, same⟩
          exact ⟨r.terminal, expected, r.rule, may, by cases r; simp_all⟩

/-- There is a plan where no item expects the empty text and no two rules may
be reduced before one terminal. -/
theorem exists_plan {items : ItemSet} (context : Context)
    (real : ∀ item ∈ items, g.expected? item ≠ some .epsilon)
    (unique : ∀ t first second, g.MayReduce follow items t first →
      g.MayReduce follow items t second → first = second) :
    ∃ plan, g.plan follow items context = .ok plan := by
  have clean : g.epsilonExpected? items = none := by
    refine List.find?_eq_none.mpr fun item member => ?_
    simpa using real item member
  have agree : ∀ t first second, ((∅ : SortedMap τ Nat).get? t = some first ∨
      (t, first) ∈ g.candidateReductions follow items) →
      (t, second) ∈ g.candidateReductions follow items → first = second := by
    intro t first second h other
    rcases h with h | h
    · cases h
    · exact unique t first second ((g.mem_candidateReductions follow).mp h)
        ((g.mem_candidateReductions follow).mp other)
  obtain ⟨settled, isSettled⟩ := exists_settleReductions agree
  exact ⟨_, by rw [Grammar.plan, clean, isSettled]⟩

/-- Where there is no plan, the obstacle is an item of the set that expects the
empty text, or a terminal before which two rules may be reduced. -/
theorem obstacle_of_plan {items : ItemSet} {context : Context} {obstacle : Obstacle τ}
    (failed : g.plan follow items context = .error obstacle) :
    (∃ item ∈ items, g.expected? item = some .epsilon ∧ obstacle = .epsilonExpected item) ∨
      ∃ t first second, g.MayReduce follow items t first ∧ g.MayReduce follow items t second ∧
        first ≠ second ∧ obstacle = .contested t first second := by
  unfold Grammar.plan at failed
  split at failed
  · rename_i item found
    have expects : g.expected? item = some .epsilon := by simpa using List.find?_some found
    exact .inl ⟨item, List.mem_of_find?_eq_some found, expects, (Except.error.inj failed).symm⟩
  · split at failed
    · rename_i unsettled
      obtain ⟨t, first, second, same, differ, claimed, member⟩ :=
        contested_of_settleReductions unsettled
      -- nothing is held at first, so both rules are candidates
      have candidate : (t, first) ∈ g.candidateReductions follow items := by
        rcases claimed with h | h
        · cases h
        · exact h
      rw [mem_candidateReductions] at candidate member
      exact .inr ⟨t, first, second, candidate, member, differ,
        (Except.error.inj failed).symm.trans same⟩
    · cases failed

/-- Where an item expects the empty text, such an item is the obstacle. -/
theorem plan_of_expects_epsilon {items : ItemSet} (context : Context) {item : Item}
    (member : item ∈ items) (expected : g.expected? item = some .epsilon) :
    ∃ item', g.plan follow items context = .error (.epsilonExpected item') := by
  cases found : g.epsilonExpected? items with
  | none =>
    have other := List.find?_eq_none.mp found item member
    simp [expected] at other
  | some item' => exact ⟨item', by rw [Grammar.plan, found]⟩

/-- The resolutions of a plan are in terminal order. -/
theorem sorted_resolutions {items : ItemSet} {context : Context} {plan : Plan τ κ}
    (ok : g.plan follow items context = .ok plan) :
    plan.resolutions.Pairwise fun r r' => compare r.terminal r'.terminal = .lt := by
  unfold Grammar.plan at ok
  split at ok
  · cases ok
  · split at ok
    · cases ok
    · rename_i settled _
      obtain rfl := Except.ok.inj ok
      refine List.pairwise_filterMap.mpr ((g.expectedTerminals items).sorted.imp ?_)
      -- each terminal gives its own resolution or none
      intro t t' before r isResolution r' isResolution'
      rw [Option.map_eq_some_iff] at isResolution isResolution'
      obtain ⟨_, _, rfl⟩ := isResolution
      obtain ⟨_, _, rfl⟩ := isResolution'
      exact before

/-- A plan has one resolution for a terminal at most. -/
theorem nodup_resolutions {items : ItemSet} {context : Context} {plan : Plan τ κ}
    (ok : g.plan follow items context = .ok plan) :
    (plan.resolutions.map Resolution.terminal).Nodup := by
  refine List.pairwise_map.mpr ((g.sorted_resolutions follow ok).imp fun {r r'} before same => ?_)
  rw [same] at before
  exact compare_self_ne_lt _ before

end Grammar

end ShiftReduce
