/-
  FOLLOW sets hold what can come behind a key.

  The sets are settled: behind an occurrence of a key in a rule body they hold
  what the rest of the body can begin with (`mem_follow_of_first`) and, where
  the rest may be empty, what can come behind the key of the rule
  (`mem_follow_of_behind`). They are also the least such sets
  (`follow_least`), so whatever is closed under the two laws bounds them.
-/
import ShiftReduce.Proofs.Lookahead.First

namespace ShiftReduce

variable {τ κ T N : Type} [Ordered τ] [DecidableEq κ]

/-! ### Absorbing a body -/

namespace FollowSets

theorem mem_behind {first : FirstSets τ κ} {key : κ} {rest : List (Symbol τ κ)}
    {follow : FollowSets τ κ} {t : τ} :
    t ∈ behind first key rest follow ↔ t ∈ (first.ofBody rest).terminals ∨
      ((first.ofBody rest).nullable = true ∧ t ∈ (follow.get? key).getD ∅) := by
  rw [behind, SortedSet.mem_union]
  refine or_congr_right ?_
  split
  · rename_i nullable
    simp [nullable]
  · rename_i nullable
    simp [nullable]

theorem absorb_nonterminal (first : FirstSets τ κ) (key inner : κ) (rest : List (Symbol τ κ))
    (follow : FollowSets τ κ) :
    absorb first key (.nonterminal inner :: rest) follow =
      absorb first key rest (follow.modify inner (· ∪ behind first key rest follow)) := rfl

theorem raises_enter (first : FirstSets τ κ) (key inner : κ) (rest : List (Symbol τ κ)) :
    Raises (Family.weight SortedSet.size) fun follow : FollowSets τ κ =>
      follow.modify inner (· ∪ behind first key rest follow) := fun follow =>
  Family.raises_modify inner (Raises.union (behind first key rest follow)) follow

theorem raises_absorb (first : FirstSets τ κ) (key : κ) (body : List (Symbol τ κ)) :
    Raises (Family.weight SortedSet.size) (absorb first key body) := by
  induction body with
  | nil => exact fun follow => ⟨Nat.le_refl _, fun _ => rfl⟩
  | cons symbol rest ih =>
    cases symbol with
    | terminal t => exact ih
    | epsilon => exact ih
    | nonterminal inner => exact (raises_enter first key inner rest).comp ih

/-- Sets that absorb a body unchanged hold what can come behind each of its
nonterminals. -/
theorem mem_of_absorb_eq {first : FirstSets τ κ} {key : κ} {body : List (Symbol τ κ)}
    {follow : FollowSets τ κ} (fixed : absorb first key body follow = follow)
    {front rest : List (Symbol τ κ)} {inner : κ}
    (split : body = front ++ .nonterminal inner :: rest)
    {set : SortedSet τ} (found : follow.get? inner = some set) :
    ∀ t ∈ behind first key rest follow, t ∈ set := by
  induction body generalizing front with
  | nil => exact absurd split (by simp)
  | cons symbol body ih =>
    cases front with
    | nil =>
      obtain ⟨rfl, rfl⟩ := List.cons.inj split
      -- what enters at this nonterminal is not undone by the rest of the body
      obtain ⟨here, _⟩ :=
        (raises_enter first key inner body).fixed_of_comp (raises_absorb first key body) fixed
      have same := Family.eq_of_modify_eq here found
      intro t member
      rw [← same]
      exact SortedSet.mem_union.mpr (.inr member)
    | cons head front =>
      obtain ⟨rfl, later⟩ := List.cons.inj split
      cases symbol with
      | terminal t => exact ih fixed later
      | epsilon => exact ih fixed later
      | nonterminal other =>
        obtain ⟨_, others⟩ :=
          (raises_enter first key other body).fixed_of_comp (raises_absorb first key body) fixed
        exact ih others later

end FollowSets

namespace Grammar

variable (g : Grammar τ κ T N)

theorem raises_followPass (first : FirstSets τ κ) :
    Raises (Family.weight SortedSet.size) (g.followPass first) :=
  Raises.foldl (f := fun (follow : FollowSets τ κ) (rule : Rule τ κ T N) =>
    FollowSets.absorb first rule.key rule.body follow) fun rule _ =>
      FollowSets.raises_absorb first rule.key rule.body

/-- `W` bounds what can come behind each key if it holds what the laws of
FOLLOW sets ask for. -/
structure FollowBound [DecidableEq τ] (W : κ → τ → Prop) : Prop where
  first : ∀ rule ∈ g.rules, ∀ front inner rest, rule.body = front ++ .nonterminal inner :: rest →
    ∀ t ∈ (g.firstSets.ofBody rest).terminals, W inner t
  behind : ∀ rule ∈ g.rules, ∀ front inner rest, rule.body = front ++ .nonterminal inner :: rest →
    (g.firstSets.ofBody rest).nullable = true → ∀ t, W rule.key t → W inner t

/-- The sets of a grammar, all of them within a bound. -/
def FollowWithin (W : κ → τ → Prop) (follow : FollowSets τ κ) : Prop :=
  follow.keys = g.keys ∧ ∀ entry ∈ follow.entries, ∀ t ∈ entry.2, W entry.1 t

theorem followWithin_const (W : κ → τ → Prop) : g.FollowWithin W (.const g.keys ∅) := by
  refine ⟨Family.keys_const _ _, fun entry member t h => ?_⟩
  obtain ⟨key, _, rfl⟩ := List.mem_map.mp member
  exact absurd h (SortedSet.not_mem_empty t)

variable [DecidableEq τ]

namespace FollowBound

variable {g} {W : κ → τ → Prop} (bound : g.FollowBound W)

include bound

/-- A bound is kept when the rest of a rule body is absorbed. -/
theorem absorb {rule : Rule τ κ T N} (isRule : rule ∈ g.rules) {front body : List (Symbol τ κ)}
    (split : rule.body = front ++ body) {follow : FollowSets τ κ}
    (within : g.FollowWithin W follow) :
    g.FollowWithin W (FollowSets.absorb g.firstSets rule.key body follow) := by
  induction body generalizing front follow with
  | nil => exact within
  | cons symbol rest ih =>
    have next : rule.body = (front ++ [symbol]) ++ rest := by rw [split, List.append_assoc]; rfl
    cases symbol with
    | terminal t => exact ih next within
    | epsilon => exact ih next within
    | nonterminal inner =>
      obtain ⟨same, inside⟩ := within
      rw [FollowSets.absorb_nonterminal]
      refine ih next ⟨by rw [Family.keys_modify, same], fun entry member t h => ?_⟩
      -- only the entry of `inner` is new, by what stands behind it in the body
      rcases Family.mem_modify member with old | ⟨value, old, rfl⟩
      · exact inside entry old t h
      · rcases SortedSet.mem_union.mp h with h | h
        · exact inside _ old t h
        · rcases FollowSets.mem_behind.mp h with h | ⟨nullable, h⟩
          · exact bound.first rule isRule front inner rest split t h
          · refine bound.behind rule isRule front inner rest split nullable t ?_
            cases found : follow.get? rule.key with
            | none =>
              rw [found] at h
              exact absurd h (SortedSet.not_mem_empty t)
            | some set =>
              rw [found] at h
              exact inside _ (Family.get?_mem found) t h

theorem pass {follow : FollowSets τ κ} (within : g.FollowWithin W follow) :
    g.FollowWithin W (g.followPass g.firstSets follow) :=
  List.foldlRecOn (motive := g.FollowWithin W) g.rules _ within
    fun _ within _ isRule => bound.absorb isRule (List.nil_append _).symm within

/-- The settled sets are within every bound. -/
theorem followSets [Ordered κ] : g.FollowWithin W g.followSets := by
  rw [followSets_eq]
  exact saturate_induction (fun _ within => bound.pass within) (g.followWithin_const W)

end FollowBound

/-- Only terminals of the grammar come behind a key. -/
theorem followBound_occurrences : g.FollowBound fun _ t => t ∈ g.terminalOccurrences where
  first rule isRule front inner rest split t member := by
    rcases FirstSets.mem_ofBody member with h | ⟨entry, known, h⟩
    · refine mem_terminalOccurrences.mpr ⟨rule, isRule, ?_⟩
      rw [split]
      exact List.mem_append_right _ (List.mem_cons_of_mem _ h)
    · exact g.boundedFirst_firstSets.2 entry known t h
  behind _ _ _ _ _ _ _ _ h := h

variable [Ordered κ]

/-- The passes of FOLLOW sets end, with the settled sets. -/
theorem settles_followRun : Settles (g.followPass g.firstSets) (.const g.keys ∅)
    (g.followRun g.firstSets).2 g.followSets := by
  rw [followSets_eq]
  have occur := g.followBound_occurrences
  refine settles_saturate (n := g.keys.length * g.terminalOccurrences.length)
    (g.raises_followPass g.firstSets) (fun _ within => occur.pass within) ?_
    (g.followWithin_const _) (by omega)
  rintro follow ⟨same, inside⟩
  rw [← same]
  exact Family.weight_le fun entry member => SortedSet.size_le_length (inside entry member)

theorem followPass_followSets : g.followPass g.firstSets g.followSets = g.followSets :=
  g.settles_followRun.fixed

/-- So do the passes over sets of symbols. -/
theorem settles_followSymbols :
    Settles (g.collectFollow g.symbolSets.first) (.const g.keys ∅)
      (g.followSymbols g.symbolSets.first).2 g.symbolSets.follow := by
  have settles := g.settles_followRun.of_view
    (Family.map_injective (Beginning.ofTerminals_injective (κ := κ)))
    (g.collectFollow_symbols g.firstSets)
  rw [Family.map_const] at settles
  rw [followSymbols_eq, symbolSets_eq, ← followSets_eq]
  exact settles

/-! ### The laws -/

/-- The terminals that can come behind a key. -/
def followOf (key : κ) : SortedSet τ := (g.followSets.get? key).getD ∅

variable {g}

theorem follow_least {W : κ → τ → Prop} (bound : g.FollowBound W) {key : κ} {t : τ}
    (member : t ∈ g.followOf key) : W key t := by
  unfold followOf at member
  cases found : g.followSets.get? key with
  | none =>
    rw [found] at member
    exact absurd member (SortedSet.not_mem_empty t)
  | some set =>
    rw [found] at member
    exact bound.followSets.2 _ (Family.get?_mem found) t member

theorem mem_follow_of_mem_behind {rule : Rule τ κ T N} (isRule : rule ∈ g.rules)
    {front rest : List (Symbol τ κ)} {inner : κ}
    (split : rule.body = front ++ .nonterminal inner :: rest) {t : τ}
    (member : t ∈ FollowSets.behind g.firstSets rule.key rest g.followSets) :
    t ∈ g.followOf inner := by
  have fixed := Raises.fixed_of_foldl
    (f := fun (follow : FollowSets τ κ) (rule : Rule τ κ T N) =>
      FollowSets.absorb g.firstSets rule.key rule.body follow)
    (fun rule _ => FollowSets.raises_absorb g.firstSets rule.key rule.body)
    g.followPass_followSets rule isRule
  have isKey : inner ∈ g.followSets.keys := by
    rw [g.followBound_occurrences.followSets.1]
    have used : .nonterminal inner ∈ rule.body := by rw [split]; simp
    exact mem_keys.mpr (List.mem_map.mp (g.defined rule isRule inner used))
  obtain ⟨set, found⟩ := Family.exists_get? isKey
  rw [followOf, found]
  exact FollowSets.mem_of_absorb_eq fixed split found t member

/-- What the rest of a body can begin with comes behind the key before it. -/
theorem mem_follow_of_first {rule : Rule τ κ T N} (isRule : rule ∈ g.rules)
    {front rest : List (Symbol τ κ)} {inner : κ}
    (split : rule.body = front ++ .nonterminal inner :: rest) {t : τ}
    (member : t ∈ (g.firstSets.ofBody rest).terminals) : t ∈ g.followOf inner :=
  mem_follow_of_mem_behind isRule split (FollowSets.mem_behind.mpr (.inl member))

/-- Where the rest of a body may be empty, what comes behind the key of the
rule comes behind the key before it. -/
theorem mem_follow_of_behind {rule : Rule τ κ T N} (isRule : rule ∈ g.rules)
    {front rest : List (Symbol τ κ)} {inner : κ}
    (split : rule.body = front ++ .nonterminal inner :: rest) {t : τ}
    (nullable : (g.firstSets.ofBody rest).nullable = true) (member : t ∈ g.followOf rule.key) :
    t ∈ g.followOf inner :=
  mem_follow_of_mem_behind isRule split (FollowSets.mem_behind.mpr (.inr ⟨nullable, member⟩))

/-- What comes behind a child may come behind its key: it begins one of the
later children, or these are empty and it comes behind the branch. -/
theorem mem_follow_of_child {rule : Rule τ κ T N} (isRule : rule ∈ g.rules) {cursor : Nat} {key : κ}
    (here : rule.body[cursor]? = some (.nonterminal key)) {back : List (Derivation τ κ T N)}
    (spelled : back.map Derivation.root =
      (rule.body.drop (cursor + 1)).filter fun symbol => !symbol.isEpsilon)
    (derived : ∀ child ∈ back, g.IsDerivation child) {la : Option τ}
    (behind : ∀ t, la = some t → t ∈ g.followOf rule.key) {t : τ}
    (next : (back.flatMap Derivation.terminals).head?.or la = some t) : t ∈ g.followOf key := by
  have admits := g.admits_forest fun D member => (derived D member).admits
  rw [spelled, FirstSets.ofBody_symbols] at admits
  have split := Rule.body_eq_append here
  -- either all later children are empty, or the terminal is the first leaf of theirs
  cases leaves : back.flatMap Derivation.terminals with
  | nil =>
    rw [leaves] at admits next
    exact mem_follow_of_behind isRule split admits (behind t next)
  | cons u rest =>
    rw [leaves] at admits next
    obtain rfl := Option.some.inj next
    exact mem_follow_of_first isRule split admits

theorem mem_terminalOccurrences_of_mem_follow {key : κ} {t : τ} (member : t ∈ g.followOf key) :
    t ∈ g.terminalOccurrences :=
  follow_least g.followBound_occurrences member

end Grammar

end ShiftReduce
