/-
  FIRST sets hold what derivations can begin with.

  The beginnings are settled (`firstSets_closed`): what a rule body can begin
  with, its key can begin with. By induction on derivations, the terminals at
  the leaves of a derivation are admitted by the beginning of its root
  (`IsDerivation.admits`): their first one is a member, and if there are none
  the root is nullable.
-/
import ShiftReduce.Proofs.Lookahead.Beginnings
import ShiftReduce.Proofs.Derivation

namespace ShiftReduce

variable {τ κ T N : Type}

/-! ### Beginnings -/

namespace Beginning

variable [Ordered τ]

/-- The size of a beginning, the empty text counting for one. -/
def size (a : Beginning τ) : Nat := a.terminals.size + a.nullable.toNat

theorem raises_orElse (b : Beginning τ) : Raises size (fun a : Beginning τ => a.orElse b) := by
  intro a
  have union : a.terminals.size ≤ (a.terminals ∪ b.terminals).size ∧
      ((a.terminals ∪ b.terminals).size ≤ a.terminals.size →
        a.terminals ∪ b.terminals = a.terminals) := Raises.union b.terminals a.terminals
  obtain ⟨grows, still⟩ := union
  have flag : a.nullable.toNat ≤ (a.nullable || b.nullable).toNat := by
    cases a.nullable <;> simp
  simp only [size, orElse]
  refine ⟨by omega, fun small => ?_⟩
  have same : (a.nullable || b.nullable) = a.nullable := by
    cases hA : a.nullable <;> cases hB : b.nullable <;> simp_all
    omega
  rw [still (by omega), same]

/-- A beginning admits a text if the first terminal of the text is a member,
or if the text is empty and may be. -/
def Admits (a : Beginning τ) : List τ → Prop
  | [] => a.nullable = true
  | t :: _ => t ∈ a.terminals

theorem Admits.andThen {a b : Beginning τ} {u v : List τ} (left : a.Admits u) (right : b.Admits v) :
    (a.andThen b).Admits (u ++ v) := by
  cases u with
  | nil =>
    have nullable : a.nullable = true := left
    rw [Beginning.andThen, if_pos nullable]
    cases v with
    | nil => exact right
    | cons t v => exact SortedSet.mem_union.mpr (.inr right)
  | cons t u =>
    rw [Beginning.andThen]
    split
    · exact SortedSet.mem_union.mpr (.inl left)
    · exact left

theorem Admits.of_andThen_empty {a : Beginning τ} {u : List τ}
    (admits : (a.andThen .empty).Admits u) : a.Admits u := by
  rw [Beginning.andThen] at admits
  split at admits
  · rename_i nullable
    cases u with
    | nil => exact nullable
    | cons t u =>
      rcases SortedSet.mem_union.mp admits with h | h
      · exact h
      · exact absurd h (SortedSet.not_mem_empty t)
  · exact admits

/-- What a larger beginning absorbs, it admits. -/
theorem Admits.of_orElse_eq {a b : Beginning τ} {u : List τ} (admits : b.Admits u)
    (absorbed : a.orElse b = a) : a.Admits u := by
  rw [← absorbed]
  cases u with
  | nil => exact Bool.or_eq_true_iff.mpr (.inr admits)
  | cons t u => exact SortedSet.mem_union.mpr (.inr admits)

end Beginning

/-! ### Bodies -/

section Bodies

variable [Ordered τ] [DecidableEq κ]

theorem FirstSets.ofBody_symbols (first : FirstSets τ κ) (body : List (Symbol τ κ)) :
    first.ofBody (body.filter fun symbol => !symbol.isEpsilon) = first.ofBody body := by
  induction body with
  | nil => rfl
  | cons symbol rest ih =>
    cases symbol with
    | terminal t => rfl
    | nonterminal key => exact congrArg ((first.get? key).getD .none).andThen ih
    | epsilon => exact ih

/-- A text of the first symbol and one of the others make a text of them all. -/
theorem FirstSets.admits_cons {first : FirstSets τ κ} {symbol : Symbol τ κ}
    {rest : List (Symbol τ κ)} {u v : List τ} (left : (first.ofBody [symbol]).Admits u)
    (right : (first.ofBody rest).Admits v) : (first.ofBody (symbol :: rest)).Admits (u ++ v) := by
  cases symbol with
  | terminal t =>
    cases u with
    | nil => cases left
    | cons s u => exact left
  | nonterminal key =>
    have own : ((first.get? key).getD .none).Admits u := Beginning.Admits.of_andThen_empty left
    exact own.andThen right
  | epsilon =>
    cases u with
    | nil => exact right
    | cons s u => exact absurd left (SortedSet.not_mem_empty s)

/-- The terminals that a body can begin with are its own or begin a key. -/
theorem FirstSets.mem_ofBody {first : FirstSets τ κ} {body : List (Symbol τ κ)} {t : τ}
    (member : t ∈ (first.ofBody body).terminals) :
    .terminal t ∈ body ∨ ∃ entry ∈ first.entries, t ∈ entry.2.terminals := by
  induction body with
  | nil => exact absurd member (SortedSet.not_mem_empty t)
  | cons symbol rest ih =>
    have later : t ∈ (first.ofBody rest).terminals →
        .terminal t ∈ symbol :: rest ∨ ∃ entry ∈ first.entries, t ∈ entry.2.terminals :=
      fun h => (ih h).imp_left (List.mem_cons_of_mem _)
    cases symbol with
    | terminal s =>
      have same : t = s := by
        rcases SortedSet.mem_insert.mp member with h | h
        · exact h
        · exact absurd h (SortedSet.not_mem_empty t)
      exact .inl (same ▸ List.mem_cons_self)
    | nonterminal key =>
      have own : t ∈ ((first.get? key).getD .none).terminals →
          ∃ entry ∈ first.entries, t ∈ entry.2.terminals := by
        intro h
        cases found : first.get? key with
        | none =>
          rw [found] at h
          exact absurd h (SortedSet.not_mem_empty t)
        | some b =>
          rw [found] at h
          exact ⟨(key, b), Family.get?_mem found, h⟩
      simp only [FirstSets.ofBody, Beginning.andThen] at member
      split at member
      · rcases SortedSet.mem_union.mp member with h | h
        · exact .inr (own h)
        · exact later h
      · exact .inr (own member)
    | epsilon => exact later member

end Bodies

namespace Grammar

/-! ### Keys and terminals -/

theorem mem_terminalOccurrences {g : Grammar τ κ T N} {t : τ} :
    t ∈ g.terminalOccurrences ↔ ∃ rule ∈ g.rules, .terminal t ∈ rule.body := by
  simp only [terminalOccurrences, List.mem_flatMap, List.mem_filterMap]
  refine exists_congr fun rule => and_congr_right fun _ => ⟨?_, fun h => ⟨_, h, rfl⟩⟩
  rintro ⟨symbol, inside, same⟩
  cases symbol with
  | terminal s =>
    obtain rfl := Option.some.inj same
    exact inside
  | nonterminal key => cases same
  | epsilon => cases same

theorem mem_keys [DecidableEq κ] {g : Grammar τ κ T N} {key : κ} :
    key ∈ g.keys ↔ ∃ rule ∈ g.rules, rule.key = key := by
  rw [keys, List.mem_eraseDups, List.mem_map]

variable [Ordered τ] [DecidableEq κ] (g : Grammar τ κ T N)

/-! ### Settled beginnings -/

theorem raises_firstPass : Raises (Family.weight Beginning.size) g.firstPass :=
  Raises.foldl (f := fun (first : FirstSets τ κ) (rule : Rule τ κ T N) =>
    first.modify rule.key (·.orElse (first.ofBody rule.body))) fun rule _ first =>
      Family.raises_modify rule.key (Beginning.raises_orElse (first.ofBody rule.body)) first

/-- A family of beginnings with the keys of the grammar and terminals that
occur in it. -/
def BoundedFirst (first : FirstSets τ κ) : Prop :=
  first.keys = g.keys ∧ ∀ entry ∈ first.entries, ∀ t ∈ entry.2.terminals, t ∈ g.terminalOccurrences

theorem boundedFirst_const : g.BoundedFirst (.const g.keys .none) := by
  refine ⟨Family.keys_const _ _, fun entry member t inside => ?_⟩
  obtain ⟨key, _, rfl⟩ := List.mem_map.mp member
  exact absurd inside (SortedSet.not_mem_empty t)

theorem BoundedFirst.modify {g : Grammar τ κ T N} {first : FirstSets τ κ}
    (bounded : g.BoundedFirst first) {rule : Rule τ κ T N} (isRule : rule ∈ g.rules) :
    g.BoundedFirst (first.modify rule.key (·.orElse (first.ofBody rule.body))) := by
  obtain ⟨same, occur⟩ := bounded
  refine ⟨by rw [Family.keys_modify, same], fun entry member t inside => ?_⟩
  rcases Family.mem_modify member with h | ⟨value, h, rfl⟩
  · exact occur entry h t inside
  · rcases SortedSet.mem_union.mp inside with old | new
    · exact occur _ h t old
    · rcases FirstSets.mem_ofBody new with own | ⟨entry, known, h⟩
      · exact mem_terminalOccurrences.mpr ⟨rule, isRule, own⟩
      · exact occur entry known t h

variable [DecidableEq τ]

/-- What holds at first and is kept by the step of every rule holds of the
settled beginnings. -/
theorem firstSets_induction {P : FirstSets τ κ → Prop} (start : P (.const g.keys .none))
    (step : ∀ rule ∈ g.rules, ∀ first, P first →
      P (first.modify rule.key (·.orElse (first.ofBody rule.body)))) : P g.firstSets := by
  refine saturate_induction (fun first good => ?_) start
  exact List.foldlRecOn g.rules _ good fun first good rule member => step rule member first good

theorem keys_firstSets : g.firstSets.keys = g.keys := by
  refine g.firstSets_induction (P := fun first => first.keys = g.keys) (Family.keys_const _ _) ?_
  intro rule _ first same
  rw [Family.keys_modify, same]

theorem boundedFirst_firstSets : g.BoundedFirst g.firstSets :=
  g.firstSets_induction g.boundedFirst_const fun _ isRule _ bounded => bounded.modify isRule

/-- The passes of FIRST sets end, with the settled beginnings. -/
theorem settles_firstRun :
    Settles g.firstPass (.const g.keys .none) g.firstRun.2 g.firstSets := by
  refine settles_saturate (P := g.BoundedFirst)
    (n := g.keys.length * (g.terminalOccurrences.length + 1)) g.raises_firstPass ?_ ?_
    g.boundedFirst_const (by omega)
  · intro first bounded
    exact List.foldlRecOn g.rules _ bounded fun first bounded rule isRule => bounded.modify isRule
  · -- each key has room for every terminal, and for being nullable
    rintro first ⟨same, occur⟩
    rw [← same]
    refine Family.weight_le fun entry member => ?_
    have count : entry.2.terminals.size ≤ g.terminalOccurrences.length :=
      SortedSet.size_le_length (occur entry member)
    have flag : entry.2.nullable.toNat ≤ 1 := Bool.toNat_le _
    simp only [Beginning.size]
    omega

theorem firstPass_firstSets : g.firstPass g.firstSets = g.firstSets := g.settles_firstRun.fixed

/-- So do the passes over sets of symbols. -/
theorem settles_firstSymbols [Ordered κ] :
    Settles g.collectFirst (.const g.keys ∅) g.firstSymbols.2 g.symbolSets.first := by
  have settles := g.settles_firstRun.of_view
    (Family.map_injective (Beginning.symbols_injective (κ := κ))) g.collectFirst_symbols
  rw [Family.map_const] at settles
  rw [firstSymbols_eq, symbolSets_eq]
  exact settles

/-- What the body of a rule can begin with, its key can begin with. -/
theorem firstSets_closed {rule : Rule τ κ T N} (isRule : rule ∈ g.rules) {u : List τ}
    (admits : (g.firstSets.ofBody rule.body).Admits u) :
    ((g.firstSets.get? rule.key).getD .none).Admits u := by
  -- a pass that changes nothing has no rule that does
  have fixed := Raises.fixed_of_foldl (f := fun (first : FirstSets τ κ) (rule : Rule τ κ T N) =>
    first.modify rule.key (·.orElse (first.ofBody rule.body))) (fun rule _ first =>
      Family.raises_modify rule.key (Beginning.raises_orElse (first.ofBody rule.body)) first)
    g.firstPass_firstSets rule isRule
  have isKey : rule.key ∈ g.firstSets.keys := by
    rw [g.keys_firstSets]
    exact mem_keys.mpr ⟨rule, isRule, rfl⟩
  obtain ⟨value, found⟩ := Family.exists_get? isKey
  rw [found]
  exact admits.of_orElse_eq (Family.eq_of_modify_eq fixed found)

theorem admits_forest {forest : List (Derivation τ κ T N)}
    (admits : ∀ D ∈ forest, (g.firstSets.ofBody [D.root]).Admits D.terminals) :
    (g.firstSets.ofBody (forest.map Derivation.root)).Admits
      (forest.flatMap Derivation.terminals) := by
  induction forest with
  | nil => rfl
  | cons D rest ih =>
    exact FirstSets.admits_cons (admits D List.mem_cons_self)
      (ih fun E member => admits E (List.mem_cons_of_mem _ member))

/-- The beginning of a symbol admits the terminals of its derivations. -/
theorem IsDerivation.admits {g : Grammar τ κ T N} {D : Derivation τ κ T N}
    (derived : g.IsDerivation D) : (g.firstSets.ofBody [D.root]).Admits D.terminals := by
  induction derived with
  | leaf t token _ => exact SortedSet.mem_insert.mpr (.inl rfl)
  | branch rule children isRule body _ ih =>
    have forest := g.admits_forest ih
    rw [body, Rule.symbols, FirstSets.ofBody_symbols] at forest
    -- the key admits what the body does, and nothing needs to come behind it
    have own := g.firstSets_closed isRule forest
    have whole := own.andThen (b := .empty) (v := []) rfl
    rwa [List.append_nil, ← Derivation.terminals_branch rule] at whole

end Grammar

end ShiftReduce
