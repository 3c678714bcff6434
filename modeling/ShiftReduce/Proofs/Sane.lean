/-
  Sane grammars: no key comes back to itself without adding to the text.

  A grammar is sane if no key is rewritten to itself alone, and none to a form in
  which it stands behind keys that all stand for the empty text (`Grammar.Sane`).
  Then two numbers can be given to every key that go down along its rules
  (`Grammar.Ranks`): the depth where all else in the body may be empty, and the reach
  where all before may be, unless there is nothing before. Such ranks are the
  certificate of a sane grammar (`Ranks.sane`), and every sane grammar has them
  (`Sane.exists_ranks`).
-/
import ShiftReduce.Proofs.Lookahead.Exactness

namespace ShiftReduce

open ContextFreeGrammar (Letter)

variable {τ κ T N : Type}

namespace Grammar

/-- A grammar is sane if no key is rewritten, in one step or more, to itself alone or
to a form in which it stands behind keys that are all rewritten to the empty form. -/
structure Sane (g : Grammar τ κ T N) : Prop where
  acyclic : ∀ key, ¬ Relation.TransGen g.Rewrites [.nonterminal key] [.nonterminal key]
  unhidden : ∀ key front back, front ≠ [] →
    (∀ letter ∈ front, ∃ inner, letter = .nonterminal inner ∧ g.Derives [.nonterminal inner] []) →
    ¬ Relation.TransGen g.Rewrites [.nonterminal key] (front ++ .nonterminal key :: back)

/-- Ranks of the keys of a grammar. A key in a body has less depth than the key of the
rule if the rest of the body may be empty. It has no more reach if what is before it
may be empty, and less if something is before it. -/
structure Ranks (g : Grammar τ κ T N) where
  depth : κ → Nat
  reach : κ → Nat
  bound : Nat
  depth_le : ∀ key, depth key ≤ bound
  reach_le : ∀ key, reach key ≤ bound
  depth_lt : ∀ rule ∈ g.rules, ∀ front key back,
    letters rule.body = front ++ .nonterminal key :: back →
    g.Derives front [] → g.Derives back [] → depth key < depth rule.key
  reach_mono : ∀ rule ∈ g.rules, ∀ front key back,
    letters rule.body = front ++ .nonterminal key :: back →
    g.Derives front [] → reach key ≤ reach rule.key ∧ (front ≠ [] → reach key < reach rule.key)

/-! ### Empty forms -/

section Empty

variable {g : Grammar τ κ T N} {u v : List (Letter τ κ)}

/-- A form is rewritten to the empty one if and only if its letters are keys that are. -/
theorem derives_nil_iff [Ordered τ] [DecidableEq τ] [DecidableEq κ] :
    g.Derives u [] ↔
      ∀ letter ∈ u, ∃ key, letter = .nonterminal key ∧ g.Derives [.nonterminal key] [] := by
  constructor
  · induction u with
    | nil => exact fun _ => List.forall_mem_nil _
    | cons letter rest ih =>
      intro empty
      have split : (g.firstSets.ofForm ([letter] ++ rest)).Admits [] :=
        nullable_ofForm_iff.mpr empty
      rw [FirstSets.ofForm_append, Beginning.admits_andThen_iff] at split
      obtain ⟨first, others⟩ := split.resolve_left fun some => some.1 rfl
      refine List.forall_mem_cons.mpr ⟨?_, ih (nullable_ofForm_iff.mp others)⟩
      cases letter with
      | terminal t => cases first
      | nonterminal key => exact ⟨key, rfl, nullable_ofForm_iff.mp first⟩
  · intro empty
    refine derives_nil fun letter member => ?_
    obtain ⟨key, rfl, derives⟩ := empty letter member
    exact derives

theorem derives_append_nil_iff [Ordered τ] [DecidableEq τ] [DecidableEq κ] :
    g.Derives (u ++ v) [] ↔ g.Derives u [] ∧ g.Derives v [] := by
  rw [derives_nil_iff, List.forall_mem_append, ← derives_nil_iff, ← derives_nil_iff]

/-- Where the letters around a key may be empty, a rule rewrites its key to that key. -/
theorem transGen_of_rule {rule : Rule τ κ T N} (isRule : rule ∈ g.rules)
    {front back : List (Letter τ κ)} {key : κ}
    (body : letters rule.body = front ++ .nonterminal key :: back)
    (before : g.Derives front []) (behind : g.Derives back []) :
    Relation.TransGen g.Rewrites [.nonterminal rule.key] [.nonterminal key] := by
  have step := rewrites_of_mem isRule
  rw [body] at step
  exact .head' step (before.append (Derives.append (u := [.nonterminal key]) .refl behind))

end Empty

/-! ### Ranks of a sane grammar -/

section Count

open Classical

variable [DecidableEq κ] {g : Grammar τ κ T N} {few many : κ → Prop}

/-- How many keys of a grammar have a property. -/
noncomputable def count (g : Grammar τ κ T N) (related : κ → Prop) : Nat :=
  (g.keys.toFinset.filter related).card

theorem count_le (g : Grammar τ κ T N) (related : κ → Prop) :
    g.count related ≤ g.keys.toFinset.card :=
  Finset.card_filter_le _ _

theorem count_mono (weaker : ∀ key, few key → many key) : g.count few ≤ g.count many := by
  apply Finset.card_le_card
  intro key member
  rw [Finset.mem_filter] at member ⊢
  exact ⟨member.1, weaker key member.2⟩

theorem count_lt (weaker : ∀ key, few key → many key) {key : κ} (isKey : key ∈ g.keys)
    (has : many key) (lacks : ¬ few key) : g.count few < g.count many := by
  apply Finset.card_lt_card
  refine ⟨fun other member => ?_, fun whole => ?_⟩
  · rw [Finset.mem_filter] at member ⊢
    exact ⟨member.1, weaker other member.2⟩
  · have member := whole (Finset.mem_filter.mpr ⟨List.mem_toFinset.mpr isKey, has⟩)
    exact lacks (Finset.mem_filter.mp member).2

end Count

variable [Ordered τ] [DecidableEq τ] [DecidableEq κ] {g : Grammar τ κ T N}

/-- `g.Hides key other` says that a key is rewritten to a form in which the other key
stands behind letters that may be empty. -/
def Hides (g : Grammar τ κ T N) (key other : κ) : Prop :=
  ∃ front back, front ≠ [] ∧ g.Derives front [] ∧
    Relation.TransGen g.Rewrites [.nonterminal key] (front ++ .nonterminal other :: back)

theorem Sane.not_hides (sane : g.Sane) (key : κ) : ¬ g.Hides key key := by
  rintro ⟨front, back, some, empty, derives⟩
  exact sane.unhidden key front back some (derives_nil_iff.mp empty) derives

omit [Ordered τ] [DecidableEq τ] [DecidableEq κ] in
/-- What a key in a body hides, the key of the rule hides, if all before it may be
empty. -/
theorem Hides.of_rule {rule : Rule τ κ T N} (isRule : rule ∈ g.rules)
    {front back : List (Letter τ κ)} {key other : κ}
    (body : letters rule.body = front ++ .nonterminal key :: back) (empty : g.Derives front [])
    (hides : g.Hides key other) : g.Hides rule.key other := by
  obtain ⟨before, behind, some, empty', derives⟩ := hides
  refine ⟨front ++ before, behind ++ back, ?_, empty.append empty', ?_⟩
  · simp [some]
  · have step := rewrites_of_mem isRule
    rw [body] at step
    have inContext : Relation.TransGen g.Rewrites (front ++ [.nonterminal key] ++ back)
        (front ++ (before ++ .nonterminal other :: behind) ++ back) :=
      derives.lift (fun form => front ++ form ++ back) fun _ _ rewrites =>
        (rewrites.append_left front).append_right back
    have start : Relation.TransGen g.Rewrites [.nonterminal rule.key]
        (front ++ [.nonterminal key] ++ back) := by
      simpa using Relation.TransGen.single step
    simpa using start.trans inContext

/-- A sane grammar has ranks: the numbers of keys that a key is rewritten to, alone and
behind letters that may be empty. -/
theorem Sane.exists_ranks (sane : g.Sane) : Nonempty g.Ranks := by
  refine ⟨⟨fun key => g.count fun other =>
      Relation.TransGen g.Rewrites [.nonterminal key] [.nonterminal other],
    fun key => g.count (g.Hides key), g.keys.toFinset.card, fun _ => g.count_le _,
    fun _ => g.count_le _, ?_, ?_⟩⟩
  · intro rule isRule front key back body before behind
    have isKey : key ∈ g.keys := mem_keys_of_letters isRule (by simp [body])
    have leads := transGen_of_rule isRule body before behind
    exact count_lt (fun other => leads.trans) isKey leads (sane.acyclic key)
  · intro rule isRule front key back body before
    have isKey : key ∈ g.keys := mem_keys_of_letters isRule (by simp [body])
    have weaker : ∀ other, g.Hides key other → g.Hides rule.key other :=
      fun other => .of_rule isRule body before
    refine ⟨count_mono weaker, fun some => count_lt weaker isKey ?_ (sane.not_hides key)⟩
    have step := rewrites_of_mem isRule
    rw [body] at step
    exact ⟨front, back, some, before, .single step⟩

/-! ### Ranks as a certificate -/

namespace Ranks

variable (r : g.Ranks) {key : κ} {form : List (Letter τ κ)}

/-- Every key of a form has less depth than the key that the form comes from, if the
rest of the form may be empty. -/
theorem depth_lt_of_transGen
    (derives : Relation.TransGen g.Rewrites [.nonterminal key] form) :
    ∀ front other back, form = front ++ .nonterminal other :: back →
      g.Derives front [] → g.Derives back [] → r.depth other < r.depth key := by
  induction derives with
  | single step =>
    obtain ⟨rule, isRule, rfl, rfl⟩ := step.exists_rule
    exact r.depth_lt rule isRule
  | tail _ step ih =>
    obtain ⟨rule, isRule, first, third, rfl, rfl⟩ := step.exists_parts
    intro front other back same before behind
    have applied : ∀ u v,
        g.Rewrites (u ++ [.nonterminal rule.key] ++ v) (u ++ letters rule.body ++ v) :=
      fun u v => ((rewrites_of_mem isRule).append_left u).append_right v
    rcases exists_of_append_eq same with ⟨rest, rfl, rfl⟩ | ⟨inner, after, body, rfl, rfl⟩ |
      ⟨inner, rfl, rfl⟩
    · -- the key stands before the rule
      exact ih front other (rest ++ [.nonterminal rule.key] ++ third) (by simp) before
        (.head (applied rest third) behind)
    · -- the key is one of the rule
      rw [derives_append_nil_iff] at before behind
      have deeper := r.depth_lt rule isRule inner other after body before.2 behind.1
      exact deeper.trans (ih first rule.key third (by simp) before.1 behind.2)
    · -- the key stands behind the rule
      exact ih (first ++ [.nonterminal rule.key] ++ inner) other back (by simp)
        (.head (applied first inner) before) behind

/-- Every key of a form has no more reach than the key that the form comes from, if what
is before it may be empty, and less if something is before it. -/
theorem reach_mono_of_transGen
    (derives : Relation.TransGen g.Rewrites [.nonterminal key] form) :
    ∀ front other back, form = front ++ .nonterminal other :: back → g.Derives front [] →
      r.reach other ≤ r.reach key ∧ (front ≠ [] → r.reach other < r.reach key) := by
  induction derives with
  | single step =>
    obtain ⟨rule, isRule, rfl, rfl⟩ := step.exists_rule
    exact r.reach_mono rule isRule
  | tail _ step ih =>
    obtain ⟨rule, isRule, first, third, rfl, rfl⟩ := step.exists_parts
    intro front other back same before
    rcases exists_of_append_eq same with ⟨rest, rfl, rfl⟩ | ⟨inner, after, body, rfl, rfl⟩ |
      ⟨inner, rfl, rfl⟩
    · exact ih front other (rest ++ [.nonterminal rule.key] ++ third) (by simp) before
    · -- the key is one of the rule: something is before it in the rule or before the rule
      rw [derives_append_nil_iff] at before
      obtain ⟨outer, outerLess⟩ := ih first rule.key third (by simp) before.1
      obtain ⟨own, ownLess⟩ := r.reach_mono rule isRule inner other after body before.2
      refine ⟨own.trans outer, fun some => ?_⟩
      by_cases none : first = []
      · have inside : inner ≠ [] := by rwa [none, List.nil_append] at some
        exact (ownLess inside).trans_le outer
      · exact own.trans_lt (outerLess none)
    · -- the key stands behind the rule, and so does it behind the key of the rule
      have step : g.Rewrites (first ++ [.nonterminal rule.key] ++ inner)
          (first ++ letters rule.body ++ inner) :=
        ((rewrites_of_mem isRule).append_left first).append_right inner
      obtain ⟨_, less⟩ := ih (first ++ [.nonterminal rule.key] ++ inner) other back (by simp)
        (.head step before)
      have less := less (by simp)
      exact ⟨less.le, fun _ => less⟩

/-- A grammar with ranks is sane. -/
theorem sane (r : g.Ranks) : g.Sane where
  acyclic key derives :=
    lt_irrefl _ (r.depth_lt_of_transGen derives [] key [] rfl .refl .refl)
  unhidden key front back some empty derives :=
    lt_irrefl _ ((r.reach_mono_of_transGen derives front key back rfl
      (derives_nil_iff.mpr empty)).2 some)

end Ranks

/-! ### Checking ranks -/

/-- Whether symbols can stand for the empty text, if these keys can. -/
def vanishes (empty : κ → Bool) (symbols : List (Symbol τ κ)) : Bool :=
  symbols.all fun symbol =>
    match symbol with
    | .terminal _ => false
    | .nonterminal key => empty key
    | .epsilon => true

omit [Ordered τ] [DecidableEq τ] [DecidableEq κ] in
theorem vanishes_iff {empty : κ → Bool} {symbols : List (Symbol τ κ)} :
    vanishes empty symbols = true ↔
      ∀ letter ∈ letters symbols, ∃ key, letter = .nonterminal key ∧ empty key = true := by
  induction symbols with
  | nil => simp [vanishes, letters]
  | cons symbol rest ih =>
    unfold vanishes at ih ⊢
    rw [List.all_cons, Bool.and_eq_true, ih]
    cases symbol with
    | terminal t =>
      refine ⟨fun h => absurd h.1 Bool.false_ne_true, fun all => ?_⟩
      obtain ⟨_, same, _⟩ := all (.terminal t) List.mem_cons_self
      cases same
    | nonterminal key =>
      rw [letters_nonterminal, List.forall_mem_cons]
      simp
    | epsilon => exact and_iff_right rfl

omit [Ordered τ] [DecidableEq τ] [DecidableEq κ] in
/-- If every rule whose body vanishes is for one of some keys, only these are
rewritten to the empty form. -/
theorem empty_of_derives_nil {empty : κ → Bool}
    (closed : ∀ rule ∈ g.rules, vanishes empty rule.body = true → empty rule.key = true)
    {form : List (Letter τ κ)} (derives : g.Derives form []) :
    ∀ letter ∈ form, ∃ key, letter = .nonterminal key ∧ empty key = true := by
  induction derives using Relation.ReflTransGen.head_induction_on with
  | refl => exact List.forall_mem_nil _
  | head step _ ih =>
    obtain ⟨rule, isRule, front, back, rfl, rfl⟩ := step.exists_parts
    simp only [List.forall_mem_append, List.forall_mem_singleton] at ih ⊢
    exact ⟨⟨ih.1.1, rule.key, rfl, closed rule isRule (vanishes_iff.mpr ih.1.2)⟩, ih.2⟩

/-- `g.Falls empty depth reach` says that numbers go down as ranks do, along every rule
and before every key in its body, if `empty` tells which keys may be empty. -/
def Falls (g : Grammar τ κ T N) (empty : κ → Bool) (depth reach : κ → Nat) : Prop :=
  ∀ rule ∈ g.rules, ∀ cursor ∈ List.range rule.body.length,
    ∀ key ∈ rule.body[cursor]?.bind Symbol.nonterminal?,
      vanishes empty (rule.body.take cursor) = true →
        (vanishes empty (rule.body.drop (cursor + 1)) = true → depth key < depth rule.key) ∧
        reach key ≤ reach rule.key ∧ (cursor ≠ 0 → reach key < reach rule.key)

omit [Ordered τ] [DecidableEq τ] [DecidableEq κ] in
theorem Falls.of_letters {empty : κ → Bool} {depth reach : κ → Nat}
    (falls : g.Falls empty depth reach)
    (closed : ∀ rule ∈ g.rules, vanishes empty rule.body = true → empty rule.key = true)
    {rule : Rule τ κ T N} (isRule : rule ∈ g.rules) {front back : List (Letter τ κ)} {key : κ}
    (body : letters rule.body = front ++ .nonterminal key :: back)
    (nothing : g.Derives front []) :
    (g.Derives back [] → depth key < depth rule.key) ∧
      reach key ≤ reach rule.key ∧ (front ≠ [] → reach key < reach rule.key) := by
  obtain ⟨before, after, split, rfl, rfl⟩ := letters_eq_append_cons body
  have vanish : ∀ symbols : List (Symbol τ κ), g.Derives (letters symbols) [] →
      vanishes empty symbols = true := fun symbols derives =>
    vanishes_iff.mpr (empty_of_derives_nil closed derives)
  have here : rule.body[before.length]? = some (.nonterminal key) := by simp [split]
  have listed : before.length ∈ List.range rule.body.length :=
    List.mem_range.mpr (List.getElem?_eq_some_iff.mp here).1
  have checked := falls rule isRule before.length listed key (by simp [here, Symbol.nonterminal?])
    (by simpa [split] using vanish before nothing)
  refine ⟨fun behind => checked.1 (by simpa [split] using vanish after behind), checked.2.1,
    fun some => checked.2.2 fun none => some ?_⟩
  rw [List.eq_nil_of_length_eq_zero none]
  rfl

/-- A grammar is sane if numbers for its keys are found to go down as ranks do. -/
theorem sane_of_falls {empty : κ → Bool} {depth reach : κ → Nat} {bound : Nat}
    (depth_le : ∀ key, depth key ≤ bound) (reach_le : ∀ key, reach key ≤ bound)
    (closed : ∀ rule ∈ g.rules, vanishes empty rule.body = true → empty rule.key = true)
    (falls : g.Falls empty depth reach) : g.Sane :=
  Ranks.sane ⟨depth, reach, bound, depth_le, reach_le,
    fun _ isRule _ _ _ body before => (falls.of_letters closed isRule body before).1,
    fun _ isRule _ _ _ body before => (falls.of_letters closed isRule body before).2⟩

end Grammar

end ShiftReduce
