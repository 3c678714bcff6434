/-
  Derivations that agree with the resolutions of a table.

  A resolution gives a terminal either to a rule that has been read completely,
  which then beats the terminal, or to the shift, to which the rule then yields.
  A derivation is settled (`Derivation.Settled`) if nowhere in it a rule stands
  before a terminal that it yields to, or is the last thing read before an
  operand that leads to a terminal that it beats. On such derivations no
  resolution is met against what the derivation asks for, so the parser reads
  them (`exists_readsIn_of_settled`).

  The terminals that can be beaten are to be infix operators: each has one rule,
  in which it stands between two nonterminals. So it is by looking at the first
  operand alone that a shift is seen to be safe.
-/
import ShiftReduce.Proofs.Parser.Guide

namespace ShiftReduce

variable {τ κ T N : Type}

/-! ### Edges of derivations -/

namespace Derivation

/-- `Leading t D` says that on the left edge of `D` the terminal `t` stands
right behind a first child. -/
inductive Leading (t : τ) : Derivation τ κ T N → Prop
  | here (rule : Rule τ κ T N) (first : Derivation τ κ T N) (token : T)
      (rest : List (Derivation τ κ T N)) :
      Leading t (.branch rule (first :: .leaf (t, token) :: rest))
  | there {first : Derivation τ κ T N} (rule : Rule τ κ T N) (rest : List (Derivation τ κ T N))
      (leading : Leading t first) : Leading t (.branch rule (first :: rest))

/-- `Trailing rule D` says that the rule is applied on the right edge of `D`,
so that it is read completely where `D` is. -/
inductive Trailing (rule : Rule τ κ T N) : Derivation τ κ T N → Prop
  | here (children : List (Derivation τ κ T N)) : Trailing rule (.branch rule children)
  | there {last : Derivation τ κ T N} (outer : Rule τ κ T N)
      (front back : List (Derivation τ κ T N)) (trailing : Trailing rule last)
      (empty : back.flatMap terminals = []) : Trailing rule (.branch outer (front ++ last :: back))

theorem Trailing.of_branch {rule outer : Rule τ κ T N} {children : List (Derivation τ κ T N)}
    (trailing : Trailing rule (.branch outer children)) : outer = rule ∨
      ∃ front last back, children = front ++ last :: back ∧ Trailing rule last ∧
        back.flatMap terminals = [] := by
  generalize same : (Tree.branch outer children : Derivation τ κ T N) = D at trailing
  cases trailing with
  | here children => exact .inl (Tree.branch.inj same).1
  | there outer front back trailing empty =>
    exact .inr ⟨front, _, back, (Tree.branch.inj same).2, trailing, empty⟩

/-- The right edge of a branch runs behind all of its leaves. -/
theorem Trailing.behind {rule outer : Rule τ κ T N} {children : List (Derivation τ κ T N)}
    (trailing : Trailing rule (.branch outer children)) (front : List (Derivation τ κ T N))
    {entry : τ × T} {back : List (Derivation τ κ T N)}
    (whole : children = front ++ .leaf entry :: back) :
    outer = rule ∨ ∃ last ∈ back, Trailing rule last := by
  subst whole
  rcases trailing.of_branch with same | ⟨front', last, back', split, deeper, empty⟩
  · exact .inl same
  · right
    -- a leaf shows, so none is among what is empty
    have visible : (.leaf entry : Derivation τ κ T N) ∉ back' := by
      intro inside
      have member : entry.1 ∈ back'.flatMap terminals :=
        List.mem_flatMap.mpr ⟨_, inside, List.mem_singleton_self _⟩
      rw [empty] at member
      cases member
    rcases List.append_eq_append_iff.mp split with ⟨middle, rfl, rest⟩ | ⟨middle, rfl, rest⟩
    · cases middle with
      | nil =>
        obtain ⟨rfl, _⟩ := List.cons.inj rest
        cases deeper
      | cons leaf middle =>
        obtain ⟨_, rfl⟩ := List.cons.inj rest
        exact ⟨last, List.mem_append_right middle List.mem_cons_self, deeper⟩
    · cases middle with
      | nil =>
        obtain ⟨rfl, _⟩ := List.cons.inj rest
        cases deeper
      | cons leaf middle =>
        obtain ⟨_, rfl⟩ := List.cons.inj rest
        exact absurd (List.mem_append_right middle List.mem_cons_self) visible

/-- A derivation is settled if no rule on the right edge of a child yields to
the terminal behind the child, and no rule beats a terminal that leads its last
child. -/
inductive Settled (beats yields : Rule τ κ T N → τ → Prop) : Derivation τ κ T N → Prop
  | leaf (entry : τ × T) : Settled beats yields (.leaf entry)
  | branch (rule : Rule τ κ T N) (children : List (Derivation τ κ T N))
      (below : ∀ child ∈ children, Settled beats yields child)
      (right : ∀ front child back, children = front ++ child :: back →
        ∀ t, (back.flatMap terminals).head? = some t → ∀ inner, Trailing inner child →
        ¬ yields inner t)
      (left : ∀ front child, children = front ++ [child] → ∀ t, Leading t child →
        ¬ beats rule t) : Settled beats yields (.branch rule children)

theorem Settled.of_child {beats yields : Rule τ κ T N → τ → Prop} {rule : Rule τ κ T N}
    {children : List (Derivation τ κ T N)} (settled : Settled beats yields (.branch rule children))
    {child : Derivation τ κ T N} (isChild : child ∈ children) : Settled beats yields child := by
  cases settled with
  | branch _ _ below _ _ => exact below child isChild

/-- So is every part of a settled derivation. -/
theorem Settled.of_within {beats yields : Rule τ κ T N → τ → Prop} {D E : Derivation τ κ T N}
    (settled : Settled beats yields D) (within : Tree.Within E D) : Settled beats yields E := by
  induction within with
  | refl => exact settled
  | child rule children isChild _ ih => exact ih (settled.of_child isChild)

/-- A branch with one child is settled if the child is, unless its rule beats what
leads the child. -/
theorem Settled.singleton {beats yields : Rule τ κ T N → τ → Prop} {rule : Rule τ κ T N}
    {child : Derivation τ κ T N} (below : Settled beats yields child)
    (leads : ∀ t, Leading t child → ¬ beats rule t) :
    Settled beats yields (.branch rule [child]) := by
  refine .branch rule [child] ?_ ?_ ?_
  · intro other isChild
    obtain rfl := List.mem_singleton.mp isChild
    exact below
  · intro front other back split t next
    have count := congrArg List.length split
    rw [List.length_append, List.length_cons, List.length_cons, List.length_nil] at count
    obtain rfl : back = [] := List.eq_nil_of_length_eq_zero (by omega)
    cases next
  · intro front other split
    have isChild : other ∈ [child] := by
      rw [split]
      exact List.mem_append_right front List.mem_cons_self
    obtain rfl := List.mem_singleton.mp isChild
    exact leads

end Derivation

/-! ### Infix operators -/

/-- The terminal is the infix operator of the rule: it stands there between two
nonterminals and is used nowhere else. -/
structure Grammar.InfixIn (g : Grammar τ κ T N) (u : τ) (rule : Rule τ κ T N) : Prop where
  body : ∃ left right, rule.body = [.nonterminal left, .terminal u, .nonterminal right]
  only : ∀ other ∈ g.rules, .terminal u ∈ other.body → other = rule

namespace Grammar.InfixIn

variable {g : Grammar τ κ T N} {u : τ} {rule : Rule τ κ T N}

/-- The operator has one operand before it and one behind it. -/
theorem operands (operator : g.InfixIn u rule) {front back : List (Derivation τ κ T N)}
    {c : Derivation τ κ T N} (spelled : (front ++ c :: back).map Derivation.root = rule.symbols)
    (here : c.root = .terminal u) : ∃ left right, front = [left] ∧ back = [right] := by
  obtain ⟨leftKey, rightKey, body⟩ := operator.body
  have symbols : rule.symbols = [.nonterminal leftKey, .terminal u, .nonterminal rightKey] := by
    rw [Rule.symbols, body]
    rfl
  rw [symbols, List.map_append, List.map_cons, here] at spelled
  rcases front with _ | ⟨left, _ | ⟨second, _ | ⟨third, more⟩⟩⟩
  · cases (List.cons.inj spelled).1
  · obtain ⟨_, rest⟩ := List.cons.inj spelled
    obtain ⟨right, rfl, _⟩ := List.map_eq_singleton_iff.mp (List.cons.inj rest).2
    exact ⟨left, right, rfl, rfl⟩
  · cases (List.cons.inj (List.cons.inj (List.cons.inj spelled).2).2).1
  · have count := congrArg List.length spelled
    simp only [List.length_append, List.length_map, List.length_cons, List.length_nil] at count
    omega

theorem length (operator : g.InfixIn u rule) : rule.length = 3 := by
  obtain ⟨left, right, body⟩ := operator.body
  rw [Rule.length, body]
  rfl

/-- With the cursor behind the first operand, the operator is expected. -/
theorem eq_of_expected (operator : g.InfixIn u rule) {place : Nat}
    (found : g.rule? place = some rule) {symbol : Symbol τ κ}
    (expected : g.expected? ⟨place, 1⟩ = some symbol) : symbol = .terminal u := by
  obtain ⟨rule', found', _, next⟩ := g.expected?_eq_some_iff.mp expected
  obtain rfl := Option.some.inj (found.symm.trans found')
  obtain ⟨left, right, body⟩ := operator.body
  rw [body] at next
  exact (Option.some.inj next).symm

end Grammar.InfixIn

variable [Ordered τ] [Ordered κ]

namespace Table

/-! ### What resolutions decide -/

/-- In some state the table reduces by the rule and does not shift the
terminal, or the other way round: `shifts` tells which. -/
def Decides (table : Table τ κ T N) (shifts : Bool) (rule : Rule τ κ T N) (t : τ) : Prop :=
  ∃ number s r, table.state? number = some s ∧ r ∈ s.resolutions ∧
    table.grammar.rule? r.rule = some rule ∧ r.terminal = t ∧ r.shifts = shifts

/-- Only infix operators are beaten, and only by rules of infix operators. -/
def Infixed (table : Table τ κ T N) (g : Grammar τ κ T N) : Prop :=
  ∀ rule t, table.Decides false rule t →
    (∃ u, g.InfixIn u rule) ∧ ∃ other, g.InfixIn t other

/-- A settled derivation that begins where none of its leading terminals is
beaten by a rule that waits for its last operand, and that ends before a
terminal to which none of its rules yields. -/
structure Guarded (table : Table τ κ T N) (g : Grammar τ κ T N) (number : Nat) (la : Option τ)
    (D : Derivation τ κ T N) : Prop where
  derived : g.IsDerivation D
  settled : D.Settled (table.Decides false) (table.Decides true)
  kept : ∀ s, table.state? number = some s → ∀ r ∈ s.resolutions,
    D.root = .terminal r.terminal → r.shifts = true
  leads : ∀ s, table.state? number = some s → ∀ place rule t, ⟨place, 2⟩ ∈ s.items →
    g.rule? place = some rule → D.Leading t → ¬ table.Decides false rule t
  trails : ∀ t, la = some t → ∀ rule, D.Trailing rule → ¬ table.Decides true rule t

variable {g : Grammar τ κ T N} {start : κ} {table : Table τ κ T N}

/-- Nothing on the right edge of a child yields to what comes behind it. -/
theorem Guarded.trails_child {number : Nat} {la : Option τ} {rule : Rule τ κ T N}
    {front back : List (Derivation τ κ T N)} {c : Derivation τ κ T N}
    (guarded : table.Guarded g number la (.branch rule (front ++ c :: back))) {t : τ}
    (next : (back.flatMap Derivation.terminals).head?.or la = some t) {inner : Rule τ κ T N}
    (trailing : c.Trailing inner) : ¬ table.Decides true inner t := by
  cases leaves : back.flatMap Derivation.terminals with
  | nil =>
    rw [leaves] at next
    exact guarded.trails t next inner (.there rule front back trailing leaves)
  | cons u rest =>
    have first : (back.flatMap Derivation.terminals).head? = some t := by
      rw [leaves] at next ⊢
      exact next
    have settled := guarded.settled
    cases settled with
    | branch _ _ _ yields _ => exact yields front c back rfl t first inner trailing

variable [DecidableEq τ] [DecidableEq κ]

/-- A shift of a child is kept: it could be lost to a rule of an operator only,
and then for an operator that leads the branch. -/
theorem Guarded.kept_child (built : g.Automaton start table) (infixed : table.Infixed g)
    {number target : Nat} {la : Option τ} {rule : Rule τ κ T N}
    {front back : List (Derivation τ κ T N)} {c : Derivation τ κ T N}
    (guarded : table.Guarded g number la (.branch rule (front ++ c :: back)))
    (walk : table.walk? number (front.map Derivation.root) = some target) {s : State τ κ}
    (isState : table.state? target = some s) {r : Resolution τ} (member : r ∈ s.resolutions)
    (root : c.root = .terminal r.terminal) : r.shifts = true := by
  by_contra lost
  obtain ⟨isRule, spelled, _⟩ := guarded.derived.of_branch
  obtain ⟨_, ⟨complete, loser, found, _⟩, _⟩ := (built.mem_resolutions isState).mp member
  -- a lost shift is a terminal that a rule beats, so both are of infix operators
  have decides : table.Decides false loser r.terminal :=
    ⟨target, s, r, isState, member, built.grammar ▸ found, rfl, Bool.not_eq_true _ ▸ lost⟩
  obtain ⟨⟨u, waiting⟩, other, operator⟩ := infixed loser r.terminal decides
  have used : c.root ∈ rule.body :=
    Derivation.root_mem_body spelled (List.mem_append_right front List.mem_cons_self)
  obtain rfl : rule = other := operator.only rule isRule (root ▸ used)
  obtain ⟨left, right, rfl, rfl⟩ := operator.operands spelled root
  obtain ⟨token, rfl⟩ := Derivation.eq_leaf_of_root root
  -- the state before the left operand waits for the last operand of the loser
  have edge : table.edge? number left.root = some target :=
    (table.walk?_concat number [] left.root).symm.trans walk
  rw [edge?, Option.bind_eq_some_iff] at edge
  obtain ⟨before, isBefore, next⟩ := edge
  obtain ⟨⟨s', isState', items⟩, _⟩ := built.of_next? isBefore next
  obtain rfl := Option.some.inj (isState.symm.trans isState')
  obtain ⟨path, reached⟩ := built.reached target s isState
  obtain ⟨cursor, inside, done⟩ := g.mem_completeRules.mp complete
  obtain rfl := reached.cursor_eq_length inside found done
  rw [waiting.length, items] at inside
  exact guarded.leads before isBefore r.rule loser r.terminal (g.mem_of_succ_mem_advance inside).1
    found (.here rule left token [right]) decides

/-- What leads a child is not beaten by a rule that waits where the child
begins: either the child begins the branch, or it is the last operand of that
rule. -/
theorem Guarded.leads_child (built : g.Automaton start table) (infixed : table.Infixed g)
    {number target : Nat} {la : Option τ} {rule : Rule τ κ T N}
    {front back : List (Derivation τ κ T N)} {c : Derivation τ κ T N}
    (guarded : table.Guarded g number la (.branch rule (front ++ c :: back)))
    (walk : table.walk? number (front.map Derivation.root) = some target) {s : State τ κ}
    (isState : table.state? target = some s) {place : Nat} {waits : Rule τ κ T N} {t : τ}
    (member : (⟨place, 2⟩ : Item) ∈ s.items) (found : g.rule? place = some waits)
    (leading : c.Leading t) : ¬ table.Decides false waits t := by
  intro decides
  obtain ⟨isRule, spelled, _⟩ := guarded.derived.of_branch
  obtain ⟨⟨u, operator⟩, _⟩ := infixed waits t decides
  induction front using List.reverseRecOn with
  | nil =>
    obtain rfl := Option.some.inj walk
    exact guarded.leads s isState place waits t member found (.there rule back leading) decides
  | append_singleton front previous _ =>
    rw [List.map_append, List.map_singleton, walk?_concat, Option.bind_eq_some_iff] at walk
    obtain ⟨middle, _, edge⟩ := walk
    rw [edge?, Option.bind_eq_some_iff] at edge
    obtain ⟨before, isBefore, next⟩ := edge
    obtain ⟨⟨s', isState', items⟩, _⟩ := built.of_next? isBefore next
    obtain rfl := Option.some.inj (isState.symm.trans isState')
    rw [items] at member
    -- the child before is the operator of the rule that waits, so the rule is that of the branch
    have root := operator.eq_of_expected found (g.mem_of_succ_mem_advance member).2
    rw [List.append_assoc, List.singleton_append] at spelled guarded
    have used : previous.root ∈ rule.body :=
      Derivation.root_mem_body spelled (List.mem_append_right front List.mem_cons_self)
    obtain rfl : rule = waits := operator.only rule isRule (root ▸ used)
    obtain ⟨left, right, _, last⟩ := operator.operands spelled root
    obtain ⟨rfl, rfl⟩ := List.cons.inj last
    have settled := guarded.settled
    cases settled with
    | branch _ _ _ _ beaten =>
      refine beaten (front ++ [previous]) c ?_ t leading decides
      rw [List.append_assoc]
      rfl

/-- Settled derivations are a guide. -/
theorem guide_guarded (built : g.Automaton start table) (infixed : table.Infixed g) :
    table.Guide g (table.Guarded g) where
  leaf guarded isState r member same := guarded.kept _ isState r member (congrArg _ same.symm)
  child {number target la rule front c back} guarded walk := by
    obtain ⟨_, _, derived⟩ := guarded.derived.of_branch
    have isChild : c ∈ front ++ c :: back := List.mem_append_right front List.mem_cons_self
    have settled := guarded.settled
    cases settled with
    | branch _ _ below _ _ =>
      exact
        { derived := derived c isChild
          settled := below c isChild
          kept := fun s isState r member root =>
            guarded.kept_child built infixed walk isState member root
          leads := fun s isState place waits t member found leading =>
            guarded.leads_child built infixed walk isState member found leading
          trails := fun t next inner trailing => guarded.trails_child next trailing }
  complete guarded _ isState r member same found := by
    by_contra kept
    refine guarded.trails _ rfl _ (.here _) ⟨_, _, r, isState, member, ?_, same, ?_⟩
    · rw [built.grammar]
      exact found
    · exact Bool.not_eq_false _ ▸ kept

/-- From the start state the parser reads every settled derivation of a key that
the start set expects. -/
theorem exists_readsIn_of_settled [DecidableEq N] {goal : N} (built : g.Automaton start table)
    (distinct : g.Distinct) (single : table.Single) (infixed : table.Infixed g)
    {D : Derivation τ κ T N} (derived : g.IsDerivation D)
    (settled : D.Settled (table.Decides false) (table.Decides true)) {key : κ}
    (root : D.root = .nonterminal key)
    (silent : ∀ child ∈ D.children, Derivation.Silent goal child)
    (expected : ∃ item ∈ g.startSet start, g.expected? item = some (.nonterminal key)) :
    ∃ state, table.ReadsIn goal D.size ⟨[], D.tokens⟩ ⟨[(D, state)], []⟩ := by
  obtain ⟨item, member, expected⟩ := expected
  rw [← root] at expected
  refine exists_readsIn_of_guide built distinct single (guide_guarded built infixed) derived silent
    member expected ⟨derived, settled, ?_, ?_, nofun⟩
  · intro s _ r _ leaf
    cases root.symm.trans leaf
  · intro s isState place rule t inside
    obtain ⟨s', isState', items⟩ := built.first
    obtain rfl := Option.some.inj (isState.symm.trans isState')
    rw [items] at inside
    exact absurd (g.cursor_of_mem_startSet inside) (Nat.succ_ne_zero 1)

end Table

end ShiftReduce
