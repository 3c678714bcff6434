/-
  Sentential forms: what a key is rewritten to on the way to its texts.

  A form is a list of letters. One step of rewriting puts the letters of a rule
  in the place of its key (`Grammar.Rewrites`), so it is a step of the
  context-free grammar (`Grammar.produces_contextFree`), whichever its initial
  key. An occurrence of a letter behind such a step was there before it, or it
  is one of the letters of the rule (`exists_of_append_eq`); most inductions on
  rewriting split into these cases.
-/
import ShiftReduce.Proofs.Language

namespace ShiftReduce

open ContextFreeGrammar (Letter)

variable {τ κ T N : Type}

/-! ### Letters of a body -/

@[simp] theorem letters_append (front back : List (Symbol τ κ)) :
    letters (front ++ back) = letters front ++ letters back := List.filterMap_append

@[simp] theorem letters_nonterminal (key : κ) (rest : List (Symbol τ κ)) :
    letters (.nonterminal key :: rest) = .nonterminal key :: letters rest := rfl

theorem letters_map_ofLetter (form : List (Letter τ κ)) :
    letters (form.map Symbol.ofLetter) = form := by
  induction form with
  | nil => rfl
  | cons letter rest ih => cases letter <;> exact congrArg (_ :: ·) ih

theorem Rule.length_letters (rule : Rule τ κ T N) : (letters rule.body).length = rule.length := by
  rw [← List.length_map Symbol.ofLetter, map_ofLetter_letters]
  rfl

theorem mem_of_mem_letters {symbols : List (Symbol τ κ)} {letter : Letter τ κ}
    (member : letter ∈ letters symbols) : Symbol.ofLetter letter ∈ symbols := by
  have listed := List.mem_map_of_mem (f := Symbol.ofLetter) member
  rw [map_ofLetter_letters] at listed
  exact List.mem_of_mem_filter listed

theorem letters_eq_append_cons {symbols : List (Symbol τ κ)} {front back : List (Letter τ κ)}
    {key : κ} (same : letters symbols = front ++ .nonterminal key :: back) :
    ∃ before after, symbols = before ++ .nonterminal key :: after ∧ letters before = front ∧
      letters after = back := by
  obtain ⟨before, rest, rfl, isFront, isRest⟩ := List.filterMap_eq_append_iff.mp same
  obtain ⟨blank, symbol, after, rfl, nothing, isKey, isBack⟩ :=
    List.filterMap_eq_cons_iff.mp isRest
  have isKey : symbol = .nonterminal key := by
    cases symbol with
    | terminal t => cases isKey
    | nonterminal other =>
      injection isKey with same
      injection same with same
      rw [same]
    | epsilon => cases isKey
  refine ⟨before ++ blank, after, by simp [isKey], ?_, isBack⟩
  have none : letters blank = [] := List.filterMap_eq_nil_iff.mpr nothing
  rw [letters_append, none, List.append_nil]
  exact isFront

/-- A letter of three lists in a row is one of the first, of the second or of
the third. -/
theorem exists_of_append_eq {α : Type} {first second third front back : List α} {letter : α}
    (same : first ++ second ++ third = front ++ letter :: back) :
    (∃ rest, first = front ++ letter :: rest ∧ back = rest ++ second ++ third) ∨
      (∃ before after, second = before ++ letter :: after ∧ front = first ++ before ∧
        back = after ++ third) ∨
      ∃ before, third = before ++ letter :: back ∧ front = first ++ second ++ before := by
  rcases List.append_eq_append_iff.mp same with
    ⟨middle, isFront, isThird⟩ | ⟨middle, isFirst, isBack⟩
  · exact .inr (.inr ⟨middle, isThird, isFront⟩)
  · cases middle with
    | nil =>
      refine .inr (.inr ⟨[], isBack.symm, ?_⟩)
      rw [isFirst, List.append_nil, List.append_nil]
    | cons other middle =>
      obtain ⟨rfl, rfl⟩ := List.cons.inj isBack
      rcases List.append_eq_append_iff.mp isFirst with
        ⟨rest, isFront, isSecond⟩ | ⟨rest, rfl, isRest⟩
      · exact .inr (.inl ⟨rest, middle, isSecond, isFront, rfl⟩)
      · cases rest with
        | nil =>
          refine .inr (.inl ⟨[], middle, isRest.symm, ?_, rfl⟩)
          rw [List.append_nil, List.append_nil]
        | cons other rest =>
          obtain ⟨rfl, rfl⟩ := List.cons.inj isRest
          exact .inl ⟨rest, rfl, rfl⟩

namespace Grammar

/-- One step of rewriting: the letters of a rule for its key. -/
def Rewrites (g : Grammar τ κ T N) (before after : List (Letter τ κ)) : Prop :=
  ∃ rule ∈ g.rules, rule.contextFree.Rewrites before after

/-- Any number of steps of rewriting. -/
abbrev Derives (g : Grammar τ κ T N) : List (Letter τ κ) → List (Letter τ κ) → Prop :=
  Relation.ReflTransGen g.Rewrites

variable {g : Grammar τ κ T N} {u v u' v' : List (Letter τ κ)}

theorem Rewrites.exists_parts (step : g.Rewrites u v) :
    ∃ rule ∈ g.rules, ∃ front back, u = front ++ [.nonterminal rule.key] ++ back ∧
      v = front ++ letters rule.body ++ back := by
  obtain ⟨rule, isRule, rewrites⟩ := step
  obtain ⟨front, back, before, after⟩ := rewrites.exists_parts
  exact ⟨rule, isRule, front, back, before, after⟩

/-- A key alone is rewritten to the letters of one of its rules. -/
theorem Rewrites.exists_rule {key : κ} (step : g.Rewrites [.nonterminal key] v) :
    ∃ rule ∈ g.rules, rule.key = key ∧ v = letters rule.body := by
  obtain ⟨rule, isRule, front, back, before, rfl⟩ := step.exists_parts
  have alone := congrArg List.length before
  simp only [List.length_append, List.length_singleton] at alone
  obtain rfl : front = [] := List.eq_nil_of_length_eq_zero (by omega)
  obtain rfl : back = [] := List.eq_nil_of_length_eq_zero (by omega)
  refine ⟨rule, isRule, ?_, by simp⟩
  injection before with same
  injection same with same
  exact same.symm

theorem rewrites_of_mem {rule : Rule τ κ T N} (isRule : rule ∈ g.rules) :
    g.Rewrites [.nonterminal rule.key] (letters rule.body) :=
  ⟨rule, isRule, ContextFreeRule.Rewrites.input_output⟩

theorem Rewrites.append_left (step : g.Rewrites u v) (front : List (Letter τ κ)) :
    g.Rewrites (front ++ u) (front ++ v) := by
  obtain ⟨rule, isRule, rewrites⟩ := step
  exact ⟨rule, isRule, rewrites.append_left front⟩

theorem Rewrites.append_right (step : g.Rewrites u v) (back : List (Letter τ κ)) :
    g.Rewrites (u ++ back) (v ++ back) := by
  obtain ⟨rule, isRule, rewrites⟩ := step
  exact ⟨rule, isRule, rewrites.append_right back⟩

theorem Derives.append (first : g.Derives u u') (second : g.Derives v v') :
    g.Derives (u ++ v) (u' ++ v') := by
  have left : g.Derives (u ++ v) (u' ++ v) :=
    first.lift (· ++ v) fun _ _ step => step.append_right v
  have right : g.Derives (u' ++ v) (u' ++ v') :=
    second.lift (u' ++ ·) fun _ _ step => step.append_left u'
  exact left.trans right

/-- A form of letters that each derive the empty form derives it. -/
theorem derives_nil (empty : ∀ letter ∈ u, g.Derives [letter] []) : g.Derives u [] := by
  induction u with
  | nil => exact .refl
  | cons letter rest ih =>
    rw [List.forall_mem_cons] at empty
    exact empty.1.append (ih empty.2)

/-- The keys in a body are keys of the grammar. -/
theorem mem_keys_of_letters [DecidableEq κ] {rule : Rule τ κ T N} (isRule : rule ∈ g.rules)
    {key : κ} (used : .nonterminal key ∈ letters rule.body) : key ∈ g.keys := by
  unfold keys
  rw [List.mem_eraseDups]
  exact g.defined rule isRule key (mem_of_mem_letters used)

/-- The steps of rewriting are those of the context-free grammar. -/
theorem produces_contextFree [DecidableEq τ] [DecidableEq κ] (g : Grammar τ κ T N) (start : κ) :
    (g.contextFree start).Produces = g.Rewrites := by
  funext before after
  apply propext
  constructor
  · rintro ⟨rule, member, rewrites⟩
    obtain ⟨own, isRule, rfl⟩ := mem_contextFree_rules.mp member
    exact ⟨own, isRule, rewrites⟩
  · rintro ⟨rule, isRule, rewrites⟩
    exact ⟨rule.contextFree, mem_contextFree_rules.mpr ⟨rule, isRule, rfl⟩, rewrites⟩

theorem derives_contextFree [DecidableEq τ] [DecidableEq κ] (g : Grammar τ κ T N) (start : κ) :
    (g.contextFree start).Derives = g.Derives := by
  show Relation.ReflTransGen _ = _
  rw [produces_contextFree]

end Grammar

end ShiftReduce
