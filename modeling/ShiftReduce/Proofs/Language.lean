/-
  The language of a grammar.

  A grammar is a context-free grammar, with the keys for nonterminals and the
  bodies, empty texts left out, for what they are rewritten to
  (`Grammar.contextFree`). A list of tokens has a derivation if and only if the
  terminals that accept the tokens, one for one, spell a word of its language
  (`Grammar.exists_isDerivation_iff`).
-/
import Mathlib.Computability.ContextFreeGrammar
import ShiftReduce.Proofs.Derivation

/-- The symbols of sentential forms. -/
abbrev ContextFreeGrammar.Letter (T N : Type) := Symbol T N

namespace ShiftReduce

open ContextFreeGrammar (Letter)

variable {τ κ T N : Type}

/-! ### Letters -/

/-- The symbol as a letter of a sentential form; the empty text is none. -/
def Symbol.letter? : Symbol τ κ → Option (Letter τ κ)
  | .terminal t => some (.terminal t)
  | .nonterminal key => some (.nonterminal key)
  | .epsilon => none

/-- The symbol that a letter stands for. -/
def Symbol.ofLetter : Letter τ κ → Symbol τ κ
  | .terminal t => .terminal t
  | .nonterminal key => .nonterminal key

theorem Symbol.ofLetter_injective : Function.Injective (Symbol.ofLetter : Letter τ κ → _) := by
  intro a b same
  cases a <;> cases b <;> cases same <;> rfl

/-- The letters of a list of symbols; empty texts are left out. -/
def letters (symbols : List (Symbol τ κ)) : List (Letter τ κ) := symbols.filterMap Symbol.letter?

theorem map_ofLetter_letters (symbols : List (Symbol τ κ)) :
    (letters symbols).map Symbol.ofLetter = symbols.filter fun symbol => !symbol.isEpsilon := by
  induction symbols with
  | nil => rfl
  | cons symbol rest ih =>
    cases symbol with
    | epsilon => exact ih
    | terminal t => exact congrArg (Symbol.terminal t :: ·) ih
    | nonterminal key => exact congrArg (Symbol.nonterminal key :: ·) ih

/-- The rule as one of a context-free grammar. -/
def Rule.contextFree (rule : Rule τ κ T N) : ContextFreeRule τ κ where
  input := rule.key
  output := rule.body.filterMap Symbol.letter?

theorem Rule.map_ofLetter_output (rule : Rule τ κ T N) :
    rule.contextFree.output.map Symbol.ofLetter = rule.symbols := map_ofLetter_letters rule.body

namespace Derivation

/-- The letter at the root. -/
def letter : Derivation τ κ T N → Letter τ κ
  | .leaf entry => .terminal entry.1
  | .branch rule _ => .nonterminal rule.key

theorem ofLetter_letter (D : Derivation τ κ T N) : Symbol.ofLetter D.letter = D.root := by
  cases D <;> rfl

/-- Children spell the symbols of a rule as they spell its letters. -/
theorem map_root_iff {rule : Rule τ κ T N} {children : List (Derivation τ κ T N)} :
    children.map root = rule.symbols ↔ children.map letter = rule.contextFree.output := by
  have roots : children.map root = (children.map letter).map Symbol.ofLetter := by
    rw [List.map_map]
    exact List.map_congr_left fun child _ => (ofLetter_letter child).symm
  rw [roots, ← rule.map_ofLetter_output]
  exact (Symbol.ofLetter_injective.list_map).eq_iff

end Derivation

namespace Grammar

variable {g : Grammar τ κ T N} {start : κ}

/-! ### Forests of letters -/

/-- Tokens that terminals accept, one for one, are a list of leaves. -/
theorem exists_leaves {word : List τ} {tokens : List T}
    (accepted : List.Forall₂ (fun t token => (g.alphabet t).accepts token = true) word tokens) :
    ∃ forest : List (Derivation τ κ T N), (∀ D ∈ forest, g.IsDerivation D) ∧
      forest.map Derivation.letter = word.map .terminal ∧
      forest.flatMap Derivation.tokens = tokens := by
  induction accepted with
  | nil => exact ⟨[], List.forall_mem_nil _, rfl, rfl⟩
  | @cons t token _ _ accepts _ ih =>
    obtain ⟨forest, derived, letters, tokens⟩ := ih
    refine ⟨.leaf (t, token) :: forest, ?_, ?_, ?_⟩
    · rw [List.forall_mem_cons]
      exact ⟨.leaf t token accepts, derived⟩
    · exact congrArg (.terminal t :: ·) letters
    · exact congrArg (token :: ·) tokens

/-- What a rule rewrites can be gathered under it. -/
theorem exists_gathered {rule : Rule τ κ T N} (isRule : rule ∈ g.rules)
    {front back : List (Letter τ κ)} {forest : List (Derivation τ κ T N)}
    (derived : ∀ D ∈ forest, g.IsDerivation D)
    (letters : forest.map Derivation.letter = front ++ rule.contextFree.output ++ back) :
    ∃ forest' : List (Derivation τ κ T N), (∀ D ∈ forest', g.IsDerivation D) ∧
      forest'.map Derivation.letter = front ++ [.nonterminal rule.key] ++ back ∧
      forest'.flatMap Derivation.tokens = forest.flatMap Derivation.tokens := by
  obtain ⟨front', after, rfl, isFront, isBack⟩ := List.map_eq_append_iff.mp letters
  obtain ⟨before, children, rfl, isBefore, spelled⟩ := List.map_eq_append_iff.mp isFront
  simp only [List.forall_mem_append] at derived
  obtain ⟨⟨derivedBefore, below⟩, derivedAfter⟩ := derived
  refine ⟨before ++ [.branch rule children] ++ after, ?_, ?_, ?_⟩
  · simp only [List.forall_mem_append, List.forall_mem_singleton]
    have branch := IsDerivation.branch rule children isRule (Derivation.map_root_iff.mpr spelled)
    exact ⟨⟨derivedBefore, branch below⟩, derivedAfter⟩
  · rw [List.map_append, List.map_append, isBefore, isBack]
    rfl
  · simp only [List.flatMap_append, List.flatMap_singleton, Derivation.tokens_branch]

variable [DecidableEq τ] [DecidableEq κ]

/-- The grammar as a context-free grammar with an initial key. -/
abbrev contextFree (g : Grammar τ κ T N) (start : κ) : ContextFreeGrammar τ where
  NT := κ
  initial := start
  rules := (g.rules.map Rule.contextFree).toFinset

theorem mem_contextFree_rules {rule : ContextFreeRule τ κ} :
    rule ∈ (g.contextFree start).rules ↔ ∃ r ∈ g.rules, r.contextFree = rule := by
  unfold contextFree
  rw [List.mem_toFinset, List.mem_map]

/-! ### Words of derivations -/

/-- Where every tree of a list derives its terminals, the list derives them all. -/
theorem derives_forest {forest : List (Derivation τ κ T N)}
    (derives : ∀ D ∈ forest,
      (g.contextFree start).Derives [D.letter] (D.terminals.map .terminal)) :
    (g.contextFree start).Derives (forest.map Derivation.letter)
      ((forest.flatMap Derivation.terminals).map .terminal) := by
  induction forest with
  | nil => exact Relation.ReflTransGen.refl
  | cons D rest ih =>
    rw [List.forall_mem_cons] at derives
    rw [List.flatMap_cons, List.map_append, List.map_cons]
    -- rewrite the first tree with the others behind it, then these behind its word
    have first := derives.1.append_right (rest.map Derivation.letter)
    exact first.trans ((ih derives.2).append_left (D.terminals.map .terminal))

/-- A derivation derives its terminals from its root. -/
theorem IsDerivation.derives {D : Derivation τ κ T N} (derived : g.IsDerivation D) :
    (g.contextFree start).Derives [D.letter] (D.terminals.map .terminal) := by
  induction derived with
  | leaf t token _ => exact Relation.ReflTransGen.refl
  | branch rule children isRule spelled _ ih =>
    rw [Derivation.terminals_branch]
    refine .head ⟨rule.contextFree, mem_contextFree_rules.mpr ⟨rule, isRule, rfl⟩,
      ContextFreeRule.Rewrites.input_output⟩ ?_
    rw [← Derivation.map_root_iff.mp spelled]
    exact derives_forest ih

/-! ### Derivations of words -/

/-- A sentential form that derives a word is spelled by the roots of derivations
of the tokens. -/
theorem exists_forest {form : List (Letter τ κ)} {word : List τ}
    (derives : (g.contextFree start).Derives form (word.map .terminal)) {tokens : List T}
    (accepted : List.Forall₂ (fun t token => (g.alphabet t).accepts token = true) word tokens) :
    ∃ forest : List (Derivation τ κ T N), (∀ D ∈ forest, g.IsDerivation D) ∧
      forest.map Derivation.letter = form ∧ forest.flatMap Derivation.tokens = tokens := by
  -- from the word backwards: each rewriting step gathers what its rule has written
  induction derives using Relation.ReflTransGen.head_induction_on with
  | refl => exact exists_leaves accepted
  | head step _ ih =>
    obtain ⟨forest, derived, letters, same⟩ := ih
    obtain ⟨r, member, rewrites⟩ := step
    obtain ⟨rule, isRule, rfl⟩ := mem_contextFree_rules.mp member
    obtain ⟨front, back, rfl, rfl⟩ := rewrites.exists_parts
    obtain ⟨forest', derived', letters', same'⟩ := exists_gathered isRule derived letters
    exact ⟨forest', derived', letters', same'.trans same⟩

/-- The tokens that have a derivation are those that a word of the language
accepts, one for one. -/
theorem exists_isDerivation_iff {tokens : List T} :
    (∃ D, g.IsDerivation D ∧ D.root = .nonterminal start ∧ D.tokens = tokens) ↔
      ∃ word ∈ (g.contextFree start).language,
        List.Forall₂ (fun t token => (g.alphabet t).accepts token = true) word tokens := by
  constructor
  · rintro ⟨D, derived, root, rfl⟩
    refine ⟨D.terminals, ?_, ?_⟩
    · have letter : D.letter = .nonterminal start :=
        Symbol.ofLetter_injective ((Derivation.ofLetter_letter D).trans root)
      have derives : (g.contextFree start).Derives [D.letter] (D.terminals.map .terminal) :=
        derived.derives
      rw [letter] at derives
      exact derives
    · unfold Derivation.terminals Derivation.tokens
      rw [List.forall₂_map_left_iff, List.forall₂_map_right_iff, List.forall₂_same]
      exact fun entry member => derived.accepts_of_mem member
  · rintro ⟨word, sentence, accepted⟩
    obtain ⟨forest, derived, letters, rfl⟩ := exists_forest sentence accepted
    obtain ⟨D, rfl, letter⟩ := List.map_eq_singleton_iff.mp letters
    refine ⟨D, derived D List.mem_cons_self, ?_, ?_⟩
    · rw [← Derivation.ofLetter_letter, letter]
      rfl
    · rw [List.flatMap_singleton]

end Grammar

end ShiftReduce
