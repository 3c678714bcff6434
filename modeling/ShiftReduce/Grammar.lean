/-
  Grammars: an alphabet and a non-empty list of production rules in which
  every nonterminal that is used is defined.

  Rules are known by their place in the list.  A nonterminal key is defined
  by every rule that has it on the left; keys are listed in the order in which
  they are first defined.
-/
import ShiftReduce.Rule

namespace ShiftReduce

/-- A grammar over terminals `τ`, nonterminal keys `κ`, tokens `T` and node
kinds `N`. -/
structure Grammar (τ κ T N : Type) where
  alphabet : τ → Terminal T
  rules : List (Rule τ κ T N)
  rules_ne_nil : rules ≠ []
  defined : ∀ rule ∈ rules, ∀ key, Symbol.nonterminal key ∈ rule.body →
    key ∈ rules.map Rule.key

/-- Why a list of rules is no grammar. -/
inductive GrammarError (κ : Type) where
  /-- There is no rule. -/
  | noRules
  /-- The rule at this place uses a key that no rule defines. -/
  | undefinedKey (key : κ) (rule : Nat)
deriving DecidableEq, Repr

variable {τ κ T N : Type}

/-! ### Checking rules -/

/-- The first key in a rule body that is not among the defined keys. -/
def Rule.undefinedKey? [DecidableEq κ] (keys : List κ) (rule : Rule τ κ T N) : Option κ :=
  (rule.body.filterMap Symbol.nonterminal?).find? fun key => key ∉ keys

/-- The first undefined key that a list of rules uses, with the place of the
rule that uses it. -/
def undefinedUse? [DecidableEq κ] (rules : List (Rule τ κ T N)) : Option (κ × Nat) :=
  rules.zipIdx.findSome? fun entry =>
    (entry.1.undefinedKey? (rules.map Rule.key)).map fun key => (key, entry.2)

theorem defined_of_undefinedUse? [DecidableEq κ] {rules : List (Rule τ κ T N)}
    (none : undefinedUse? rules = none) :
    ∀ rule ∈ rules, ∀ key, Symbol.nonterminal key ∈ rule.body → key ∈ rules.map Rule.key := by
  intro rule member key use
  obtain ⟨place, bound, rfl⟩ := List.mem_iff_getElem.mp member
  have clean := List.findSome?_eq_none_iff.mp none (rules[place], place)
    (List.mem_zipIdx_iff_getElem?.mpr (List.getElem?_eq_getElem bound))
  rw [Option.map_eq_none_iff] at clean
  have h := List.find?_eq_none.mp clean key
    (List.mem_filterMap.mpr ⟨_, use, rfl⟩)
  simpa using h

/-- The grammar of an alphabet and a list of rules. A list without rules is
refused, and so is the first use of a key that no rule defines. -/
def Grammar.ofRules [DecidableEq κ] (alphabet : τ → Terminal T) (rules : List (Rule τ κ T N)) :
    Except (GrammarError κ) (Grammar τ κ T N) :=
  if nonempty : rules = [] then .error .noRules
  else
    match use : undefinedUse? rules with
    | some (key, rule) => .error (.undefinedKey key rule)
    | none => .ok ⟨alphabet, rules, nonempty, defined_of_undefinedUse? use⟩

/-- The wording of a refusal. -/
def GrammarError.message [Named κ] (alphabet : τ → Terminal T) (rules : List (Rule τ κ T N)) :
    GrammarError κ → String
  | noRules => "grammar has no production rules"
  | undefinedKey key rule =>
    let use := (rules[rule]?.map (Rule.text alphabet)).getD ""
    "nonterminal " ++ Named.name key ++ " is used in `" ++ use ++ "` but has no production rule"

namespace Grammar

/-! ### Rules and keys -/

/-- The rule at a place. -/
def rule? (g : Grammar τ κ T N) (place : Nat) : Option (Rule τ κ T N) := g.rules[place]?

/-- The places of the rules that define a key, in order. -/
def rulesFor [DecidableEq κ] (g : Grammar τ κ T N) (key : κ) : List Nat :=
  g.rules.zipIdx.filterMap fun entry => if entry.1.key = key then some entry.2 else none

/-- The defined keys, in the order of their first rules. -/
def keys [DecidableEq κ] (g : Grammar τ κ T N) : List κ := (g.rules.map Rule.key).eraseDups

/-- Whether some rule defines a key. -/
def defines [DecidableEq κ] (g : Grammar τ κ T N) (key : κ) : Bool :=
  g.rules.any fun rule => rule.key = key

/-- The key of the first rule that builds nodes of a kind. -/
def keyOfKind? [DecidableEq N] (g : Grammar τ κ T N) (kind : N) : Option κ :=
  (g.rules.find? fun rule => rule.kind = kind).map Rule.key

/-- The terminals of a rule body, one for every occurrence, over all rules. -/
def terminalOccurrences (g : Grammar τ κ T N) : List τ :=
  g.rules.flatMap fun rule => rule.body.filterMap Symbol.terminal?

/-! ### Text -/

/-- The rule at a place in the form `key → body`. -/
def ruleText [Named κ] (g : Grammar τ κ T N) (place : Nat) : String :=
  ((g.rule? place).map (Rule.text g.alphabet)).getD ""

/-- The name of a terminal. -/
def terminalName (g : Grammar τ κ T N) (t : τ) : String := (g.alphabet t).name

/-- The grammar as a record. -/
def record [Named κ] [Named N] (g : Grammar τ κ T N) : String :=
  Text.record "Grammar" [("rules", Text.listing (g.rules.map (Rule.record g.alphabet)))]

end Grammar

end ShiftReduce
