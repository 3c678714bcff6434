/-
  FIRST and FOLLOW sets.

  The FIRST set of a nonterminal has the terminals that begin the texts derived from
  it, and the empty text if that is one of them. The FOLLOW set has the terminals that
  stand right behind it in some text on the way from a nonterminal to its texts. Both
  are sets of symbols that passes over the rules enlarge until one adds nothing.

  The end of the input is in no set. A parser treats it apart.
-/
import ShiftReduce.Grammar
import ShiftReduce.Lookahead.Saturation

namespace ShiftReduce

variable {τ κ T N : Type} [Ordered τ] [Ordered κ]

/-- A set of terminals, in which the empty text may be too. -/
abbrev SymbolSet (τ κ : Type) [Ordered τ] [Ordered κ] := SortedSet (Symbol τ κ)

/-- The terminals of a set that is listed in symbol order. -/
theorem Symbol.pairwise_terminals {l : List (Symbol τ κ)}
    (sorted : l.Pairwise fun a b => compare a b = .lt) :
    (l.filterMap Symbol.terminal?).Pairwise fun s t => compare s t = .lt := by
  refine sorted.filterMap _ fun a b before s isFirst t isSecond => ?_
  cases a <;> cases isFirst
  cases b <;> cases isSecond
  exact before

namespace SymbolSet

/-- Adds the members of another set, but for the empty text. -/
def absorb (set other : SymbolSet τ κ) : SymbolSet τ κ :=
  other.toList.foldl (fun set symbol => if symbol.isEpsilon then set else set.insert symbol) set

/-- The terminals of a set. -/
def terminals (set : SymbolSet τ κ) : SortedSet τ :=
  ⟨set.toList.filterMap Symbol.terminal?, Symbol.pairwise_terminals set.sorted⟩

variable [DecidableEq τ] [DecidableEq κ]

/-- Whether the empty text is a member. -/
def nullable (set : SymbolSet τ κ) : Bool := decide (.epsilon ∈ set)

/-- Adds what a sequence of symbols can begin with, given the FIRST sets of the
nonterminals: the symbols are taken from the left for as long as they can be empty. The
flag says that all of them can. -/
def scan (first : Family κ (SymbolSet τ κ)) :
    List (Symbol τ κ) → SymbolSet τ κ → SymbolSet τ κ × Bool
  | [], found => (found, true)
  | .terminal t :: _, found => (found.insert (.terminal t), false)
  | .nonterminal key :: rest, found =>
    match first.get? key with
    | none => (found, false)
    | some set =>
      if set.nullable then scan first rest (found.absorb set) else (found.absorb set, false)
  | .epsilon :: rest, found => scan first rest found

/-- Adds to the FOLLOW set of every nonterminal in a rule body what the rest of the body
can begin with and, where the rest can be empty, the FOLLOW set of `key`. The
occurrences are taken from the left. -/
def absorbBody (first : Family κ (SymbolSet τ κ)) (key : κ) :
    List (Symbol τ κ) → Family κ (SymbolSet τ κ) → Family κ (SymbolSet τ κ)
  | [], follow => follow
  | .nonterminal inner :: rest, follow =>
    let scanned := scan first rest ∅
    let found :=
      if scanned.2 then scanned.1.absorb ((follow.get? key).getD ∅) else scanned.1
    absorbBody first key rest (follow.modify inner (·.absorb found))
  | _ :: rest, follow => absorbBody first key rest follow

end SymbolSet

/-- The FIRST and FOLLOW sets of all nonterminals. -/
structure SymbolSets (τ κ : Type) [Ordered τ] [Ordered κ] where
  first : Family κ (SymbolSet τ κ)
  follow : Family κ (SymbolSet τ κ)

/-- The terminals that can come after each nonterminal. -/
abbrev FollowSets (τ κ : Type) [Ordered τ] := Family κ (SortedSet τ)

/-- The terminals of the FOLLOW sets. -/
def SymbolSets.followers (sets : SymbolSets τ κ) : FollowSets τ κ :=
  sets.follow.map SymbolSet.terminals

variable [DecidableEq τ] [DecidableEq κ]

/-- Whether a nonterminal can stand for the empty text. -/
def SymbolSets.isNullable (sets : SymbolSets τ κ) (key : κ) : Bool :=
  ((sets.first.get? key).map SymbolSet.nullable).getD false

namespace Grammar

/-- Adds to the FIRST set of each rule's key what its body can begin with, rule by rule;
a rule sees what the rules before it have added. -/
def collectFirst (g : Grammar τ κ T N) (first : Family κ (SymbolSet τ κ)) :
    Family κ (SymbolSet τ κ) :=
  g.rules.foldl (fun first rule =>
    let scanned := SymbolSet.scan first rule.body ∅
    let found := if scanned.2 then scanned.1.insert .epsilon else scanned.1
    first.modify rule.key (· ∪ found)) first

/-- Absorbs every rule body, rule by rule; a rule sees what the rules before it have
added. -/
def collectFollow (g : Grammar τ κ T N) (first follow : Family κ (SymbolSet τ κ)) :
    Family κ (SymbolSet τ κ) :=
  g.rules.foldl (fun follow rule => SymbolSet.absorbBody first rule.key rule.body follow) follow

/-- The FIRST sets and the number of passes that settled them. Every pass but the last
adds a terminal or the empty text to some set, which bounds their number. -/
def firstSymbols (g : Grammar τ κ T N) : Family κ (SymbolSet τ κ) × Nat :=
  saturate g.collectFirst (g.keys.length * (g.terminalOccurrences.length + 1) + 1)
    (.const g.keys ∅)

/-- The FOLLOW sets and the number of passes that settled them. -/
def followSymbols (g : Grammar τ κ T N) (first : Family κ (SymbolSet τ κ)) :
    Family κ (SymbolSet τ κ) × Nat :=
  saturate (g.collectFollow first) (g.keys.length * g.terminalOccurrences.length + 1)
    (.const g.keys ∅)

/-- The FIRST and FOLLOW sets of all nonterminals. -/
def symbolSets (g : Grammar τ κ T N) : SymbolSets τ κ :=
  let first := g.firstSymbols.1
  { first := first, follow := (g.followSymbols first).1 }

/-- The terminals that can come after each nonterminal. -/
def followSets (g : Grammar τ κ T N) : FollowSets τ κ := g.symbolSets.followers

end Grammar

end ShiftReduce
