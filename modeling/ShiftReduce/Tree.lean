/-
  Syntax trees: leaves hold the tokens that were read, branches hold the kind
  of node that a rule builds.

  A branch may be empty, so a tree need not hold a token: the first and the
  last token look past empty branches (`Tree.firstToken?`, `Tree.lastToken?`)
  and a tree without tokens has no span.  The layout writes one node a line,
  indented by depth (`Tree.layout`).
-/
import ShiftReduce.Named
import ShiftReduce.Span

namespace ShiftReduce

/-- A syntax tree over tokens `T` and node kinds `N`. -/
inductive Tree (T N : Type) where
  | leaf (token : T)
  | branch (kind : N) (children : List (Tree T N))

namespace Tree

variable {T N : Type}

/-! ### Parts -/

/-- The kind of a branch. -/
def kind? : Tree T N → Option N
  | leaf _ => none
  | branch kind _ => some kind

/-- The token of a leaf. -/
def token? : Tree T N → Option T
  | leaf token => some token
  | branch _ _ => none

/-- The nodes right below, left to right. -/
def children : Tree T N → List (Tree T N)
  | leaf _ => []
  | branch _ children => children

/-! ### Equality -/

mutual

/-- Whether two trees have the same shape, kinds and tokens. -/
def same [DecidableEq T] [DecidableEq N] : Tree T N → Tree T N → Bool
  | leaf a, leaf b => a = b
  | branch k cs, branch l ds => k = l && sameForest cs ds
  | _, _ => false

/-- Whether two lists of trees agree tree by tree. -/
def sameForest [DecidableEq T] [DecidableEq N] : List (Tree T N) → List (Tree T N) → Bool
  | [], [] => true
  | c :: cs, d :: ds => same c d && sameForest cs ds
  | _, _ => false

end

mutual

theorem same_iff [DecidableEq T] [DecidableEq N] : (s t : Tree T N) → (same s t = true ↔ s = t)
  | leaf a, leaf b => by simp [same]
  | branch k cs, branch l ds => by simp [same, sameForest_iff cs ds]
  | leaf _, branch _ _ => by simp [same]
  | branch _ _, leaf _ => by simp [same]

theorem sameForest_iff [DecidableEq T] [DecidableEq N] :
    (cs ds : List (Tree T N)) → (sameForest cs ds = true ↔ cs = ds)
  | [], [] => by simp [sameForest]
  | c :: cs, d :: ds => by simp [sameForest, same_iff c d, sameForest_iff cs ds]
  | [], _ :: _ => by simp [sameForest]
  | _ :: _, [] => by simp [sameForest]

end

instance [DecidableEq T] [DecidableEq N] : DecidableEq (Tree T N) := fun s t =>
  decidable_of_iff (same s t = true) (same_iff s t)

/-! ### Tokens -/

mutual

/-- The tokens at the leaves, left to right. -/
def leaves : Tree T N → List T
  | leaf token => [token]
  | branch _ children => forestLeaves children

/-- The tokens at the leaves of several trees, left to right. -/
def forestLeaves : List (Tree T N) → List T
  | [] => []
  | tree :: rest => leaves tree ++ forestLeaves rest

end

mutual

/-- The leftmost token. -/
def firstToken? : Tree T N → Option T
  | leaf token => some token
  | branch _ children => firstTokenIn? children

/-- The leftmost token of several trees. -/
def firstTokenIn? : List (Tree T N) → Option T
  | [] => none
  | tree :: rest => (firstToken? tree).or (firstTokenIn? rest)

end

mutual

/-- The rightmost token. -/
def lastToken? : Tree T N → Option T
  | leaf token => some token
  | branch _ children => lastTokenIn? children

/-- The rightmost token of several trees. -/
def lastTokenIn? : List (Tree T N) → Option T
  | [] => none
  | tree :: rest => (lastTokenIn? rest).or (lastToken? tree)

end

mutual

/-- The number of nodes, leaves and branches alike. -/
def size : Tree T N → Nat
  | leaf _ => 1
  | branch _ children => 1 + forestSize children

/-- The number of nodes of several trees. -/
def forestSize : List (Tree T N) → Nat
  | [] => 0
  | tree :: rest => size tree + forestSize rest

end

/-- The source range from the first token to the last, if there is one. -/
def span? [Token T] (tree : Tree T N) : Option Span := do
  let first ← tree.firstToken?
  let last ← tree.lastToken?
  return (Token.span first).merge (Token.span last)

/-! ### Layout -/

mutual

/-- The nodes in reading order, each with its depth below `depth` and its
label: the quoted text of a token or the literal of a kind. -/
def labels [Token T] [Named N] (depth : Nat) : Tree T N → List (Nat × String)
  | leaf token => [(depth, Text.quote (Token.text token))]
  | branch kind children => (depth, Named.literal kind) :: forestLabels (depth + 1) children

/-- The labels of several trees side by side. -/
def forestLabels [Token T] [Named N] (depth : Nat) : List (Tree T N) → List (Nat × String)
  | [] => []
  | tree :: rest => labels depth tree ++ forestLabels depth rest

end

/-- One line of a layout: two spaces for every level, then the label. -/
def layoutLine (depth : Nat) (label : String) : String :=
  String.ofList (List.replicate (2 * depth) ' ') ++ label ++ "\n"

/-- The tree as text, one node a line. -/
def layout [Token T] [Named N] (tree : Tree T N) : String :=
  String.join ((tree.labels 0).map fun entry => layoutLine entry.1 entry.2)

end Tree

end ShiftReduce
