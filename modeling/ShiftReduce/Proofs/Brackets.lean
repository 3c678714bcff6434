/-
  Balanced brackets: a small grammar for examples.

  A text is a list of groups, and a group is a list in brackets. A list may be
  empty and is continued on the right, so its key is nullable and left recursive.
-/
import ShiftReduce.Grammar

namespace ShiftReduce.Brackets

/-- Brackets, which are terminals and tokens alike. -/
inductive Mark where
  | opening | closing
deriving DecidableEq, Repr

instance : Ordered Mark :=
  .ofRank Mark.ctorIdx fun a b h => by cases a <;> cases b <;> first | rfl | cases h

/-- The spelling of a bracket. -/
def Mark.spelling : Mark → String
  | opening => "("
  | closing => ")"

instance : Token Mark := ⟨Mark.spelling, fun _ => default⟩

/-- The parts of a balanced text: it is a list of groups, and a group is a list
in brackets. -/
inductive Part where
  | start | text | list | group
deriving DecidableEq, Repr

instance : Ordered Part :=
  .ofRank Part.ctorIdx fun a b h => by cases a <;> cases b <;> first | rfl | cases h

/-- The name of a part. -/
def Part.name : Part → String
  | start => "Start"
  | text => "Text"
  | list => "List"
  | group => "Group"

instance : Named Part := ⟨Part.name, Part.name⟩

/-- A rule that builds branches of the kind of its key. -/
def rule (key : Part) (parts : List (BodyPart Mark Part)) : Rule Mark Part Mark Part where
  key := key
  kind := key
  parts := parts

/-- The grammar of balanced brackets. -/
def grammar : Grammar Mark Part Mark Part where
  alphabet mark := { name := mark.spelling, accepts := fun token => token = mark }
  rules :=
    [rule .start [.nonterminal .text], rule .text [.nonterminal .list], rule .list [.epsilon],
      rule .list [.nonterminal .list, .nonterminal .group],
      rule .group [.terminal .opening, .nonterminal .list, .terminal .closing]]
  rules_ne_nil := List.cons_ne_nil _ _
  defined := defined_of_undefinedUse? rfl

end ShiftReduce.Brackets
