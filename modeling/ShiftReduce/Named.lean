/-
  Names for the parameters of a grammar: nonterminal keys and node kinds are
  any types that can be written down.
-/
import ShiftReduce.Text.Quoted

namespace ShiftReduce

/-- A type whose values have a name to be read and a literal form to be told
apart from other text.  A name that is text itself has its quoted form as its
literal; the name of an enumerated value is its own literal. -/
class Named (α : Type) where
  name : α → String
  literal : α → String

instance : Named String := ⟨id, Text.quote⟩

end ShiftReduce
