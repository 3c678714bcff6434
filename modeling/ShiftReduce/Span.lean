/-
  Positions and ranges in a source text.

  Lines and columns count from zero; a column counts the bytes since the last
  line break.  A span holds its start and its end, the end excluded.
-/

namespace ShiftReduce

/-- A line and a column. -/
structure Position where
  line : Nat
  column : Nat
deriving DecidableEq, Inhabited, Repr

namespace Position

/-- Reading order: by line, then by column. -/
instance : Ord Position := ⟨compareLex (compareOn line) (compareOn column)⟩

instance : Std.TransOrd Position :=
  inferInstanceAs (Std.TransCmp (compareLex (compareOn line) (compareOn column)))

instance : Std.LawfulEqOrd Position where
  compare_self := Std.ReflCmp.compare_self
  eq_of_compare {a b} h := by
    have h : (compare a.line b.line).then (compare a.column b.column) = .eq := h
    obtain ⟨lines, columns⟩ := Ordering.then_eq_eq.mp h
    cases a; cases b
    simp_all

/-- The earlier of two positions. -/
def earlier (p q : Position) : Position := if compare p q = .gt then q else p

/-- The later of two positions. -/
def later (p q : Position) : Position := if compare p q = .gt then p else q

end Position

/-- A range of the source, from `start` up to and without `stop`. -/
structure Span where
  start : Position
  stop : Position
deriving DecidableEq, Inhabited, Repr

namespace Span

/-- Spans are ordered by their start, then by their end. -/
instance : Ord Span := ⟨compareLex (compareOn start) (compareOn stop)⟩

/-- The smallest span that covers both. -/
def merge (s t : Span) : Span := ⟨s.start.earlier t.start, s.stop.later t.stop⟩

/-- Whether the span covers nothing. -/
def isEmpty (s : Span) : Bool := s.start = s.stop

/-- A span within one line, as messages show it: the line and the columns,
the end excluded. -/
def text (s : Span) : String :=
  s!"{s.start.line}:[{s.start.column}, {s.stop.column})"

end Span

/-- What the parser asks of a token: the text to quote in a message and the
place to point at.  Whether a terminal accepts a token is the terminal's own
business. -/
class Token (T : Type) where
  text : T → String
  span : T → Span

end ShiftReduce
