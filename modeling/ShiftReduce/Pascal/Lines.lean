/-
  The lines of a source, and the positions in them.

  The scanner knows a place of the source by its offset, which is the number of
  bytes before it. The offsets at which lines start are listed once; the line of
  an offset is then found by bisection, and its column is how far the offset is
  from the start of that line.
-/
import ShiftReduce.Span

namespace ShiftReduce

/-! ### Bisection -/

/-- The first place from `low` on, but not beyond `high`, that has an element
without a property. The elements that have it are those in front. -/
def bisect {α : Type} (holds : α → Bool) (xs : Array α) (low high : Nat) : Nat :=
  if low < high then
    let middle := low + (high - low) / 2
    if (xs[middle]?).any holds then bisect holds xs (middle + 1) high
    else bisect holds xs low middle
  else low
termination_by high - low

/-- How many elements are in front of the first one without a property. -/
def partitionPoint {α : Type} (holds : α → Bool) (xs : Array α) : Nat := bisect holds xs 0 xs.size

namespace Pascal

/-! ### Offsets and lines -/

/-- The number of bytes of a text. -/
def byteLength : List Char → Nat
  | [] => 0
  | c :: rest => c.utf8Size + byteLength rest

/-- The offsets of the line feeds in a text that starts at an offset. -/
def lineFeedsFrom (offset : Nat) : List Char → List Nat
  | [] => []
  | c :: rest =>
    let behind := lineFeedsFrom (offset + c.utf8Size) rest
    if c = '\n' then offset :: behind else behind

/-- The offsets at which the lines of a source start: the source itself, and what
is behind each line feed. -/
def lineStarts (source : List Char) : Array Nat :=
  (0 :: (lineFeedsFrom 0 source).map (· + 1)).toArray

/-- The line and the column of an offset, by the offsets at which lines start. -/
def positionAt (starts : Array Nat) (offset : Nat) : Position :=
  let line := partitionPoint (fun start => start ≤ offset) starts - 1
  ⟨line, offset - (starts[line]?).getD 0⟩

/-- The span from one offset to another. -/
def spanAt (starts : Array Nat) (first stop : Nat) : Span :=
  ⟨positionAt starts first, positionAt starts stop⟩

end Pascal

end ShiftReduce
