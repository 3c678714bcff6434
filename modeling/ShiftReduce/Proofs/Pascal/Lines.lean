/-
  Where the offsets of a source are.

  The elements with a property stand in front of those without it; bisection finds where
  the first part ends (`partitionPoint_append`). For the offset behind a text, the lines
  that have started are those of the text, one more than its line feeds, and the last of
  them starts behind the last line feed. So the position of the offset is what the text
  alone comes to (`positionAt_lineStarts`).
-/
import ShiftReduce.Pascal.Lines
import ShiftReduce.Proofs.Positions

namespace ShiftReduce

/-! ### Bisection -/

section Bisection

variable {α : Type} {holds : α → Bool} {xs : Array α}

/-- Between the bounds of a bisection is the place where the property stops to hold. -/
theorem bisect_eq {point low high : Nat} (front : ∀ place < point, (xs[place]?).any holds = true)
    (back : ∀ place, point ≤ place → (xs[place]?).any holds = false) (isLow : low ≤ point)
    (isHigh : point ≤ high) : bisect holds xs low high = point := by
  fun_induction bisect holds xs low high with
  | case1 low high less middle isIn ih =>
    -- the middle has the property, so the place is behind it
    refine ih (Nat.lt_of_not_le fun beyond => ?_) isHigh
    rw [back middle beyond] at isIn
    cases isIn
  | case2 low high less middle notIn ih =>
    exact ih isLow (Nat.le_of_not_lt fun within => notIn (front middle within))
  | case3 low high done => omega

theorem partitionPoint_append {front back : List α} (inFront : ∀ x ∈ front, holds x = true)
    (behind : ∀ x ∈ back, holds x = false) :
    partitionPoint holds (front ++ back).toArray = front.length := by
  refine bisect_eq (fun place within => ?_) (fun place beyond => ?_) (Nat.zero_le _) ?_
  · rw [List.getElem?_toArray, List.getElem?_append_left within, List.getElem?_eq_getElem within]
    exact inFront _ (List.getElem_mem within)
  · rw [List.getElem?_toArray, List.getElem?_append_right beyond]
    cases found : back[place - front.length]? with
    | none => rfl
    | some x => exact behind x (List.mem_of_getElem? found)
  · rw [List.size_toArray, List.length_append]
    exact Nat.le_add_right _ _

end Bisection

namespace Pascal

open Position
open String (utf8Len)

variable {before rest text : List Char}

/-! ### Offsets -/

theorem byteLength_cons (c : Char) (text : List Char) :
    byteLength (c :: text) = c.utf8Size + byteLength text := rfl

theorem byteLength_eq (text : List Char) : byteLength text = utf8Len text := by
  induction text with
  | nil => rfl
  | cons c text ih =>
    rw [utf8Len, ← ih, byteLength_cons, Nat.add_comm]

theorem byteLength_append (front back : List Char) :
    byteLength (front ++ back) = byteLength front + byteLength back := by
  induction front with
  | nil => exact (Nat.zero_add _).symm
  | cons c front ih => rw [List.cons_append, byteLength_cons, byteLength_cons, ih, Nat.add_assoc]

/-- A line feed is at an offset of the text. -/
theorem bounds_of_mem_lineFeedsFrom {offset feed : Nat}
    (isFeed : feed ∈ lineFeedsFrom offset text) :
    offset ≤ feed ∧ feed < offset + byteLength text := by
  induction text generalizing offset with
  | nil => cases isFeed
  | cons c text ih =>
    have size := c.utf8Size_pos
    rw [byteLength_cons]
    rw [lineFeedsFrom] at isFeed
    split_ifs at isFeed with newline
    · rcases List.mem_cons.mp isFeed with rfl | later
      · omega
      · have := ih later
        omega
    · have := ih isFeed
      omega

theorem lineFeedsFrom_append (offset : Nat) (front back : List Char) :
    lineFeedsFrom offset (front ++ back) =
      lineFeedsFrom offset front ++ lineFeedsFrom (offset + byteLength front) back := by
  induction front generalizing offset with
  | nil => rfl
  | cons c front ih =>
    rw [List.cons_append, lineFeedsFrom, lineFeedsFrom, ih, byteLength_cons, Nat.add_assoc]
    split_ifs <;> rfl

theorem length_lineFeedsFrom (offset : Nat) (text : List Char) :
    (lineFeedsFrom offset text).length = text.count '\n' := by
  induction text generalizing offset with
  | nil => rfl
  | cons c text ih =>
    rw [lineFeedsFrom, List.count_cons]
    split_ifs with newline same same <;> simp_all

/-! ### Lines -/

/-- The lines that start within a text or right behind it. -/
def startedLines (text : List Char) : List Nat := 0 :: (lineFeedsFrom 0 text).map (· + 1)

/-- The line that a text ends in starts behind its last line feed. -/
theorem getLast?_startedLines (text : List Char) : ∃ start,
    (startedLines text).getLast? = some start ∧
      start + byteLength (text.rtakeWhile (· ≠ '\n')) = byteLength text := by
  induction text using List.reverseRecOn with
  | nil => exact ⟨0, rfl, rfl⟩
  | append_singleton text c ih =>
    obtain ⟨start, isLast, ends⟩ := ih
    unfold startedLines at isLast ⊢
    rw [lineFeedsFrom_append, List.map_append, ← List.cons_append, byteLength_append]
    by_cases newline : c = '\n'
    · subst newline
      refine ⟨byteLength text + 1, ?_, ?_⟩
      · simp only [lineFeedsFrom, if_true, List.map_singleton, Nat.zero_add,
          List.getLast?_concat]
      · rw [List.rtakeWhile_concat_neg _ _ _ (by simp)]
        rfl
    · refine ⟨start, ?_, ?_⟩
      · simpa [lineFeedsFrom, newline] using isLast
      · rw [List.rtakeWhile_concat_pos _ _ _ (by simpa using newline), byteLength_append]
        omega

/-- The offset behind a text has the position that the text comes to. -/
theorem positionAt_lineStarts (before rest : List Char) :
    positionAt (lineStarts (before ++ rest)) (byteLength before) = place before := by
  have starts : lineStarts (before ++ rest) = (startedLines before ++
      (lineFeedsFrom (byteLength before) rest).map (· + 1)).toArray := by
    rw [lineStarts, lineFeedsFrom_append, Nat.zero_add, List.map_append]
    rfl
  have count : (startedLines before).length = before.count '\n' + 1 := by
    rw [startedLines, List.length_cons, List.length_map, length_lineFeedsFrom]
  -- the lines of the text have started, and the others start behind the offset
  have point : partitionPoint (fun start => start ≤ byteLength before)
      (lineStarts (before ++ rest)) = before.count '\n' + 1 := by
    rw [starts, ← count]
    refine partitionPoint_append (fun start isIn => ?_) (fun start isIn => ?_)
    · rcases List.mem_cons.mp isIn with rfl | isFeed
      · exact decide_eq_true (Nat.zero_le _)
      · obtain ⟨feed, within, rfl⟩ := List.mem_map.mp isFeed
        have := (bounds_of_mem_lineFeedsFrom within).2
        exact decide_eq_true (by omega)
    · obtain ⟨feed, isFeed, rfl⟩ := List.mem_map.mp isIn
      have := (bounds_of_mem_lineFeedsFrom isFeed).1
      exact decide_eq_false (by omega)
  obtain ⟨start, isLast, ends⟩ := getLast?_startedLines before
  have found : (lineStarts (before ++ rest))[before.count '\n']? = some start := by
    rw [starts, List.getElem?_toArray, List.getElem?_append_left (by omega), ← isLast,
      List.getLast?_eq_getElem?, count, Nat.add_sub_cancel]
  unfold positionAt place
  dsimp only
  rw [point, Nat.add_sub_cancel, found, Option.getD_some, ← byteLength_eq, ← ends,
    Nat.add_sub_cancel_left]

end Pascal

end ShiftReduce
