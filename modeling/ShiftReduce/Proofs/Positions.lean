/-
  Positions as counts.

  A position is kept while a text is read, character by character. What it comes to is known
  from the text alone (`place`): the line counts the line feeds in it, and the column the bytes
  behind the last one. Reading more leads to the position of all that is read (`after_place`),
  and it leads further (`compare_place`), so a text has different positions at different places.
  Read some lines further down, a text leads as many lines further down (`after_down`). The columns
  of a text within a line cut it out of its line (`extract_line`).
-/
import Mathlib.Data.List.DropRight
import Mathlib.Data.String.Basic
import ShiftReduce.Span

namespace ShiftReduce

namespace Position

open String (utf8Len)

/-- The position after a character read at `p`. -/
def next (p : Position) (c : Char) : Position :=
  if c = '\n' then ⟨p.line + 1, 0⟩ else ⟨p.line, p.column + c.utf8Size⟩

/-- The position after a text read from `p`. -/
def after (p : Position) (text : List Char) : Position := text.foldl next p

/-- The position behind a text: how many line feeds it has, and how many bytes come after the
last of them. -/
def place (text : List Char) : Position :=
  ⟨text.count '\n', utf8Len (text.rtakeWhile (· ≠ '\n'))⟩

/-- A character moves the position on as reading it does. -/
theorem place_concat (text : List Char) (c : Char) : place (text ++ [c]) = (place text).next c := by
  unfold place next
  by_cases newline : c = '\n' <;> simp [newline]

/-- Reading on from the position of a text leads to the position of both texts. -/
theorem after_place (before text : List Char) :
    (place before).after text = place (before ++ text) := by
  unfold after
  induction text generalizing before with
  | nil => simp
  | cons c text ih => rw [List.foldl_cons, ← place_concat, ih, List.append_assoc]; rfl

/-! ### Order -/

theorem compare_next (p : Position) (c : Char) : compare p (p.next c) = .lt := by
  show (compare p.line (p.next c).line).then (compare p.column (p.next c).column) = .lt
  unfold next
  split_ifs with newline
  · rw [Nat.compare_eq_lt.mpr (Nat.lt_succ_self p.line)]
    rfl
  · rw [Nat.compare_eq_eq.mpr rfl, Nat.compare_eq_lt.mpr (Nat.lt_add_of_pos_right c.utf8Size_pos)]
    rfl

/-- Reading moves forward. -/
theorem compare_after (p : Position) (text : List Char) (some : text ≠ []) :
    compare p (p.after text) = .lt := by
  obtain ⟨c, rest, rfl⟩ := List.exists_cons_of_ne_nil some
  clear some
  show compare p ((p.next c).after rest) = .lt
  induction rest generalizing p c with
  | nil => exact compare_next p c
  | cons d rest ih => exact Std.TransCmp.lt_trans (compare_next p c) (ih (p.next c) d)

/-- Behind a longer text is a later position. -/
theorem compare_place (before text : List Char) (some : text ≠ []) :
    compare (place before) (place (before ++ text)) = .lt := by
  rw [← after_place]
  exact compare_after _ text some

/-! ### Lines -/

/-- A text within a line moves the column on by its bytes. -/
theorem after_eq_of_notMem (p : Position) {text : List Char} (within : '\n' ∉ text) :
    p.after text = ⟨p.line, p.column + utf8Len text⟩ := by
  induction text generalizing p with
  | nil => rfl
  | cons c text ih =>
    obtain ⟨other, within⟩ := List.ne_and_not_mem_of_not_mem_cons within
    show (p.next c).after text = _
    rw [ih (p.next c) within, next, if_neg (Ne.symm other), utf8Len]
    show (⟨p.line, p.column + c.utf8Size + utf8Len text⟩ : Position) = _
    rw [Nat.add_right_comm, Nat.add_assoc]

/-- A text that goes over the end of a line ends further down, and in a column that is less than
its bytes. -/
theorem after_lt_of_mem (p : Position) {text : List Char} (crosses : '\n' ∈ text) :
    p.line < (p.after text).line ∧ (p.after text).column < utf8Len text := by
  induction text generalizing p with
  | nil => cases crosses
  | cons c text ih =>
    have some := c.utf8Size_pos
    show p.line < ((p.next c).after text).line ∧ ((p.next c).after text).column < utf8Len text + _
    by_cases later : '\n' ∈ text
    · obtain ⟨line, column⟩ := ih (p.next c) later
      have down : p.line ≤ (p.next c).line := by
        unfold next
        split_ifs
        · exact Nat.le_succ _
        · exact Nat.le_refl _
      omega
    · obtain rfl : '\n' = c := (List.mem_cons.mp crosses).resolve_right later
      rw [after_eq_of_notMem _ later]
      show p.line < p.line + 1 ∧ 0 + utf8Len text < utf8Len text + _
      omega

theorem length_splitOn_newline (text : List Char) :
    (text.splitOn '\n').length = text.count '\n' + 1 := by
  induction text with
  | nil => rfl
  | cons c text ih =>
    rw [List.splitOn_cons_eq_if_modifyHead, List.count_cons]
    split_ifs <;> simp [ih]

theorem getElem?_splitOn_zero (text : List Char) :
    (text.splitOn '\n')[0]? = some (text.takeWhile (· ≠ '\n')) := by
  induction text with
  | nil => rfl
  | cons c text ih =>
    rw [List.splitOn_cons_eq_if_modifyHead]
    by_cases newline : c = '\n'
    · simp [newline]
    · simp [newline, ih]

/-- The line that a text ends in: what the text has of it, and what comes behind the text. -/
theorem getElem?_splitOn_place (before rest : List Char) :
    ((before ++ rest).splitOn '\n')[(place before).line]? =
      some (before.rtakeWhile (· ≠ '\n') ++ rest.takeWhile (· ≠ '\n')) := by
  show ((before ++ rest).splitOn '\n')[before.count '\n']? = _
  induction before using List.reverseRecOn generalizing rest with
  | nil => exact getElem?_splitOn_zero rest
  | append_singleton before c ih =>
    rw [List.append_assoc, List.singleton_append, List.count_append, List.count_singleton]
    by_cases newline : c = '\n'
    · -- the end of a line: the next one starts behind the text
      subst newline
      rw [List.splitOn_append_cons_self, if_pos (beq_self_eq_true _), ← length_splitOn_newline,
        List.getElem?_append_right (Nat.le_refl _), Nat.sub_self, getElem?_splitOn_zero,
        List.rtakeWhile_concat_neg _ _ _ (by simp), List.nil_append]
    · have goesOn : (c :: rest).takeWhile (· ≠ '\n') = c :: rest.takeWhile (· ≠ '\n') :=
        List.takeWhile_cons_of_pos (by simpa using newline)
      rw [if_neg (by simpa using newline), Nat.add_zero, ih, goesOn,
        List.rtakeWhile_concat_pos _ _ _ (by simpa using newline), List.append_assoc,
        List.singleton_append]

theorem size_toUTF8_ofList (text : List Char) : (String.ofList text).toUTF8.size = utf8Len text :=
  String.utf8ByteSize_ofList text

/-- The bytes between two columns of a line. -/
theorem extract_line (front text back : List Char) :
    (String.ofList (front ++ text ++ back)).toUTF8.extract (utf8Len front)
      (utf8Len front + utf8Len text) = (String.ofList text).toUTF8 := by
  have parts : (String.ofList (front ++ text ++ back)).toUTF8 =
      (String.ofList front).toUTF8 ++
        ((String.ofList text).toUTF8 ++ (String.ofList back).toUTF8) := by
    rw [List.append_assoc, String.ofList_append, String.ofList_append]
    rfl
  have cut (a b c : ByteArray) : (a ++ (b ++ c)).extract a.size (a.size + b.size) = b := by
    have behind := @ByteArray.extract_append_size_add a (b ++ c) 0 b.size
    rw [Nat.add_zero, ByteArray.extract_append_eq_left rfl] at behind
    exact behind
  rw [parts, ← size_toUTF8_ofList front, ← size_toUTF8_ofList text, cut]

/-! ### Lines further down -/

/-- The position so many lines further down. -/
def down (lines : Nat) (p : Position) : Position := ⟨p.line + lines, p.column⟩

theorem next_down (lines : Nat) (p : Position) (c : Char) :
    (p.down lines).next c = (p.next c).down lines := by
  unfold next down
  split_ifs
  · rw [Nat.add_right_comm]
  · rfl

/-- Reading leads further down from further down. -/
theorem after_down (lines : Nat) (p : Position) (text : List Char) :
    (p.down lines).after text = (p.after text).down lines := by
  unfold after
  induction text generalizing p with
  | nil => rfl
  | cons c text ih => rw [List.foldl_cons, List.foldl_cons, next_down, ih]

end Position

/-- The span so many lines further down. -/
def Span.down (lines : Nat) (span : Span) : Span := ⟨span.start.down lines, span.stop.down lines⟩

end ShiftReduce
