/-
  Where the errors of the scanner point.

  A text that is no token is a character by itself, a string that its line does not close, or a
  comment that is never closed and so goes on to the end of the source (`error_cases`). A message
  shows where it stands by the line that it starts in and by two columns. Within a line these cut
  the text out of the line. Of a comment that goes over the end of a line the second column
  belongs to another line, and the range says nothing (`pinpointed_iff`).
-/
import ShiftReduce.Proofs.Pascal.Layout

namespace ShiftReduce.Pascal

open Computability Position

variable {source text rest : List Char} {c : Char}

/-! ### Texts that are no tokens -/

/-- The comments that are not closed. -/
def openComment : Language Char :=
  {text | (∃ body, text = '\x7b' :: body ∧ '\x7d' ∉ body) ∨
    ∃ body, text = '(' :: '*' :: body ∧ ¬ ['*', ')'] <:+: body}

theorem of_open_braceTail (isOpen : (braceTail rest).2 = false) :
    (braceTail rest).1 = rest ∧ '\x7d' ∉ rest := by
  fun_induction braceTail rest with
  | case1 => exact ⟨rfl, List.not_mem_nil⟩
  | case2 => cases isOpen
  | case3 c rest other tail ih =>
    obtain ⟨all, none⟩ := ih isOpen
    exact ⟨congrArg (c :: ·) all, List.not_mem_cons_of_ne_of_not_mem (Ne.symm other) none⟩

theorem of_open_blockTail (isOpen : (blockTail rest).2 = false) :
    (blockTail rest).1 = rest ∧ ¬ ['*', ')'] <:+: rest := by
  fun_induction blockTail rest with
  | case1 => exact ⟨rfl, by simp⟩
  | case2 => cases isOpen
  | case3 c rest goesOn tail ih =>
    obtain ⟨all, none⟩ := ih isOpen
    refine ⟨congrArg (c :: ·) all, fun isIn => ?_⟩
    rcases List.infix_cons_iff.mp isIn with ⟨more, eq⟩ | isIn
    · obtain ⟨rfl, rfl⟩ := List.cons.inj eq
      exact goesOn more rfl rfl
    · exact none isIn

/-- A string does not go over the end of its line, closed or not. -/
theorem newline_notMem_stringTail (rest : List Char) : '\n' ∉ (stringTail rest).1 := by
  fun_induction stringTail rest with
  | case1 => exact List.not_mem_nil
  | case2 rest tail ih => simpa using ih
  | case3 => decide
  | case4 => exact List.not_mem_nil
  | case5 c rest _ _ notNewline tail ih =>
    exact List.not_mem_cons_of_ne_of_not_mem (Ne.symm notNewline) ih

/-- A piece is an error because its end was not found. -/
theorem of_closed_eq_error {kind : PieceKind} {opening : List Char} {tail : List Char × Bool}
    (isPiece : closed kind opening tail = ⟨.error, text⟩) (reads : kind ≠ .error) :
    tail.2 = false ∧ text = opening ++ tail.1 := by
  unfold closed at isPiece
  split_ifs at isPiece with closes
  · cases isPiece
    exact absurd rfl reads
  · cases isPiece
    exact ⟨Bool.eq_false_iff.mpr closes, rfl⟩

/-- A text that is no token stays within its line, or it is a comment that is not closed, and then
it is all that is left of the source. -/
theorem error_cases (isPiece : piece c rest = ⟨.error, text⟩) :
    '\n' ∉ text ∨ (text = c :: rest ∧ text ∈ openComment) := by
  unfold piece at isPiece
  split_ifs at isPiece with blank letter digit brace quote line block
  · cases isPiece
  · cases isPiece
  · unfold number at isPiece
    dsimp only at isPiece
    split_ifs at isPiece <;> cases isPiece
  · obtain ⟨isOpen, rfl⟩ := of_closed_eq_error isPiece nofun
    obtain ⟨all, none⟩ := of_open_braceTail isOpen
    rw [all]
    exact .inr ⟨rfl, .inl ⟨rest, congrArg (· :: rest) brace, none⟩⟩
  · obtain ⟨-, rfl⟩ := of_closed_eq_error isPiece nofun
    rw [quote]
    exact .inl (List.not_mem_cons_of_ne_of_not_mem (by decide) (newline_notMem_stringTail rest))
  · cases isPiece
  · obtain ⟨rfl, isHead⟩ : c = '(' ∧ rest.head? = some '*' := by simpa using block
    obtain ⟨more, rfl⟩ := List.head?_eq_some_iff.mp isHead
    obtain ⟨isOpen, rfl⟩ := of_closed_eq_error isPiece nofun
    obtain ⟨all, none⟩ := of_open_blockTail isOpen
    rw [all]
    exact .inr ⟨rfl, .inr ⟨more, rfl, none⟩⟩
  · -- a character by itself, and a line feed is white space
    have other : '\n' ≠ c := fun newline => by
      rw [← newline] at blank
      exact blank (by decide)
    unfold mark at isPiece
    split at isPiece
    · cases isPiece
    · split at isPiece
      · cases isPiece
      · cases isPiece
        exact .inl (List.not_mem_cons_of_ne_of_not_mem other List.not_mem_nil)

/-! ### Ranges in messages -/

/-- The columns that a message shows are in order, and they cut the text of the error out of the
line that it shows. -/
structure LexError.Pinpointed (error : LexError) (source : String) : Prop where
  forward : error.span.start.column < error.span.stop.column
  quoted : ∃ line, (source.toList.splitOn '\n')[error.span.start.line]? = some line ∧
    (String.ofList line).toUTF8.extract error.span.start.column error.span.stop.column =
      error.text.toUTF8

variable {before behind : List Char} {error : LexError}

theorem Piece.of_lexeme?_error {start : Position} {piece : Piece}
    (isError : piece.lexeme? start = some (.error error)) :
    piece = ⟨.error, piece.text⟩ ∧
      error = ⟨String.ofList piece.text, ⟨start, start.after piece.text⟩⟩ := by
  obtain ⟨kind, text⟩ := piece
  unfold Piece.lexeme? Piece.itemOver? at isError
  dsimp only at isError
  split at isError <;> cases isError
  exact ⟨rfl, rfl⟩

/-- The range of an error within a line cuts it out of the line. -/
theorem LexError.pinpointed_of_notMem {source : String}
    (isSource : source.toList = before ++ (text ++ behind))
    (stands : error = ⟨String.ofList text, ⟨place before, (place before).after text⟩⟩)
    (isSome : text ≠ []) (within : '\n' ∉ text) : error.Pinpointed source := by
  have bytes : String.utf8Len text ≠ 0 := fun zero => isSome (String.utf8Len_eq_zero.mp zero)
  have goesOn : (text ++ behind).takeWhile (· ≠ '\n') =
      text ++ behind.takeWhile (· ≠ '\n') := by
    refine List.takeWhile_append_of_pos fun c isIn => ?_
    exact decide_eq_true fun newline => within (newline ▸ isIn)
  rw [after_eq_of_notMem _ within] at stands
  subst stands
  refine ⟨?_, _, ?_, extract_line _ text (behind.takeWhile (· ≠ '\n'))⟩
  · show (place before).column < (place before).column + String.utf8Len text
    omega
  · rw [isSource, List.append_assoc, ← goesOn]
    exact getElem?_splitOn_place before (text ++ behind)

/-- The range of an error that goes over the end of a line has fewer bytes than the error. -/
theorem LexError.not_pinpointed_of_mem {source : String}
    (stands : error = ⟨String.ofList text, ⟨place before, (place before).after text⟩⟩)
    (crosses : '\n' ∈ text) : ¬ error.Pinpointed source := by
  subst stands
  rintro ⟨-, line, -, quoted⟩
  have short := (after_lt_of_mem (place before) crosses).2
  have size := congrArg ByteArray.size quoted
  rw [ByteArray.size_extract, size_toUTF8_ofList text] at size
  dsimp only at size
  omega

/-- A scan error is shown with a range that starts in its line and ends at its last column. The
range names the text of the error exactly if that is within one line. It is, unless a comment is
not closed: then the error is all from the opening of the comment to the end of the source, and
the last column belongs to a line further down. -/
theorem pinpointed_iff {source : String} (isIn : .error error ∈ lexemes source) :
    error.message = "unexpected input " ++ Text.quote error.text ++ " at " ++
      s!"{error.span.start.line}:[{error.span.start.column}, {error.span.stop.column})" ∧
    (error.Pinpointed source ↔ '\n' ∉ error.text.toList) ∧
    ('\n' ∈ error.text.toList → error.text.toList ∈ openComment ∧
      error.text.toList <:+ source.toList ∧ error.span.start.line < error.span.stop.line) := by
  rw [lexemes_eq] at isIn
  obtain ⟨before, c, tail, behind, isSource, isText, isLexeme⟩ := exists_piece_of_mem isIn
  obtain ⟨isPiece, stands⟩ := Piece.of_lexeme?_error isLexeme
  rw [isText] at isPiece stands
  have text : error.text.toList = c :: tail := by rw [stands, String.toList_ofList]
  have within : error.Pinpointed source ↔ '\n' ∉ error.text.toList := by
    rw [text]
    refine ⟨fun pinpointed crosses => ?_, ?_⟩
    · exact LexError.not_pinpointed_of_mem stands crosses pinpointed
    · exact LexError.pinpointed_of_notMem isSource stands (List.cons_ne_nil c tail)
  refine ⟨rfl, within, fun crosses => ?_⟩
  rw [text] at crosses ⊢
  obtain ⟨all, isOpen⟩ := (error_cases isPiece).resolve_left fun within => within crosses
  refine ⟨isOpen, ?_, ?_⟩
  · rw [isSource, all]
    exact List.suffix_append _ _
  · rw [stands]
    exact (after_lt_of_mem _ crosses).1

/-- The string is not closed. Its message shows its columns in the second line, in bytes. -/
theorem pinpointed_open_string :
    .error ⟨"'né", ⟨⟨1, 8⟩, ⟨1, 12⟩⟩⟩ ∈ lexemes "begin\n  é := 'né\nend" ∧
    (⟨"'né", ⟨⟨1, 8⟩, ⟨1, 12⟩⟩⟩ : LexError).message =
      "unexpected input \"'né\" at 1:[8, 12)" ∧
    (⟨"'né", ⟨⟨1, 8⟩, ⟨1, 12⟩⟩⟩ : LexError).Pinpointed "begin\n  é := 'né\nend" := by
  have isIn : .error ⟨"'né", ⟨⟨1, 8⟩, ⟨1, 12⟩⟩⟩ ∈ lexemes "begin\n  é := 'né\nend" := by
    decide +kernel
  obtain ⟨message, within, _⟩ := pinpointed_iff isIn
  exact ⟨isIn, by decide +kernel, within.mpr (by decide +kernel)⟩

/-- The comment is not closed and goes over the end of its line, and its message shows a range
that ends before it starts. -/
theorem not_pinpointed_open_comment :
    .error ⟨"\x7b open\n", ⟨⟨0, 8⟩, ⟨1, 0⟩⟩⟩ ∈ lexemes "x := 1; \x7b open\n" ∧
    (⟨"\x7b open\n", ⟨⟨0, 8⟩, ⟨1, 0⟩⟩⟩ : LexError).message =
      "unexpected input \"\x7b open\\n\" at 0:[8, 0)" ∧
    ¬ (⟨"\x7b open\n", ⟨⟨0, 8⟩, ⟨1, 0⟩⟩⟩ : LexError).Pinpointed "x := 1; \x7b open\n" := by
  refine ⟨by decide +kernel, by decide +kernel, fun pinpointed => ?_⟩
  exact absurd pinpointed.forward (by decide)

end ShiftReduce.Pascal
