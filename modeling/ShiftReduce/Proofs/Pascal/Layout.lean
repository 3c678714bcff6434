/-
  What a source consists of.

  The scanner cuts a source into pieces, none of which is empty and which make up the source
  (`pieces_induction`). A piece that is no token and no error is white space or a comment
  (`mem_blanks_of_piece`). The offsets of a piece have the positions that reading up to it and
  over it comes to (`lexemes_eq`). So a source is its tokens and errors in order, with only
  blanks between them, and each stands where its span says (`lexemes_laidOut`).
-/
import ShiftReduce.Proofs.Pascal.Lines
import ShiftReduce.Proofs.Pascal.Literals

namespace ShiftReduce.Pascal

open Computability Position

variable {source rest : List Char} {c : Char}

/-! ### Comments -/

theorem braceTail_isPrefix (rest : List Char) : (braceTail rest).1 <+: rest := by
  fun_induction braceTail rest with
  | case1 => exact List.nil_prefix
  | case2 => simp_all
  | case3 c rest _ tail ih => exact List.cons_prefix_cons.mpr ⟨rfl, ih⟩

theorem mem_of_braceTail (closes : (braceTail rest).2 = true) :
    (braceTail rest).1 ∈ (one (· ≠ '\x7d'))∗ * exactly ['\x7d'] := by
  fun_induction braceTail rest with
  | case1 => cases closes
  | case2 rest => exact Language.append_mem_mul (a := []) (Language.nil_mem_kstar _) rfl
  | case3 c rest other tail ih =>
    obtain ⟨body, isBody, _, rfl, eq⟩ := Language.mem_mul.mp (ih closes)
    rw [← eq]
    have inside : [c] ∈ one (· ≠ '\x7d') := ⟨c, other, rfl⟩
    exact Language.append_mem_mul (append_mem_kstar inside isBody) rfl

theorem blockTail_isPrefix (rest : List Char) : (blockTail rest).1 <+: rest := by
  fun_induction blockTail rest with
  | case1 => exact List.nil_prefix
  | case2 rest => exact (List.prefix_append_right_inj ['*', ')']).mpr List.nil_prefix
  | case3 c rest _ tail ih => exact List.cons_prefix_cons.mpr ⟨rfl, ih⟩

/-- A block comment ends with the first closing mark. -/
theorem of_blockTail (closes : (blockTail rest).2 = true) :
    ∃ body, (blockTail rest).1 = body ++ ['*', ')'] ∧ ¬ ['*', ')'] <:+: body := by
  fun_induction blockTail rest with
  | case1 => cases closes
  | case2 rest => exact ⟨[], rfl, by simp⟩
  | case3 c rest goesOn tail ih =>
    obtain ⟨body, isTail, inside⟩ := ih closes
    refine ⟨c :: body, by rw [isTail]; rfl, fun isIn => ?_⟩
    rcases List.infix_cons_iff.mp isIn with ⟨more, eq⟩ | isIn
    -- a closing mark right here would have ended the comment
    · obtain ⟨rfl, rfl⟩ := List.cons.inj eq
      obtain ⟨behind, rfl⟩ := isTail ▸ blockTail_isPrefix rest
      exact goesOn _ rfl rfl
    · exact inside isIn

/-! ### Pieces -/

theorem of_closed {kind found : PieceKind} {opening text : List Char} {tail : List Char × Bool}
    (isPiece : closed kind opening tail = ⟨found, text⟩) (reads : found ≠ .error) :
    tail.2 = true ∧ kind = found ∧ text = opening ++ tail.1 := by
  unfold closed at isPiece
  split_ifs at isPiece with closes
  · cases isPiece
    exact ⟨closes, rfl, rfl⟩
  · cases isPiece
    exact absurd rfl reads

/-- A number starts with the digits in front of the source. -/
theorem number_isPrefix (source : List Char) : (number source).text <+: source := by
  unfold number
  dsimp only
  split_ifs
  · exact List.takeWhile_prefix _
  · exact append_isPrefix (List.takeWhile_prefix _) (longest_fraction _).front

theorem exists_tail_of_number (digit : c.isDigit = true) (rest : List Char) :
    ∃ tail, (number (c :: rest)).text = c :: tail ∧ tail <+: rest := by
  have some : (number (c :: rest)).text ≠ [] := by
    unfold number
    rw [List.takeWhile_cons_of_pos digit]
    dsimp only
    split_ifs <;> exact nofun
  obtain ⟨d, tail, isText⟩ := List.exists_cons_of_ne_nil some
  obtain ⟨rfl, front⟩ := List.cons_prefix_cons.mp (isText ▸ number_isPrefix (c :: rest))
  exact ⟨tail, isText, front⟩

/-- The next character goes on an operator if both are one. -/
theorem of_longMark? {d : Char} {operator : Operator}
    (found : rest.head?.bind (fun d => (longOperator? c d).map fun operator => (d, operator)) =
      some (d, operator)) : (∃ more, rest = d :: more) ∧ longOperator? c d = some operator := by
  obtain ⟨_, isHead, found⟩ := Option.bind_eq_some_iff.mp found
  obtain ⟨_, reads, eq⟩ := Option.map_eq_some_iff.mp found
  cases eq
  exact ⟨List.head?_eq_some_iff.mp isHead, reads⟩

theorem exists_tail_of_mark (c : Char) (rest : List Char) :
    ∃ tail, (mark c rest).text = c :: tail ∧ tail <+: rest := by
  unfold mark
  split
  next d operator found =>
    obtain ⟨⟨more, rfl⟩, _⟩ := of_longMark? found
    exact ⟨[d], rfl, List.prefix_append [d] more⟩
  · split
    · exact ⟨[], rfl, List.nil_prefix⟩
    · exact ⟨[], rfl, List.nil_prefix⟩

/-- A piece has the character that it is read for, and goes on with what follows. -/
theorem exists_tail_of_piece (c : Char) (rest : List Char) :
    ∃ tail, (piece c rest).text = c :: tail ∧ tail <+: rest := by
  unfold piece
  split_ifs with blank letter digit brace quote line block
  · exact ⟨_, rfl, List.takeWhile_prefix _⟩
  · exact ⟨_, rfl, List.takeWhile_prefix _⟩
  · exact exists_tail_of_number digit rest
  · exact ⟨_, rfl, braceTail_isPrefix rest⟩
  · exact ⟨_, rfl, stringTail_isPrefix rest⟩
  · exact ⟨_, rfl, List.takeWhile_prefix _⟩
  · obtain ⟨_, isHead⟩ : c = '(' ∧ rest.head? = some '*' := by simpa using block
    obtain ⟨more, rfl⟩ := List.head?_eq_some_iff.mp isHead
    exact ⟨_, rfl, List.cons_prefix_cons.mpr ⟨rfl, blockTail_isPrefix more⟩⟩
  · exact exists_tail_of_mark c rest

/-- More budget than there are characters makes no difference. -/
theorem piecesWithin_eq {budget budget' : Nat} (enough : source.length ≤ budget)
    (enough' : source.length ≤ budget') :
    piecesWithin budget source = piecesWithin budget' source := by
  induction budget generalizing budget' source with
  | zero =>
    obtain rfl := List.length_eq_zero_iff.mp (Nat.le_zero.mp enough)
    cases budget' <;> rfl
  | succ budget ih =>
    cases source with
    | nil => cases budget' <;> rfl
    | cons c rest =>
      cases budget' with
      | zero => cases enough'
      | succ budget' =>
        obtain ⟨tail, isText, _⟩ := exists_tail_of_piece c rest
        rw [piecesWithin, piecesWithin, isText]
        congr 1
        apply ih <;> simp_all <;> omega

/-- The first piece, and those behind it. -/
theorem pieces_cons {tail behind : List Char}
    (isText : (piece c (tail ++ behind)).text = c :: tail) :
    pieces (c :: (tail ++ behind)) = piece c (tail ++ behind) :: pieces behind := by
  unfold pieces
  rw [List.length_cons, piecesWithin, isText]
  congr 1
  rw [← List.cons_append, List.drop_left]
  exact piecesWithin_eq (by simp) (Nat.le_refl _)

/-- What holds of the empty source, and of any source with one more piece in front, holds of all
sources. -/
@[elab_as_elim]
theorem pieces_induction {motive : List Char → Prop} (source : List Char) (nil : motive [])
    (cons : ∀ c tail behind, (piece c (tail ++ behind)).text = c :: tail → motive behind →
      motive (c :: (tail ++ behind))) : motive source := by
  induction length : source.length using Nat.strong_induction_on generalizing source with
  | _ n ih =>
    cases source with
    | nil => exact nil
    | cons c rest =>
      -- the first piece is not empty, so what is behind it is shorter
      obtain ⟨tail, isText, behind, rfl⟩ := exists_tail_of_piece c rest
      have shorter : behind.length < n := by
        rw [← length, List.length_cons, List.length_append]
        omega
      exact cons c tail behind isText (ih _ shorter behind rfl)

/-! ### Blanks -/

/-- White space and comments. -/
def blanks : Language Char := spaces + braceComment + lineComment + blockComment

/-- A piece that is neither a token nor an error is white space or a comment. -/
theorem mem_blanks_of_piece {text : List Char} (isPiece : piece c rest = ⟨.blank, text⟩) :
    text ∈ blanks := by
  unfold piece at isPiece
  split_ifs at isPiece with blank letter digit brace quote line block
  · cases isPiece
    refine .inl (.inl (.inl (mem_spaces.mpr ⟨nofun, List.forall_mem_cons.mpr ⟨blank, ?_⟩⟩)))
    exact fun d isIn => List.mem_takeWhile_imp isIn
  · cases isPiece
  · unfold number at isPiece
    dsimp only at isPiece
    split_ifs at isPiece <;> cases isPiece
  · obtain ⟨closes, -, rfl⟩ := of_closed isPiece nofun
    subst brace
    refine .inl (.inl (.inr ?_))
    unfold braceComment
    rw [mul_assoc]
    exact mem_exactly_mul.mpr ⟨_, mem_of_braceTail closes, rfl⟩
  · cases (of_closed isPiece nofun).2.1
  · obtain ⟨rfl, isHead⟩ : c = '/' ∧ rest.head? = some '/' := by simpa using line
    obtain ⟨more, rfl⟩ := List.head?_eq_some_iff.mp isHead
    cases isPiece
    refine .inl (.inr (mem_exactly_mul.mpr ⟨more.takeWhile (· ≠ '\n'), ?_, rfl⟩))
    exact mem_one_star.mpr fun d isIn => by simpa using List.mem_takeWhile_imp isIn
  · obtain ⟨closes, -, rfl⟩ := of_closed isPiece nofun
    obtain ⟨rfl, -⟩ : c = '(' ∧ rest.head? = some '*' := by simpa using block
    obtain ⟨body, isTail, inside⟩ := of_blockTail closes
    refine .inr ⟨body, ?_, inside⟩
    rw [isTail]
    rfl
  · unfold mark at isPiece
    split at isPiece
    · cases isPiece
    · split at isPiece <;> cases isPiece

/-! ### Items -/

/-- How an item is written. -/
def Lexeme.text : Lexeme → String
  | .ok token => token.text
  | .error error => error.text

/-- Where an item stands. -/
def Lexeme.span : Lexeme → Span
  | .ok token => token.span
  | .error error => error.span

/-- Behind a text, a source consists of these items, in order, with blanks between them and
around them. No item is empty, and each stands where it says. -/
inductive LaidOut : List Char → List Char → List Lexeme → Prop where
  | stop {before gap : List Char} (isGap : gap ∈ blanks∗) : LaidOut before gap []
  | item {before gap rest : List Char} {lexeme : Lexeme} {items : List Lexeme}
      (isGap : gap ∈ blanks∗) (isSome : lexeme.text ≠ "")
      (stands : lexeme.span = ⟨place (before ++ gap), place (before ++ gap ++ lexeme.text.toList)⟩)
      (behind : LaidOut (before ++ gap ++ lexeme.text.toList) rest items) :
      LaidOut before (gap ++ lexeme.text.toList ++ rest) (lexeme :: items)

/-- A piece that is read from a position, unless it is blank. -/
def Piece.lexeme? (start : Position) (piece : Piece) : Option Lexeme :=
  piece.itemOver? ⟨start, start.after piece.text⟩

/-- The tokens and errors of a list of pieces, which are read from a position. -/
def lexemesFrom (start : Position) : List Piece → List Lexeme
  | [] => []
  | piece :: rest =>
    (piece.lexeme? start).toList ++ lexemesFrom (start.after piece.text) rest

theorem Piece.of_lexeme? {start : Position} {piece : Piece} {lexeme : Lexeme}
    (isLexeme : piece.lexeme? start = some lexeme) :
    lexeme.text.toList = piece.text ∧ lexeme.span = ⟨start, start.after piece.text⟩ := by
  unfold Piece.lexeme? Piece.itemOver? at isLexeme
  dsimp only at isLexeme
  split at isLexeme
  · cases isLexeme
  · cases isLexeme
    exact ⟨String.toList_ofList, rfl⟩
  · cases isLexeme
    exact ⟨String.toList_ofList, rfl⟩

theorem Piece.kind_eq_blank {start : Position} {piece : Piece}
    (isBlank : piece.lexeme? start = none) : piece.kind = .blank := by
  unfold Piece.lexeme? Piece.itemOver? at isBlank
  dsimp only at isBlank
  split at isBlank
  next kind => exact kind
  · cases isBlank
  · cases isBlank

/-- The items of a source with a piece in front: that of the piece, and those behind it. -/
theorem lexemesFrom_cons {tail behind before : List Char}
    (isText : (piece c (tail ++ behind)).text = c :: tail) :
    lexemesFrom (place before) (pieces (c :: (tail ++ behind))) =
      ((piece c (tail ++ behind)).lexeme? (place before)).toList ++
        lexemesFrom (place (before ++ c :: tail)) (pieces behind) := by
  rw [pieces_cons isText, lexemesFrom, isText, after_place]

/-- The items behind a text are those that are read from the position of the text. -/
theorem itemsFrom_pieces (before rest : List Char) :
    itemsFrom (lineStarts (before ++ rest)) (byteLength before) (pieces rest) =
      lexemesFrom (place before) (pieces rest) := by
  induction rest using pieces_induction generalizing before with
  | nil => rfl
  | cons c tail behind isText ih =>
    have whole : before ++ c :: (tail ++ behind) = before ++ c :: tail ++ behind := by simp
    have later := ih (before ++ c :: tail)
    have isStop := positionAt_lineStarts (before ++ c :: tail) behind
    have isStart := positionAt_lineStarts before (c :: (tail ++ behind))
    rw [pieces_cons isText, itemsFrom, lexemesFrom, isText, ← byteLength_append, after_place]
    rw [← whole] at later isStop
    rw [later, spanAt, isStart, isStop, Piece.lexeme?, isText, after_place]

/-- By offsets a source has the items that reading through it has. -/
theorem lexemes_eq (source : String) :
    lexemes source = lexemesFrom (place []) (pieces source.toList) :=
  itemsFrom_pieces [] source.toList

/-- An item is a piece of the source, read where the text in front of it ends. -/
theorem exists_piece_of_mem {before source : List Char} {lexeme : Lexeme}
    (isIn : lexeme ∈ lexemesFrom (place before) (pieces source)) : ∃ front c tail behind,
      source = front ++ c :: (tail ++ behind) ∧ (piece c (tail ++ behind)).text = c :: tail ∧
      (piece c (tail ++ behind)).lexeme? (place (before ++ front)) = some lexeme := by
  induction source using pieces_induction generalizing before with
  | nil => cases isIn
  | cons c tail behind isText ih =>
    rw [lexemesFrom_cons isText] at isIn
    rcases List.mem_append.mp isIn with isFirst | isIn
    · refine ⟨[], c, tail, behind, rfl, isText, ?_⟩
      rw [List.append_nil]
      exact Option.mem_toList.mp isFirst
    · obtain ⟨front, d, tail', behind', rfl, isText', isLexeme⟩ := ih isIn
      refine ⟨c :: tail ++ front, d, tail', behind', by simp, isText', ?_⟩
      rwa [← List.append_assoc]

/-- The items of a source behind a text, where a gap has been read already. A blank in front makes
the gap longer, and an item ends it. -/
theorem laidOut_of_pieces (before : List Char) {gap source : List Char} (isGap : gap ∈ blanks∗) :
    LaidOut before (gap ++ source) (lexemesFrom (place (before ++ gap)) (pieces source)) := by
  induction source using pieces_induction generalizing before gap with
  | nil =>
    rw [List.append_nil]
    exact .stop isGap
  | cons c tail behind isText ih =>
    rw [lexemesFrom_cons isText]
    cases isLexeme : (piece c (tail ++ behind)).lexeme? (place (before ++ gap)) with
    | none =>
      -- the blank goes to the gap, and the next item is looked for behind it
      have isBlank : c :: tail ∈ blanks := by
        have kind := Piece.kind_eq_blank isLexeme
        have isPiece : piece c (tail ++ behind) = ⟨.blank, c :: tail⟩ := by rw [← kind, ← isText]
        exact mem_blanks_of_piece isPiece
      have isGap : gap ++ c :: tail ∈ blanks∗ :=
        kstar_mul_le_kstar (a := blanks) (Language.append_mem_mul isGap isBlank)
      have laid : LaidOut before (gap ++ c :: tail ++ behind)
          (lexemesFrom (place (before ++ (gap ++ c :: tail))) (pieces behind)) := ih before isGap
      simpa using laid
    | some lexeme =>
      obtain ⟨text, stands⟩ := Piece.of_lexeme? isLexeme
      rw [isText, after_place] at stands
      rw [isText] at text
      -- behind the item a new gap starts, which is empty yet
      have isSome : lexeme.text ≠ "" := fun empty => by simp [empty] at text
      have laid : LaidOut (before ++ gap ++ c :: tail) behind
          (lexemesFrom (place (before ++ gap ++ c :: tail)) (pieces behind)) := by
        have laid := ih (before ++ gap ++ c :: tail) (Language.nil_mem_kstar blanks)
        rwa [List.nil_append, List.append_nil] at laid
      have laid := LaidOut.item isGap isSome (text ▸ stands) (text.symm ▸ laid)
      rw [text] at laid
      simpa using laid

/-- A source consists of its items and of blanks. -/
theorem laidOut_lexemes (source : String) : LaidOut [] source.toList (lexemes source) := by
  rw [lexemes_eq]
  exact laidOut_of_pieces [] (Language.nil_mem_kstar blanks)

/-! ### Order -/

theorem isLE_place_append (before text : List Char) :
    (compare (place before) (place (before ++ text))).isLE := by
  by_cases empty : text = []
  · rw [empty, List.append_nil]
    exact Std.ReflCmp.isLE_rfl
  · rw [compare_place before text empty]
    rfl

/-- The items stand behind the text that they are said to stand behind. -/
theorem LaidOut.isLE_start {before source : List Char} {items : List Lexeme}
    (laid : LaidOut before source items) :
    ∀ lexeme ∈ items, (compare (place before) lexeme.span.start).isLE := by
  induction laid with
  | stop => exact nofun
  | @item before gap rest lexeme items _ _ stands _ ih =>
    refine List.forall_mem_cons.mpr ⟨?_, fun later isIn => ?_⟩
    · rw [stands]
      exact isLE_place_append before gap
    · have start := isLE_place_append before (gap ++ lexeme.text.toList)
      rw [← List.append_assoc] at start
      exact Std.TransCmp.isLE_trans start (ih later isIn)

/-- An item ends before the next one starts. -/
theorem LaidOut.pairwise {before source : List Char} {items : List Lexeme}
    (laid : LaidOut before source items) :
    items.Pairwise fun lexeme later => (compare lexeme.span.stop later.span.start).isLE := by
  induction laid with
  | stop => exact .nil
  | item _ _ stands behind ih =>
    refine .cons (fun later isIn => ?_) ih
    rw [stands]
    exact behind.isLE_start later isIn

/-- No item is empty. -/
theorem LaidOut.compare_span {before source : List Char} {items : List Lexeme}
    (laid : LaidOut before source items) :
    ∀ lexeme ∈ items, compare lexeme.span.start lexeme.span.stop = .lt := by
  induction laid with
  | stop => exact nofun
  | item _ isSome stands _ ih =>
    refine List.forall_mem_cons.mpr ⟨?_, ih⟩
    rw [stands]
    exact compare_place _ _ (by simpa using isSome)

/-- Scanning loses and duplicates nothing. A source is its tokens and errors in their order, none
of them empty, with gaps between them and around them that consist of white space and comments.
The span of an item has the positions in front of it and behind it: how many line feeds come
before, and how many bytes since the last one. So the items follow each other without overlap. -/
theorem lexemes_laidOut (source : String) :
    LaidOut [] source.toList (lexemes source) ∧
    (∀ lexeme ∈ lexemes source, compare lexeme.span.start lexeme.span.stop = .lt) ∧
    (lexemes source).Pairwise fun lexeme later =>
      (compare lexeme.span.stop later.span.start).isLE := by
  have laid := laidOut_lexemes source
  exact ⟨laid, laid.compare_span, laid.pairwise⟩

/-- Scanning goes on behind a string that is not closed. Columns count bytes: the comment in the
second line takes four of them, and three characters. -/
theorem laidOut_of_open_string :
    LaidOut [] "x := 'a\n\x7bé\x7d y".toList (lexemes "x := 'a\n\x7bé\x7d y") ∧
    (lexemes "x := 'a\n\x7bé\x7d y").map (fun lexeme => (lexeme.text, lexeme.span)) =
      [("x", ⟨⟨0, 0⟩, ⟨0, 1⟩⟩), (":=", ⟨⟨0, 2⟩, ⟨0, 4⟩⟩), ("'a", ⟨⟨0, 5⟩, ⟨0, 7⟩⟩),
        ("y", ⟨⟨1, 5⟩, ⟨1, 6⟩⟩)] :=
  ⟨(lexemes_laidOut _).1, by decide +kernel⟩

end ShiftReduce.Pascal
