/-
  Scanning line by line.

  No token goes over the end of a line, and a comment that does is read up to its end. So a piece
  of a text that ends with a line is read as it is, whatever the text goes on with (`piece_append`),
  but for white space, which may go on itself; there it does not matter where the one piece ends and
  the next begins (`lexemesFrom_append_of_blank`). By induction over its pieces the text is scanned
  to its end, and what comes behind it is scanned as if it stood alone, some lines further down
  (`lexemes_append`).
-/
import ShiftReduce.Proofs.Pascal.Layout

namespace ShiftReduce.Pascal

open Position

variable {source rest : List Char} {c : Char}

/-! ### What is read within a line -/

theorem takeWhile_append_of_mem {p : Char → Bool} (isIn : c ∈ source) (stops : p c = false)
    (more : List Char) : (source ++ more).takeWhile p = source.takeWhile p := by
  rw [List.takeWhile_append, if_neg]
  intro all
  have whole : source.takeWhile p = source := (List.takeWhile_prefix p).eq_of_length all
  rw [List.takeWhile_eq_self_iff.mp whole c isIn] at stops
  cases stops

/-- A text in front that has no end of line leaves the end of the line to what is behind it. -/
theorem exists_behind {text : List Char} (front : text <+: source) (lineEnd : '\n' ∈ source)
    (within : '\n' ∉ text) : ∃ behind, source = text ++ behind ∧ '\n' ∈ behind := by
  obtain ⟨behind, rfl⟩ := front
  exact ⟨behind, rfl, (List.mem_append.mp lineEnd).resolve_left within⟩

theorem exponentSign_append (some : rest ≠ []) (more : List Char) :
    exponentSign (rest ++ more) = exponentSign rest := by
  obtain ⟨c, rest, rfl⟩ := List.exists_cons_of_ne_nil some
  rw [List.cons_append]
  unfold exponentSign
  split <;> split <;> simp_all

theorem exponentDigits_append (lineEnd : '\n' ∈ rest) (more : List Char) :
    exponentDigits (rest ++ more) = exponentDigits rest := by
  have within : '\n' ∉ exponentSign rest := by
    unfold exponentSign
    split <;> decide
  obtain ⟨behind, isRest, lineEnd'⟩ := exists_behind (exponentSign_isPrefix rest) lineEnd within
  unfold exponentDigits
  rw [exponentSign_append (List.ne_nil_of_mem lineEnd)]
  generalize exponentSign rest = sign at isRest
  rw [isRest, List.append_assoc, List.drop_left, List.drop_left]
  exact takeWhile_append_of_mem lineEnd' rfl more

theorem exponent_append (lineEnd : '\n' ∈ source) (more : List Char) :
    exponent (source ++ more) = exponent source := by
  obtain ⟨mark, rest, rfl⟩ := List.exists_cons_of_ne_nil (List.ne_nil_of_mem lineEnd)
  rw [List.cons_append, exponent_cons, exponent_cons]
  by_cases isMark : mark ∈ ['e', 'E']
  · have lineEnd : '\n' ∈ rest := by
      refine (List.mem_cons.mp lineEnd).resolve_left fun eq => ?_
      rw [← eq] at isMark
      exact absurd isMark (by decide)
    rw [exponentSign_append (List.ne_nil_of_mem lineEnd), exponentDigits_append lineEnd]
  · rw [if_neg fun reads => isMark reads.1, if_neg fun reads => isMark reads.1]

theorem fraction_eq_nil (notPoint : c ≠ '.') (rest : List Char) : fraction (c :: rest) = [] := by
  unfold fraction
  split
  next eq => exact absurd (List.cons.inj eq).1 notPoint
  · rfl

theorem fraction_append (lineEnd : '\n' ∈ source) (more : List Char) :
    fraction (source ++ more) = fraction source := by
  obtain ⟨c, rest, rfl⟩ := List.exists_cons_of_ne_nil (List.ne_nil_of_mem lineEnd)
  rw [List.cons_append]
  by_cases point : c = '.'
  · subst point
    have lineEnd : '\n' ∈ rest := (List.mem_cons.mp lineEnd).resolve_left (by decide)
    have within : '\n' ∉ rest.takeWhile Char.isDigit := fun isIn => by
      cases List.mem_takeWhile_imp isIn
    obtain ⟨behind, isRest, lineEnd'⟩ := exists_behind (List.takeWhile_prefix _) lineEnd within
    rw [fraction_point, fraction_point, takeWhile_append_of_mem lineEnd rfl]
    generalize rest.takeWhile Char.isDigit = ds at isRest
    rw [isRest, List.append_assoc, List.drop_left, List.drop_left, exponent_append lineEnd']
  · rw [fraction_eq_nil point, fraction_eq_nil point]

theorem number_append (lineEnd : '\n' ∈ source) (more : List Char) :
    number (source ++ more) = number source := by
  have within : '\n' ∉ source.takeWhile Char.isDigit := fun isIn => by
    cases List.mem_takeWhile_imp isIn
  obtain ⟨behind, isSource, lineEnd'⟩ := exists_behind (List.takeWhile_prefix _) lineEnd within
  unfold number
  dsimp only
  rw [takeWhile_append_of_mem lineEnd rfl]
  generalize source.takeWhile Char.isDigit = ds at isSource
  rw [isSource, List.append_assoc, List.drop_left, List.drop_left, fraction_append lineEnd']

/-- A string is closed on its line or not at all. -/
theorem stringTail_append (lineEnd : '\n' ∈ rest) (more : List Char) :
    stringTail (rest ++ more) = stringTail rest := by
  fun_induction stringTail rest with
  | case1 => cases lineEnd
  | case2 rest tail ih =>
    have lineEnd : '\n' ∈ rest := by simpa using lineEnd
    rw [List.cons_append, List.cons_append, stringTail_pair, ih lineEnd]
  | case3 rest single =>
    -- the quote is not the last character, and the next one makes no pair with it
    have lineEnd : '\n' ∈ rest := by simpa using lineEnd
    obtain ⟨d, rest, rfl⟩ := List.exists_cons_of_ne_nil (List.ne_nil_of_mem lineEnd)
    rw [List.cons_append, stringTail, if_pos rfl]
    intro rest' _ eq
    exact single rest rfl (by rw [(List.cons.inj eq).1])
  | case4 rest _ _ =>
    rw [List.cons_append, stringTail, if_neg (by decide), if_pos rfl]
    exact fun _ eq => absurd eq (by decide)
  | case5 c rest _ notQuote notNewline tail ih =>
    have lineEnd : '\n' ∈ rest := (List.mem_cons.mp lineEnd).resolve_left (Ne.symm notNewline)
    rw [List.cons_append, stringTail_cons (by simp [notQuote, notNewline]), ih lineEnd]

theorem mark_append (some : rest ≠ []) (more : List Char) :
    mark c (rest ++ more) = mark c rest := by
  unfold mark
  rw [List.head?_append_of_ne_nil _ some]

/-! ### Comments that are closed -/

theorem braceTail_append (closes : (braceTail rest).2 = true) (more : List Char) :
    braceTail (rest ++ more) = braceTail rest := by
  fun_induction braceTail rest with
  | case1 => cases closes
  | case2 rest => rw [List.cons_append, braceTail, if_pos rfl]
  | case3 c rest other tail ih => rw [List.cons_append, braceTail, if_neg other, ih closes]

theorem blockTail_append (closes : (blockTail rest).2 = true) (more : List Char) :
    blockTail (rest ++ more) = blockTail rest := by
  fun_induction blockTail rest with
  | case1 => cases closes
  | case2 rest => rfl
  | case3 c rest goesOn tail ih =>
    have some : rest ≠ [] := by
      rintro rfl
      cases closes
    rw [List.cons_append, blockTail, ih closes]
    intro more' star eq
    obtain ⟨d, rest, rfl⟩ := List.exists_cons_of_ne_nil some
    obtain ⟨rfl, _⟩ := List.cons.inj eq
    exact goesOn rest star rfl

/-- A piece that is no error has found its end. -/
theorem closes_of_closed {kind : PieceKind} {opening : List Char} {tail : List Char × Bool}
    (reads : (closed kind opening tail).kind ≠ .error) : tail.2 = true := by
  have isPiece : closed kind opening tail =
      ⟨(closed kind opening tail).kind, opening ++ tail.1⟩ := rfl
  exact (of_closed isPiece reads).1

/-! ### Pieces -/

/-- Behind the end of its line a piece does not go on, unless it is white space or an error. -/
theorem piece_append (lineEnd : '\n' ∈ rest) (notBlank : isBlank c = false)
    (reads : (piece c rest).kind ≠ .error) (more : List Char) :
    piece c (rest ++ more) = piece c rest := by
  have some : rest ≠ [] := List.ne_nil_of_mem lineEnd
  have head : (rest ++ more).head? = rest.head? := List.head?_append_of_ne_nil _ some
  unfold piece at reads ⊢
  rw [head]
  split_ifs at reads ⊢ with blank letter digit brace quote line block
  · cases blank.symm.trans notBlank
  · rw [takeWhile_append_of_mem lineEnd rfl]
  · rw [← List.cons_append, number_append (List.mem_cons_of_mem c lineEnd)]
  · rw [braceTail_append (closes_of_closed reads)]
  · rw [stringTail_append lineEnd]
  · rw [takeWhile_append_of_mem lineEnd (by simp)]
  · rw [List.tail_append_of_ne_nil some, blockTail_append (closes_of_closed reads)]
  · exact mark_append some more

/-! ### White space -/

theorem piece_of_isBlank (blank : isBlank c = true) (rest : List Char) :
    piece c rest = ⟨.blank, c :: rest.takeWhile isBlank⟩ := by
  unfold piece
  rw [if_pos blank]

/-- The items of a source are those behind the white space in front. -/
theorem lexemesFrom_dropWhile (before source : List Char) :
    lexemesFrom (place before) (pieces source) =
      lexemesFrom (place (before ++ source.takeWhile isBlank))
        (pieces (source.dropWhile isBlank)) := by
  cases source with
  | nil => rw [List.takeWhile_nil, List.append_nil, List.dropWhile_nil]
  | cons c rest =>
    by_cases blank : isBlank c = true
    · have isText : (piece c (rest.takeWhile isBlank ++ rest.dropWhile isBlank)).text =
          c :: rest.takeWhile isBlank := by
        rw [List.takeWhile_append_dropWhile, piece_of_isBlank blank]
      have items : lexemesFrom (place before)
          (pieces (c :: (rest.takeWhile isBlank ++ rest.dropWhile isBlank))) = _ :=
        lexemesFrom_cons isText
      rw [List.takeWhile_append_dropWhile, piece_of_isBlank blank] at items
      rw [List.takeWhile_cons_of_pos blank, List.dropWhile_cons_of_pos blank]
      exact items
    · rw [List.takeWhile_cons_of_neg blank, List.dropWhile_cons_of_neg blank, List.append_nil]

/-- White space in front is passed over, whether or not it goes on behind. -/
theorem lexemesFrom_append_of_blank {gap : List Char} (isGap : ∀ c ∈ gap, isBlank c = true)
    (before source : List Char) :
    lexemesFrom (place before) (pieces (gap ++ source)) =
      lexemesFrom (place (before ++ gap)) (pieces source) := by
  rw [lexemesFrom_dropWhile before, lexemesFrom_dropWhile (before ++ gap),
    List.takeWhile_append_of_pos isGap, List.dropWhile_append_of_pos isGap, List.append_assoc]

/-! ### Whole lines -/

/-- A text is empty or ends with the end of a line. -/
def WholeLines (text : List Char) : Prop := ∀ c ∈ text.getLast?, c = '\n'

theorem WholeLines.behind {text behind : List Char} (whole : WholeLines (text ++ behind)) :
    WholeLines behind := by
  intro c isLast
  refine whole c ?_
  rw [List.getLast?_append, Option.mem_def.mp isLast]
  rfl

theorem WholeLines.mem_newline {text : List Char} (whole : WholeLines text) (some : text ≠ []) :
    '\n' ∈ text := by
  have isLast := List.getLast?_eq_some_getLast some
  have newline := whole _ isLast
  rw [← newline]
  exact List.getLast_mem some

/-- The first piece of whole lines is read alike whatever comes behind the lines. -/
theorem lexemesFrom_cons_append {tail behind : List Char}
    (isText : (piece c (tail ++ behind)).text = c :: tail)
    (whole : WholeLines (c :: (tail ++ behind)))
    (reads : (piece c (tail ++ behind)).kind ≠ .error) (before more : List Char) :
    lexemesFrom (place before) (pieces (c :: (tail ++ behind) ++ more)) =
      ((piece c (tail ++ behind)).lexeme? (place before)).toList ++
        lexemesFrom (place (before ++ c :: tail)) (pieces (behind ++ more)) := by
  by_cases blank : isBlank c = true
  · -- white space is no item, and it may go on at the front of the other text
    rw [piece_of_isBlank blank] at isText ⊢
    have isGap : ∀ d ∈ c :: tail, isBlank d = true := by
      rw [← isText]
      exact List.forall_mem_cons.mpr ⟨blank, fun d isIn => List.mem_takeWhile_imp isIn⟩
    rw [← List.cons_append, List.append_assoc]
    exact lexemesFrom_append_of_blank isGap before (behind ++ more)
  · have notNewline : '\n' ≠ c := fun eq => blank (by rw [← eq]; rfl)
    have lineEnd : '\n' ∈ tail ++ behind :=
      (List.mem_cons.mp (whole.mem_newline (List.cons_ne_nil _ _))).resolve_left notNewline
    have alike : piece c (tail ++ (behind ++ more)) = piece c (tail ++ behind) := by
      rw [← List.append_assoc]
      exact piece_append lineEnd (by simpa using blank) reads more
    rw [← alike] at isText ⊢
    rw [List.cons_append, List.append_assoc]
    exact lexemesFrom_cons isText

theorem Piece.kind_ne_error {start : Position} {piece : Piece}
    (reads : ∀ error, .error error ∉ (piece.lexeme? start).toList) : piece.kind ≠ .error := by
  intro kind
  refine reads ⟨String.ofList piece.text, ⟨start, start.after piece.text⟩⟩ ?_
  unfold Piece.lexeme? Piece.itemOver?
  rw [kind]
  exact List.mem_singleton_self _

/-- Whole lines without an error are scanned alike whatever comes behind them, and that is scanned
from where they end. -/
theorem lexemesFrom_append {source : List Char} (whole : WholeLines source)
    (before more : List Char)
    (reads : ∀ error, .error error ∉ lexemesFrom (place before) (pieces source)) :
    lexemesFrom (place before) (pieces (source ++ more)) =
      lexemesFrom (place before) (pieces source) ++
        lexemesFrom (place (before ++ source)) (pieces more) := by
  induction source using pieces_induction generalizing before with
  | nil =>
    rw [List.nil_append, List.append_nil]
    rfl
  | cons c tail behind isText ih =>
    rw [lexemesFrom_cons isText] at reads ⊢
    have first := Piece.kind_ne_error fun error isIn => reads error (List.mem_append_left _ isIn)
    have lines : WholeLines (c :: tail ++ behind) := whole
    have items := ih lines.behind (before ++ c :: tail) fun error isIn =>
      reads error (List.mem_append_right _ isIn)
    rw [lexemesFrom_cons_append isText whole first, items, List.append_assoc, List.append_assoc,
      List.cons_append]

/-! ### Lines further down -/

/-- Whole lines end at the front of a line. -/
theorem place_of_wholeLines {text : List Char} (whole : WholeLines text) :
    place text = (place []).down (text.count '\n') := by
  rcases text.eq_nil_or_concat' with rfl | ⟨front, c, rfl⟩
  · rfl
  · have newline : c = '\n' := whole c List.getLast?_concat
    unfold place Position.down
    rw [List.rtakeWhile_concat_neg _ _ _ (by simpa using newline)]
    simp

/-- The item so many lines further down. -/
def Lexeme.down (lines : Nat) : Lexeme → Lexeme
  | .ok token => .ok { token with span := token.span.down lines }
  | .error error => .error { error with span := error.span.down lines }

theorem lexemesFrom_down (lines : Nat) (start : Position) (ps : List Piece) :
    lexemesFrom (start.down lines) ps = (lexemesFrom start ps).map (Lexeme.down lines) := by
  induction ps generalizing start with
  | nil => rfl
  | cons piece ps ih =>
    have first : piece.lexeme? (start.down lines) =
        (piece.lexeme? start).map (Lexeme.down lines) := by
      unfold Piece.lexeme? Piece.itemOver?
      rw [after_down]
      cases piece.kind <;> rfl
    rw [lexemesFrom, lexemesFrom, first, after_down, ih, List.map_append, Option.toList_map]

theorem eq_map_of_collect {ε α : Type} {results : List (Except ε α)} {values : List α}
    (ok : collect results = .ok values) : results = values.map .ok := by
  induction results generalizing values with
  | nil =>
    cases ok
    rfl
  | cons result results ih =>
    cases result with
    | error e => cases ok
    | ok a =>
      cases collected : collect results with
      | error e =>
        rw [collect, collected] at ok
        cases ok
      | ok rest =>
        rw [collect, collected] at ok
        cases ok
        rw [ih collected]
        rfl

/-- Scanning is compositional at line ends. Where a text is scanned without an error, and it is
empty or ends with a line feed, the items of any text behind it are those of this text alone, as
many lines further down as the first has line feeds, and they come behind the tokens of the
first. -/
theorem lexemes_append {a : String} {tokens : List Token} (scanned : tokenize a = .ok tokens)
    (ends : a = "" ∨ a.toList.getLast? = some '\n') (b : String) :
    lexemes (a ++ b) =
      tokens.map .ok ++ (lexemes b).map (Lexeme.down (a.toList.count '\n')) := by
  have whole : WholeLines a.toList := by
    rcases ends with rfl | last
    · exact nofun
    · intro c isLast
      exact Option.some.inj (isLast.symm.trans last)
  have items : lexemes a = tokens.map .ok := eq_map_of_collect scanned
  have clean : ∀ error, .error error ∉ lexemesFrom (place []) (pieces a.toList) := by
    intro error isIn
    rw [← lexemes_eq, items] at isIn
    obtain ⟨token, _, eq⟩ := List.mem_map.mp isIn
    cases eq
  rw [← items, lexemes_eq, lexemes_eq, lexemes_eq, String.toList_append,
    lexemesFrom_append whole [] b.toList clean, List.nil_append, place_of_wholeLines whole]
  -- the second text is read from the start of a line, as if it were the first
  exact congrArg _ (lexemesFrom_down (a.toList.count '\n') (place []) (pieces b.toList))

/-- The second text begins with white space, as the first one ends, and it is not closed. -/
theorem lexemes_of_open_comment :
    tokenize "x := 1. // 'a\n \n" =
      .ok [⟨.identifier, "x", ⟨⟨0, 0⟩, ⟨0, 1⟩⟩⟩, ⟨.operator .assign, ":=", ⟨⟨0, 2⟩, ⟨0, 4⟩⟩⟩,
        ⟨.integer, "1", ⟨⟨0, 5⟩, ⟨0, 6⟩⟩⟩, ⟨.operator .dot, ".", ⟨⟨0, 6⟩, ⟨0, 7⟩⟩⟩] ∧
    "x := 1. // 'a\n \n".toList.getLast? = some '\n' ∧
    lexemes ("x := 1. // 'a\n \n" ++ "  2\n(* é") =
      [.ok ⟨.identifier, "x", ⟨⟨0, 0⟩, ⟨0, 1⟩⟩⟩, .ok ⟨.operator .assign, ":=", ⟨⟨0, 2⟩, ⟨0, 4⟩⟩⟩,
        .ok ⟨.integer, "1", ⟨⟨0, 5⟩, ⟨0, 6⟩⟩⟩, .ok ⟨.operator .dot, ".", ⟨⟨0, 6⟩, ⟨0, 7⟩⟩⟩,
        .ok ⟨.integer, "2", ⟨⟨2, 2⟩, ⟨2, 3⟩⟩⟩, .error ⟨"(* é", ⟨⟨3, 0⟩, ⟨3, 5⟩⟩⟩] := by
  have scanned : tokenize "x := 1. // 'a\n \n" =
      .ok [⟨.identifier, "x", ⟨⟨0, 0⟩, ⟨0, 1⟩⟩⟩, ⟨.operator .assign, ":=", ⟨⟨0, 2⟩, ⟨0, 4⟩⟩⟩,
        ⟨.integer, "1", ⟨⟨0, 5⟩, ⟨0, 6⟩⟩⟩, ⟨.operator .dot, ".", ⟨⟨0, 6⟩, ⟨0, 7⟩⟩⟩] := by
    decide +kernel
  have last : "x := 1. // 'a\n \n".toList.getLast? = some '\n' := by decide +kernel
  refine ⟨scanned, last, ?_⟩
  rw [lexemes_append scanned (.inr last)]
  decide +kernel

end ShiftReduce.Pascal
