/-
  Tokens written out again.

  A token is found in its text alone. Whatever has made the scanner stop behind it, a space or the
  end of the source makes it stop there too (`piece_again`), since no word, number or operator goes
  on with a space, and a string was closed within the text. So a list of tokens that were scanned
  can be written with single spaces between them, and is scanned again as it was
  (`exists_tokenize_intercalate`).
-/
import ShiftReduce.Proofs.Pascal.Munch
import ShiftReduce.Proofs.Pascal.Seams

namespace ShiftReduce.Pascal

open Position

variable {source text rest more : List Char} {c : Char}

/-! ### Parts of a token -/

/-- What comes behind a token that is written out: nothing, or a space. -/
inductive Apart : List Char → Prop
  | nil : Apart []
  | space (rest : List Char) : Apart (' ' :: rest)

theorem Apart.takeWhile_eq_nil {p : Char → Bool} (apart : Apart more) (stops : p ' ' = false) :
    more.takeWhile p = [] := by
  cases apart with
  | nil => rfl
  | space rest => rw [List.takeWhile_cons_of_neg (by simp [stops])]

/-- What was taken from the front is taken again. -/
theorem takeWhile_again {p : Char → Bool} (source : List Char) (stops : more.takeWhile p = []) :
    (source.takeWhile p ++ more).takeWhile p = source.takeWhile p := by
  rw [List.takeWhile_append_of_pos fun d isIn => List.mem_takeWhile_imp isIn, stops,
    List.append_nil]

theorem exponent_again (apart : Apart more) (rest : List Char) :
    exponent (exponent rest ++ more) = exponent rest := by
  have none : exponent more = [] := by
    cases apart with
    | nil => rfl
    | space rest => rw [exponent_cons, if_neg fun reads => absurd reads.1 (by decide)]
  cases rest with
  | nil => exact none
  | cons mark rest =>
    rw [exponent_cons]
    split_ifs with reads
    · obtain ⟨isMark, some⟩ := reads
      have each : ∀ d ∈ exponentDigits rest, d.isDigit = true := fun d isIn =>
        List.mem_takeWhile_imp isIn
      have sign : exponentSign (exponentSign rest ++ (exponentDigits rest ++ more)) =
          exponentSign rest :=
        exponentSign_eq (exponentSign_mem rest) (mem_digits.mpr ⟨some, each⟩) ⟨more, by simp⟩
      have behind : exponentDigits (exponentSign rest ++ (exponentDigits rest ++ more)) =
          exponentDigits rest := by
        rw [exponentDigits, sign, List.drop_left]
        exact takeWhile_again _ (apart.takeWhile_eq_nil rfl)
      rw [List.cons_append, List.append_assoc, exponent_cons, sign, behind, if_pos ⟨isMark, some⟩]
    · exact none

/-- A fraction starts with its point. -/
theorem fraction_cases (source : List Char) :
    fraction source = [] ∨ ∃ rest : List Char, rest.takeWhile Char.isDigit ≠ [] ∧
      fraction source = '.' :: (rest.takeWhile Char.isDigit ++
        exponent (rest.drop (rest.takeWhile Char.isDigit).length)) := by
  cases source with
  | nil => exact .inl rfl
  | cons c rest =>
    by_cases point : c = '.'
    · rw [point, fraction_point]
      split_ifs with none
      · exact .inl rfl
      · exact .inr ⟨rest, none, rfl⟩
    · exact .inl (fraction_eq_nil point rest)

theorem fraction_again (apart : Apart more) (source : List Char) :
    fraction (fraction source ++ more) = fraction source := by
  rcases fraction_cases source with none | ⟨rest, some, isFraction⟩
  · rw [none]
    cases apart with
    | nil => rfl
    | space rest => exact fraction_eq_nil (by decide) rest
  · rw [isFraction]
    generalize rest.drop (rest.takeWhile Char.isDigit).length = behind
    -- an exponent starts with its mark, so the digits end where they did
    have stops : (exponent behind ++ more).takeWhile Char.isDigit = [] := by
      have reads := (longest_exponent behind).reads
      cases isExponent : exponent behind with
      | nil => exact apart.takeWhile_eq_nil rfl
      | cons mark digits =>
        rw [isExponent] at reads
        have notDigit := isDigit_eq_false_of_optional_exponents digits mark reads
        rw [List.cons_append, List.takeWhile_cons_of_neg (by simp [notDigit])]
    rw [List.cons_append, List.append_assoc, fraction_point, takeWhile_again _ stops, if_neg some,
      List.drop_left, exponent_again apart]

theorem number_eq (source : List Char) :
    number source = ⟨.token (if fraction (source.drop (source.takeWhile Char.isDigit).length) = []
      then .integer else .real), source.takeWhile Char.isDigit ++
        fraction (source.drop (source.takeWhile Char.isDigit).length)⟩ := by
  unfold number
  dsimp only
  by_cases none : fraction (source.drop (source.takeWhile Char.isDigit).length) = [] <;>
    simp [none]

theorem number_again (apart : Apart more) (source : List Char) :
    number ((number source).text ++ more) = number source := by
  rw [number_eq source]
  generalize source.drop (source.takeWhile Char.isDigit).length = behind
  have stops : (fraction behind ++ more).takeWhile Char.isDigit = [] := by
    rcases fraction_cases behind with none | ⟨rest, _, isFraction⟩
    · rw [none]
      exact apart.takeWhile_eq_nil rfl
    · rw [isFraction]
      rfl
  rw [List.append_assoc, number_eq, takeWhile_again _ stops, List.drop_left,
    fraction_again apart]

theorem stringTail_again (apart : Apart more) (closes : (stringTail rest).2 = true) :
    stringTail ((stringTail rest).1 ++ more) = stringTail rest := by
  fun_induction stringTail rest with
  | case1 => cases closes
  | case2 rest tail ih =>
    rw [List.cons_append, List.cons_append, stringTail_pair, ih closes]
  | case3 => cases apart <;> rfl
  | case4 => cases closes
  | case5 c rest _ notQuote notNewline tail ih =>
    rw [List.cons_append, stringTail_cons (by simp [notQuote, notNewline]), ih closes]

theorem longOperator?_space (c : Char) : longOperator? c ' ' = none := by
  unfold longOperator?
  split <;> simp_all

/-! ### Tokens -/

/-- An operator of two characters, or one that the next character does not go on. -/
theorem mark_again {kind : TokenKind} {tail : List Char} (apart : Apart more)
    (isMark : mark c rest = ⟨.token kind, c :: tail⟩) :
    mark c (tail ++ more) = ⟨.token kind, c :: tail⟩ ∧
      (tail = [] ∨ ∃ d operator, tail = [d] ∧ longOperator? c d = some operator) := by
  unfold mark at isMark
  split at isMark
  next d operator found =>
    cases isMark
    obtain ⟨_, reads⟩ := of_longMark? found
    refine ⟨?_, .inr ⟨d, operator, rfl, reads⟩⟩
    simp [mark, reads]
  next found =>
    split at isMark
    next operator reads =>
      cases isMark
      refine ⟨?_, .inl rfl⟩
      cases apart with
      | nil => simp [mark, reads]
      | space rest => simp [mark, reads, longOperator?_space]
    · cases isMark

/-- An operator that is written out opens no comment with what comes behind it. -/
theorem not_opening {tail : List Char} {d : Char} (apart : Apart more)
    (operators : tail = [] ∨ ∃ e operator, tail = [e] ∧ longOperator? c e = some operator)
    (notLong : ∀ e, longOperator? c e = none) (notSpace : d ≠ ' ') :
    (tail ++ more).head? ≠ some d := by
  rcases operators with rfl | ⟨e, _, _, reads⟩
  · cases apart with
    | nil => exact nofun
    | space rest => exact fun eq => notSpace (Option.some.inj eq).symm
  · cases (notLong e).symm.trans reads

/-- A token is read again when a space follows it, or nothing. -/
theorem piece_again {kind : TokenKind} {tail : List Char} (apart : Apart more)
    (isPiece : piece c rest = ⟨.token kind, c :: tail⟩) :
    piece c (tail ++ more) = ⟨.token kind, c :: tail⟩ := by
  unfold piece at isPiece
  split_ifs at isPiece with blank letter digit brace quote line block
  · cases isPiece
  · cases isPiece
    rw [piece_of_isLetter letter, takeWhile_again rest (apart.takeWhile_eq_nil rfl)]
  · unfold piece
    rw [if_neg blank, if_neg letter, if_pos digit]
    have again := number_again apart (c :: rest)
    rw [isPiece] at again
    exact again
  · cases (of_closed isPiece nofun).2.1
  · obtain ⟨closes, eq, isTail⟩ := of_closed isPiece nofun
    have isTail : tail = (stringTail rest).1 := (List.cons.inj isTail).2
    subst isTail
    unfold piece
    rw [if_neg blank, if_neg letter, if_neg digit, if_neg brace, if_pos quote,
      stringTail_again apart closes]
    exact isPiece
  · cases isPiece
  · cases (of_closed isPiece nofun).2.1
  · obtain ⟨again, operators⟩ := mark_again apart isPiece
    unfold piece
    rw [if_neg blank, if_neg letter, if_neg digit, if_neg brace, if_neg quote, if_neg, if_neg]
    · exact again
    · intro opens
      obtain ⟨rfl, head⟩ : c = '(' ∧ (tail ++ more).head? = some '*' := by simpa using opens
      exact not_opening apart operators (fun _ => rfl) (by decide) head
    · intro opens
      obtain ⟨rfl, head⟩ : c = '/' ∧ (tail ++ more).head? = some '/' := by simpa using opens
      exact not_opening apart operators (fun _ => rfl) (by decide) head

/-! ### Lists of tokens -/

/-- The text of a token is read as a token of its kind somewhere. -/
def Scanned (token : Token) : Prop :=
  ∃ c rest, piece c rest = ⟨.token token.kind, token.text.toList⟩

theorem scanned_of_mem {tokens : List Token} {source : String}
    (scanned : tokenize source = .ok tokens) : ∀ token ∈ tokens, Scanned token := by
  intro token isIn
  have items : lexemes source = tokens.map .ok := eq_map_of_collect scanned
  have isItem : .ok token ∈ lexemesFrom (place []) (pieces source.toList) := by
    rw [← lexemes_eq, items]
    exact List.mem_map_of_mem isIn
  obtain ⟨_, c, tail, behind, _, _, isLexeme⟩ := exists_piece_of_mem isItem
  exact ⟨c, tail ++ behind, Piece.of_lexeme?_ok isLexeme⟩

/-- What stands behind the first of some texts that are joined by spaces. -/
theorem exists_apart (text : List Char) (texts : List (List Char)) :
    ∃ more, [' '].intercalate (text :: texts) = text ++ more ∧ Apart more ∧
      ∀ before, ∃ before', lexemesFrom (place before) (pieces more) =
        lexemesFrom (place before') (pieces ([' '].intercalate texts)) := by
  cases texts with
  | nil => exact ⟨[], by simp, .nil, fun before => ⟨before, rfl⟩⟩
  | cons next texts =>
    refine ⟨' ' :: [' '].intercalate (next :: texts), by simp, .space _, fun before => ?_⟩
    have isGap : ∀ c ∈ [' '], isBlank c = true := List.forall_mem_singleton.mpr rfl
    exact ⟨before ++ [' '], lexemesFrom_append_of_blank isGap before _⟩

/-- Tokens that are joined by spaces are read again, with their kinds and texts. -/
theorem exists_lexemesFrom_intercalate {tokens : List Token}
    (each : ∀ token ∈ tokens, Scanned token) (before : List Char) :
    ∃ again : List Token,
      lexemesFrom (place before)
        (pieces ([' '].intercalate (tokens.map fun token => token.text.toList))) =
          again.map .ok ∧
      again.map (fun token => (token.kind, token.text)) =
        tokens.map fun token => (token.kind, token.text) := by
  induction tokens generalizing before with
  | nil => exact ⟨[], rfl, rfl⟩
  | cons token tokens ih =>
    obtain ⟨⟨c, rest, isPiece⟩, each⟩ := List.forall_mem_cons.mp each
    obtain ⟨tail, isText⟩ := exists_tail_of_eq isPiece
    rw [isText] at isPiece
    obtain ⟨more, joined, apart, behind⟩ := exists_apart token.text.toList
      (tokens.map fun token => token.text.toList)
    have isPiece := piece_again apart isPiece
    obtain ⟨before', passed⟩ := behind (before ++ c :: tail)
    obtain ⟨again, items, same⟩ := ih each before'
    refine ⟨⟨token.kind, token.text, ⟨place before, (place before).after (c :: tail)⟩⟩ :: again,
      ?_, ?_⟩
    · rw [List.map_cons, joined, isText, List.cons_append,
        lexemesFrom_cons (by rw [isPiece]), isPiece, passed, items, ← isText]
      unfold Piece.lexeme? Piece.itemOver?
      dsimp only
      rw [String.ofList_toList]
      rfl
    · rw [List.map_cons, List.map_cons, same]

theorem collect_map_ok {ε α : Type} (values : List α) :
    collect (values.map (Except.ok (ε := ε))) = .ok values := by
  induction values with
  | nil => rfl
  | cons value values ih =>
    rw [List.map_cons, collect, ih]
    rfl

/-- Scanning the tokens of a source again gives them back. Where a source is scanned without an
error, the texts of its tokens, joined by single spaces, are scanned without an error too, into
tokens of the same kinds and texts. -/
theorem exists_tokenize_intercalate {source : String} {tokens : List Token}
    (scanned : tokenize source = .ok tokens) :
    ∃ again, tokenize (" ".intercalate (tokens.map Token.text)) = .ok again ∧
      again.map (fun token => (token.kind, token.text)) =
        tokens.map fun token => (token.kind, token.text) := by
  obtain ⟨again, items, same⟩ := exists_lexemesFrom_intercalate (scanned_of_mem scanned) []
  refine ⟨again, ?_, same⟩
  unfold tokenize
  rw [lexemes_eq, String.toList_intercalate, List.map_map]
  exact (congrArg collect items).trans (collect_map_ok again)

/-- A string keeps its doubled quote and its openings of comments, and so do the parts of a number
that has fallen back. -/
theorem exists_tokenize_again : ∃ tokens,
    tokenize "s:='it''s (*\x7b'//(*\n+2.5e-..x" = .ok tokens ∧
    tokens.map Token.text =
      ["s", ":=", "'it''s (*\x7b'", "+", "2.5", "e", "-", "..", "x"] ∧
    ∃ again, tokenize "s := 'it''s (*\x7b' + 2.5 e - .. x" = .ok again ∧
      again.map (fun token => (token.kind, token.text)) =
        tokens.map fun token => (token.kind, token.text) := by
  have texts : (tokenize "s:='it''s (*\x7b'//(*\n+2.5e-..x").map (List.map Token.text) =
      .ok ["s", ":=", "'it''s (*\x7b'", "+", "2.5", "e", "-", "..", "x"] := by
    decide +kernel
  cases scanned : tokenize "s:='it''s (*\x7b'//(*\n+2.5e-..x" with
  | error error =>
    rw [scanned] at texts
    cases texts
  | ok tokens =>
    rw [scanned] at texts
    have texts := Except.ok.inj texts
    have again := exists_tokenize_intercalate scanned
    rw [texts] at again
    exact ⟨tokens, rfl, texts, again⟩

end ShiftReduce.Pascal
