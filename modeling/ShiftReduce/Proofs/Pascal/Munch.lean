/-
  A token is the longest text that a pattern reads.

  The scanner looks at one character and then reads as far as it can. What a text in a pattern
  can be is known from its first character (`reading_of_mem`), and for each of these ways to go
  on the scanner reads at least as far (`munch_of_piece`). So a token is the longest text at its
  place that is in any pattern, it is in the pattern of its kind, and it has the kind of a
  keyword exactly if it spells the keyword (`munch_of_mem_lexemes`).
-/
import Mathlib.Data.List.Nodup
import ShiftReduce.Proofs.Pascal.Layout

namespace ShiftReduce.Pascal

open Computability Position

variable {language : Language Char} {source text rest : List Char} {c : Char}

/-! ### Words -/

/-- The letters of a keyword are letters in either case. -/
theorem isLetter_of_toLower (word : Keyword) (isIn : c.toLower ∈ word.spelling.toList) :
    isLetter c = true := by
  have small : (word.spelling.toList.all fun d => 'a' ≤ d && d ≤ 'z') = true := by
    cases word <;> decide
  have lower := List.all_eq_true.mp small _ isIn
  rw [isLetter_iff]
  unfold Char.toLower at lower
  split_ifs at lower with upper
  · exact .inl upper
  · exact .inr (.inl (by simpa using lower))

theorem mem_all (word : Keyword) : word ∈ Keyword.all := by cases word <;> decide

theorem spelling_injective {word other : Keyword}
    (same : word.spelling.toList = other.spelling.toList) : word = other := by
  have apart : (Keyword.all.map fun word => word.spelling.toList).Nodup := by decide
  exact List.inj_on_of_nodup_map apart (mem_all word) (mem_all other) same

/-- A word that spells a keyword is the keyword, and any other is an identifier. -/
theorem wordKind_cases (text : List Char) :
    (∃ word, wordKind text = .keyword word ∧ text.map Char.toLower = word.spelling.toList) ∨
      (wordKind text = .identifier ∧
        ∀ word : Keyword, text.map Char.toLower ≠ word.spelling.toList) := by
  unfold wordKind
  cases found : Keyword.all.find? fun word => word.spelling.toList = text.map Char.toLower with
  | some word =>
    have spells := List.find?_some found
    exact .inl ⟨word, rfl, (of_decide_eq_true spells).symm⟩
  | none =>
    refine .inr ⟨rfl, fun word spells => ?_⟩
    have differs := List.find?_eq_none.mp found word (mem_all word)
    exact differs (decide_eq_true spells.symm)

theorem wordKind_eq_keyword (text : List Char) (word : Keyword) :
    wordKind text = .keyword word ↔ text.map Char.toLower = word.spelling.toList := by
  rcases wordKind_cases text with ⟨other, kind, spells⟩ | ⟨kind, differs⟩
  · rw [kind, spells]
    exact ⟨fun eq => by cases eq; rfl, fun same => by rw [spelling_injective same]⟩
  · rw [kind]
    exact iff_of_false nofun (differs word)

/-! ### Operators -/

/-- What is known of a character that an operator starts with: no word, number or string starts with
it, and neither does white space or a comment in braces. -/
structure StartsOperator (c : Char) : Prop where
  notBlank : isBlank c = false
  notLetter : isLetter c = false
  notDigit : c.isDigit = false
  notQuote : c ≠ '\''
  notBrace : c ≠ '\x7b'

theorem of_shortOperator? {mark : Operator} (reads : shortOperator? c = some mark) :
    StartsOperator c ∧ mark.spelling.toList = [c] := by
  unfold shortOperator? at reads
  split at reads <;> cases reads <;> exact ⟨⟨rfl, rfl, rfl, by decide, by decide⟩, by decide⟩

theorem of_longOperator? {d : Char} {mark : Operator} (reads : longOperator? c d = some mark) :
    StartsOperator c ∧ mark.spelling.toList = [c, d] := by
  unfold longOperator? at reads
  split at reads <;> cases reads <;> exact ⟨⟨rfl, rfl, rfl, by decide, by decide⟩, by decide⟩

/-- An operator is read as one of one character or of two. -/
theorem operator_cases (mark : Operator) :
    (∃ c, mark.spelling.toList = [c] ∧ shortOperator? c = some mark) ∨
      ∃ c d, mark.spelling.toList = [c, d] ∧ longOperator? c d = some mark := by
  cases mark <;> first | exact .inl ⟨_, rfl, rfl⟩ | exact .inr ⟨_, _, rfl, rfl⟩

/-! ### Openings -/

/-- What a text that starts with a character has to be to be in a pattern. -/
inductive Reading (c : Char) (rest : List Char) : Prop where
  | word (opens : isLetter c = true) (each : ∀ d ∈ rest, isWordChar d = true)
  | number (opens : c.isDigit = true) (reads : c :: rest ∈ digits * optional fractions)
  | string (opens : c = '\'') (reads : rest ∈ stringBody * exactly ['\''])
  | short (mark : Operator) (reads : shortOperator? c = some mark) (ends : rest = [])
  | long (d : Char) (mark : Operator) (reads : longOperator? c d = some mark) (ends : rest = [d])
  | blank (opens : isBlank c = true)
  | brace (opens : c = '\x7b')
  | line (opens : c = '/') (goes : rest.head? = some '/')
  | block (opens : c = '(') (goes : rest.head? = some '*')

theorem reading_of_mem_pattern {kind : TokenKind} (reads : c :: rest ∈ kind.pattern) :
    Reading c rest := by
  cases kind with
  | keyword word =>
    have each : ∀ d ∈ c :: rest, isLetter d = true := fun d isIn =>
      isLetter_of_toLower word (reads ▸ List.mem_map_of_mem isIn)
    obtain ⟨opens, each⟩ := List.forall_mem_cons.mp each
    exact .word opens fun d isIn => by simp [isWordChar, each d isIn]
  | identifier =>
    obtain ⟨_, _, eq, opens, each⟩ := mem_identifier.mp reads
    cases eq
    exact .word opens each
  | integer =>
    refine .number ((mem_digits.mp reads).2 c List.mem_cons_self) ?_
    rw [← List.append_nil (c :: rest)]
    exact Language.append_mem_mul reads (mem_optional.mpr (.inl rfl))
  | real =>
    obtain ⟨whole, isWhole, decimals, isFraction, eq⟩ := Language.mem_mul.mp reads
    obtain ⟨some, each⟩ := mem_digits.mp isWhole
    obtain ⟨d, whole, rfl⟩ := List.exists_cons_of_ne_nil some
    obtain rfl := (List.cons.inj eq).1
    refine .number (each d List.mem_cons_self) ?_
    rw [← eq]
    exact Language.append_mem_mul isWhole (mem_optional.mpr (.inr isFraction))
  | stringLiteral =>
    unfold TokenKind.pattern at reads
    rw [mul_assoc] at reads
    obtain ⟨_, isTail, eq⟩ := mem_exactly_mul.mp reads
    cases eq
    exact .string rfl isTail
  | operator mark =>
    have spells : c :: rest = mark.spelling.toList := reads
    rcases operator_cases mark with ⟨d, spelling, isMark⟩ | ⟨d, e, spelling, isMark⟩ <;>
      rw [spelling] at spells <;> cases spells
    · exact .short mark isMark rfl
    · exact .long e mark isMark rfl

theorem reading_of_mem (isPattern : IsPattern language) (reads : c :: rest ∈ language) :
    Reading c rest := by
  cases isPattern with
  | token kind => exact reading_of_mem_pattern reads
  | spaces => exact .blank ((mem_spaces.mp reads).2 c List.mem_cons_self)
  | braceComment =>
    unfold braceComment at reads
    rw [mul_assoc] at reads
    obtain ⟨_, _, eq⟩ := mem_exactly_mul.mp reads
    cases eq
    exact .brace rfl
  | lineComment =>
    obtain ⟨_, _, eq⟩ := mem_exactly_mul.mp reads
    cases eq
    exact .line rfl rfl
  | blockOpening =>
    cases reads
    exact .block rfl rfl

/-! ### Tokens -/

/-- A text in the pattern of a kind, and no longer text at the front of the source is in any
pattern. -/
structure Munch (kind : TokenKind) (source text : List Char) : Prop where
  front : text <+: source
  reads : text ∈ kind.pattern
  longest : ∀ language, IsPattern language → ∀ other ∈ language, other <+: source →
    other.length ≤ text.length

/-- For the longest text it suffices to look at the ways of reading on. -/
theorem Munch.of_reading {kind : TokenKind} (front : text <+: c :: rest)
    (reads : text ∈ kind.pattern)
    (longest : ∀ other, Reading c other → other <+: rest → (c :: other).length ≤ text.length) :
    Munch kind (c :: rest) text := by
  refine ⟨front, reads, fun language isPattern other isOther isFront => ?_⟩
  cases other with
  | nil => exact Nat.zero_le _
  | cons d other =>
    obtain ⟨rfl, goesOn⟩ := List.cons_prefix_cons.mp isFront
    exact longest other (reading_of_mem isPattern isOther) goesOn

/-- The digits come before the letters. -/
theorem isDigit_eq_false_of_isLetter (opens : isLetter c = true) : c.isDigit = false := by
  have above : '9' < c := by
    rcases isLetter_iff.mp opens with ⟨upper, _⟩ | ⟨lower, _⟩ | rfl
    · exact Std.lt_of_lt_of_le (by decide) upper
    · exact Std.lt_of_lt_of_le (by decide) lower
    · decide
  rw [Bool.eq_false_iff]
  exact fun isDigit => Std.not_le.mpr above (isDigit_iff.mp isDigit).2

theorem munch_word (notBlank : isBlank c = false) (opens : isLetter c = true) :
    Munch (wordKind (c :: rest.takeWhile isWordChar)) (c :: rest)
      (c :: rest.takeWhile isWordChar) := by
  refine .of_reading (List.cons_prefix_cons.mpr ⟨rfl, List.takeWhile_prefix _⟩) ?_ ?_
  · rcases wordKind_cases (c :: rest.takeWhile isWordChar) with ⟨word, kind, spells⟩ | ⟨kind, _⟩
    · rw [kind]
      exact spells
    · rw [kind]
      exact mem_identifier.mpr ⟨c, _, rfl, opens, fun d isIn => List.mem_takeWhile_imp isIn⟩
  · intro other reading front
    cases reading with
    | word _ each => exact Nat.succ_le_succ (length_le_takeWhile front each)
    | number isDigit => cases isDigit.symm.trans (isDigit_eq_false_of_isLetter opens)
    | short mark reads => cases opens.symm.trans (of_shortOperator? reads).1.notLetter
    | long d mark reads => cases opens.symm.trans (of_longOperator? reads).1.notLetter
    | blank isBlank => cases isBlank.symm.trans notBlank
    | string eq | brace eq | line eq | block eq =>
      subst eq
      cases opens

theorem munch_number {kind : TokenKind} (notBlank : isBlank c = false)
    (notLetter : isLetter c = false) (opens : c.isDigit = true)
    (isNumber : number (c :: rest) = ⟨.token kind, text⟩) : Munch kind (c :: rest) text := by
  have some : (c :: rest).takeWhile Char.isDigit ≠ [] := by
    rw [List.takeWhile_cons_of_pos opens]
    exact nofun
  obtain ⟨front, reads, longest⟩ := longest_number some isNumber
  refine .of_reading front reads fun other reading goesOn => ?_
  cases reading with
  | word isLetter => cases isLetter.symm.trans notLetter
  | number _ reads => exact longest _ reads (List.cons_prefix_cons.mpr ⟨rfl, goesOn⟩)
  | short mark reads =>
    cases opens.symm.trans (of_shortOperator? reads).1.notDigit
  | long d mark reads =>
    cases opens.symm.trans (of_longOperator? reads).1.notDigit
  | blank isBlank => cases isBlank.symm.trans notBlank
  | string eq | brace eq | line eq | block eq =>
    subst eq
    cases opens

theorem munch_string (closes : (stringTail rest).2 = true) :
    Munch .stringLiteral ('\'' :: rest) ('\'' :: (stringTail rest).1) := by
  refine .of_reading (List.cons_prefix_cons.mpr ⟨rfl, stringTail_isPrefix rest⟩) ?_ ?_
  · unfold TokenKind.pattern
    rw [mul_assoc]
    exact mem_exactly_mul.mpr ⟨_, mem_of_stringTail closes, rfl⟩
  · intro other reading goesOn
    cases reading with
    | string _ reads =>
      obtain ⟨body, isBody, _, rfl, rfl⟩ := Language.mem_mul.mp reads
      exact Nat.succ_le_succ (length_le_stringTail isBody goesOn)
    | short mark reads => exact absurd rfl (of_shortOperator? reads).1.notQuote
    | long d mark reads => exact absurd rfl (of_longOperator? reads).1.notQuote
    | word opens | number opens | blank opens | brace opens | line opens | block opens =>
      cases opens

/-- A text that starts as an operator does is an operator or opens a comment. -/
theorem Reading.of_startsOperator (isMark : StartsOperator c) (reading : Reading c rest) :
    rest = [] ∨ (∃ d mark, longOperator? c d = some mark ∧ rest = [d]) ∨
      (c = '/' ∧ rest.head? = some '/') ∨ (c = '(' ∧ rest.head? = some '*') := by
  cases reading with
  | word opens => cases opens.symm.trans isMark.notLetter
  | number opens => cases opens.symm.trans isMark.notDigit
  | string eq => exact absurd eq isMark.notQuote
  | short _ _ ends => exact .inl ends
  | long d mark reads ends => exact .inr (.inl ⟨d, mark, reads, ends⟩)
  | blank opens => cases opens.symm.trans isMark.notBlank
  | brace eq => exact absurd eq isMark.notBrace
  | line eq goes => exact .inr (.inr (.inl ⟨eq, goes⟩))
  | block eq goes => exact .inr (.inr (.inr ⟨eq, goes⟩))

/-- A mark is read as the longer of two operators, unless it opens a comment. -/
theorem munch_mark {kind : TokenKind} (notLine : ¬ (c = '/' ∧ rest.head? = some '/'))
    (notBlock : ¬ (c = '(' ∧ rest.head? = some '*')) (isMark : mark c rest = ⟨.token kind, text⟩) :
    Munch kind (c :: rest) text := by
  have head {d : Char} {other : List Char} (goesOn : other <+: rest)
      (isHead : other.head? = some d) : rest.head? = some d := by
    obtain ⟨more, rfl⟩ := goesOn
    cases other with
    | nil => cases isHead
    | cons _ _ => exact isHead
  have cases_of {other : List Char} (isChar : StartsOperator c) (reading : Reading c other)
      (goesOn : other <+: rest) :
      other = [] ∨ ∃ d mark, longOperator? c d = some mark ∧ other = [d] := by
    rcases reading.of_startsOperator isChar with ends | long | ⟨eq, goes⟩ | ⟨eq, goes⟩
    · exact .inl ends
    · exact .inr long
    · exact absurd ⟨eq, head goesOn goes⟩ notLine
    · exact absurd ⟨eq, head goesOn goes⟩ notBlock
  unfold mark at isMark
  split at isMark
  next d operator found =>
    cases isMark
    obtain ⟨⟨more, rfl⟩, reads⟩ := of_longMark? found
    obtain ⟨isChar, spelling⟩ := of_longOperator? reads
    refine .of_reading ⟨more, rfl⟩ spelling.symm fun other reading goesOn => ?_
    rcases cases_of isChar reading goesOn with rfl | ⟨_, _, _, rfl⟩ <;> simp
  next found =>
    split at isMark
    next operator reads =>
      cases isMark
      obtain ⟨isChar, spelling⟩ := of_shortOperator? reads
      refine .of_reading ⟨rest, rfl⟩ spelling.symm fun other reading goesOn => ?_
      rcases cases_of isChar reading goesOn with rfl | ⟨d, operator', isLong, rfl⟩
      · exact Nat.le_refl 1
      -- the longer operator would have been read
      · rw [head goesOn rfl, Option.bind_some, isLong] at found
        cases found
    · cases isMark

/-- A token is the longest text at its place that is in any pattern. -/
theorem munch_of_piece {kind : TokenKind} (isPiece : piece c rest = ⟨.token kind, text⟩) :
    Munch kind (c :: rest) text := by
  unfold piece at isPiece
  split_ifs at isPiece with blank letter digit brace quote line block
  · cases isPiece
  · cases isPiece
    exact munch_word (by simpa using blank) letter
  · exact munch_number (by simpa using blank) (by simpa using letter) digit isPiece
  · cases (of_closed isPiece nofun).2.1
  · obtain ⟨closes, eq, rfl⟩ := of_closed isPiece nofun
    cases eq
    subst quote
    exact munch_string closes
  · cases isPiece
  · cases (of_closed isPiece nofun).2.1
  · exact munch_mark (by simpa using line) (by simpa using block) isPiece

/-- A text that starts with a letter is read as a word. -/
theorem piece_of_isLetter (opens : isLetter c = true) (rest : List Char) :
    piece c rest = ⟨.token (wordKind (c :: rest.takeWhile isWordChar)),
      c :: rest.takeWhile isWordChar⟩ := by
  have notBlank : ¬ isBlank c = true := by
    intro blank
    have all : ([' ', '\t', '\r', '\n', '\x0C'].all fun c => !isLetter c) = true := by decide
    simpa [opens] using List.all_eq_true.mp all c (isBlank_iff.mp blank)
  unfold piece
  rw [if_neg notBlank, if_pos opens]

theorem exists_tail_of_eq {kind : PieceKind} (isPiece : piece c rest = ⟨kind, text⟩) :
    ∃ tail, text = c :: tail := by
  obtain ⟨tail, isText, _⟩ := exists_tail_of_piece c rest
  rw [isPiece] at isText
  exact ⟨tail, isText⟩

/-- A token has the kind of a keyword exactly if it spells it. -/
theorem kind_eq_keyword_iff {kind : TokenKind} (isPiece : piece c rest = ⟨.token kind, text⟩)
    (word : Keyword) :
    kind = .keyword word ↔ text.map Char.toLower = word.spelling.toList := by
  refine ⟨fun eq => ?_, fun spells => ?_⟩
  · subst eq
    exact (munch_of_piece isPiece).reads
  · obtain ⟨tail, rfl⟩ := exists_tail_of_eq isPiece
    have opens := isLetter_of_toLower word (spells ▸ List.mem_map_of_mem List.mem_cons_self)
    cases (piece_of_isLetter opens rest).symm.trans isPiece
    exact (wordKind_eq_keyword _ word).mpr spells

theorem singleton_mem_letter : [c] ∈ letter ↔ isLetter c = true := by
  rw [isLetter_iff]
  exact ⟨fun ⟨_, holds, eq⟩ => by cases eq; exact holds, fun holds => ⟨c, holds, rfl⟩⟩

/-- Any other token that starts with a letter is an identifier. -/
theorem kind_eq_identifier_iff {kind : TokenKind} (isPiece : piece c rest = ⟨.token kind, text⟩) :
    kind = .identifier ↔ (∃ first, text.head? = some first ∧ [first] ∈ letter) ∧
      ∀ word : Keyword, text.map Char.toLower ≠ word.spelling.toList := by
  refine ⟨fun eq => ⟨?_, fun word spells => ?_⟩, fun ⟨⟨first, isHead, opens⟩, differs⟩ => ?_⟩
  · subst eq
    obtain ⟨first, tail, rfl, opens, _⟩ := mem_identifier.mp (munch_of_piece isPiece).reads
    exact ⟨first, rfl, singleton_mem_letter.mpr opens⟩
  · rw [(kind_eq_keyword_iff isPiece word).mpr spells] at eq
    cases eq
  · obtain ⟨tail, rfl⟩ := exists_tail_of_eq isPiece
    cases isHead
    cases (piece_of_isLetter (singleton_mem_letter.mp opens) rest).symm.trans isPiece
    rcases wordKind_cases (c :: rest.takeWhile isWordChar) with ⟨word, _, spells⟩ | ⟨kind, _⟩
    · exact absurd spells (differs word)
    · exact kind

/-- No token is read where a block comment opens. -/
theorem not_blockOpening {kind : TokenKind} (isPiece : piece c rest = ⟨.token kind, text⟩) :
    ¬ ['(', '*'] <+: c :: rest := by
  rintro ⟨more, eq⟩
  cases eq
  have comment : piece '(' ('*' :: more) = closed .blank ['(', '*'] (blockTail more) := rfl
  cases (of_closed (comment.symm.trans isPiece) nofun).2.1

theorem Piece.of_lexeme?_ok {start : Position} {piece : Piece} {token : Token}
    (isToken : piece.lexeme? start = some (.ok token)) :
    piece = ⟨.token token.kind, token.text.toList⟩ := by
  obtain ⟨kind, text⟩ := piece
  unfold Piece.lexeme? Piece.itemOver? at isToken
  dsimp only at isToken
  split at isToken <;> cases isToken
  rw [String.toList_ofList]

/-- A token is the longest text at its place that is in any pattern of tokens and blanks, and the
pattern of its kind has it. It has the kind of a keyword exactly if it is the keyword, whatever the
case of its letters; if it starts with a letter or an underscore and is no keyword, it is an
identifier. The opening of a block comment is never read as a token. -/
theorem munch_of_mem_lexemes {source : String} {token : Token}
    (isIn : .ok token ∈ lexemes source) :
    ∃ before rest : List Char, source.toList = before ++ rest ∧
      token.span = ⟨place before, place (before ++ token.text.toList)⟩ ∧
      Munch token.kind rest token.text.toList ∧
      (∀ word : Keyword, token.kind = .keyword word ↔
        token.text.toList.map Char.toLower = word.spelling.toList) ∧
      (token.kind = .identifier ↔
        (∃ first, token.text.toList.head? = some first ∧ [first] ∈ letter) ∧
        ∀ word : Keyword, token.text.toList.map Char.toLower ≠ word.spelling.toList) ∧
      ¬ ['(', '*'] <+: rest := by
  rw [lexemes_eq] at isIn
  obtain ⟨before, c, tail, behind, isSource, isText, isLexeme⟩ := exists_piece_of_mem isIn
  obtain ⟨text, stands⟩ := Piece.of_lexeme? isLexeme
  rw [after_place, ← text] at stands
  have isPiece := Piece.of_lexeme?_ok isLexeme
  exact ⟨before, c :: (tail ++ behind), isSource, stands, munch_of_piece isPiece,
    kind_eq_keyword_iff isPiece, kind_eq_identifier_iff isPiece, not_blockOpening isPiece⟩

/-- A number falls back to its last complete form, so it is a real number without an exponent. -/
theorem munch_of_number_falling_back : ∃ before rest : List Char,
    "x := 1.5e+".toList = before ++ rest ∧
    (⟨⟨0, 5⟩, ⟨0, 8⟩⟩ : Span) = ⟨place before, place (before ++ "1.5".toList)⟩ ∧
    Munch .real rest "1.5".toList := by
  have isIn : .ok ⟨.real, "1.5", ⟨⟨0, 5⟩, ⟨0, 8⟩⟩⟩ ∈ lexemes "x := 1.5e+" := by decide +kernel
  obtain ⟨before, rest, isSource, stands, munch, _⟩ := munch_of_mem_lexemes isIn
  exact ⟨before, rest, isSource, stands, munch⟩

end ShiftReduce.Pascal
