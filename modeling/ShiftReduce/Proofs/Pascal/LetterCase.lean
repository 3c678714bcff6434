/-
  The case of letters in a scan.

  The scanner asks a character for its class or compares it with a mark, and the answers are the
  same for a capital and its small letter (`apply_toLower`); a keyword is known by its small
  letters. So the first piece of a text in small letters is the first piece of the text, in small
  letters (`piece_lower`), and the items of the two stand at the same places and are of the same
  kinds (`lexemes_toLower`).
-/
import Mathlib.Tactic.IntervalCases
import ShiftReduce.Proofs.Pascal.Respacing

namespace ShiftReduce.Pascal

/-! ### Characters -/

/-- The capital letters, which are the characters that have another one for their small letter. -/
def capitals : List Char := "ABCDEFGHIJKLMNOPQRSTUVWXYZ".toList

theorem mem_capitals_or (c : Char) : c ∈ capitals ∨ c.toLower = c := by
  by_cases capital : 65 ≤ c.toNat ∧ c.toNat ≤ 90
  · obtain ⟨low, high⟩ := capital
    have named : Char.ofNat c.toNat = c := Char.ofNat_toNat c
    generalize c.toNat = code at named low high
    rw [← named]
    interval_cases code <;> decide
  · exact .inr (dif_neg capital)

/-- What is said of each capital and its small letter alike is said of all characters so. -/
theorem apply_toLower {α : Type} [DecidableEq α] {f : Char → α}
    (alike : (capitals.all fun c => f c.toLower = f c) = true) (c : Char) :
    f c.toLower = f c := by
  rcases mem_capitals_or c with capital | same
  · exact of_decide_eq_true (List.all_eq_true.mp alike c capital)
  · rw [same]

@[simp] theorem toLower_toLower (c : Char) : c.toLower.toLower = c.toLower :=
  apply_toLower (by decide) c

@[simp] theorem isBlank_toLower (c : Char) : isBlank c.toLower = isBlank c :=
  apply_toLower (by decide) c

@[simp] theorem isLetter_toLower (c : Char) : isLetter c.toLower = isLetter c :=
  apply_toLower (by decide) c

@[simp] theorem isDigit_toLower (c : Char) : c.toLower.isDigit = c.isDigit :=
  apply_toLower (by decide) c

@[simp] theorem isWordChar_toLower (c : Char) : isWordChar c.toLower = isWordChar c := by
  rw [isWordChar, isWordChar, isLetter_toLower, isDigit_toLower]

/-- Only a letter has another one for its small letter. -/
theorem toLower_eq {c : Char} (noLetter : isLetter c = false) : c.toLower = c := by
  rcases mem_capitals_or c with capital | same
  · have letters : capitals.all isLetter = true := by decide
    rw [List.all_eq_true.mp letters c capital] at noLetter
    cases noLetter
  · exact same

/-- A character that is no letter is the small letter of itself only. -/
theorem toLower_eq_iff {mark : Char} (noLetter : isLetter mark = false) (c : Char) :
    c.toLower = mark ↔ c = mark := by
  refine ⟨fun eq => ?_, fun eq => eq ▸ toLower_eq (eq ▸ noLetter)⟩
  have other : isLetter c = false := by rw [← isLetter_toLower, eq, noLetter]
  rw [← toLower_eq other, eq]

/-! ### Texts -/

/-- The text in small letters. -/
def lower (text : List Char) : List Char := text.map Char.toLower

@[simp] theorem lower_cons (c : Char) (rest : List Char) :
    lower (c :: rest) = c.toLower :: lower rest := rfl

@[simp] theorem lower_append (text rest : List Char) :
    lower (text ++ rest) = lower text ++ lower rest :=
  List.map_append

@[simp] theorem length_lower (text : List Char) : (lower text).length = text.length :=
  List.length_map _

@[simp] theorem lower_eq_nil_iff {text : List Char} : lower text = [] ↔ text = [] :=
  List.map_eq_nil_iff

@[simp] theorem lower_lower (text : List Char) : lower (lower text) = lower text := by
  simp [lower]

theorem drop_lower (count : Nat) (text : List Char) :
    (lower text).drop count = lower (text.drop count) :=
  List.map_drop.symm

theorem takeWhile_lower {p : Char → Bool} (alike : ∀ c, p c.toLower = p c) (text : List Char) :
    (lower text).takeWhile p = lower (text.takeWhile p) := by
  have same : p ∘ Char.toLower = p := funext alike
  rw [lower, List.takeWhile_map, same, lower]

/-- A mark in front stays where it is, and it does not come from another character. -/
theorem exists_cons_of_lower {mark : Char} (noLetter : isLetter mark = false)
    {text more : List Char} (eq : lower text = mark :: more) :
    ∃ rest, text = mark :: rest ∧ lower rest = more := by
  obtain ⟨c, rest, rfl, isMark, isRest⟩ := List.map_eq_cons_iff.mp eq
  exact ⟨rest, by rw [(toLower_eq_iff noLetter c).mp isMark], isRest⟩

theorem head?_lower_eq_iff {mark : Char} (noLetter : isLetter mark = false) (text : List Char) :
    (lower text).head? = some mark ↔ text.head? = some mark := by
  cases text with
  | nil => rfl
  | cons c rest =>
    rw [lower_cons, List.head?_cons, List.head?_cons, Option.some_inj, Option.some_inj,
      toLower_eq_iff noLetter]

/-! ### Words and numbers -/

theorem wordKind_lower (text : List Char) : wordKind (lower text) = wordKind text := by
  unfold wordKind
  rw [← lower, lower_lower, lower]

theorem exponentSign_lower (rest : List Char) : exponentSign (lower rest) = exponentSign rest := by
  unfold exponentSign
  split
  next eq =>
    obtain ⟨rest, rfl, _⟩ := exists_cons_of_lower rfl eq
    rfl
  next eq =>
    obtain ⟨rest, rfl, _⟩ := exists_cons_of_lower rfl eq
    rfl
  next noPlus noMinus =>
    split
    · exact absurd rfl (noPlus _)
    · exact absurd rfl (noMinus _)
    · rfl

theorem lower_exponentSign (rest : List Char) : lower (exponentSign rest) = exponentSign rest := by
  unfold exponentSign
  split <;> rfl

theorem exponentDigits_lower (rest : List Char) :
    exponentDigits (lower rest) = lower (exponentDigits rest) := by
  rw [exponentDigits, exponentSign_lower, drop_lower, takeWhile_lower isDigit_toLower,
    exponentDigits]

/-- An exponent may be marked by a capital or by a small letter. -/
theorem exponent_lower (source : List Char) :
    exponent (lower source) = lower (exponent source) := by
  cases source with
  | nil => rfl
  | cons mark rest =>
    have isMark : mark.toLower ∈ ['e', 'E'] ↔ mark ∈ ['e', 'E'] :=
      decide_eq_decide.mp (apply_toLower (f := fun c => decide (c ∈ ['e', 'E'])) (by decide) mark)
    simp only [lower_cons, exponent_cons, isMark, exponentDigits_lower, exponentSign_lower, Ne,
      lower_eq_nil_iff]
    split_ifs
    · rw [lower_cons, lower_append, lower_exponentSign]
    · rfl

theorem fraction_lower (source : List Char) :
    fraction (lower source) = lower (fraction source) := by
  cases source with
  | nil => rfl
  | cons c rest =>
    by_cases point : c = '.'
    · rw [point]
      show fraction ('.' :: lower rest) = _
      simp only [fraction_point, takeWhile_lower isDigit_toLower, length_lower, drop_lower,
        exponent_lower, lower_eq_nil_iff]
      split_ifs
      · rfl
      · rw [lower_cons, lower_append]
        rfl
    · rw [lower_cons, fraction_eq_nil point, fraction_eq_nil (by rwa [Ne, toLower_eq_iff rfl])]
      rfl

/-- The piece in small letters. -/
def Piece.lower (piece : Piece) : Piece := ⟨piece.kind, Pascal.lower piece.text⟩

theorem number_lower (source : List Char) : number (lower source) = (number source).lower := by
  rw [number_eq, number_eq, Piece.lower, takeWhile_lower isDigit_toLower, length_lower, drop_lower,
    fraction_lower, lower_append]
  simp only [lower_eq_nil_iff]

/-! ### Strings, comments and operators -/

/-- What was read of a string or a comment, in small letters. -/
def lowerTail (tail : List Char × Bool) : List Char × Bool := (lower tail.1, tail.2)

theorem stringTail_lower (rest : List Char) :
    stringTail (lower rest) = lowerTail (stringTail rest) := by
  fun_induction stringTail rest with
  | case1 => rfl
  | case2 rest tail ih =>
    show stringTail ('\'' :: '\'' :: lower rest) = _
    rw [stringTail_pair, ih]
    rfl
  | case3 rest single =>
    -- a second quote would have been one before
    show stringTail ('\'' :: lower rest) = (['\''], true)
    rw [stringTail, if_pos rfl]
    intro more _ eq
    obtain ⟨rest, rfl, _⟩ := exists_cons_of_lower rfl eq
    exact single rest rfl rfl
  | case4 rest _ _ =>
    show stringTail ('\n' :: lower rest) = ([], false)
    rw [stringTail, if_neg (by decide), if_pos rfl]
    exact fun _ eq => absurd eq (by decide)
  | case5 c rest _ notQuote notNewline tail ih =>
    have quote : c.toLower = '\'' ↔ c = '\'' := toLower_eq_iff rfl c
    have newline : c.toLower = '\n' ↔ c = '\n' := toLower_eq_iff rfl c
    have inside : c.toLower ∉ ['\'', '\n'] := by simp [quote, newline, notQuote, notNewline]
    rw [lower_cons, stringTail_cons inside, ih]
    rfl

theorem braceTail_lower (rest : List Char) :
    braceTail (lower rest) = lowerTail (braceTail rest) := by
  fun_induction braceTail rest with
  | case1 => rfl
  | case2 rest => rfl
  | case3 c rest other tail ih =>
    rw [lower_cons, braceTail, if_neg (by rwa [toLower_eq_iff rfl]), ih]
    rfl

theorem blockTail_lower (rest : List Char) :
    blockTail (lower rest) = lowerTail (blockTail rest) := by
  fun_induction blockTail rest with
  | case1 => rfl
  | case2 rest => rfl
  | case3 c rest goesOn tail ih =>
    rw [lower_cons, blockTail, ih]
    · rfl
    · intro more star eq
      obtain ⟨rest, rfl, _⟩ := exists_cons_of_lower rfl eq
      exact goesOn rest ((toLower_eq_iff rfl c).mp star) rfl

theorem closed_lower (kind : PieceKind) (opening : List Char) (tail : List Char × Bool) :
    closed kind (lower opening) (lowerTail tail) = (closed kind opening tail).lower := by
  rw [closed, closed, Piece.lower, lower_append]
  rfl

theorem shortOperator?_toLower (c : Char) : shortOperator? c.toLower = shortOperator? c :=
  apply_toLower (by decide) c

theorem longOperator?_eq_none {c d : Char} (letter : isLetter c = true ∨ isLetter d = true) :
    longOperator? c d = none := by
  unfold longOperator?
  split <;> first | rfl | (revert letter; decide)

theorem longOperator?_toLower (c d : Char) :
    longOperator? c.toLower d.toLower = longOperator? c d := by
  by_cases letter : isLetter c = true ∨ isLetter d = true
  · rw [longOperator?_eq_none letter, longOperator?_eq_none (by simpa using letter)]
  · obtain ⟨first, second⟩ : isLetter c = false ∧ isLetter d = false := by simpa using letter
    rw [toLower_eq first, toLower_eq second]

theorem mark_lower (c : Char) (rest : List Char) :
    mark c.toLower (lower rest) = (mark c rest).lower := by
  have long : (lower rest).head?.bind (fun d =>
        (longOperator? c.toLower d).map fun operator => (d, operator)) =
      (rest.head?.bind fun d => (longOperator? c d).map fun operator => (d, operator)).map
        fun found => (found.1.toLower, found.2) := by
    cases rest with
    | nil => rfl
    | cons d rest =>
      rw [lower_cons, List.head?_cons, List.head?_cons, Option.bind_some, Option.bind_some,
        longOperator?_toLower, Option.map_map]
      rfl
  unfold mark
  rw [long, shortOperator?_toLower]
  cases rest.head?.bind fun d => (longOperator? c d).map fun operator => (d, operator) with
  | some found => rfl
  | none => cases shortOperator? c <;> rfl

/-! ### Pieces -/

/-- The first piece of a text in small letters is its first piece, in small letters. -/
theorem piece_lower (c : Char) (rest : List Char) :
    piece c.toLower (lower rest) = (piece c rest).lower := by
  have brace : c.toLower = '\x7b' ↔ c = '\x7b' := toLower_eq_iff rfl c
  have quote : c.toLower = '\'' ↔ c = '\'' := toLower_eq_iff rfl c
  have slash : c.toLower = '/' ↔ c = '/' := toLower_eq_iff rfl c
  have paren : c.toLower = '(' ↔ c = '(' := toLower_eq_iff rfl c
  have slashes : (lower rest).head? = some '/' ↔ rest.head? = some '/' := head?_lower_eq_iff rfl rest
  have star : (lower rest).head? = some '*' ↔ rest.head? = some '*' := head?_lower_eq_iff rfl rest
  have newline (d : Char) : decide (d.toLower ≠ '\n') = decide (d ≠ '\n') := by
    have same : d.toLower = '\n' ↔ d = '\n' := toLower_eq_iff rfl d
    simp only [same, ne_eq]
  unfold piece
  simp only [isBlank_toLower, isLetter_toLower, isDigit_toLower, brace, quote, slash, paren,
    slashes, star]
  split_ifs with blank letter digit isBrace isQuote line block
  · rw [takeWhile_lower isBlank_toLower]
    rfl
  · rw [takeWhile_lower isWordChar_toLower, ← lower_cons, wordKind_lower]
    rfl
  · exact number_lower (c :: rest)
  · rw [braceTail_lower]
    exact closed_lower .blank [c] (braceTail rest)
  · rw [stringTail_lower]
    exact closed_lower _ [c] (stringTail rest)
  · rw [takeWhile_lower newline]
    rfl
  · have behind : (lower rest).tail = lower rest.tail := List.map_tail.symm
    rw [behind, blockTail_lower]
    exact closed_lower .blank [c, '*'] (blockTail rest.tail)
  · exact mark_lower c rest

/-! ### Items -/

theorem next_toLower (p : Position) (c : Char) : p.next c.toLower = p.next c := by
  have newline : c.toLower = '\n' ↔ c = '\n' := toLower_eq_iff rfl c
  have size : c.toLower.utf8Size = c.utf8Size := apply_toLower (by decide) c
  unfold Position.next
  simp only [newline, size]

/-- Small letters take as much room as capitals. -/
theorem after_lower (p : Position) (text : List Char) : p.after (lower text) = p.after text := by
  induction text generalizing p with
  | nil => rfl
  | cons c rest ih =>
    show (p.next c.toLower).after (lower rest) = (p.next c).after rest
    rw [next_toLower, ih]

/-- The token in small letters. -/
def Token.lower (token : Token) : Token := { token with text := token.text.toLower }

/-- The scan error in small letters. -/
def LexError.lower (error : LexError) : LexError := { error with text := error.text.toLower }

/-- The item in small letters. -/
def Lexeme.lower : Lexeme → Lexeme
  | .ok token => .ok token.lower
  | .error error => .error error.lower

theorem toList_toLower (source : String) : source.toLower.toList = lower source.toList :=
  String.toList_map

theorem ofList_lower (text : List Char) :
    String.ofList (lower text) = (String.ofList text).toLower := by
  rw [← String.toList_inj, toList_toLower, String.toList_ofList, String.toList_ofList]

theorem lexeme?_lower (start : Position) (piece : Piece) :
    piece.lower.lexeme? start = (piece.lexeme? start).map Lexeme.lower := by
  obtain ⟨kind, text⟩ := piece
  unfold Piece.lexeme? Piece.itemOver?
  simp only [Piece.lower, after_lower, ofList_lower]
  cases kind <;> rfl

theorem lexemesFrom_lower (start : Position) (ps : List Piece) :
    lexemesFrom start (ps.map Piece.lower) = (lexemesFrom start ps).map Lexeme.lower := by
  induction ps generalizing start with
  | nil => rfl
  | cons piece ps ih =>
    have after : start.after piece.lower.text = start.after piece.text :=
      after_lower start piece.text
    rw [List.map_cons, lexemesFrom, lexemesFrom, lexeme?_lower, after, ih, List.map_append,
      Option.toList_map]

theorem pieces_lower (source : List Char) :
    pieces (lower source) = (pieces source).map Piece.lower := by
  induction source using pieces_induction with
  | nil => rfl
  | cons c tail behind isText ih =>
    have isText' : (piece c.toLower (lower tail ++ lower behind)).text =
        c.toLower :: lower tail := by
      rw [← lower_append, piece_lower, Piece.lower, isText, lower_cons]
    rw [pieces_cons isText, lower_cons, lower_append, pieces_cons isText', ih, List.map_cons,
      ← lower_append, piece_lower]

/-- The items of a source in small letters are its items, in small letters: each is of the same
kind and stands at the same place. -/
theorem lexemes_toLower (source : String) :
    lexemes source.toLower = (lexemes source).map Lexeme.lower := by
  rw [lexemes_eq, lexemes_eq, toList_toLower, pieces_lower, lexemesFrom_lower]

theorem collect_lower (items : List Lexeme) :
    collect (items.map Lexeme.lower) =
      ((collect items).mapError LexError.lower).map (List.map Token.lower) := by
  induction items with
  | nil => rfl
  | cons item items ih =>
    cases item with
    | error error => rfl
    | ok token =>
      rw [List.map_cons]
      show (collect (items.map Lexeme.lower)).map (token.lower :: ·) = _
      rw [ih, collect]
      cases collect items <;> rfl

/-- So a source in small letters has its tokens, or its first error, in small letters. -/
theorem tokenize_toLower (source : String) :
    tokenize source.toLower =
      ((tokenize source).mapError LexError.lower).map (List.map Token.lower) := by
  rw [tokenize, lexemes_toLower, collect_lower, tokenize]

end ShiftReduce.Pascal
