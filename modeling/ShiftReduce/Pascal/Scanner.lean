/-
  The scanner of the Pascal subset: a source text as a sequence of pieces.

  A piece is a token, a blank (white space or a comment) or a text that no
  pattern matches. It is always the longest that can be read: a number falls
  back to its last complete form, a string or a comment that is not closed
  becomes an error over all that was read for it. No piece is empty, and the
  texts of the pieces make up the source.
-/
import ShiftReduce.Pascal.Lines
import ShiftReduce.Pascal.Token

namespace ShiftReduce.Pascal

/-! ### Characters -/

/-- White space: blank, tab, line feed, carriage return and form feed. -/
def isBlank (c : Char) : Bool := c = ' ' || c = '\t' || c = '\r' || c = '\n' || c = '\x0C'

/-- A letter of the ASCII alphabet or an underscore. -/
def isLetter (c : Char) : Bool := c.isAlpha || c = '_'

/-- A character that may go on a word. -/
def isWordChar (c : Char) : Bool := isLetter c || c.isDigit

/-! ### Pieces -/

/-- What a piece of the source is. -/
inductive PieceKind where
  | blank
  | token (kind : TokenKind)
  | error
deriving DecidableEq, Repr

/-- A piece of the source. -/
structure Piece where
  kind : PieceKind
  text : List Char
deriving DecidableEq, Repr

/-! ### Words and numbers -/

/-- The kind of a word: the keyword that it spells, whatever the case of its
letters, or an identifier. -/
def wordKind (text : List Char) : TokenKind :=
  match Keyword.all.find? fun word => word.spelling.toList = text.map Char.toLower with
  | some word => .keyword word
  | none => .identifier

/-- The sign that may open an exponent. -/
def exponentSign : List Char → List Char
  | '+' :: _ => ['+']
  | '-' :: _ => ['-']
  | _ => []

/-- The exponent at the front of a text: `e` or `E`, perhaps a sign, and
digits. It is empty when there are no digits. -/
def exponent : List Char → List Char
  | [] => []
  | mark :: rest =>
    if mark = 'e' || mark = 'E' then
      let sign := exponentSign rest
      let digits := (rest.drop sign.length).takeWhile Char.isDigit
      if digits.isEmpty then [] else mark :: sign ++ digits
    else []

/-- The fraction at the front of a text: a point and digits, perhaps an
exponent. It is empty when no digit follows the point. -/
def fraction : List Char → List Char
  | '.' :: rest =>
    let digits := rest.takeWhile Char.isDigit
    if digits.isEmpty then [] else '.' :: digits ++ exponent (rest.drop digits.length)
  | _ => []

/-- The number at the front of a text that starts with a digit: a real number
if it has a fraction, else an integer. -/
def number (source : List Char) : Piece :=
  let digits := source.takeWhile Char.isDigit
  let decimals := fraction (source.drop digits.length)
  if decimals.isEmpty then ⟨.token .integer, digits⟩ else ⟨.token .real, digits ++ decimals⟩

/-! ### Strings and comments -/

/-- What follows the opening quote of a string, up to and with its closing
quote, and whether there is one. Two quotes stand for one inside the string; a
string ends with its line. -/
def stringTail : List Char → List Char × Bool
  | [] => ([], false)
  | '\'' :: '\'' :: rest =>
    let tail := stringTail rest
    ('\'' :: '\'' :: tail.1, tail.2)
  | c :: rest =>
    if c = '\'' then (['\''], true)
    else if c = '\n' then ([], false)
    else
      let tail := stringTail rest
      (c :: tail.1, tail.2)

/-- What follows the opening brace of a comment, up to and with the closing
brace, and whether there is one. -/
def braceTail : List Char → List Char × Bool
  | [] => ([], false)
  | c :: rest =>
    if c = '\x7d' then ([c], true)
    else
      let tail := braceTail rest
      (c :: tail.1, tail.2)

/-- What follows the opening `(*` of a comment, up to and with the closing
`*)`, and whether there is one. -/
def blockTail : List Char → List Char × Bool
  | [] => ([], false)
  | '*' :: ')' :: _ => (['*', ')'], true)
  | c :: rest =>
    let tail := blockTail rest
    (c :: tail.1, tail.2)

/-- A piece of the given kind if its end was found, else an error. -/
def closed (kind : PieceKind) (opening : List Char) (tail : List Char × Bool) : Piece :=
  ⟨if tail.2 then kind else .error, opening ++ tail.1⟩

/-! ### Operators -/

/-- The operators of two characters. -/
def longOperator? : Char → Char → Option Operator
  | ':', '=' => some .assign
  | '<', '>' => some .notEqual
  | '<', '=' => some .lessEqual
  | '>', '=' => some .greaterEqual
  | '.', '.' => some .doubleDot
  | _, _ => none

/-- The operators of one character. -/
def shortOperator? : Char → Option Operator
  | '+' => some .plus
  | '-' => some .minus
  | '*' => some .star
  | '/' => some .slash
  | '^' => some .caret
  | '=' => some .equal
  | '<' => some .less
  | '>' => some .greater
  | '(' => some .leftParen
  | ')' => some .rightParen
  | '[' => some .leftBracket
  | ']' => some .rightBracket
  | '.' => some .dot
  | ',' => some .comma
  | ':' => some .colon
  | ';' => some .semicolon
  | _ => none

/-- The operator at the front of a text, the longer of two; a character that
is no operator either is an error by itself. -/
def mark (c : Char) (rest : List Char) : Piece :=
  match rest.head?.bind (fun d => (longOperator? c d).map fun operator => (d, operator)) with
  | some (d, operator) => ⟨.token (.operator operator), [c, d]⟩
  | none =>
    match shortOperator? c with
    | some operator => ⟨.token (.operator operator), [c]⟩
    | none => ⟨.error, [c]⟩

/-! ### Scanning -/

/-- The piece at the front of a text that starts with `c`. -/
def piece (c : Char) (rest : List Char) : Piece :=
  if isBlank c then ⟨.blank, c :: rest.takeWhile isBlank⟩
  else if isLetter c then
    let word := c :: rest.takeWhile isWordChar
    ⟨.token (wordKind word), word⟩
  else if c.isDigit then number (c :: rest)
  else if c = '\x7b' then closed .blank [c] (braceTail rest)
  else if c = '\'' then closed (.token .stringLiteral) [c] (stringTail rest)
  else if c = '/' && rest.head? = some '/' then ⟨.blank, c :: rest.takeWhile (· ≠ '\n')⟩
  else if c = '(' && rest.head? = some '*' then closed .blank [c, '*'] (blockTail rest.tail)
  else mark c rest

/-- The pieces of a text, at most `budget` of them. -/
def piecesWithin : Nat → List Char → List Piece
  | 0, _ => []
  | _ + 1, [] => []
  | budget + 1, c :: rest =>
    let first := piece c rest
    first :: piecesWithin budget ((c :: rest).drop first.text.length)

/-- The pieces of a text. No piece is empty, so there are at most as many as
there are characters. -/
def pieces (source : List Char) : List Piece := piecesWithin source.length source

/-! ### Items -/

/-- A text that is no token, and where it stands. -/
structure LexError where
  text : String
  span : Span
deriving DecidableEq, Repr

/-- The wording of a scan error. -/
def LexError.message (error : LexError) : String :=
  "unexpected input " ++ Text.quote error.text ++ " at " ++ error.span.text

/-- What a source consists of besides blanks: tokens and errors. -/
abbrev Lexeme := Except LexError Token

/-- The item that a piece over a span is, unless it is blank. -/
def Piece.itemOver? (span : Span) (piece : Piece) : Option Lexeme :=
  let text := String.ofList piece.text
  match piece.kind with
  | .blank => none
  | .token kind => some (.ok ⟨kind, text, span⟩)
  | .error => some (.error ⟨text, span⟩)

/-- The tokens and errors of a list of pieces, the first of which is at an
offset. -/
def itemsFrom (starts : Array Nat) (offset : Nat) : List Piece → List Lexeme
  | [] => []
  | piece :: rest =>
    let behind := offset + byteLength piece.text
    (piece.itemOver? (spanAt starts offset behind)).toList ++ itemsFrom starts behind rest

/-- The tokens and errors of a source, in order. Scanning goes on after an
error. -/
def lexemes (source : String) : List Lexeme :=
  itemsFrom (lineStarts source.toList) 0 (pieces source.toList)

/-- The values of a list of results, or the first error. -/
def collect {ε α : Type} : List (Except ε α) → Except ε (List α)
  | [] => .ok []
  | .error e :: _ => .error e
  | .ok a :: rest => (collect rest).map (a :: ·)

/-- The tokens of a source, or the first error in it. -/
def tokenize (source : String) : Except LexError (List Token) := collect (lexemes source)

end ShiftReduce.Pascal
