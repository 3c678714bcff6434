/-
  The tokens of the Pascal subset: keywords, identifiers, literals, operators.
-/
import ShiftReduce.Named
import ShiftReduce.Span

namespace ShiftReduce.Pascal

/-- The keywords. -/
inductive Keyword where
  | andWord | arrayWord | beginWord | caseWord | constWord
  | divWord | doWord | downtoWord | elseWord | endWord
  | forWord | functionWord | ifWord | modWord | notWord
  | ofWord | orWord | procedureWord | programWord | repeatWord
  | thenWord | toWord | untilWord | varWord | whileWord
deriving DecidableEq, Repr

/-- The keywords in alphabetical order. -/
def Keyword.all : List Keyword :=
  [.andWord, .arrayWord, .beginWord, .caseWord, .constWord, .divWord,
    .doWord, .downtoWord, .elseWord, .endWord, .forWord, .functionWord,
    .ifWord, .modWord, .notWord, .ofWord, .orWord, .procedureWord,
    .programWord, .repeatWord, .thenWord, .toWord, .untilWord, .varWord,
    .whileWord]

/-- The spelling of a keyword, in lower case. Case does not matter in a source
text. -/
def Keyword.spelling : Keyword → String
  | .andWord => "and"
  | .arrayWord => "array"
  | .beginWord => "begin"
  | .caseWord => "case"
  | .constWord => "const"
  | .divWord => "div"
  | .doWord => "do"
  | .downtoWord => "downto"
  | .elseWord => "else"
  | .endWord => "end"
  | .forWord => "for"
  | .functionWord => "function"
  | .ifWord => "if"
  | .modWord => "mod"
  | .notWord => "not"
  | .ofWord => "of"
  | .orWord => "or"
  | .procedureWord => "procedure"
  | .programWord => "program"
  | .repeatWord => "repeat"
  | .thenWord => "then"
  | .toWord => "to"
  | .untilWord => "until"
  | .varWord => "var"
  | .whileWord => "while"

/-- The name of a keyword's kind: its spelling with a capital letter. -/
def Keyword.name : Keyword → String
  | .andWord => "And"
  | .arrayWord => "Array"
  | .beginWord => "Begin"
  | .caseWord => "Case"
  | .constWord => "Const"
  | .divWord => "Div"
  | .doWord => "Do"
  | .downtoWord => "Downto"
  | .elseWord => "Else"
  | .endWord => "End"
  | .forWord => "For"
  | .functionWord => "Function"
  | .ifWord => "If"
  | .modWord => "Mod"
  | .notWord => "Not"
  | .ofWord => "Of"
  | .orWord => "Or"
  | .procedureWord => "Procedure"
  | .programWord => "Program"
  | .repeatWord => "Repeat"
  | .thenWord => "Then"
  | .toWord => "To"
  | .untilWord => "Until"
  | .varWord => "Var"
  | .whileWord => "While"

/-- The operators and punctuation marks. -/
inductive Operator where
  | assign | plus | minus | star | slash | caret
  | equal | notEqual | less | lessEqual | greater | greaterEqual
  | leftParen | rightParen | leftBracket | rightBracket | dot | doubleDot
  | comma | colon | semicolon
deriving DecidableEq, Repr

/-- The operators, in the order of their names in a listing. -/
def Operator.all : List Operator :=
  [.assign, .plus, .minus, .star, .slash, .caret, .equal,
    .notEqual, .less, .lessEqual, .greater, .greaterEqual, .leftParen, .rightParen,
    .leftBracket, .rightBracket, .dot, .doubleDot, .comma, .colon, .semicolon]

/-- The spelling of an operator. -/
def Operator.spelling : Operator → String
  | .assign => ":="
  | .plus => "+"
  | .minus => "-"
  | .star => "*"
  | .slash => "/"
  | .caret => "^"
  | .equal => "="
  | .notEqual => "<>"
  | .less => "<"
  | .lessEqual => "<="
  | .greater => ">"
  | .greaterEqual => ">="
  | .leftParen => "("
  | .rightParen => ")"
  | .leftBracket => "["
  | .rightBracket => "]"
  | .dot => "."
  | .doubleDot => ".."
  | .comma => ","
  | .colon => ":"
  | .semicolon => ";"

/-- The name of an operator's kind. -/
def Operator.name : Operator → String
  | .assign => "Assign"
  | .plus => "Plus"
  | .minus => "Minus"
  | .star => "Star"
  | .slash => "Slash"
  | .caret => "Caret"
  | .equal => "Equal"
  | .notEqual => "NotEqual"
  | .less => "Less"
  | .lessEqual => "LessEqual"
  | .greater => "Greater"
  | .greaterEqual => "GreaterEqual"
  | .leftParen => "LeftParen"
  | .rightParen => "RightParen"
  | .leftBracket => "LeftBracket"
  | .rightBracket => "RightBracket"
  | .dot => "Dot"
  | .doubleDot => "DoubleDot"
  | .comma => "Comma"
  | .colon => "Colon"
  | .semicolon => "Semicolon"

/-- What a token is. -/
inductive TokenKind where
  | keyword (word : Keyword)
  | identifier
  | integer
  | real
  | stringLiteral
  | operator (mark : Operator)
deriving DecidableEq, Repr

/-- The name of a kind of token. -/
def TokenKind.name : TokenKind → String
  | keyword word => word.name
  | identifier => "Identifier"
  | integer => "Integer"
  | real => "Real"
  | stringLiteral => "StringLiteral"
  | operator mark => mark.name

/-- A token: what it is, how it is written and where it stands. -/
structure Token where
  kind : TokenKind
  text : String
  span : Span
deriving DecidableEq, Repr

instance : ShiftReduce.Token Token := ⟨Token.text, Token.span⟩

end ShiftReduce.Pascal
