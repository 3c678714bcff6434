/-
  The grammar of the Pascal subset.

  The expression rules are ambiguous and rely on precedence: `*` and `/` bind
  at level one, `^` at level two and everything else at level zero. `else`
  associates to the right, so it belongs to the nearest `if` that is open.

  A parser recovers at statements: one that cannot be read is replaced by an
  empty statement.
-/
import ShiftReduce.Table.Basic
import ShiftReduce.Pascal.Token

namespace ShiftReduce.Pascal

/-! ### Symbols and nodes -/

/-- The terminals, in the order in which states try their actions. -/
inductive Terminal where
  | programWord | beginWord | endWord | ifWord | thenWord | elseWord | whileWord | doWord
  | forWord | toWord | downtoWord
  | identifier | integer
  | assign | semicolon | dot | plus | minus | star | slash | caret | less | greater
  | leftParen | rightParen
deriving DecidableEq, Repr

instance : Ordered Terminal :=
  .ofRank Terminal.ctorIdx fun a b h => by cases a <;> cases b <;> first | rfl | cases h

namespace Terminal

/-- The kind of the tokens that a terminal accepts. -/
def kind : Terminal → TokenKind
  | programWord => .keyword .programWord
  | beginWord => .keyword .beginWord
  | endWord => .keyword .endWord
  | ifWord => .keyword .ifWord
  | thenWord => .keyword .thenWord
  | elseWord => .keyword .elseWord
  | whileWord => .keyword .whileWord
  | doWord => .keyword .doWord
  | forWord => .keyword .forWord
  | toWord => .keyword .toWord
  | downtoWord => .keyword .downtoWord
  | identifier => .identifier
  | integer => .integer
  | assign => .operator .assign
  | semicolon => .operator .semicolon
  | dot => .operator .dot
  | plus => .operator .plus
  | minus => .operator .minus
  | star => .operator .star
  | slash => .operator .slash
  | caret => .operator .caret
  | less => .operator .less
  | greater => .operator .greater
  | leftParen => .operator .leftParen
  | rightParen => .operator .rightParen

/-- The name of a terminal: its spelling if it has only one. -/
def name (t : Terminal) : String :=
  match t.kind with
  | .keyword word => word.spelling
  | .operator mark => mark.spelling
  | .identifier => "id"
  | _ => "num"

/-- How tightly a terminal binds. -/
def precedence : Terminal → Int
  | star => 1
  | slash => 1
  | caret => 2
  | _ => 0

/-- Which way ties go: `else` prefers the nearest `if`. -/
def assoc : Terminal → Assoc
  | elseWord => .right
  | _ => .left

end Terminal

/-- The alphabet: every terminal accepts the tokens of one kind. -/
def alphabet (t : Terminal) : ShiftReduce.Terminal Token where
  name := t.name
  precedence := t.precedence
  assoc := t.assoc
  accepts token := token.kind = t.kind

/-- The nonterminals. -/
inductive Nonterminal where
  | start | program | compoundStatement | statements | statement | ifStatement | forStatement
  | boolExpression | expression | factor
deriving DecidableEq, Repr

instance : Ordered Nonterminal :=
  .ofRank Nonterminal.ctorIdx fun a b h => by cases a <;> cases b <;> first | rfl | cases h

/-- The name of a nonterminal. -/
def Nonterminal.name : Nonterminal → String
  | start => "Start"
  | program => "S"
  | compoundStatement => "CompoundStatement"
  | statements => "Statements"
  | statement => "Statement"
  | ifStatement => "IfStatement"
  | forStatement => "ForStatement"
  | boolExpression => "BoolExpression"
  | expression => "Expression"
  | factor => "Factor"

instance : Named Nonterminal := ⟨Nonterminal.name, Nonterminal.name⟩

/-- The kinds of nodes. A `statements` node lists its statements and the
semicolons between them; a `statement` node wraps a compound, `if` or `for`
statement and is empty for an empty one. -/
inductive NodeKind where
  | start | program | compoundStatement | statements | assign | statement | while_ | if_ | ifElse
  | forUp | forDown | relation | expression | factor
deriving DecidableEq, Repr

/-- The kinds of nodes, in order. -/
def NodeKind.all : List NodeKind :=
  [.start, .program, .compoundStatement, .statements, .assign, .statement, .while_, .if_, .ifElse,
    .forUp, .forDown, .relation, .expression, .factor]

/-- The name of a kind of node. -/
def NodeKind.name : NodeKind → String
  | start => "Start"
  | program => "Program"
  | compoundStatement => "CompoundStatement"
  | statements => "Statements"
  | assign => "Assign"
  | statement => "Statement"
  | while_ => "While"
  | if_ => "If"
  | ifElse => "IfElse"
  | forUp => "ForUp"
  | forDown => "ForDown"
  | relation => "Relation"
  | expression => "Expression"
  | factor => "Factor"

instance : Named NodeKind := ⟨NodeKind.name, NodeKind.name⟩

/-- The trees of the Pascal subset. -/
abbrev Tree := ShiftReduce.Tree Token NodeKind

/-- The rules of the Pascal subset. -/
abbrev Rule := ShiftReduce.Rule Terminal Nonterminal Token NodeKind

/-! ### Rules -/

/-- The node of a statement list that has grown by one: a list on the left is
continued, not nested. -/
def appendStatement : List Tree → Tree
  | .branch .statements listed :: added => .branch .statements (listed ++ added)
  | children => .branch .statements children

/-- A terminal in a rule body. -/
abbrev tok (terminal : Terminal) : Symbol Terminal Nonterminal := .terminal terminal

/-- A nonterminal in a rule body. -/
abbrev non (key : Nonterminal) : Symbol Terminal Nonterminal := .nonterminal key

/-- The rule for an infix operator between expressions. -/
def operatorRule (operator : Terminal) (right : Nonterminal) : Rule where
  key := .expression
  kind := .expression
  parts := [non .expression, tok operator, non right]

/-- The rule for a `for` loop that counts up or down. -/
def forRule (kind : NodeKind) (direction : Terminal) : Rule where
  key := .forStatement
  kind := kind
  parts := [tok .forWord, tok .identifier, tok .assign, non .expression, tok direction,
    non .expression, tok .doWord, non .statement]

/-- The rule for a comparison. -/
def relationRule (operator : Terminal) : Rule where
  key := .boolExpression
  kind := .relation
  parts := [non .expression, tok operator, non .expression]

/-- The rule for a statement that is of another sort. -/
def wrapperRule (inner : Nonterminal) : Rule where
  key := .statement
  kind := .statement
  parts := [non inner]

/-- The production rules, the start rule first. -/
def rules : List Rule :=
  [{ key := .start, kind := .start, parts := [non .program] },
    { key := .program, kind := .program,
      parts := [tok .programWord, tok .identifier, tok .semicolon, non .compoundStatement,
        tok .dot] },
    { key := .compoundStatement, kind := .compoundStatement,
      parts := [tok .beginWord, non .statements, tok .endWord] },
    { key := .statements, kind := .statements, parts := [non .statement] },
    { key := .statements, kind := .statements,
      parts := [non .statements, tok .semicolon, non .statement], build := appendStatement },
    { key := .statement, kind := .assign, parts := [tok .identifier, tok .assign, non .expression] },
    wrapperRule .compoundStatement,
    wrapperRule .ifStatement,
    wrapperRule .forStatement,
    { key := .statement, kind := .while_,
      parts := [tok .whileWord, non .boolExpression, tok .doWord, non .statement] },
    { key := .statement, kind := .statement, parts := [.epsilon] },
    { key := .ifStatement, kind := .if_,
      parts := [tok .ifWord, non .boolExpression, tok .thenWord, non .statement] },
    { key := .ifStatement, kind := .ifElse,
      parts := [tok .ifWord, non .boolExpression, tok .thenWord, non .statement, tok .elseWord,
        non .statement] },
    forRule .forUp .toWord,
    forRule .forDown .downtoWord,
    relationRule .less,
    relationRule .greater,
    operatorRule .plus .expression,
    operatorRule .minus .expression,
    operatorRule .star .expression,
    operatorRule .slash .expression,
    operatorRule .caret .factor,
    { key := .expression, kind := .expression, parts := [non .factor] },
    { key := .factor, kind := .factor, parts := [tok .identifier] },
    { key := .factor, kind := .factor, parts := [tok .integer] },
    { key := .factor, kind := .factor, parts := [tok .leftParen, non .expression, tok .rightParen] }]

/-- The grammar of the Pascal subset. -/
def grammar : Grammar Terminal Nonterminal Token NodeKind where
  alphabet := alphabet
  rules := rules
  rules_ne_nil := List.cons_ne_nil _ _
  defined := defined_of_undefinedUse? rfl

/-- The tree that stands in for a statement that cannot be read: an empty
statement. -/
def placeholders : List (Nonterminal × Tree) := [(.statement, .branch .statement [])]

/-- The parse tables of the Pascal subset. -/
abbrev Table := ShiftReduce.Table Terminal Nonterminal Token NodeKind

end ShiftReduce.Pascal
