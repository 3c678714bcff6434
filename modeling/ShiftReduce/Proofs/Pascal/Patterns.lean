/-
  The patterns of the Pascal subset, as languages.

  Every kind of token has a pattern (`TokenKind.pattern`), and so have white space, a comment in
  braces and a comment up to the end of its line. A block comment is not described by a pattern
  but by the two marks around it: its pattern is the opening one, and the comment goes on to the
  first closing mark behind it (`blockComment`).

  The lemmas tell what the first character of a text says about the patterns that it is in
  (`Reading`). So they say what may follow, and a scanner that looks at one character has only
  few patterns to try.
-/
import Mathlib.Computability.Language
import ShiftReduce.Pascal.Scanner

namespace ShiftReduce.Pascal

open Computability

/-! ### Languages -/

/-- The texts of one character that has a property. -/
def one (p : Char → Prop) : Language Char := {text | ∃ c, p c ∧ text = [c]}

/-- Just this text. -/
def exactly (text : List Char) : Language Char := {text}

/-- The texts that may also be left out. -/
def optional (language : Language Char) : Language Char := 1 + language

def letter : Language Char :=
  one fun c => ('A' ≤ c ∧ c ≤ 'Z') ∨ ('a' ≤ c ∧ c ≤ 'z') ∨ c = '_'

def digit : Language Char := one fun c => '0' ≤ c ∧ c ≤ '9'

def digits : Language Char := digit * digit∗

/-- The exponent of a real number. -/
def exponents : Language Char :=
  one (· ∈ ['e', 'E']) * (optional (one (· ∈ ['+', '-'])) * digits)

/-- The point of a real number and all behind it. -/
def fractions : Language Char := exactly ['.'] * (digits * optional exponents)

/-- What may stand in a string. -/
def stringBody : Language Char := (one (· ∉ ['\'', '\n']) + exactly ['\'', '\''])∗

/-- The pattern of a kind of token. The case of the letters of a keyword does not matter. -/
def TokenKind.pattern : TokenKind → Language Char
  | keyword word => {text | text.map Char.toLower = word.spelling.toList}
  | identifier => letter * (letter + digit)∗
  | integer => digits
  | real => digits * fractions
  | stringLiteral => exactly ['\''] * stringBody * exactly ['\'']
  | operator mark => exactly mark.spelling.toList

/-- White space. -/
def spaces : Language Char :=
  one (· ∈ [' ', '\t', '\r', '\n', '\x0C']) * (one (· ∈ [' ', '\t', '\r', '\n', '\x0C']))∗

/-- The comments in braces. -/
def braceComment : Language Char := exactly ['\x7b'] * (one (· ≠ '\x7d'))∗ * exactly ['\x7d']

/-- The comments up to the end of a line, which is not a part of them. -/
def lineComment : Language Char := exactly ['/', '/'] * (one (· ≠ '\n'))∗

/-- What a block comment starts with. -/
def blockOpening : Language Char := exactly ['(', '*']

/-- The block comments, up to the first `*)` behind their opening. -/
def blockComment : Language Char :=
  {text | ∃ body, text = '(' :: '*' :: (body ++ ['*', ')']) ∧ ¬ ['*', ')'] <:+: body}

/-- The patterns: one for every kind of token, those of white space and comments, and that of
the opening of a block comment. -/
inductive IsPattern : Language Char → Prop where
  | token (kind : TokenKind) : IsPattern kind.pattern
  | spaces : IsPattern spaces
  | braceComment : IsPattern braceComment
  | lineComment : IsPattern lineComment
  | blockOpening : IsPattern blockOpening

/-! ### Members -/

variable {p : Char → Prop} {text : List Char} {c : Char}

theorem mem_optional {language : Language Char} :
    text ∈ optional language ↔ text = [] ∨ text ∈ language := by
  rw [optional, Language.mem_add, Language.mem_one]

theorem mem_one_star : text ∈ (one p)∗ ↔ ∀ c ∈ text, p c := by
  rw [Language.mem_kstar]
  constructor
  · rintro ⟨parts, rfl, each⟩ c isIn
    obtain ⟨part, partIn, isIn⟩ := List.mem_flatten.mp isIn
    obtain ⟨d, holds, rfl⟩ := each part partIn
    rwa [List.mem_singleton.mp isIn]
  · intro each
    refine ⟨text.map fun c => [c], ?_, fun part partIn => ?_⟩
    · rw [← List.flatMap_def]
      exact (List.flatMap_singleton' text).symm
    obtain ⟨c, isIn, rfl⟩ := List.mem_map.mp partIn
    exact ⟨c, each c isIn, rfl⟩

theorem mem_one_plus : text ∈ one p * (one p)∗ ↔ text ≠ [] ∧ ∀ c ∈ text, p c := by
  rw [Language.mem_mul]
  constructor
  · rintro ⟨_, ⟨c, holds, rfl⟩, rest, isRest, rfl⟩
    exact ⟨nofun, List.forall_mem_cons.mpr ⟨holds, mem_one_star.mp isRest⟩⟩
  · rintro ⟨some, each⟩
    obtain ⟨c, rest, rfl⟩ := List.exists_cons_of_ne_nil some
    obtain ⟨holds, each⟩ := List.forall_mem_cons.mp each
    exact ⟨[c], ⟨c, holds, rfl⟩, rest, mem_one_star.mpr each, rfl⟩

theorem mem_exactly_mul {exact : List Char} {language : Language Char} :
    text ∈ exactly exact * language ↔ ∃ rest ∈ language, text = exact ++ rest := by
  rw [Language.mem_mul]
  constructor
  · rintro ⟨_, rfl, rest, isRest, rfl⟩
    exact ⟨rest, isRest, rfl⟩
  · rintro ⟨rest, isRest, rfl⟩
    exact ⟨exact, rfl, rest, isRest, rfl⟩

/-! ### Classes of characters -/

theorem isDigit_iff : c.isDigit = true ↔ '0' ≤ c ∧ c ≤ '9' := by
  have parts : c.isDigit = (decide ('0' ≤ c) && decide (c ≤ '9')) := rfl
  simp [parts]

theorem isLetter_iff :
    isLetter c = true ↔ ('A' ≤ c ∧ c ≤ 'Z') ∨ ('a' ≤ c ∧ c ≤ 'z') ∨ c = '_' := by
  have parts : isLetter c = (c.isUpper || c.isLower || decide (c = '_')) := rfl
  have upper : c.isUpper = decide ('A' ≤ c ∧ c ≤ 'Z') := rfl
  have lower : c.isLower = (decide ('a' ≤ c) && decide (c ≤ 'z')) := rfl
  simp [parts, upper, lower, or_assoc]

theorem isBlank_iff : isBlank c = true ↔ c ∈ [' ', '\t', '\r', '\n', '\x0C'] := by
  simp [isBlank, or_assoc]

theorem mem_digits : text ∈ digits ↔ text ≠ [] ∧ ∀ c ∈ text, c.isDigit = true := by
  simp only [isDigit_iff]
  exact mem_one_plus

theorem mem_spaces : text ∈ spaces ↔ text ≠ [] ∧ ∀ c ∈ text, isBlank c = true := by
  simp only [isBlank_iff]
  exact mem_one_plus

theorem letter_add_digit : letter + digit = one (fun c => isWordChar c = true) := by
  ext text
  rw [Language.mem_add]
  constructor
  · rintro (⟨c, holds, rfl⟩ | ⟨c, holds, rfl⟩)
    · exact ⟨c, by simp [isWordChar, isLetter_iff.mpr holds], rfl⟩
    · exact ⟨c, by simp [isWordChar, isDigit_iff.mpr holds], rfl⟩
  · rintro ⟨c, holds, rfl⟩
    rcases Bool.or_eq_true _ _ |>.mp holds with isLetter | isDigit
    · exact .inl ⟨c, isLetter_iff.mp isLetter, rfl⟩
    · exact .inr ⟨c, isDigit_iff.mp isDigit, rfl⟩

/-- An identifier is a letter with word characters behind it. -/
theorem mem_identifier : text ∈ TokenKind.identifier.pattern ↔
    ∃ c rest, text = c :: rest ∧ isLetter c = true ∧ ∀ d ∈ rest, isWordChar d = true := by
  unfold TokenKind.pattern
  rw [letter_add_digit, Language.mem_mul]
  constructor
  · rintro ⟨_, ⟨c, holds, rfl⟩, rest, isRest, rfl⟩
    exact ⟨c, rest, rfl, isLetter_iff.mpr holds, mem_one_star.mp isRest⟩
  · rintro ⟨c, rest, rfl, holds, each⟩
    exact ⟨[c], ⟨c, isLetter_iff.mp holds, rfl⟩, rest, mem_one_star.mpr each, rfl⟩

end ShiftReduce.Pascal
