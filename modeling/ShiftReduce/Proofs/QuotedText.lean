/-
  A quoted text can be read back, and stays on its line.

  What stands for a character is read from the front of a text as that character, whatever is
  behind it (`unescape?_escape`): an escape says where it ends, and the digits of a code point end
  at the brace (`hexValue_toDigits`, `brace_notMem_toDigits`). So two texts that are quoted alike
  are the same text (`quote_injective`).
-/
import ShiftReduce.Text.Quoted
import Mathlib.Logic.Function.Basic
import Mathlib.Data.List.TakeWhile

namespace ShiftReduce.Text

/-! ### Ends -/

section

variable {front : List Char} {stop : Char} (notMem : stop ∉ front)
include notMem

theorem forall_ne_end : ∀ c ∈ front, decide (c ≠ stop) = true :=
  fun _ isIn => decide_eq_true fun same => notMem (same ▸ isIn)

variable (rest : List Char)

/-- What is in front of the first end is read up to there. -/
theorem takeWhile_front : (front ++ stop :: rest).takeWhile (· ≠ stop) = front := by
  rw [List.takeWhile_append_of_pos (forall_ne_end notMem), List.takeWhile_cons_of_neg (by simp),
    List.append_nil]

theorem dropWhile_front : (front ++ stop :: rest).dropWhile (· ≠ stop) = stop :: rest := by
  rw [List.dropWhile_append_of_pos (forall_ne_end notMem), List.dropWhile_cons_of_neg (by simp)]

end

/-! ### Code points -/

/-- The value of a hexadecimal digit. -/
def hexDigitValue (c : Char) : Nat :=
  if c.isDigit then c.toNat - '0'.toNat else c.toNat - 'a'.toNat + 10

/-- The number that hexadecimal digits stand for. -/
def hexValue (digits : List Char) : Nat := digits.foldl (fun n c => 16 * n + hexDigitValue c) 0

/-- What holds of one digit, and of a number with one more digit, holds of all numbers. -/
theorem toDigits_induction {P : Nat → List Char → Prop}
    (single : ∀ d < 16, P d [Nat.digitChar d])
    (more : ∀ n digits, ∀ d < 16, P n digits → P (16 * n + d) (digits ++ [Nat.digitChar d]))
    (n : Nat) : P n (Nat.toDigits 16 n) := by
  induction n using Nat.strongRecOn with
  | ind n ih =>
    by_cases small : n < 16
    · rw [Nat.toDigits_of_lt_base small]
      exact single n small
    · have front : P (n / 16) (Nat.toDigits 16 (n / 16)) := ih (n / 16) (by omega)
      have whole := more _ _ (n % 16) (Nat.mod_lt n (by decide)) front
      rw [Nat.div_add_mod] at whole
      rwa [Nat.toDigits_of_base_le (by decide) (Nat.le_of_not_lt small)]

theorem hexDigitValue_digitChar : ∀ d < 16, hexDigitValue (Nat.digitChar d) = d := by decide

theorem hexValue_toDigits (n : Nat) : hexValue (Nat.toDigits 16 n) = n := by
  refine toDigits_induction (P := fun n digits => hexValue digits = n) ?_ ?_ n
  · intro d small
    simpa [hexValue] using hexDigitValue_digitChar d small
  · intro n digits d small front
    show hexValue (digits ++ [Nat.digitChar d]) = 16 * n + d
    rw [hexValue, List.foldl_append]
    show 16 * hexValue digits + hexDigitValue (Nat.digitChar d) = 16 * n + d
    rw [front, hexDigitValue_digitChar d small]

/-- A character that is no digit is no digit of a number. -/
theorem notMem_toDigits {c : Char} (other : ∀ d, Nat.digitChar d ≠ c) (n : Nat) :
    c ∉ Nat.toDigits 16 n := by
  refine toDigits_induction (P := fun _ digits => c ∉ digits) ?_ ?_ n
  · intro d _
    rw [List.mem_singleton]
    exact (other d).symm
  · intro n digits d _ front
    rw [List.mem_append, List.mem_singleton]
    exact not_or.mpr ⟨front, (other d).symm⟩

theorem brace_notMem_toDigits (n : Nat) : '\x7d' ∉ Nat.toDigits 16 n :=
  notMem_toDigits (fun _ => Nat.digitChar_ne _ rfl) n

/-! ### Characters -/

/-- The character that a letter behind a backslash stands for. -/
def named (c : Char) : Char :=
  if c = 'n' then '\n' else if c = 'r' then '\r' else if c = 't' then '\t'
  else if c = '0' then '\x00' else c

/-- The first character of a quoted text, and what is behind it. -/
def unescape? : List Char → Option (Char × List Char)
  | [] => none
  | c :: rest =>
    if c = '\\' then
      match rest with
      | [] => none
      | 'u' :: rest =>
        let code := rest.tail.takeWhile (· ≠ '\x7d')
        some (Char.ofNat (hexValue code), (rest.tail.dropWhile (· ≠ '\x7d')).tail)
      | d :: rest => some (named d, rest)
    else some (c, rest)

/-- What stands for a character is read back, whatever is behind it. -/
theorem unescape?_escape (c : Char) (rest : List Char) :
    unescape? (escape c ++ rest) = some (c, rest) := by
  unfold escape
  split_ifs with quote backslash newline ret tab zero hidden
  · rw [quote]; rfl
  · rw [backslash]; rfl
  · rw [newline]; rfl
  · rw [ret]; rfl
  · rw [tab]; rfl
  · rw [zero]; rfl
  · have code := takeWhile_front (brace_notMem_toDigits c.toNat) rest
    have behind := dropWhile_front (brace_notMem_toDigits c.toNat) rest
    have read : unescape? ('\\' :: 'u' :: '\x7b' :: (Nat.toDigits 16 c.toNat ++ '\x7d' :: rest)) =
        some (c, rest) := by
      simp only [unescape?, if_pos, List.tail_cons, code, behind, hexValue_toDigits,
        Char.ofNat_toNat]
    simpa using read
  · exact if_neg backslash

theorem newline_notMem_escape (c : Char) : '\n' ∉ escape c := by
  have digits : '\n' ∉ Nat.toDigits 16 c.toNat :=
    notMem_toDigits (fun _ => Nat.digitChar_ne _ rfl) c.toNat
  by_cases newline : c = '\n'
  · rw [newline]
    decide
  · have other : '\n' ≠ c := Ne.symm newline
    unfold escape
    split_ifs <;> simp [digits, other]

/-! ### Texts -/

theorem flatMap_escape_injective : Function.Injective (List.flatMap escape) := by
  intro text other same
  induction text generalizing other with
  | nil =>
    cases other with
    | nil => rfl
    | cons d other =>
      have read := unescape?_escape d (other.flatMap escape)
      rw [← List.flatMap_cons, ← same] at read
      cases read
  | cons c text ih =>
    have read := unescape?_escape c (text.flatMap escape)
    rw [← List.flatMap_cons, same] at read
    cases other with
    | nil => cases read
    | cons d other =>
      rw [List.flatMap_cons, unescape?_escape d (other.flatMap escape)] at read
      obtain ⟨rfl, rest⟩ := Prod.mk.inj (Option.some.inj read)
      rw [ih rest.symm]

/-- Texts that are quoted alike are the same text. -/
theorem quote_injective : Function.Injective quote := by
  intro text other same
  have chars := congrArg String.toList same
  simp only [quote, String.toList_ofList, List.cons_append, List.cons.injEq,
    List.append_left_inj, true_and] at chars
  exact String.toList_inj.mp (flatMap_escape_injective chars)

/-- A quoted text is all on one line. -/
theorem newline_notMem_quote (text : String) : '\n' ∉ (quote text).toList := by
  have inside : '\n' ∉ text.toList.flatMap escape := by
    rw [List.mem_flatMap]
    rintro ⟨c, -, mem⟩
    exact newline_notMem_escape c mem
  simpa [quote] using inside

theorem head?_quote (text : String) : (quote text).toList.head? = some '"' := by
  simp [quote]

end ShiftReduce.Text
