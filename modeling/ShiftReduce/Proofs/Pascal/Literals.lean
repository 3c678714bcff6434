/-
  Numbers and strings, read as far as their patterns go.

  A number is read part by part: digits, a fraction if there is one, an exponent if there is
  one. Each part is the longest text of its pattern (`longest_exponent`, `longest_fraction`),
  and as what follows some digits never starts with a digit, the parts make up the longest text
  of all (`Longest.digits_mul`). In a string two quotes are read together, so its end is the
  last place where it can end (`length_le_stringTail`).
-/
import Mathlib.Data.List.TakeWhile
import ShiftReduce.Proofs.Pascal.Patterns

namespace ShiftReduce.Pascal

open Computability

variable {language : Language Char} {source text rest : List Char} {c : Char}

/-- The longest text of a language at the front of a source. -/
structure Longest (language : Language Char) (source text : List Char) : Prop where
  front : text <+: source
  reads : text ∈ language
  longest : ∀ other ∈ language, other <+: source → other.length ≤ text.length

theorem length_le_takeWhile {p : Char → Bool} (front : text <+: source)
    (each : ∀ c ∈ text, p c = true) : text.length ≤ (source.takeWhile p).length := by
  obtain ⟨behind, rfl⟩ := front
  rw [List.takeWhile_append_of_pos each, List.length_append]
  exact Nat.le_add_right _ _

/-- What is at the front of what is behind a text continues it. -/
theorem append_isPrefix {first next : List Char} (isFirst : first <+: source)
    (isNext : next <+: source.drop first.length) : first ++ next <+: source := by
  obtain ⟨behind, rfl⟩ := isFirst
  rw [List.drop_left] at isNext
  exact (List.prefix_append_right_inj first).mpr isNext

/-! ### Numbers -/

/-- The digits in front are read first, if what may follow them starts with no digit. -/
theorem Longest.digits_mul (opens : source.takeWhile Char.isDigit ≠ [])
    (apart : ∀ c rest, c :: rest ∈ language → c.isDigit = false)
    (behind : Longest language (source.drop (source.takeWhile Char.isDigit).length) text) :
    Longest (digits * language) source (source.takeWhile Char.isDigit ++ text) := by
  refine ⟨append_isPrefix (List.takeWhile_prefix _) behind.front, ?_, ?_⟩
  · exact Language.append_mem_mul
      (mem_digits.mpr ⟨opens, fun c isIn => List.mem_takeWhile_imp isIn⟩) behind.reads
  · intro other isOther front
    obtain ⟨whole, isWhole, rest, isRest, rfl⟩ := Language.mem_mul.mp isOther
    obtain ⟨_, each⟩ := mem_digits.mp isWhole
    cases rest with
    | nil =>
      rw [List.append_nil] at front ⊢
      rw [List.length_append]
      exact Nat.le_add_right_of_le (length_le_takeWhile front each)
    | cons c rest =>
      -- what follows is no digit, so the digits of the other text are all that there are
      obtain ⟨more, rfl⟩ := front
      have taken : (whole ++ c :: rest ++ more).takeWhile Char.isDigit = whole := by
        rw [List.append_assoc, List.takeWhile_append_of_pos each, List.cons_append,
          List.takeWhile_cons_of_neg (by rw [apart c rest isRest]; decide), List.append_nil]
      rw [taken] at behind ⊢
      rw [List.append_assoc, List.drop_left] at behind
      rw [List.length_append, List.length_append]
      exact Nat.add_le_add_left (behind.longest _ isRest (List.prefix_append _ _)) _

/-- The digits behind the sign of an exponent. -/
def exponentDigits (rest : List Char) : List Char :=
  (rest.drop (exponentSign rest).length).takeWhile Char.isDigit

theorem exponent_cons (mark : Char) (rest : List Char) :
    exponent (mark :: rest) =
      if mark ∈ ['e', 'E'] ∧ exponentDigits rest ≠ [] then
        mark :: (exponentSign rest ++ exponentDigits rest)
      else [] := by
  by_cases isMark : mark = 'e' ∨ mark = 'E' <;>
    by_cases none : exponentDigits rest = [] <;>
    simp_all [exponent, exponentDigits]

theorem exponentSign_mem (rest : List Char) :
    exponentSign rest ∈ optional (one (· ∈ ['+', '-'])) := by
  unfold exponentSign
  split
  · exact mem_optional.mpr (.inr ⟨'+', by decide, rfl⟩)
  · exact mem_optional.mpr (.inr ⟨'-', by decide, rfl⟩)
  · exact mem_optional.mpr (.inl rfl)

theorem exponentSign_isPrefix (rest : List Char) : exponentSign rest <+: rest := by
  unfold exponentSign
  split <;> simp

/-- The sign of an exponent and its digits are what is read for them. -/
theorem exponentSign_eq {sign ds : List Char} (isSign : sign ∈ optional (one (· ∈ ['+', '-'])))
    (isDigits : ds ∈ digits) (front : sign ++ ds <+: rest) : exponentSign rest = sign := by
  obtain ⟨more, rfl⟩ := front
  rcases mem_optional.mp isSign with rfl | ⟨s, isMark, rfl⟩
  · obtain ⟨some, each⟩ := mem_digits.mp isDigits
    obtain ⟨d, ds, rfl⟩ := List.exists_cons_of_ne_nil some
    have isDigit := each d List.mem_cons_self
    rw [List.nil_append, List.cons_append]
    unfold exponentSign
    split <;> simp_all
  · rcases List.mem_pair.mp isMark with rfl | rfl <;> rfl

/-- An exponent at the front has no more digits than are read for it. -/
theorem of_mem_exponents {mark : Char} (isExponent : text ∈ exponents)
    (front : text <+: mark :: rest) :
    mark ∈ ['e', 'E'] ∧ exponentDigits rest ≠ [] ∧
      text.length ≤ (mark :: (exponentSign rest ++ exponentDigits rest)).length := by
  obtain ⟨_, ⟨e, isMark, rfl⟩, _, isTail, rfl⟩ := Language.mem_mul.mp isExponent
  obtain ⟨sign, isSign, ds, isDigits, rfl⟩ := Language.mem_mul.mp isTail
  obtain ⟨rfl, tail⟩ := List.cons_prefix_cons.mp front
  obtain ⟨some, each⟩ := mem_digits.mp isDigits
  have same : exponentSign rest = sign := exponentSign_eq isSign isDigits tail
  have behind : ds <+: rest.drop sign.length := by
    obtain ⟨more, rfl⟩ := tail
    exact ⟨more, by simp⟩
  have length : ds.length ≤ (exponentDigits rest).length := by
    rw [exponentDigits, same]
    exact length_le_takeWhile behind each
  refine ⟨isMark, ?_, ?_⟩
  · exact List.length_pos_iff.mp (Nat.lt_of_lt_of_le (List.length_pos_iff.mpr some) length)
  · rw [same]
    simpa using length

theorem longest_exponent (source : List Char) :
    Longest (optional exponents) source (exponent source) := by
  cases source with
  | nil =>
    exact ⟨List.nil_prefix, mem_optional.mpr (.inl rfl), fun other _ front => by
      rw [List.prefix_nil.mp front]
      exact Nat.le_refl 0⟩
  | cons mark rest =>
    rw [exponent_cons]
    split_ifs with reads
    · obtain ⟨isMark, some⟩ := reads
      refine ⟨?_, mem_optional.mpr (.inr ?_), fun other isOther front => ?_⟩
      · have front : exponentSign rest ++ exponentDigits rest <+: rest :=
          append_isPrefix (exponentSign_isPrefix rest) (List.takeWhile_prefix _)
        exact List.cons_prefix_cons.mpr ⟨rfl, front⟩
      · have isDigits : exponentDigits rest ∈ digits :=
          mem_digits.mpr ⟨some, fun c isIn => List.mem_takeWhile_imp isIn⟩
        have isMark : [mark] ∈ one (· ∈ ['e', 'E']) := ⟨mark, isMark, rfl⟩
        exact Language.append_mem_mul isMark
          (Language.append_mem_mul (exponentSign_mem rest) isDigits)
      · rcases mem_optional.mp isOther with rfl | isExponent
        · exact Nat.zero_le _
        · exact (of_mem_exponents isExponent front).2.2
    · refine ⟨List.nil_prefix, mem_optional.mpr (.inl rfl), fun other isOther front => ?_⟩
      rcases mem_optional.mp isOther with rfl | isExponent
      · exact Nat.le_refl 0
      · obtain ⟨isMark, some, _⟩ := of_mem_exponents isExponent front
        exact absurd ⟨isMark, some⟩ reads

/-- Digits behind the point are read, and the exponent behind them. -/
theorem fraction_point (rest : List Char) :
    fraction ('.' :: rest) =
      if rest.takeWhile Char.isDigit = [] then []
      else '.' :: (rest.takeWhile Char.isDigit ++
        exponent (rest.drop (rest.takeWhile Char.isDigit).length)) := by
  by_cases none : rest.takeWhile Char.isDigit = [] <;> simp [fraction, none]

theorem takeWhile_isDigit_ne_nil (isDigits : text ∈ digits) (front : text <+: source) :
    source.takeWhile Char.isDigit ≠ [] := by
  obtain ⟨some, each⟩ := mem_digits.mp isDigits
  have length := length_le_takeWhile front each
  exact List.length_pos_iff.mp (Nat.lt_of_lt_of_le (List.length_pos_iff.mpr some) length)

theorem isDigit_eq_false_of_optional_exponents (rest : List Char) (c : Char)
    (reads : c :: rest ∈ optional exponents) : c.isDigit = false := by
  rcases mem_optional.mp reads with empty | isExponent
  · cases empty
  · obtain ⟨isMark, _⟩ := of_mem_exponents isExponent (List.prefix_rfl)
    rcases List.mem_pair.mp isMark with rfl | rfl <;> rfl

theorem longest_fraction (source : List Char) :
    Longest (optional fractions) source (fraction source) := by
  by_cases reads : ∃ rest, source = '.' :: rest ∧ rest.takeWhile Char.isDigit ≠ []
  · obtain ⟨rest, rfl, some⟩ := reads
    have behind : Longest (digits * optional exponents) rest _ :=
      .digits_mul some (fun c rest => isDigit_eq_false_of_optional_exponents rest c)
        (longest_exponent _)
    rw [fraction_point, if_neg some]
    refine ⟨List.cons_prefix_cons.mpr ⟨rfl, behind.front⟩,
      mem_optional.mpr (.inr (mem_exactly_mul.mpr ⟨_, behind.reads, rfl⟩)),
      fun other isOther front => ?_⟩
    rcases mem_optional.mp isOther with rfl | isFraction
    · exact Nat.zero_le _
    · obtain ⟨tail, isTail, rfl⟩ := mem_exactly_mul.mp isFraction
      obtain ⟨_, front⟩ := List.cons_prefix_cons.mp front
      exact Nat.succ_le_succ (behind.longest tail isTail front)
  · have empty : fraction source = [] := by
      unfold fraction
      split
      next rest =>
        have none : rest.takeWhile Char.isDigit = [] :=
          Classical.not_not.mp fun some => reads ⟨rest, rfl, some⟩
        simp [none]
      · rfl
    rw [empty]
    refine ⟨List.nil_prefix, mem_optional.mpr (.inl rfl), fun other isOther front => ?_⟩
    rcases mem_optional.mp isOther with rfl | isFraction
    · exact Nat.le_refl 0
    · obtain ⟨tail, isTail, rfl⟩ := mem_exactly_mul.mp isFraction
      obtain ⟨ds, isDigits, behind, _, rfl⟩ := Language.mem_mul.mp isTail
      obtain ⟨more, rfl⟩ := front
      have front : ds <+: ds ++ behind ++ more := ⟨behind ++ more, by simp⟩
      exact absurd ⟨_, rfl, takeWhile_isDigit_ne_nil isDigits front⟩ reads

/-- A number is read as far as a pattern of numbers goes. -/
theorem longest_number {kind : TokenKind} (opens : source.takeWhile Char.isDigit ≠ [])
    (isNumber : number source = ⟨.token kind, text⟩) :
    text <+: source ∧ text ∈ kind.pattern ∧
      ∀ other ∈ digits * optional fractions, other <+: source → other.length ≤ text.length := by
  have apart (c : Char) (rest : List Char) (reads : c :: rest ∈ optional fractions) :
      c.isDigit = false := by
    rcases mem_optional.mp reads with empty | isFraction
    · cases empty
    · obtain ⟨_, _, eq⟩ := mem_exactly_mul.mp isFraction
      obtain rfl := (List.cons.inj eq).1
      rfl
  have isLongest := Longest.digits_mul opens apart (longest_fraction _)
  have isDigits : source.takeWhile Char.isDigit ∈ digits :=
    mem_digits.mpr ⟨opens, fun c isIn => List.mem_takeWhile_imp isIn⟩
  unfold number at isNumber
  dsimp only at isNumber
  split_ifs at isNumber with none
  · rw [List.isEmpty_iff.mp none, List.append_nil] at isLongest
    cases isNumber
    exact ⟨isLongest.front, isDigits, isLongest.longest⟩
  · cases isNumber
    refine ⟨isLongest.front, Language.append_mem_mul isDigits ?_, isLongest.longest⟩
    exact (mem_optional.mp (longest_fraction _).reads).resolve_left fun empty =>
      none (List.isEmpty_iff.mpr empty)

/-! ### Strings -/

theorem append_mem_kstar {language : Language Char} {body : List Char} (first : text ∈ language)
    (rest : body ∈ language∗) : text ++ body ∈ language∗ :=
  mul_kstar_le_kstar (a := language) (Language.append_mem_mul first rest)

theorem stringTail_pair (rest : List Char) : stringTail ('\'' :: '\'' :: rest) =
    ('\'' :: '\'' :: (stringTail rest).1, (stringTail rest).2) := by
  rw [stringTail]

theorem stringTail_cons (inside : c ∉ ['\'', '\n']) (rest : List Char) :
    stringTail (c :: rest) = (c :: (stringTail rest).1, (stringTail rest).2) := by
  obtain ⟨notQuote, notNewline⟩ : c ≠ '\'' ∧ c ≠ '\n' := by simpa using inside
  rw [stringTail, if_neg notQuote, if_neg notNewline]
  exact fun rest eq => absurd eq notQuote

theorem stringTail_isPrefix (rest : List Char) : (stringTail rest).1 <+: rest := by
  fun_induction stringTail rest with
  | case1 => exact List.nil_prefix
  | case2 rest tail ih => exact (List.prefix_append_right_inj ['\'', '\'']).mpr ih
  | case3 => simp_all
  | case4 => exact List.nil_prefix
  | case5 c rest _ _ _ tail ih => exact List.cons_prefix_cons.mpr ⟨rfl, ih⟩

/-- What follows the opening quote of a closed string is its body and the closing quote. -/
theorem mem_of_stringTail (closes : (stringTail rest).2 = true) :
    (stringTail rest).1 ∈ stringBody * exactly ['\''] := by
  have within (part : List Char) {rest : List Char}
      (isPart : part ∈ one (· ∉ ['\'', '\n']) + exactly ['\'', '\''])
      (closed : (stringTail rest).1 ∈ stringBody * exactly ['\'']) :
      part ++ (stringTail rest).1 ∈ stringBody * exactly ['\''] := by
    obtain ⟨body, isBody, closing, isClosing, eq⟩ := Language.mem_mul.mp closed
    rw [← eq, ← List.append_assoc]
    exact Language.append_mem_mul (append_mem_kstar isPart isBody) isClosing
  fun_induction stringTail rest with
  | case1 => cases closes
  | case2 rest tail ih => exact within ['\'', '\''] (.inr rfl) (ih closes)
  | case3 => exact Language.append_mem_mul (a := []) (Language.nil_mem_kstar _) rfl
  | case4 => cases closes
  | case5 c rest _ notQuote notNewline tail ih =>
    exact within [c] (.inl ⟨c, by simp [notQuote, notNewline], rfl⟩) (ih closes)

/-- A string at the front is not longer than what is read for it. -/
theorem length_le_stringTail {body : List Char} (isBody : body ∈ stringBody)
    (front : body ++ ['\''] <+: rest) :
    (body ++ ['\'']).length ≤ (stringTail rest).1.length := by
  obtain ⟨parts, rfl, each⟩ := Language.mem_kstar.mp isBody
  clear isBody
  obtain ⟨more, rfl⟩ := front
  induction parts with
  | nil =>
    -- the closing quote stands alone, or the next one makes it a pair and the string goes on
    cases more with
    | nil => decide
    | cons c more =>
      by_cases quote : c = '\''
      · rw [quote]
        show 1 ≤ (stringTail ('\'' :: '\'' :: more)).1.length
        rw [stringTail_pair]
        simp
      · have single : stringTail ('\'' :: c :: more) = (['\''], true) := by
          rw [stringTail, if_pos rfl]
          rintro _ - ⟨⟩
          exact quote rfl
        show 1 ≤ (stringTail ('\'' :: c :: more)).1.length
        rw [single]
        simp
  | cons part parts ih =>
    obtain ⟨first, each⟩ := List.forall_mem_cons.mp each
    have length := ih each
    rcases first with ⟨c, inside, rfl⟩ | rfl
    · show _ ≤ (stringTail (c :: (parts.flatten ++ ['\''] ++ more))).1.length
      rw [stringTail_cons inside]
      exact Nat.succ_le_succ length
    · show _ ≤ (stringTail ('\'' :: '\'' :: (parts.flatten ++ ['\''] ++ more))).1.length
      rw [stringTail_pair]
      exact Nat.succ_le_succ (Nat.succ_le_succ length)

end ShiftReduce.Pascal
