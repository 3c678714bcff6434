/-
  No parse of the Pascal subset uses up its budget.

  Every frame on the stack has a charge, by the letter that it stands for, and a terminal on
  top has a reserve besides. A rule with letters in its body builds a node of less charge
  than they have together (`charge_lt`). The rule for an empty statement builds its node out
  of nothing, but only behind a token (`exists_terminal_of_goto?`), and this uses up the
  reserve. A shift and a recovery are paid for by the input. So every step lowers the
  potential of a parser by one at least (`Charged.step`), and it begins with less than its
  budget (`parseProgram_ne_unfinished`).
-/
import ShiftReduce.Proofs.Parser.Termination
import ShiftReduce.Proofs.Pascal.Recovered
import ShiftReduce.Proofs.Pascal.Sanity

namespace ShiftReduce.Pascal

open ContextFreeGrammar (Letter)

/-! ### Charges -/

/-- What a letter on the stack counts: a terminal more than a nonterminal, and this the less,
the deeper it is. -/
def charge : Letter Terminal Nonterminal → Nat
  | .terminal _ => 6
  | .nonterminal key => 5 - depth key

/-- What a terminal on top of the stack counts besides. -/
def reserve : List (Letter Terminal Nonterminal) → Nat
  | .terminal _ :: _ => 5
  | _ => 0

/-- What a parser has left, with a stack that stands for these letters, the topmost first. -/
def potential (m : Machine Token NodeKind) (stacked : List (Letter Terminal Nonterminal)) : Nat :=
  12 * m.patience + (stacked.map charge).sum + reserve stacked

theorem charge_le (letter : Letter Terminal Nonterminal) : charge letter ≤ 6 := by
  cases letter with
  | terminal t => exact Nat.le_refl _
  | nonterminal key => exact (Nat.sub_le _ _).trans (by decide)

theorem charge_take_add_drop (stacked : List (Letter Terminal Nonterminal)) (count : Nat) :
    ((stacked.take count).map charge).sum + ((stacked.drop count).map charge).sum =
      (stacked.map charge).sum := by
  rw [← List.sum_append, ← List.map_append, List.take_append_drop]

/-- A node counts less than what it is built of, unless it is an empty statement. -/
theorem charge_lt {rule : Rule} (isRule : rule ∈ grammar.rules) :
    letters rule.body = [] ∧ rule.key = .statement ∨
      charge (.nonterminal rule.key) < ((letters rule.body).map charge).sum := by
  have check : ∀ rule ∈ rules, letters rule.body = [] ∧ rule.key = .statement ∨
      charge (.nonterminal rule.key) < ((letters rule.body).map charge).sum := by decide
  exact check rule isRule

/-! ### Steps -/

/-- The tag of a frame that is not taken to be empty. -/
def solid (letter : Letter Terminal Nonterminal) : Tag Terminal Nonterminal := ⟨letter, false⟩

/-- `Charged m stacked` says that the stack of a parser that has begun in the start state stands
for these letters, the topmost first. -/
structure Charged (m : Machine Token NodeKind) (stacked : List (Letter Terminal Nonterminal)) :
    Prop where
  start : m.stack.start = 0
  tagged : table.Tagged grammar .start 0 [] (stacked.map solid) m.stack.frames

variable {goal : NodeKind} {m m' : Machine Token NodeKind}
  {stacked : List (Letter Terminal Nonterminal)}

theorem Charged.top_eq (charged : Charged m stacked) :
    Stack.top ⟨0, m.stack.frames⟩ = m.stack.top := by
  rw [← charged.start]

/-- A frame on what is left of the stack stands for the letter that its state is entered with. -/
theorem Charged.push (charged : Charged m stacked) (count : Nat) {target : Nat} {node : Tree}
    {letter : Letter Terminal Nonterminal}
    (stack : m'.stack = (m.stack.drop count).push node target)
    (edge : table.edge? (m.stack.drop count).top (solid letter).symbol = some target) :
    Charged m' (letter :: stacked.drop count) := by
  have edge : table.edge? (Stack.top ⟨0, m.stack.frames.drop count⟩) (solid letter).symbol =
      some target := by
    rw [← charged.start]
    exact edge
  have tagged := charged.tagged.drop count
  rw [← List.map_drop] at tagged
  constructor
  · rw [stack]
    exact charged.start
  · rw [stack]
    exact .cons edge (fun hollow => absurd hollow Bool.false_ne_true) tagged

/-- A statement is expected behind a token only. -/
theorem Charged.exists_terminal_of_goto? (charged : Charged m stacked) {target : Nat}
    (goes : table.goto? m.stack.top .statement = some target) :
    ∃ t rest, stacked = .terminal t :: rest := by
  have tagged := charged.tagged
  rw [← charged.top_eq] at goes
  cases stacked with
  | nil =>
    have bare := tagged.length_eq
    rw [List.map_nil, List.length_nil] at bare
    rw [List.length_eq_zero_iff.mp bare.symm] at goes
    cases goes.symm.trans gotos_checked.1
  | cons letter rest =>
    cases letter with
    | terminal t => exact ⟨t, rest, rfl⟩
    | nonterminal key =>
      generalize m.stack.frames = frames at tagged goes
      cases tagged with
      | cons edge _ _ => cases goes.symm.trans (goto?_statement_of_goto? edge)

/-- A reduction leaves less of the potential. -/
theorem Charged.reduce (charged : Charged m stacked) {place target : Nat} {rule : Rule}
    (moves : table.move goal m.stack m.input = .reduce place rule)
    (enough : rule.length ≤ m.stack.frames.length)
    (goes : table.goto? (m.stack.drop rule.length).top rule.key = some target) :
    charge (.nonterminal rule.key) + ((stacked.drop rule.length).map charge).sum <
      (stacked.map charge).sum + reserve stacked := by
  obtain ⟨s, isState, _⟩ := charged.tagged.reaches automaton
  obtain ⟨complete, found⟩ := Table.complete_of_move automaton moves (charged.top_eq ▸ isState)
  have body := charged.tagged.letters_body automaton isState complete found enough
  have count := rule.length_letters
  rcases charge_lt (List.mem_of_getElem? found) with ⟨nothing, isStatement⟩ | less
  · rw [nothing, List.length_nil] at count
    rw [← count] at goes ⊢
    rw [isStatement] at goes ⊢
    obtain ⟨t, rest, rfl⟩ := charged.exists_terminal_of_goto? goes
    show 4 + _ < _ + 5
    rw [List.drop_zero]
    omega
  · have taken : ((letters rule.body).map charge).sum =
        ((stacked.take rule.length).map charge).sum := by
      rw [body, ← List.map_take, List.map_map, List.map_reverse, List.sum_reverse, List.map_map]
      rfl
    have parts := charge_take_add_drop stacked rule.length
    omega

/-- Every step lowers the potential. -/
theorem Charged.step (charged : Charged m stacked) (next : table.step goal m = .next m') :
    ∃ stacked', Charged m' stacked' ∧ potential m' stacked' < potential m stacked := by
  cases Table.effect_of_step next with
  | @shift token target moves input stack _ _ lastRecovery =>
    have patience := Machine.patience_lt_of_shift input lastRecovery
    rw [input, Table.move] at moves
    obtain ⟨_, t, acts⟩ := Table.actionFor?_of_moveOn_shift moves
    have edge := (Table.edge_of_actionFor? automaton acts).1
    have charged' : Charged m' (.terminal t :: stacked) := charged.push 0 stack edge
    refine ⟨.terminal t :: stacked, charged', ?_⟩
    show 12 * m'.patience + (6 + (stacked.map charge).sum) + 5 < _
    unfold potential
    omega
  | @reduce place target rule moves input enough goes stack _ _ lastRecovery =>
    have patience : m'.patience = m.patience := by
      unfold Machine.patience
      rw [input, lastRecovery]
    have less := charged.reduce moves enough goes
    refine ⟨.nonterminal rule.key :: stacked.drop rule.length, charged.push _ stack goes, ?_⟩
    unfold potential
    rw [patience, List.map_cons, List.sum_cons]
    show _ + 0 < _
    omega
  | @recover unwound foothold _ input progress found stack _ lastRecovery =>
    have patience := Machine.patience_lt_of_recover input progress lastRecovery
    obtain ⟨count, rfl, isFoothold⟩ := Table.of_unwind? found
    obtain ⟨_, goes⟩ := Table.of_foothold? isFoothold
    refine ⟨.nonterminal foothold.key :: stacked.drop count, charged.push _ stack goes, ?_⟩
    have light := charge_le (.nonterminal foothold.key)
    have parts := charge_take_add_drop stacked count
    unfold potential
    rw [List.map_cons, List.sum_cons]
    show _ + 0 < _
    omega

/-! ### Runs -/

/-- A run ends within any budget that is more than the potential. -/
theorem Charged.run_ne_unfinished {budget : Nat} (charged : Charged m stacked)
    (enough : potential m stacked < budget) : (table.run goal budget m).1 ≠ .unfinished := by
  induction budget generalizing m stacked with
  | zero => exact absurd enough (Nat.not_lt_zero _)
  | succ budget ih =>
    rw [Table.run]
    cases taken : table.step goal m with
    | next m' =>
      obtain ⟨stacked', charged', less⟩ := charged.step taken
      exact ih charged' (Nat.lt_of_lt_of_le less (Nat.le_of_lt_succ enough))
    | accepted tree m' => rintro ⟨⟩
    | aborted m' => rintro ⟨⟩

/-- A program is read or refused before the budget of its tokens is used up. -/
theorem parseProgram_ne_unfinished (tokens : List Token) :
    (parseProgram tokens).1 ≠ .unfinished := by
  obtain ⟨s, isState, items⟩ := automaton.first
  have charged : Charged { stack := .base 0, input := tokens } [] :=
    ⟨rfl, .nil isState (items ▸ .start)⟩
  have enough : potential { stack := .base 0, input := tokens } [] < budget tokens := by
    show 12 * (2 * tokens.length + 1) + 0 + 0 < 64 * (tokens.length + 1)
    omega
  unfold parseProgram
  rw [Table.drive_tokens, Table.parseTokens, Table.parse, if_pos (Table.hasStart_of_base automaton rfl)]
  exact charged.run_ne_unfinished enough

end ShiftReduce.Pascal
