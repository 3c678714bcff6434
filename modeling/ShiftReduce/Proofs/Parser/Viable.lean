/-
  What a parser has read without an error can be completed.

  An item is valid behind a path if the start key is rewritten to a form in which
  the path runs up to the cursor of the item (`Grammar.Valid`). Predicting a rule
  and reading a symbol keep items valid, so every item of a set that is reached
  is, and its path begins a form of the start key (`Reaches.exists_form`). The
  derivations on the stack fill in the path. Where every key has a text, so do the
  keys behind it, and what has been read begins a sentence (`Sound.begins`).
-/
import ShiftReduce.Proofs.Forms
import ShiftReduce.Proofs.Parser.Effect

namespace ShiftReduce

open ContextFreeGrammar (Letter)

variable {τ κ T N : Type}

namespace Grammar

/-! ### Texts of forms -/

variable {g : Grammar τ κ T N} {form : List (Letter τ κ)}

/-- A form has a text if each of its keys has one. -/
theorem exists_word_of_form
    (texts : ∀ key, .nonterminal key ∈ form → ∃ word : List τ,
      g.Derives [.nonterminal key] (word.map .terminal)) :
    ∃ word : List τ, g.Derives form (word.map .terminal) := by
  induction form with
  | nil => exact ⟨[], .refl⟩
  | cons letter rest ih =>
    obtain ⟨behind, rewritten⟩ := ih fun key member =>
      texts key (List.mem_cons_of_mem letter member)
    have first : ∃ word : List τ, g.Derives [letter] (word.map .terminal) := by
      cases letter with
      | terminal t => exact ⟨[t], .refl⟩
      | nonterminal key => exact texts key List.mem_cons_self
    obtain ⟨word, rewritten'⟩ := first
    refine ⟨word ++ behind, ?_⟩
    rw [List.map_append]
    exact rewritten'.append rewritten

/-- The keys of a form stay keys of the grammar when it is rewritten. -/
theorem Rewrites.mem_keys [DecidableEq κ] {u v : List (Letter τ κ)} (step : g.Rewrites u v)
    (known : ∀ key, .nonterminal key ∈ u → key ∈ g.keys) :
    ∀ key, .nonterminal key ∈ v → key ∈ g.keys := by
  obtain ⟨rule, isRule, front, back, rfl, rfl⟩ := step.exists_parts
  intro key member
  simp only [List.mem_append] at member known
  rcases member with (before | inside) | behind
  · exact known key (.inl (.inl before))
  · exact mem_keys_of_letters isRule inside
  · exact known key (.inr behind)

theorem Derives.mem_keys [DecidableEq κ] {u v : List (Letter τ κ)} (derives : g.Derives u v)
    (known : ∀ key, .nonterminal key ∈ u → key ∈ g.keys) :
    ∀ key, .nonterminal key ∈ v → key ∈ g.keys := by
  induction derives with
  | refl => exact known
  | tail _ step ih => exact step.mem_keys ih

/-- The letters of derivations are rewritten to their terminals. -/
theorem derives_terminals [DecidableEq τ] [DecidableEq κ] (start : κ)
    {forest : List (Derivation τ κ T N)} (derived : ∀ D ∈ forest, g.IsDerivation D) :
    g.Derives (forest.map Derivation.letter)
      ((forest.flatMap Derivation.terminals).map .terminal) := by
  have each : ∀ D ∈ forest, (g.contextFree start).Derives [Derivation.letter D]
      (D.terminals.map .terminal) := fun D member => (derived D member).derives
  have all := derives_forest each
  rwa [derives_contextFree] at all

/-- Derivations accept their tokens. -/
theorem accepts_of_forest {forest : List (Derivation τ κ T N)}
    (derived : ∀ D ∈ forest, g.IsDerivation D) :
    List.Forall₂ (fun t token => (g.alphabet t).accepts token = true)
      (forest.flatMap Derivation.terminals) (forest.flatMap Derivation.tokens) := by
  rw [Derivation.terminals_eq_map_leaves, Derivation.tokens_eq_map_leaves,
    List.forall₂_map_left_iff, List.forall₂_map_right_iff, List.forall₂_same]
  intro entry member
  obtain ⟨D, isTree, inside⟩ := List.mem_flatMap.mp member
  exact (derived D isTree).accepts_of_mem inside

/-! ### Valid items -/

/-- `g.Valid start path item` says that what the cursor of the item has passed
are the latest symbols of the path, and that the start key is rewritten to a form
in which the key of the item's rule stands right behind the symbols before. -/
def Valid (g : Grammar τ κ T N) (start : κ) (path : List (Symbol τ κ)) (item : Item) : Prop :=
  ∃ rule, g.rule? item.rule = some rule ∧
    (rule.body.take item.cursor).reverse = path.take item.cursor ∧
    ∃ back, g.Derives [.nonterminal start]
      (letters (path.drop item.cursor).reverse ++ .nonterminal rule.key :: back)

namespace Valid

variable {start : κ} {path : List (Symbol τ κ)} {item : Item} {symbol : Symbol τ κ}

/-- Where the rule of the item is applied, the path is followed by the symbol
that the item expects. -/
theorem exists_form (valid : g.Valid start path item) (expected : g.expected? item = some symbol) :
    ∃ back, g.Derives [.nonterminal start] (letters (path.reverse ++ [symbol]) ++ back) := by
  obtain ⟨rule, found, passed, back, derives⟩ := valid
  obtain ⟨rule', found', _, next⟩ := g.expected?_eq_some_iff.mp expected
  obtain rfl := Option.some.inj (found.symm.trans found')
  have isRule : rule ∈ g.rules := List.mem_of_getElem? found
  have body := (Rule.body_eq_append next).trans (List.append_cons _ symbol _)
  have whole : path.reverse = (path.drop item.cursor).reverse ++ rule.body.take item.cursor := by
    rw [← List.reverse_reverse (rule.body.take item.cursor), passed, ← List.reverse_append,
      List.take_append_drop]
  refine ⟨letters (rule.body.drop (item.cursor + 1)) ++ back, derives.tail ?_⟩
  have step : g.Rewrites
      (letters (path.drop item.cursor).reverse ++ [.nonterminal rule.key] ++ back)
      (letters (path.drop item.cursor).reverse ++ letters rule.body ++ back) :=
    ((rewrites_of_mem isRule).append_left _).append_right back
  rw [body, letters_append, letters_append] at step
  rw [whole, letters_append, letters_append]
  simpa only [List.append_assoc, List.singleton_append] using step

variable [DecidableEq κ]

/-- What is predicted behind a path is valid there. -/
theorem predicted (valid : g.Valid start path item) {next : Item}
    (predicts : next ∈ g.predicted item) : g.Valid start path next := by
  obtain ⟨key, expected, isStart⟩ := g.mem_predicted.mp predicts
  obtain ⟨unread, rule, found, rfl⟩ := g.mem_startItems.mp isStart
  obtain ⟨back, derives⟩ := valid.exists_form expected
  refine ⟨rule, found, ?_, back, ?_⟩
  · rw [unread]
    rfl
  · have spelled : letters (path.reverse ++ [.nonterminal rule.key]) =
        letters path.reverse ++ [.nonterminal rule.key] := letters_append _ _
    rw [spelled, List.append_assoc] at derives
    rw [unread, List.drop_zero]
    exact derives

omit [DecidableEq κ] in
/-- An item that expects a symbol is valid behind it once it has read it. -/
theorem bump (valid : g.Valid start path item) (expected : g.expected? item = some symbol) :
    g.Valid start (symbol :: path) item.bump := by
  obtain ⟨rule, found, passed, form⟩ := valid
  obtain ⟨rule', found', _, next⟩ := g.expected?_eq_some_iff.mp expected
  obtain rfl := Option.some.inj (found.symm.trans found')
  refine ⟨rule, found, ?_, form⟩
  show (rule.body.take (item.cursor + 1)).reverse = symbol :: path.take item.cursor
  rw [List.take_add_one, next, Option.toList_some, List.reverse_append, passed]
  rfl

end Valid

namespace Reaches

variable [DecidableEq κ] [DecidableEq τ] {start : κ} {path : List (Symbol τ κ)} {items : ItemSet}

/-- Every item of a set that is reached is valid behind the path. -/
theorem valid (reached : g.Reaches start path items) :
    ∀ item ∈ items, g.Valid start path item := by
  refine reached.item_induction ?_ (fun _ _ _ _ _ valid _ => valid.predicted)
    fun _ _ _ valid => valid.bump
  intro item isStart
  obtain ⟨unread, rule, found, isStart⟩ := g.mem_startItems.mp isStart
  refine ⟨rule, found, ?_, [], ?_⟩
  · rw [unread]
    rfl
  · rw [unread, isStart]
    exact .refl

/-- The path to a set that is reached begins a form of the start key. -/
theorem exists_form (reached : g.Reaches start path items) :
    ∃ back, g.Derives [.nonterminal start] (letters path.reverse ++ back) := by
  cases reached with
  | start => exact ⟨[.nonterminal start], .refl⟩
  | read before member expected =>
    rw [List.reverse_cons]
    exact (before.valid _ member).exists_form expected

end Reaches

/-! ### Beginnings of sentences -/

variable [DecidableEq τ] [DecidableEq κ]

/-- `g.Begins start tokens` says that some word of the language begins with
terminals that accept the tokens, one for one. -/
def Begins (g : Grammar τ κ T N) (start : κ) (tokens : List T) : Prop :=
  ∃ word ∈ (g.contextFree start).language, ∃ front, front <+: word ∧
    List.Forall₂ (fun t token => (g.alphabet t).accepts token = true) front tokens

/-- What comes first of a beginning is a beginning. -/
theorem Begins.of_append {start : κ} {front back : List T}
    (begins : g.Begins start (front ++ back)) : g.Begins start front := by
  obtain ⟨word, sentence, terminals, before, accepted⟩ := begins
  refine ⟨word, sentence, terminals.take front.length, ?_, ?_⟩
  · exact (List.take_prefix front.length terminals).trans before
  · exact List.forall₂_take_append terminals front back accepted

end Grammar

/-- The letters of a stack are the roots of its derivations. -/
theorem Reading.letters_roots (frames : List (Derivation τ κ T N × Nat)) :
    letters (frames.map fun frame => frame.1.root).reverse =
      (frames.reverse.map Prod.fst).map Derivation.letter := by
  have roots : (frames.map fun frame => frame.1.root).reverse =
      ((frames.reverse.map Prod.fst).map Derivation.letter).map Symbol.ofLetter := by
    rw [← List.map_reverse, List.map_map, List.map_map]
    exact List.map_congr_left fun frame _ => (Derivation.ofLetter_letter frame.1).symm
  rw [roots, letters_map_ofLetter]

namespace Table

variable [Ordered τ] [Ordered κ] [DecidableEq τ] [DecidableEq κ] {g : Grammar τ κ T N} {start : κ}
  {table : Table τ κ T N} {tokens : List T} {r : Reading τ κ T N}

/-- Where every key has a text, what a sound reading has read begins a sentence. -/
theorem Sound.begins (sound : table.Sound g tokens r) (built : g.Automaton start table)
    (isStart : start ∈ g.keys)
    (productive : ∀ key ∈ g.keys, ∃ word, word ∈ (g.contextFree key).language) :
    g.Begins start (r.frames.reverse.flatMap fun frame => frame.1.tokens) := by
  obtain ⟨s, _, reached⟩ := sound.walked.reaches built
  obtain ⟨back, derives⟩ := reached.exists_form
  have keys : ∀ key, .nonterminal key ∈ back → key ∈ g.keys := by
    intro key member
    refine derives.mem_keys (fun other isOther => ?_) key (List.mem_append_right _ member)
    obtain rfl : other = start := by simpa using isOther
    exact isStart
  have texts : ∀ key, .nonterminal key ∈ back → ∃ word : List τ,
      g.Derives [.nonterminal key] (word.map .terminal) := by
    intro key member
    obtain ⟨word, sentence⟩ := productive key (keys key member)
    refine ⟨word, ?_⟩
    rw [← Grammar.derives_contextFree g key]
    exact sentence
  obtain ⟨rest, completed⟩ := Grammar.exists_word_of_form texts
  -- the derivations on the stack rewrite the path, the texts of the keys what is behind it
  have derived : ∀ D ∈ r.frames.reverse.map Prod.fst, g.IsDerivation D := by
    intro D member
    obtain ⟨frame, isFrame, rfl⟩ := List.mem_map.mp member
    exact sound.derived frame (List.mem_reverse.mp isFrame)
  have filled := Grammar.derives_terminals start derived
  have whole : g.Derives [.nonterminal start]
      (((r.frames.reverse.map Prod.fst).flatMap Derivation.terminals ++ rest).map .terminal) := by
    rw [Reading.letters_roots] at derives
    rw [List.map_append]
    exact derives.trans (filled.append completed)
  rw [← Grammar.derives_contextFree g start] at whole
  refine ⟨_, whole, _, List.prefix_append _ rest, ?_⟩
  have accepted := Grammar.accepts_of_forest derived
  rwa [List.flatMap_map Prod.fst Derivation.tokens] at accepted

/-! ### Runs without an error -/

variable [DecidableEq N] [Named κ] [Token T] {goal : N} {m m' : Machine T N}

/-- A run that reports nothing is one of the reading that it shadows. -/
theorem exists_sound_of_continues (built : g.Automaton start table) (sound : table.Sound g tokens r)
    (shadows : m.Shadows r) (continues : table.Continues goal m m')
    (clean : m'.diagnostics.length ≤ m.diagnostics.length) :
    ∃ r', table.Sound g tokens r' ∧ m'.Shadows r' := by
  induction continues using Relation.ReflTransGen.head_induction_on generalizing r with
  | refl => exact ⟨r, sound, shadows⟩
  | head next later ih =>
    have kept := length_diagnostics_of_continues later
    rcases reads_of_step shadows next with reported | ⟨same, r', reads, shadows'⟩
    · -- a report would have stayed
      omega
    · exact ih (sound.reads built reads) shadows' (by rw [same]; exact clean)

omit [DecidableEq τ] in
/-- A run that reports nothing shifts what it takes from the input. -/
theorem shifts_of_continues (continues : table.Continues goal m m')
    (clean : m'.diagnostics.length ≤ m.diagnostics.length) :
    m'.stats.shifts + m'.input.length = m.stats.shifts + m.input.length := by
  induction continues with
  | refl => rfl
  | @tail before after _ next ih =>
    have kept := length_diagnostics_step next
    have sofar := ih (kept.trans clean)
    cases effect_of_step next with
    | shift _ input _ shifts _ _ =>
      rw [input, List.length_cons] at sofar
      omega
    | reduce _ input _ _ _ shifts _ _ =>
      rw [input, shifts]
      exact sofar
    | recover _ _ _ _ _ diagnostics _ =>
      have start := length_diagnostics_of_continues ‹_›
      omega

/-- Where every key has a text, what a run has read without an error begins a
sentence, and all of it was shifted. -/
theorem begins_of_continues {placeholders : List (κ × Tree T N)}
    (built : g.table start placeholders = .ok table)
    (productive : ∀ key ∈ g.keys, ∃ word, word ∈ (g.contextFree key).language)
    (fresh : m.stack = .base 0) (continues : table.Continues goal m m')
    (clean : m'.diagnostics = m.diagnostics) :
    ∃ read, m.input = read ++ m'.input ∧ m'.stats.shifts = m.stats.shifts + read.length ∧
      g.Begins start read := by
  have automaton := Grammar.automaton_of_table built
  have isStart : start ∈ g.keys := by
    obtain ⟨rule, isRule, same⟩ := List.any_eq_true.mp (Grammar.defines_of_table built)
    exact Grammar.mem_keys.mpr ⟨rule, isRule, of_decide_eq_true same⟩
  have shadows : m.Shadows (⟨[], m.input⟩ : Reading τ κ T N) := ⟨fresh, rfl⟩
  have short : m'.diagnostics.length ≤ m.diagnostics.length := by rw [clean]
  obtain ⟨r, sound, _, input⟩ :=
    exists_sound_of_continues automaton (sound_start table g m.input) shadows continues short
  refine ⟨_, ?_, ?_, sound.begins automaton isStart productive⟩
  · rw [input]
    exact sound.tokens.symm
  · have shifted := shifts_of_continues continues short
    have whole := congrArg List.length sound.tokens
    rw [List.length_append, ← input] at whole
    omega

end Table

end ShiftReduce
