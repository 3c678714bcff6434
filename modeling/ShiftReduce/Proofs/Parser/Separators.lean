/-
  Recovery between separators.

  Items are read one after the other, each followed by a separator, and only items
  have a placeholder (`Table.Separates`). While an item is read, what was read of it
  stands above the frames that it began on and holds neither a separator nor an item
  (`Table.Pending`). So it is left in one of two ways only (`Pending.exists_stop`).
  Either the item is reduced, and since nothing but the separator can come behind an
  item, its tokens are all those before the separator. Or the parser gets stuck, and
  then it unwinds to where the item began, skips to the separator, and puts the
  placeholder in place.

  It depends on the tokens alone which of the two it is: text that is an item is read
  as one, and any other costs one diagnostic and one placeholder
  (`exists_continues_item`).
-/
import ShiftReduce.Proofs.Parser.Completeness
import ShiftReduce.Proofs.Parser.Termination

namespace ShiftReduce

variable {τ κ T N : Type}

/-! ### Items and separators -/

/-- A symbol that can stand inside an item: a terminal other than the separator, or one of
some keys. -/
def Symbol.Inside (separator : τ) (keys : List κ) : Symbol τ κ → Prop
  | .terminal t => t ≠ separator
  | .nonterminal key => key ∈ keys
  | .epsilon => False

instance [DecidableEq τ] [DecidableEq κ] (separator : τ) (keys : List κ) (symbol : Symbol τ κ) :
    Decidable (symbol.Inside separator keys) := by
  cases symbol <;> unfold Symbol.Inside <;> infer_instance

/-- `g.Spells key tokens` says that the tokens can be read as the key. -/
def Grammar.Spells (g : Grammar τ κ T N) (key : κ) (tokens : List T) : Prop :=
  ∃ D, g.IsDerivation D ∧ D.root = .nonterminal key ∧ D.tokens = tokens

/-- The last recovery, if there was one, had left more than `count` tokens. -/
def Machine.RecoveredBefore (m : Machine T N) (count : Nat) : Prop :=
  ∀ left, m.lastRecovery = some left → count < left

namespace Reading

/-- The last of the topmost derivations is the one on top. -/
theorem exists_top_of_topmost {frames : List (Derivation τ κ T N × Nat)} {count : Nat}
    {symbol : Symbol τ κ}
    (last : ((topmost frames count).map Derivation.root).getLast? = some symbol) :
    ∃ frame ∈ frames.head?, frame.1.root = symbol := by
  rw [topmost, List.getLast?_map, List.getLast?_reverse, List.head?_map, Option.map_map,
    Option.map_eq_some_iff] at last
  obtain ⟨frame, isFirst, root⟩ := last
  rw [List.head?_take] at isFirst
  split at isFirst
  · cases isFirst
  · exact ⟨frame, isFirst, root⟩

end Reading

variable [Ordered τ] [Ordered κ] [DecidableEq τ] [DecidableEq κ]

namespace Table

/-- `table.Separates g start separator item keys` says that the text of an item is over
where the separator comes. The rules of the item and of the keys hold only what can stand
inside an item, and the others end with something that cannot, and is no separator. Only
the separator can come behind an item, and no state that begins one or is inside one goes
on at the separator. -/
structure Separates (table : Table τ κ T N) (g : Grammar τ κ T N) (start : κ) (separator : τ)
    (item : κ) (keys : List κ) : Prop where
  inside : ∀ rule ∈ g.rules, rule.key ∈ item :: keys →
    ∀ symbol ∈ rule.symbols, symbol.Inside separator keys
  outside : ∀ rule ∈ g.rules, rule.key ∉ item :: keys →
    ∃ symbol ∈ rule.symbols.getLast?, ¬ symbol.Inside separator keys ∧ symbol ≠ .terminal separator
  start_outside : start ∉ item :: keys
  follows : ∀ t, t ∈ g.followOf item ↔ t = separator
  opens : ∀ {number target}, table.edge? number (.nonterminal item) = some target →
    table.edge? number (.terminal separator) = none
  closes : ∀ {number symbol target}, symbol.Inside separator keys →
    table.edge? number symbol = some target →
    table.edge? target (.nonterminal item) = none ∧ table.edge? target (.terminal separator) = none

/-- Frames that an item can be read on: nothing, or a separator. -/
structure Begins (table : Table τ κ T N) (separator : τ) (item : κ)
    (base : List (Derivation τ κ T N × Nat)) (target : Nat) : Prop where
  walked : table.Walked base
  goes : table.edge? (Reading.topState base) (.nonterminal item) = some target
  behind : ∀ frame ∈ base.head?, frame.1.root = .terminal separator

/-- What has been read of an item stands above the frames that it began on, and `left` is
still to come. -/
structure Pending (table : Table τ κ T N) (g : Grammar τ κ T N) (separator : τ) (keys : List κ)
    (base : List (Derivation τ κ T N × Nat)) (chunk : List T)
    (above : List (Derivation τ κ T N × Nat)) (left : List T) : Prop where
  walked : table.Walked (above ++ base)
  derived : ∀ frame ∈ above, g.IsDerivation frame.1
  inside : ∀ frame ∈ above, frame.1.root.Inside separator keys
  tokens : Reading.spelled above ++ left = chunk

variable {g : Grammar τ κ T N} {start : κ} {table : Table τ κ T N} {separator : τ} {item : κ}
  {keys : List κ} {base above : List (Derivation τ κ T N × Nat)} {target : Nat}
  {chunk left : List T}

theorem Begins.pending (begins : table.Begins separator item base target)
    (g : Grammar τ κ T N) (keys : List κ) (chunk : List T) :
    table.Pending g separator keys base chunk [] chunk where
  walked := begins.walked
  derived := List.forall_mem_nil _
  inside := List.forall_mem_nil _
  tokens := rfl

/-- Inside an item no state goes on at an item or at the separator. -/
theorem Separates.edges (separates : table.Separates g start separator item keys)
    (walked : table.Walked (above ++ base))
    (inside : ∀ frame ∈ above, frame.1.root.Inside separator keys) :
    ∀ frame ∈ above, table.edge? frame.2 (.nonterminal item) = none ∧
      table.edge? frame.2 (.terminal separator) = none := by
  induction above with
  | nil => exact List.forall_mem_nil _
  | cons frame below ih =>
    rw [List.forall_mem_cons] at inside ⊢
    exact ⟨separates.closes inside.1 walked.1, ih walked.2 inside.2⟩

/-- Nor do the states that an item begins in or is read in at the separator. -/
theorem Pending.edge?_separator (pending : table.Pending g separator keys base chunk above left)
    (separates : table.Separates g start separator item keys)
    (begins : table.Begins separator item base target) :
    table.edge? (Reading.topState (above ++ base)) (.terminal separator) = none := by
  cases above with
  | nil => exact separates.opens begins.goes
  | cons frame below =>
    exact (separates.edges pending.walked pending.inside frame List.mem_cons_self).2

theorem Separates.canFollow_iff (separates : table.Separates g start separator item keys)
    (built : g.Automaton start table) {token : T} :
    table.canFollow item token = true ↔ (g.alphabet separator).accepts token = true := by
  rw [built.canFollow_iff]
  simp only [separates.follows, exists_eq_left]

/-! ### Footholds -/

omit [DecidableEq τ] in
/-- Where footholds are sought, frames without one are passed over. -/
theorem unwind?_append (first : Nat) {frames below : List (Frame T N)}
    (none : ∀ frame ∈ frames, table.foothold? frame.state = none) :
    table.unwind? first (frames ++ below) = table.unwind? first below := by
  induction frames with
  | nil => rfl
  | cons frame rest ih =>
    rw [List.forall_mem_cons] at none
    rw [List.cons_append, unwind?, none.1]
    exact ih none.2

omit [DecidableEq τ] in
theorem unwind?_of_foothold? {first : Nat} {frames : List (Frame T N)} {foothold : Foothold κ T N}
    (found : table.foothold? (Stack.top ⟨first, frames⟩) = some foothold) :
    table.unwind? first frames = some (⟨first, frames⟩, foothold) := by
  cases frames with
  | nil =>
    rw [unwind?]
    exact congrArg (Option.map _) found
  | cons frame rest =>
    have found' : table.foothold? frame.state = some foothold := found
    rw [unwind?, found']

omit [DecidableEq τ] in
/-- Where one key has a placeholder, the footholds are the gotos on it. -/
theorem foothold?_of_placeholders {tree : Tree T N}
    (placeholders : table.placeholders = [(item, tree)]) (number : Nat) :
    table.foothold? number = (table.goto? number item).map fun target => ⟨item, tree, target⟩ := by
  rw [foothold?, placeholders, List.findSome?_cons, List.findSome?_nil]
  cases table.goto? number item <;> rfl

/-- Where only items have a placeholder, a parser inside one unwinds to where it began. -/
theorem Pending.unwind?_eq {tree : Tree T N}
    (pending : table.Pending g separator keys base chunk above left)
    (separates : table.Separates g start separator item keys)
    (begins : table.Begins separator item base target)
    (placeholders : table.placeholders = [(item, tree)]) (input : List T) :
    table.unwind? (Reading.stack ⟨above ++ base, input⟩).start
        (Reading.stack ⟨above ++ base, input⟩).frames =
      some ((⟨base, []⟩ : Reading τ κ T N).stack, ⟨item, tree, target⟩) := by
  rw [Reading.stack, List.map_append, unwind?_append]
  · refine unwind?_of_foothold? ?_
    have top := Reading.top_stack (⟨base, []⟩ : Reading τ κ T N)
    have goes : table.goto? (Reading.topState base) item = some target := begins.goes
    rw [← top] at goes
    rw [foothold?_of_placeholders placeholders]
    exact congrArg (Option.map _) goes
  · intro frame member
    obtain ⟨frame, inside, rfl⟩ := List.mem_map.mp member
    have none : table.goto? frame.2 item = none :=
      (separates.edges pending.walked pending.inside frame inside).1
    rw [foothold?_of_placeholders placeholders, none, Option.map_none]

/-- What is skipped behind an error inside an item are the tokens up to the separator. -/
theorem Separates.dropWhile_eq (separates : table.Separates g start separator item keys)
    (built : g.Automaton start table)
    (free : ∀ word ∈ left, (g.alphabet separator).accepts word = false) {token : T}
    (closing : (g.alphabet separator).accepts token = true) (rest : List T) :
    ((left ++ token :: rest).dropWhile fun token => !table.canFollow item token) =
      token :: rest := by
  have follows : ∀ word, table.canFollow item word = true ↔
      (g.alphabet separator).accepts word = true := fun _ => separates.canFollow_iff built
  rw [List.dropWhile_append_of_pos, List.dropWhile_cons_of_neg]
  · simp [(follows token).mpr closing]
  · intro word member
    have refused := free word member
    rw [← Bool.not_eq_true, ← follows] at refused
    simpa using refused

/-! ### Steps inside an item -/

section Steps

variable [DecidableEq N] {goal : N} {place : Nat} {rule : Rule τ κ T N} {token : T} {rest : List T}

/-- A rule that is reduced inside an item is one of the item or of a key inside it, and its
body does not reach below the item. -/
theorem Pending.reduction (pending : table.Pending g separator keys base chunk above left)
    (separates : table.Separates g start separator item keys)
    (begins : table.Begins separator item base target) (built : g.Automaton start table)
    (moves : table.move goal (Reading.stack ⟨above ++ base, token :: rest⟩) (token :: rest) =
      .reduce place rule) :
    rule ∈ g.rules ∧ rule.key ∈ item :: keys ∧ rule.length ≤ above.length ∧
      (Reading.topmost above rule.length).map Derivation.root = rule.symbols := by
  obtain ⟨s, isState, _, complete, found⟩ := pending.walked.complete_of_move built moves
  have isRule : rule ∈ g.rules := List.mem_of_getElem? found
  obtain ⟨enough, spelled⟩ := pending.walked.body built isState complete found
  have own : rule.key ∈ item :: keys := by
    by_contra other
    -- the body of another rule would end with something from outside the item
    obtain ⟨symbol, last, outer, no⟩ := separates.outside rule isRule other
    obtain ⟨frame, isTop, rfl⟩ := Reading.exists_top_of_topmost (spelled ▸ last)
    cases above with
    | nil => exact no (begins.behind frame isTop)
    | cons frame' below =>
      obtain rfl := Option.some.inj isTop
      exact outer (pending.inside frame' List.mem_cons_self)
  have held : rule.length ≤ above.length := by
    by_contra short
    -- the body would reach down to the separator
    obtain ⟨frame, isTop⟩ : ∃ frame, base.head? = some frame := by
      cases base with
      | nil =>
        rw [List.append_nil] at enough
        exact absurd enough short
      | cons frame below => exact ⟨frame, rfl⟩
    have taken : frame.1 ∈ Reading.topmost (above ++ base) rule.length := by
      obtain ⟨below, rfl⟩ := List.head?_eq_some_iff.mp isTop
      refine List.mem_reverse.mpr (List.mem_map_of_mem ?_)
      have more : rule.length - above.length = rule.length - above.length - 1 + 1 := by omega
      rw [List.take_append, more, List.take_succ_cons]
      exact List.mem_append_right _ List.mem_cons_self
    have inner := separates.inside rule isRule own frame.1.root
      (spelled ▸ List.mem_map_of_mem taken)
    rw [begins.behind frame isTop] at inner
    exact inner rfl
  refine ⟨isRule, own, held, ?_⟩
  rw [← spelled, Reading.topmost, Reading.topmost, List.take_append_of_le_length held]

omit [DecidableEq N] in
/-- What is shifted inside an item belongs to it. -/
theorem Pending.shift (pending : table.Pending g separator keys base chunk above (token :: left))
    (separates : table.Separates g start separator item keys)
    (begins : table.Begins separator item base target) (built : g.Automaton start table) {t : τ}
    {target' : Nat}
    (acts : table.actionFor? (Reading.topState (above ++ base)) token = some (t, .shift target')) :
    table.Pending g separator keys base chunk ((.leaf (t, token), target') :: above) left := by
  obtain ⟨edge, accepted⟩ := edge_of_actionFor? built acts
  refine ⟨⟨edge, pending.walked⟩, ?_, ?_, ?_⟩
  · exact List.forall_mem_cons.mpr ⟨.leaf t token accepted, pending.derived⟩
  · refine List.forall_mem_cons.mpr ⟨?_, pending.inside⟩
    rintro rfl
    cases (pending.edge?_separator separates begins).symm.trans edge
  · rw [Reading.spelled_cons, List.append_assoc]
    exact pending.tokens

omit [DecidableEq N] in
/-- The separator is not shifted inside an item. -/
theorem Pending.not_shift (pending : table.Pending g separator keys base chunk above left)
    (separates : table.Separates g start separator item keys)
    (begins : table.Begins separator item base target) (built : g.Automaton start table)
    (distinct : g.Distinct) (closing : (g.alphabet separator).accepts token = true) {t : τ}
    {target' : Nat} :
    table.actionFor? (Reading.topState (above ++ base)) token ≠ some (t, .shift target') := by
  intro acts
  obtain ⟨edge, accepted⟩ := edge_of_actionFor? built acts
  have behind : separator ∈ g.followOf item := (separates.follows separator).mpr rfl
  obtain rfl := distinct t (built.occurs_of_edge? edge) separator
    (Grammar.mem_terminalOccurrences_of_mem_follow behind) token accepted closing
  cases (pending.edge?_separator separates begins).symm.trans edge

/-- A reduction puts a part of the item on the stack, or all of it. -/
theorem Pending.reduce (pending : table.Pending g separator keys base chunk above left)
    (separates : table.Separates g start separator item keys)
    (begins : table.Begins separator item base target) (built : g.Automaton start table)
    (moves : table.move goal (Reading.stack ⟨above ++ base, token :: rest⟩) (token :: rest) =
      .reduce place rule) {target' : Nat}
    (goes : table.goto? (Reading.topState ((above ++ base).drop rule.length)) rule.key =
      some target') :
    ∃ D, (D, target') :: above.drop rule.length ++ base =
        (.branch rule (Reading.topmost (above ++ base) rule.length), target') ::
          (above ++ base).drop rule.length ∧
      g.IsDerivation D ∧ D.root = .nonterminal rule.key ∧
      (table.Pending g separator keys base chunk ((D, target') :: above.drop rule.length) left ∨
        rule.key = item ∧ above.drop rule.length = [] ∧ target' = target ∧
          D.tokens ++ left = chunk) := by
  obtain ⟨isRule, own, held, spelled⟩ := pending.reduction separates begins built moves
  have dropped : (above ++ base).drop rule.length = above.drop rule.length ++ base :=
    List.drop_append_of_le_length held
  have walked := pending.walked.drop rule.length
  rw [dropped] at goes walked
  have children : ∀ D ∈ Reading.topmost above rule.length, g.IsDerivation D := by
    intro D member
    obtain ⟨frame, isFrame, rfl⟩ := List.mem_map.mp (List.mem_reverse.mp member)
    exact pending.derived frame (List.mem_of_mem_take isFrame)
  have derived : g.IsDerivation (.branch rule (Reading.topmost above rule.length)) :=
    .branch rule _ isRule spelled children
  have below : ∀ frame ∈ above.drop rule.length, frame.1.root.Inside separator keys :=
    fun frame member => pending.inside frame (List.mem_of_mem_drop member)
  have tokens := pending.tokens
  rw [← Reading.spelled_reduced rule target' rule.length above] at tokens
  refine ⟨.branch rule (Reading.topmost above rule.length), ?_, derived, rfl, ?_⟩
  · rw [dropped, Reading.topmost, Reading.topmost, List.take_append_of_le_length held]
    rfl
  rcases List.mem_cons.mp own with rfl | inner
  · -- only where the item began does a state go on at it
    have bottom : above.drop rule.length = [] := by
      cases isBelow : above.drop rule.length with
      | nil => rfl
      | cons frame more =>
        rw [isBelow] at goes walked below
        have none := (separates.edges walked below frame List.mem_cons_self).1
        cases none.symm.trans goes
    rw [bottom] at goes tokens
    refine .inr ⟨rfl, bottom, Option.some.inj (goes.symm.trans begins.goes), ?_⟩
    rwa [Reading.spelled_cons] at tokens
  · refine .inl ⟨⟨goes, walked⟩, ?_, List.forall_mem_cons.mpr ⟨inner, below⟩, tokens⟩
    exact List.forall_mem_cons.mpr ⟨derived, fun frame member =>
      pending.derived frame (List.mem_of_mem_drop member)⟩

/-- A step inside an item stays inside it, or finishes it with all of its tokens. -/
theorem Pending.reads (pending : table.Pending g separator keys base chunk above left)
    (separates : table.Separates g start separator item keys)
    (begins : table.Begins separator item base target) (built : g.Automaton start table)
    (distinct : g.Distinct)
    (free : ∀ token ∈ chunk, (g.alphabet separator).accepts token = false)
    (closing : (g.alphabet separator).accepts token = true) {r : Reading τ κ T N}
    (reads : table.Reads goal ⟨above ++ base, left ++ token :: rest⟩ r) :
    (∃ above' left', r = ⟨above' ++ base, left' ++ token :: rest⟩ ∧
      table.Pending g separator keys base chunk above' left') ∨
    ∃ D, r = ⟨(D, target) :: base, token :: rest⟩ ∧ g.IsDerivation D ∧
      D.root = .nonterminal item ∧ D.tokens = chunk := by
  obtain ⟨first, more, input⟩ : ∃ first more, left ++ token :: rest = first :: more :=
    List.exists_cons_of_ne_nil (List.append_ne_nil_of_right_ne_nil _ (List.cons_ne_nil _ _))
  rw [input] at reads
  cases reads with
  | shift acts =>
    cases left with
    | nil =>
      obtain ⟨rfl, rfl⟩ := List.cons.inj input
      exact absurd acts (pending.not_shift separates begins built distinct closing)
    | cons word left =>
      obtain ⟨rfl, rfl⟩ := List.cons.inj input
      exact .inl ⟨_, left, rfl, pending.shift separates begins built acts⟩
  | reduce moves enough goes =>
    obtain ⟨D, same, derived, root, inner | ⟨isItem, bottom, rfl, tokens⟩⟩ :=
      pending.reduce separates begins built moves goes
    · exact .inl ⟨_, left, by rw [input, ← same], inner⟩
    · -- an item is reduced before a separator only, so nothing of it is left
      have follows := canFollow_of_move built moves
      rw [isItem, separates.canFollow_iff built] at follows
      have done : left = [] := by
        cases left with
        | nil => rfl
        | cons word left =>
          obtain ⟨rfl, _⟩ := List.cons.inj input
          have own : word ∈ chunk := tokens ▸ List.mem_append_right _ List.mem_cons_self
          cases (free word own).symm.trans follows
      subst done
      refine .inr ⟨D, ?_, derived, isItem ▸ root, by rwa [List.append_nil] at tokens⟩
      rw [← same, bottom, ← input]
      rfl

/-- A parser that goes no further inside an item recovers. -/
theorem Pending.move_eq_recover (pending : table.Pending g separator keys base chunk above left)
    (separates : table.Separates g start separator item keys)
    (begins : table.Begins separator item base target) (built : g.Automaton start table)
    (stuck : ∀ r, ¬ table.Reads goal ⟨above ++ base, token :: rest⟩ r) :
    table.move goal (Reading.stack ⟨above ++ base, token :: rest⟩) (token :: rest) = .recover := by
  cases moves : table.move goal (Reading.stack ⟨above ++ base, token :: rest⟩) (token :: rest) with
  | accept tree => exact absurd moves (moveOn_ne_accept _)
  | shift token' target' =>
    obtain ⟨rfl, t, acts⟩ := actionFor?_of_moveOn_shift moves
    rw [Reading.top_stack] at acts
    exact absurd (.shift acts) (stuck _)
  | reduce place rule =>
    obtain ⟨isRule, own, held, _⟩ := pending.reduction separates begins built moves
    obtain ⟨s, isState, reached, complete, found⟩ := pending.walked.complete_of_move built moves
    obtain ⟨under, isUnder, reachedUnder⟩ := (pending.walked.drop rule.length).reaches built
    rw [List.map_drop] at reachedUnder
    obtain ⟨enough, ⟨target', goes⟩ | ⟨isStart, _⟩⟩ :=
      built.exists_goto_of_complete reached complete found isUnder reachedUnder
    · rw [List.length_map] at enough
      exact absurd (.reduce moves enough goes) (stuck _)
    · exact absurd (isStart ▸ own) separates.start_outside
  | recover => rfl

/-- An item is read where it begins, whatever can come behind it. -/
theorem Begins.readsIn (begins : table.Begins separator item base target)
    (built : g.Automaton start table) (distinct : g.Distinct)
    (unresolved : ∀ s ∈ table.states, s.resolutions = []) (goal : N) {D : Derivation τ κ T N}
    (derived : g.IsDerivation D) (root : D.root = .nonterminal item) (behind : List (τ × T))
    (ending : behind = [] → table.Closing goal base D) (upcoming : g.Upcoming behind)
    (follows : ∀ t, behind.head?.map Prod.fst = some t → t ∈ g.followOf item) :
    table.ReadsIn goal D.size ⟨base, D.tokens ++ behind.map Prod.snd⟩
      ⟨(D, target) :: base, behind.map Prod.snd⟩ := by
  have edge := begins.goes
  rw [edge?, Option.bind_eq_some_iff] at edge
  obtain ⟨s, isState, next⟩ := edge
  obtain ⟨_, place, member, expected⟩ := built.of_next? isState next
  obtain ⟨state, edge, reads⟩ := follows_of_guide built distinct (guide_of_unresolved unresolved)
    derived base behind begins.walked ending upcoming
    ⟨s, place, isState, member, root ▸ expected⟩ trivial
    fun t key isNext same => Symbol.nonterminal.inj (root.symm.trans same) ▸ follows t isNext
  rw [root, begins.goes] at edge
  obtain rfl := Option.some.inj edge
  exact reads

variable [Named κ] [Token T]

/-- From inside an item the parser comes to its end, with all of its tokens read, or it
gets stuck inside it. -/
theorem Pending.exists_stop {placeholders : List (κ × Tree T N)}
    (pending : table.Pending g separator keys base chunk above left)
    (separates : table.Separates g start separator item keys)
    (begins : table.Begins separator item base target)
    (built : g.table start placeholders = .ok table) (sane : g.Sane) (distinct : g.Distinct)
    (free : ∀ token ∈ chunk, (g.alphabet separator).accepts token = false)
    (closing : (g.alphabet separator).accepts token = true) (goal : N) (rest : List T) :
    g.Spells item chunk ∨
    ∃ n above' left', table.ReadsIn goal n ⟨above ++ base, left ++ token :: rest⟩
        ⟨above' ++ base, left' ++ token :: rest⟩ ∧
      table.Pending g separator keys base chunk above' left' ∧
      ∀ r, ¬ table.Reads goal ⟨above' ++ base, left' ++ token :: rest⟩ r := by
  have automaton := Grammar.automaton_of_table built
  have ends : Acc (fun r' r => table.Reads goal r r') ⟨above ++ base, left ++ token :: rest⟩ :=
    acc_reads sane built pending.walked
  generalize isReading : (⟨above ++ base, left ++ token :: rest⟩ : Reading τ κ T N) = r at ends
  induction ends generalizing above left with
  | intro r _ ih =>
    subst isReading
    by_cases stuck : ∃ r, table.Reads goal ⟨above ++ base, left ++ token :: rest⟩ r
    · obtain ⟨r, first⟩ := stuck
      rcases pending.reads separates begins automaton distinct free closing first with
        ⟨above', left', rfl, pending'⟩ | ⟨D, _, derived, root, tokens⟩
      · rcases ih _ first pending' rfl with spelled | ⟨n, above₁, left₁, others, stops⟩
        · exact .inl spelled
        · exact .inr ⟨n + 1, above₁, left₁, .step first others, stops⟩
      · exact .inl ⟨D, derived, root, tokens⟩
    · exact .inr ⟨0, above, left, .refl _, pending, not_exists.mp stuck⟩

end Steps

/-! ### Recovery -/

section Recovery

variable [DecidableEq N] [Named κ] [Token T] {goal : N} {m : Machine T N} {token : T}
  {rest : List T}

omit [DecidableEq τ] in
/-- A recovery with a foothold that finds a token to go on with. -/
theorem step_of_recover (moves : table.move goal m.stack m.input = .recover)
    (input : m.input = token :: rest) (progress : m.lastRecovery ≠ some m.input.length)
    {unwound : Stack T N} {foothold : Foothold κ T N}
    (found : table.unwind? m.stack.start m.stack.frames = some (unwound, foothold)) {next : T}
    {others : List T}
    (resumes : (m.input.dropWhile fun token => !table.canFollow foothold.key token) =
      next :: others) :
    ∃ m', table.step goal m = .next m' ∧
      m'.stack = unwound.push foothold.placeholder foothold.target ∧
      m'.input = next :: others ∧ m'.lastRecovery = some (others.length + 1) ∧
      m'.diagnostics = m.diagnostics ++ [.unexpectedToken (Token.text token) (Token.span token)
        (table.expected m.stack.top)] := by
  have rescued : table.rescue m.stack m.input =
      .found unwound foothold (m.input.length - (next :: others).length) (next :: others) := by
    unfold rescue
    rw [found]
    simp only [resumes, List.isEmpty_cons, Bool.false_eq_true, if_false]
  have recovers : table.step goal m = table.recoverAt m token := by
    unfold step
    rw [moves]
    simp only [input]
  rw [recovers]
  unfold recoverAt
  simp only [Machine.report, if_neg progress, rescued]
  refine ⟨_, rfl, ?_, ?_, ?_, ?_⟩
  · rw [Machine.stack_record]
  · rw [Machine.input_record]
  · rw [Machine.lastRecovery_record, List.length_cons]
  · rw [Machine.diagnostics_record]

/-- A parser that is stuck inside an item puts the placeholder where it began and goes on at
the separator. The diagnostic is about the token that it was stuck at. -/
theorem Pending.recovers {tree : Tree T N}
    (pending : table.Pending g separator keys base chunk above left)
    (separates : table.Separates g start separator item keys)
    (begins : table.Begins separator item base target)
    (built : g.table start [(item, tree)] = .ok table)
    (free : ∀ token ∈ chunk, (g.alphabet separator).accepts token = false)
    (closing : (g.alphabet separator).accepts token = true)
    (stuck : ∀ r, ¬ table.Reads goal ⟨above ++ base, left ++ token :: rest⟩ r)
    (shadows : m.Shadows (⟨above ++ base, left ++ token :: rest⟩ : Reading τ κ T N))
    (progress : m.lastRecovery ≠ some m.input.length) {spare : Derivation τ κ T N}
    (build : spare.build = tree) :
    ∃ m', table.step goal m = .next m' ∧
      m'.Shadows (⟨(spare, target) :: base, token :: rest⟩ : Reading τ κ T N) ∧
      m'.lastRecovery = some (rest.length + 1) ∧
      ∃ word ∈ chunk ++ [token], ∃ expected, m'.diagnostics = m.diagnostics ++
        [.unexpectedToken (Token.text word) (Token.span word) expected] := by
  have automaton := Grammar.automaton_of_table built
  have placeholders : table.placeholders = [(item, tree)] := by
    obtain ⟨_, _, _, rfl⟩ := Grammar.exists_explores_of_table built
    rfl
  have own : ∀ word ∈ left, word ∈ chunk :=
    fun word member => pending.tokens ▸ List.mem_append_right _ member
  have found := pending.unwind?_eq separates begins placeholders (left ++ token :: rest)
  have skipped := separates.dropWhile_eq automaton (fun word member => free word (own word member))
    closing rest
  -- the parser is stuck at the first token that is left of the chunk, or at the separator
  obtain ⟨first, more, split⟩ : ∃ first more, left ++ token :: rest = first :: more :=
    List.exists_cons_of_ne_nil (List.append_ne_nil_of_right_ne_nil _ (List.cons_ne_nil _ _))
  have moves : table.move goal m.stack m.input = .recover := by
    rw [shadows.1, shadows.2]
    dsimp only
    rw [split] at stuck ⊢
    exact pending.move_eq_recover separates begins automaton stuck
  rw [← shadows.1] at found
  have input : m.input = left ++ token :: rest := shadows.2
  rw [← input] at skipped
  obtain ⟨m', next, stack, input', lastRecovery, diagnostics⟩ :=
    step_of_recover moves (input.trans split) progress found skipped
  refine ⟨m', next, ⟨?_, input'⟩, lastRecovery, first, ?_, _, diagnostics⟩
  · rw [stack, ← build]
    rfl
  · cases left with
    | nil =>
      obtain ⟨rfl, _⟩ := List.cons.inj split
      exact List.mem_append_right _ List.mem_cons_self
    | cons word left =>
      obtain ⟨rfl, _⟩ := List.cons.inj split
      exact List.mem_append_left _ (own word List.mem_cons_self)

/-- Where an item is to be read up to a separator, the parser comes to the separator. If the
tokens before it are an item, it has read this. If not, it has put the placeholder in its
place, at the cost of one diagnostic, which is about one of the tokens or the separator. -/
theorem exists_continues_item {tree : Tree T N}
    (separates : table.Separates g start separator item keys)
    (built : g.table start [(item, tree)] = .ok table) (sane : g.Sane) (distinct : g.Distinct)
    (unresolved : ∀ s ∈ table.states, s.resolutions = []) (goal : N)
    (begins : table.Begins separator item base target)
    (free : ∀ token ∈ chunk, (g.alphabet separator).accepts token = false)
    (closing : (g.alphabet separator).accepts token = true)
    (shadows : m.Shadows (⟨base, chunk ++ token :: rest⟩ : Reading τ κ T N))
    (fresh : m.RecoveredBefore m.input.length) {spare : Derivation τ κ T N}
    (build : spare.build = tree) :
    ∃ E m', table.Continues goal m m' ∧
      m'.Shadows (⟨(E, target) :: base, token :: rest⟩ : Reading τ κ T N) ∧
      m'.RecoveredBefore rest.length ∧
      ((g.IsDerivation E ∧ E.root = .nonterminal item ∧ E.tokens = chunk ∧
          m'.diagnostics = m.diagnostics) ∨
        ¬ g.Spells item chunk ∧ E = spare ∧
          ∃ word ∈ chunk ++ [token], ∃ expected, m'.diagnostics = m.diagnostics ++
            [.unexpectedToken (Token.text word) (Token.span word) expected]) := by
  have automaton := Grammar.automaton_of_table built
  have long : m.input.length = chunk.length + (rest.length + 1) := by
    rw [shadows.2, List.length_append, List.length_cons]
  by_cases spells : g.Spells item chunk
  · obtain ⟨D, derived, root, rfl⟩ := spells
    -- before the separator the item is read as before nothing else
    have upcoming : g.Upcoming [(separator, token)] := by
      intro entry member
      obtain rfl := List.mem_singleton.mp member
      exact ⟨closing, Grammar.mem_terminalOccurrences_of_mem_follow
        ((separates.follows separator).mpr rfl)⟩
    have reads := begins.readsIn automaton distinct unresolved goal derived root
      [(separator, token)] nofun upcoming
      fun t isNext => (separates.follows t).mpr (Option.some.inj isNext).symm
    obtain ⟨more, _⟩ := reads.append (List.cons_ne_nil _ _) rest
    rw [List.append_assoc] at more
    obtain ⟨m', continues, shadows', diagnostics, lastRecovery⟩ := continues_of_readsIn shadows more
    refine ⟨D, m', continues, shadows', ?_, .inl ⟨derived, root, rfl, diagnostics⟩⟩
    intro count recovered
    have before := fresh count (lastRecovery ▸ recovered)
    omega
  · rcases (begins.pending g keys chunk).exists_stop separates begins built sane distinct free
      closing goal rest with spelled | ⟨n, above, left, reads, pending, stuck⟩
    · exact absurd spelled spells
    · obtain ⟨m₁, front, shadows₁, diagnostics, lastRecovery⟩ := continues_of_readsIn shadows reads
      -- the tokens that are left are no more than those at the start
      have progress : m₁.lastRecovery ≠ some m₁.input.length := by
        intro recovered
        have before := fresh _ (lastRecovery ▸ recovered)
        have shorter := (input_suffix_of_continues front).length_le
        omega
      obtain ⟨m', last, shadows', recovered, word, isWord, expected, reported⟩ :=
        pending.recovers separates begins built free closing stuck shadows₁ progress build
      refine ⟨spare, m', .tail front last, shadows', ?_,
        .inr ⟨spells, rfl, word, isWord, expected, diagnostics ▸ reported⟩⟩
      intro count same
      rw [recovered] at same
      obtain rfl := Option.some.inj same
      exact Nat.lt_succ_self _

end Recovery
end Table

end ShiftReduce
