/-
  On a sane grammar every parse ends.

  A shift takes a token, and a recovery that takes none is the last before a token is
  taken (`Machine.patience`). In between there are reductions only. Each frame on the
  stack is tagged as hollow or solid (`Table.Tagged`). A reduction that takes a solid
  frame lowers the charges, and any other leaves the solid frames alone and raises the
  lifts (`Tagged.reduce`). These are bounded by the charges, since no path ends with more
  hollow frames than a sane grammar has room for (`Tagged.lifts_le_ceiling`). So every
  step lowers a potential (`Tagged.step`), and every run ends (`exists_finished_of_sane`).
-/
import Mathlib.Data.Prod.Lex
import ShiftReduce.Proofs.Parser.Effect
import ShiftReduce.Proofs.Parser.Weights

namespace ShiftReduce

variable {τ κ T N : Type} [Ordered τ] [Ordered κ] [DecidableEq τ] [DecidableEq κ]

/-! ### Tagged stacks -/

namespace Table

/-- `table.Tagged g start base ground tags frames` says that frames stand on the state
`base`, to which the path `ground` leads, along the edges of the symbols of their tags,
and that the letters of hollow frames are rewritten to the empty form. -/
inductive Tagged (table : Table τ κ T N) (g : Grammar τ κ T N) (start : κ) (base : Nat)
    (ground : List (Symbol τ κ)) : List (Tag τ κ) → List (Frame T N) → Prop
  | nil {s : State τ κ} (isState : table.state? base = some s)
      (reached : g.Reaches start ground s.items) : Tagged table g start base ground [] []
  | cons {tags : List (Tag τ κ)} {below : List (Frame T N)} {tag : Tag τ κ} {frame : Frame T N}
      (edge : table.edge? (Stack.top ⟨base, below⟩) tag.symbol = some frame.state)
      (empty : tag.hollow = true → g.Derives [tag.letter] [])
      (rest : Tagged table g start base ground tags below) :
      Tagged table g start base ground (tag :: tags) (frame :: below)

namespace Tagged

variable {table : Table τ κ T N} {g : Grammar τ κ T N} {start : κ} {base : Nat}
  {ground : List (Symbol τ κ)} {tags : List (Tag τ κ)} {frames : List (Frame T N)}

theorem length_eq (tagged : table.Tagged g start base ground tags frames) :
    tags.length = frames.length := by
  induction tagged with
  | nil => rfl
  | cons _ _ _ ih => rw [List.length_cons, List.length_cons, ih]

theorem drop (tagged : table.Tagged g start base ground tags frames) (count : Nat) :
    table.Tagged g start base ground (tags.drop count) (frames.drop count) := by
  induction tagged generalizing count with
  | nil isState reached =>
    rw [List.drop_nil, List.drop_nil]
    exact .nil isState reached
  | cons edge empty rest ih =>
    cases count with
    | zero => exact .cons edge empty rest
    | succ count => exact ih count

theorem empty (tagged : table.Tagged g start base ground tags frames) :
    ∀ tag ∈ tags, tag.hollow = true → g.Derives [tag.letter] [] := by
  induction tagged with
  | nil => exact List.forall_mem_nil _
  | cons _ empty _ ih => exact List.forall_mem_cons.mpr ⟨empty, ih⟩

/-- The symbols of the tags lead on from the path to the state below all frames. -/
theorem reaches (tagged : table.Tagged g start base ground tags frames)
    (built : g.Automaton start table) :
    ∃ s, table.state? (Stack.top ⟨base, frames⟩) = some s ∧
      g.Reaches start (tags.map Tag.symbol ++ ground) s.items := by
  induction tagged with
  | nil isState reached => exact ⟨_, isState, reached⟩
  | cons edge _ _ ih =>
    obtain ⟨s, isState, reached⟩ := ih
    exact built.reaches_of_edge? isState reached edge

/-- The tags of a body that has been read completely have its letters. -/
theorem letters_body (tagged : table.Tagged g start base ground tags frames)
    (built : g.Automaton start table) {s : State τ κ}
    (isState : table.state? (Stack.top ⟨base, frames⟩) = some s) {place : Nat}
    (complete : place ∈ g.completeRules s.items) {rule : Rule τ κ T N}
    (found : g.rule? place = some rule) (enough : rule.length ≤ frames.length) :
    letters rule.body = ((tags.take rule.length).map Tag.letter).reverse := by
  obtain ⟨s', isState', reached⟩ := tagged.reaches built
  obtain rfl := Option.some.inj (isState.symm.trans isState')
  obtain ⟨cursor, member, done⟩ := g.mem_completeRules.mp complete
  obtain rfl := reached.cursor_eq_length member found done
  obtain ⟨spelled, _⟩ := reached.backed member found
  have within : rule.length ≤ (tags.map Tag.symbol).length := by
    rwa [List.length_map, tagged.length_eq]
  rw [List.take_append_of_le_length within, ← List.map_take] at spelled
  have body : rule.body.take rule.length =
      ((tags.take rule.length).map Tag.letter).reverse.map Symbol.ofLetter := by
    rw [← List.reverse_reverse (rule.body.take rule.length), spelled, List.map_reverse,
      List.map_map]
    rfl
  -- the symbols of tags are no empty texts, so none was left out of the body
  have real : ∀ symbol ∈ rule.body.take rule.length, symbol ≠ .epsilon := by
    intro symbol inside
    rw [body, List.mem_map] at inside
    obtain ⟨letter, _, rfl⟩ := inside
    cases letter <;> exact nofun
  apply Symbol.ofLetter_injective.list_map
  rw [map_ofLetter_letters, ← body]
  exact Rule.symbols_eq_take real

/-- What the hollow frames count is bounded by the length of their runs: one on top, and
one below each solid frame. -/
theorem lifts_le (tagged : table.Tagged g start base ground tags frames)
    (built : g.Automaton start table) (r : g.Ranks) :
    r.lifts tags ≤ r.cap *
      (g.emptyRun (tags.map Tag.symbol ++ ground) + r.stretch * r.charges tags) := by
  induction tagged with
  | nil => exact Nat.zero_le _
  | @cons tags below tag frame edge empty rest ih =>
    obtain ⟨letter, hollow⟩ := tag
    rw [Grammar.Ranks.lifts_cons, Grammar.Ranks.charges_cons, List.map_cons, List.cons_append]
    cases hollow with
    | true =>
      -- the run on top gets longer
      have grown : g.emptyRun (Tag.symbol ⟨letter, true⟩ :: (tags.map Tag.symbol ++ ground)) =
          g.emptyRun (tags.map Tag.symbol ++ ground) + 1 :=
        g.emptyRun_cons_of_derives (empty rfl)
      have own := r.lift_le_cap (⟨letter, true⟩ : Tag τ κ)
      rw [grown, r.charge_hollow, Nat.zero_add, Nat.add_right_comm, Nat.mul_succ]
      omega
    | false =>
      -- the run that was on top is the one below the solid frame
      obtain ⟨s, _, reached⟩ := rest.reaches built
      have below := reached.emptyRun_le r
      have positive := r.bound_lt_charge letter
      have unlifted : r.lift (⟨letter, false⟩ : Tag τ κ) = 0 := by cases letter <;> rfl
      rw [unlifted, Nat.zero_add]
      refine ih.trans (Nat.mul_le_mul_left _ ?_)
      calc g.emptyRun (tags.map Tag.symbol ++ ground) + r.stretch * r.charges tags
          ≤ r.stretch * 1 + r.stretch * r.charges tags := by omega
        _ ≤ r.stretch * r.charge ⟨letter, false⟩ + r.stretch * r.charges tags := by
          have room := Nat.mul_le_mul_left r.stretch (Nat.zero_lt_of_lt positive)
          omega
        _ = r.stretch * (r.charge ⟨letter, false⟩ + r.charges tags) := (Nat.mul_add _ _ _).symm
        _ ≤ _ := Nat.le_add_left _ _

theorem lifts_le_ceiling (tagged : table.Tagged g start base ground tags frames)
    (built : g.Automaton start table) (r : g.Ranks) :
    r.lifts tags ≤ r.ceiling (r.charges tags) := by
  obtain ⟨s, _, reached⟩ := tagged.reaches built
  have top := reached.emptyRun_le r
  refine (tagged.lifts_le built r).trans (Nat.mul_le_mul_left _ ?_)
  rw [Nat.mul_succ]
  omega

end Tagged

end Table

/-! ### Steps -/

namespace Machine

/-- Two for each token to come, and one more unless the last recovery has left them. -/
def patience (m : Machine T N) : Nat :=
  2 * m.input.length + if m.lastRecovery = some m.input.length then 0 else 1

variable {m m' : Machine T N}

theorem patience_lt_of_shift {token : T} (input : m.input = token :: m'.input)
    (lastRecovery : m'.lastRecovery = m.lastRecovery) : m'.patience < m.patience := by
  unfold patience
  rw [input, lastRecovery, List.length_cons]
  split <;> split <;> omega

theorem patience_lt_of_recover (input : m'.input <:+ m.input)
    (progress : m.lastRecovery ≠ some m.input.length)
    (lastRecovery : m'.lastRecovery = some m'.input.length) : m'.patience < m.patience := by
  have shorter := input.length_le
  unfold patience
  rw [if_pos lastRecovery, if_neg progress]
  omega

end Machine

/-- What goes down with every step of a machine on a tagged stack: its patience, then
the charges of the solid frames, then how far the hollow ones can still be lifted. -/
def Grammar.Ranks.potential {g : Grammar τ κ T N} (r : g.Ranks) (m : Machine T N)
    (tags : List (Tag τ κ)) : ℕ ×ₗ ℕ ×ₗ ℕ :=
  toLex (m.patience, toLex (r.charges tags, r.ceiling (r.charges tags) - r.lifts tags))

namespace Table

variable [DecidableEq N] [Named κ] [Token T] {table : Table τ κ T N} {g : Grammar τ κ T N}
  {start : κ} {goal : N} {m m' : Machine T N} {ground : List (Symbol τ κ)}
  {tags : List (Tag τ κ)}

omit [Named κ] [Token T] in
/-- A reduction that takes a solid frame lowers the charges; any other keeps them and
raises the lifts. -/
theorem Tagged.reduce {place target : Nat} {rule : Rule τ κ T N} {stack : Stack T N}
    {input : List T} (tagged : table.Tagged g start stack.start ground tags stack.frames)
    (built : g.Automaton start table) (r : g.Ranks)
    (moves : table.move goal stack input = .reduce place rule)
    (enough : rule.length ≤ stack.frames.length)
    (goes : table.goto? (stack.drop rule.length).top rule.key = some target) (node : Tree T N) :
    ∃ tags', table.Tagged g start stack.start ground tags'
        (⟨node, target⟩ :: stack.frames.drop rule.length) ∧
      (r.charges tags' < r.charges tags ∨
        r.charges tags' = r.charges tags ∧ r.lifts tags < r.lifts tags') := by
  obtain ⟨s, isState, _⟩ := tagged.reaches built
  obtain ⟨complete, found⟩ := complete_of_move built moves isState
  have isRule : rule ∈ g.rules := List.mem_of_getElem? found
  have body := tagged.letters_body built isState complete found enough
  have known : ∀ tag ∈ tags.take rule.length, tag.hollow = true → g.Derives [tag.letter] [] :=
    fun tag member => tagged.empty tag (List.mem_of_mem_take member)
  have charges : r.charges (tags.take rule.length) + r.charges (tags.drop rule.length) =
      r.charges tags := by
    rw [← r.charges_append, List.take_append_drop]
  -- a body of hollow frames only is empty, and so is the frame that replaces it
  by_cases hollow : ∀ tag ∈ tags.take rule.length, tag.hollow = true
  · have empty : ∀ tag ∈ tags.take rule.length, g.Derives [tag.letter] [] :=
      fun tag member => known tag member (hollow tag member)
    have vanishes : g.Derives (letters rule.body) [] := by
      rw [body]
      apply Grammar.derives_nil
      simpa [-List.map_take] using empty
    refine ⟨⟨.nonterminal rule.key, true⟩ :: tags.drop rule.length,
      .cons goes (fun _ => .head (Grammar.rewrites_of_mem isRule) vanishes)
        (tagged.drop rule.length), .inr ⟨?_, ?_⟩⟩
    · rw [r.charges_cons, r.charge_hollow, ← charges, r.charges_eq_zero hollow]
    · have raised := r.lifts_lt isRule body empty
      rw [r.lifts_cons, ← List.take_append_drop rule.length tags, r.lifts_append,
        List.take_append_drop]
      omega
  · have lowered := r.lt_charges isRule body known hollow
    refine ⟨⟨.nonterminal rule.key, false⟩ :: tags.drop rule.length,
      .cons goes nofun (tagged.drop rule.length), .inl ?_⟩
    rw [r.charges_cons]
    omega

/-- Every step lowers the potential. -/
theorem Tagged.step (tagged : table.Tagged g start m.stack.start ground tags m.stack.frames)
    (built : g.Automaton start table) (r : g.Ranks) (next : table.step goal m = .next m') :
    ∃ tags', table.Tagged g start m'.stack.start ground tags' m'.stack.frames ∧
      r.potential m' tags' < r.potential m tags := by
  cases effect_of_step next with
  | @shift token target moves input stack _ _ lastRecovery =>
    rw [input] at moves
    obtain ⟨_, t, acts⟩ := actionFor?_of_moveOn_shift moves
    rw [stack]
    refine ⟨⟨.terminal t, false⟩ :: tags,
      .cons (edge_of_actionFor? built acts).1 nofun tagged, ?_⟩
    exact Prod.Lex.left _ _ (Machine.patience_lt_of_shift input lastRecovery)
  | @reduce place target rule moves input enough goes stack _ _ lastRecovery =>
    have patience : m'.patience = m.patience := by
      unfold Machine.patience
      rw [input, lastRecovery]
    obtain ⟨tags', tagged', lower | ⟨same, higher⟩⟩ :=
      tagged.reduce built r moves enough goes (rule.build (m.stack.topNodes rule.length))
    · rw [stack]
      refine ⟨tags', tagged', ?_⟩
      rw [Grammar.Ranks.potential, patience]
      exact Prod.Lex.right _ (Prod.Lex.left _ _ lower)
    · have bounded := tagged'.lifts_le_ceiling built r
      rw [stack]
      refine ⟨tags', tagged', ?_⟩
      rw [same] at bounded
      rw [Grammar.Ranks.potential, patience, same]
      have lower := Nat.sub_lt_sub_left (higher.trans_le bounded) higher
      exact Prod.Lex.right _ (Prod.Lex.right _ lower)
  | @recover unwound foothold _ input progress found stack _ lastRecovery =>
    obtain ⟨count, rfl, isFoothold⟩ := of_unwind? found
    obtain ⟨_, goes⟩ := of_foothold? isFoothold
    rw [stack]
    refine ⟨⟨.nonterminal foothold.key, false⟩ :: tags.drop count,
      .cons goes nofun (tagged.drop count), ?_⟩
    exact Prod.Lex.left _ _ (Machine.patience_lt_of_recover input progress lastRecovery)

/-! ### Runs -/

/-- A run on a tagged stack ends, since every step lowers the potential. -/
theorem Tagged.exists_finished
    (tagged : table.Tagged g start m.stack.start ground tags m.stack.frames)
    (built : g.Automaton start table) (r : g.Ranks) :
    ∃ budget, (table.run goal budget m).1 ≠ .unfinished := by
  induction isPotential : r.potential m tags using WellFoundedLT.induction generalizing m tags with
  | ind potential ih =>
    obtain rfl := isPotential
    cases taken : table.step goal m with
    | next m' =>
      obtain ⟨tags', tagged', lower⟩ := tagged.step built r taken
      obtain ⟨budget, finished⟩ := ih _ lower tagged' rfl
      refine ⟨budget + 1, ?_⟩
      rw [run, taken]
      exact finished
    | accepted tree last =>
      refine ⟨1, ?_⟩
      simp [run, taken]
    | aborted last =>
      refine ⟨1, ?_⟩
      simp [run, taken]

/-- On a sane grammar every parse ends, from any state and with any input. -/
theorem exists_finished_of_sane {placeholders : List (κ × Tree T N)} (sane : g.Sane)
    (built : g.table start placeholders = .ok table) (goal : N) {number : Nat}
    (fresh : m.stack = .base number) : ∃ budget, (table.parse goal budget m).1 ≠ .unfinished := by
  have automaton := Grammar.automaton_of_table built
  obtain ⟨r⟩ := sane.exists_ranks
  by_cases hasStart : table.hasStart m = true
  · have known : m.stack.start < table.states.length := of_decide_eq_true hasStart
    have isState := List.getElem?_eq_getElem known
    obtain ⟨ground, reached⟩ := automaton.reached _ _ isState
    have tagged : table.Tagged g start m.stack.start ground [] m.stack.frames := by
      have bare : m.stack.frames = [] := by rw [fresh]; rfl
      rw [bare]
      exact .nil isState reached
    obtain ⟨budget, finished⟩ := tagged.exists_finished automaton r
    refine ⟨budget, ?_⟩
    rw [parse, if_pos hasStart]
    exact finished
  · refine ⟨0, ?_⟩
    simp [parse, hasStart]

/-! ### Readings -/

omit [DecidableEq N] [Named κ] [Token T] in
/-- The frames of a walk can be tagged, all of them as solid. -/
theorem Walked.exists_tagged {frames : List (Derivation τ κ T N × Nat)}
    (walked : table.Walked frames) (built : g.Automaton start table) :
    ∃ tags, table.Tagged g start 0 [] tags
      (frames.map fun frame => ⟨frame.1.build, frame.2⟩) := by
  induction frames with
  | nil =>
    obtain ⟨s, isState, items⟩ := built.first
    exact ⟨[], .nil isState (items ▸ .start)⟩
  | cons frame below ih =>
    obtain ⟨edge, rest⟩ := walked
    obtain ⟨tags, tagged⟩ := ih rest
    refine ⟨⟨Derivation.letter frame.1, false⟩ :: tags, .cons ?_ nofun tagged⟩
    rw [← Reading.top_stack ⟨below, []⟩, ← Derivation.ofLetter_letter] at edge
    exact edge

/-- The readings from one that is shadowed end, since each step of the machine lowers the
potential. -/
theorem Tagged.acc_reads {r : Reading τ κ T N}
    (tagged : table.Tagged g start m.stack.start ground tags m.stack.frames)
    (built : g.Automaton start table) (ranks : g.Ranks) (shadows : m.Shadows r) :
    Acc (fun r' r => table.Reads goal r r') r := by
  induction isPotential : ranks.potential m tags using WellFoundedLT.induction
    generalizing m tags r with
  | ind potential ih =>
    obtain rfl := isPotential
    refine ⟨_, fun r' reads => ?_⟩
    obtain ⟨m', next, shadows', _⟩ := step_of_reads shadows reads
    obtain ⟨tags', tagged', lower⟩ := tagged.step built ranks next
    exact ih _ lower tagged' shadows' rfl

/-- On a sane grammar no reading goes on for ever. -/
theorem acc_reads {placeholders : List (κ × Tree T N)} (sane : g.Sane)
    (built : g.table start placeholders = .ok table) {r : Reading τ κ T N}
    (walked : table.Walked r.frames) : Acc (fun r' r => table.Reads goal r r') r := by
  have automaton := Grammar.automaton_of_table built
  obtain ⟨ranks⟩ := sane.exists_ranks
  obtain ⟨tags, tagged⟩ := walked.exists_tagged automaton
  have shadows : (⟨r.stack, r.input, {}, [], none, none⟩ : Machine T N).Shadows r := ⟨rfl, rfl⟩
  exact Tagged.acc_reads tagged automaton ranks shadows

end Table

end ShiftReduce
