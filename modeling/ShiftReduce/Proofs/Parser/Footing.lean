/-
  The stack of a parser stands on the edges of its table.

  Every frame was put on the stack by a shift, a reduction or a recovery, along
  an edge from the state below it (`Table.Enters`). So the symbols of the frames
  are a path to the item set of the state on top (`Stands.reaches`), and a rule
  that this set has read completely has its whole body on the stack. Where the
  body is taken away the rule is predicted, so the state goes on at its key,
  unless nothing is left and the key is the start key (`Stands.reduction`).
-/
import ShiftReduce.Proofs.Parser.Soundness

namespace ShiftReduce

variable {τ κ T N : Type} [Ordered τ] [Ordered κ] [DecidableEq τ] [DecidableEq κ]

/-! ### States and nodes -/

namespace Stack

theorem states_cons (start : Nat) (frame : Frame T N) (below : List (Frame T N)) :
    states ⟨start, frame :: below⟩ = states ⟨start, below⟩ ++ [frame.state] := by
  rw [states, List.map_cons, List.reverse_cons]
  rfl

theorem nodes_cons (start : Nat) (frame : Frame T N) (below : List (Frame T N)) :
    nodes ⟨start, frame :: below⟩ = nodes ⟨start, below⟩ ++ [frame.node] := by
  rw [nodes, List.map_cons, List.reverse_cons]
  rfl

theorem length_nodes (stack : Stack T N) : stack.nodes.length = stack.frames.length := by
  rw [nodes, List.length_reverse, List.length_map]

theorem length_states (stack : Stack T N) : stack.states.length = stack.frames.length + 1 := by
  rw [states, List.length_cons, List.length_reverse, List.length_map]

/-- The last state is the one on top. -/
theorem getElem?_states_length (stack : Stack T N) :
    stack.states[stack.frames.length]? = some stack.top := by
  obtain ⟨start, frames⟩ := stack
  cases frames with
  | nil => rfl
  | cons frame below =>
    have states : (states ⟨start, below⟩).length = below.length + 1 := length_states _
    rw [states_cons, List.length_cons, List.getElem?_append_right (by omega), states, Nat.sub_self]
    rfl

end Stack

/-! ### Footholds -/

namespace Table

variable {table : Table τ κ T N}

omit [DecidableEq τ] in
/-- A foothold has its placeholder and its goto. -/
theorem of_foothold? {number : Nat} {foothold : Foothold κ T N}
    (found : table.foothold? number = some foothold) :
    table.placeholder? foothold.key = some foothold.placeholder ∧
      table.goto? number foothold.key = some foothold.target := by
  obtain ⟨front, entry, back, split, goes, passed⟩ := List.findSome?_eq_some_iff.mp found
  obtain ⟨target, isTarget, rfl⟩ := Option.map_eq_some_iff.mp goes
  refine ⟨?_, isTarget⟩
  -- the entries before go nowhere, so none of them has the key
  have other : ∀ earlier ∈ front, earlier.1 ≠ entry.1 := by
    intro earlier isEarlier same
    have nowhere := Option.map_eq_none_iff.mp (passed earlier isEarlier)
    rw [same, isTarget] at nowhere
    cases nowhere
  have here : (front.find? fun earlier => earlier.1 = entry.1) = none := by
    simpa [List.find?_eq_none] using other
  rw [placeholder?, split, List.find?_append, here, Option.none_or]
  simp

omit [DecidableEq τ] in
/-- Unwinding takes frames away until the state on top has a foothold. -/
theorem of_unwind? {start : Nat} {frames : List (Frame T N)} {unwound : Stack T N}
    {foothold : Foothold κ T N} (found : table.unwind? start frames = some (unwound, foothold)) :
    ∃ count, unwound = ⟨start, frames.drop count⟩ ∧
      table.foothold? unwound.top = some foothold := by
  induction frames with
  | nil =>
    rw [unwind?, Option.map_eq_some_iff] at found
    obtain ⟨held, isFoothold, same⟩ := found
    obtain ⟨rfl, rfl⟩ := Prod.mk.inj same
    exact ⟨0, rfl, isFoothold⟩
  | cons frame below ih =>
    rw [unwind?] at found
    split at found
    · rename_i held isFoothold
      obtain ⟨rfl, rfl⟩ := Prod.mk.inj (Option.some.inj found)
      exact ⟨0, rfl, isFoothold⟩
    · obtain ⟨count, same, isFoothold⟩ := ih found
      exact ⟨count + 1, same, isFoothold⟩

end Table

/-! ### Frames on edges -/

namespace Table

/-- `table.Enters below symbol frame` says how the frame came to stand on a
state, along the edge of the symbol: its leaf was shifted, its node was built by
a rule, or it is the placeholder of a key. -/
inductive Enters (table : Table τ κ T N) (below : Nat) : Symbol τ κ → Frame T N → Prop
  | shifted {token : T} {t : τ} {target : Nat}
      (acts : table.actionFor? below token = some (t, .shift target)) :
      table.Enters below (.terminal t) ⟨.leaf token, target⟩
  | reduced {rule : Rule τ κ T N} {target : Nat} (children : List (Tree T N))
      (isRule : rule ∈ table.grammar.rules) (goes : table.goto? below rule.key = some target) :
      table.Enters below (.nonterminal rule.key) ⟨rule.build children, target⟩
  | placed {key : κ} {tree : Tree T N} {target : Nat}
      (stands : table.placeholder? key = some tree) (goes : table.goto? below key = some target) :
      table.Enters below (.nonterminal key) ⟨tree, target⟩

/-- `table.Stands path frames` says that the frames stand on each other, the
lowest on the start state, along the edges of the symbols; the topmost come
first. -/
inductive Stands (table : Table τ κ T N) : List (Symbol τ κ) → List (Frame T N) → Prop
  | nil : table.Stands [] []
  | cons {path : List (Symbol τ κ)} {below : List (Frame T N)} {symbol : Symbol τ κ}
      {frame : Frame T N} (enters : table.Enters (Stack.top ⟨0, below⟩) symbol frame)
      (rest : table.Stands path below) : table.Stands (symbol :: path) (frame :: below)

variable {g : Grammar τ κ T N} {start : κ} {table : Table τ κ T N} {path : List (Symbol τ κ)}
  {frames : List (Frame T N)}

theorem Enters.edge (built : g.Automaton start table) {below : Nat} {symbol : Symbol τ κ}
    {frame : Frame T N} (enters : table.Enters below symbol frame) :
    table.edge? below symbol = some frame.state := by
  cases enters with
  | shifted acts => exact (edge_of_actionFor? built acts).1
  | reduced children isRule goes => exact goes
  | placed stands goes => exact goes

end Table

/-- Where the body of a rule that has been read completely is taken from the path,
the state there goes on at the key of the rule, unless the key is the start key and
the body all there is. -/
theorem Grammar.Automaton.exists_goto_of_complete {g : Grammar τ κ T N} {start : κ}
    {table : Table τ κ T N} (built : g.Automaton start table) {path : List (Symbol τ κ)}
    {items : ItemSet} (reached : g.Reaches start path items) {place : Nat}
    (complete : place ∈ g.completeRules items) {rule : Rule τ κ T N}
    (found : g.rule? place = some rule) {number : Nat} {under : State τ κ}
    (isUnder : table.state? number = some under)
    (reachedUnder : g.Reaches start (path.drop rule.length) under.items) :
    rule.length ≤ path.length ∧
      ((∃ target, table.goto? number rule.key = some target) ∨
        (rule.key = start ∧ path.length = rule.length)) := by
  obtain ⟨cursor, member, done⟩ := g.mem_completeRules.mp complete
  obtain rfl := reached.cursor_eq_length member found done
  have held := reached.length_le member found
  obtain ⟨_, before, reachedBefore, unread⟩ := reached.backed member found
  -- the state below the body has the set in which the rule was predicted
  rw [reachedBefore.unique reachedUnder] at unread
  refine ⟨held, ?_⟩
  rcases reachedUnder.predicted_of_unread unread with ⟨bottom, isStart⟩ | ⟨parent, inside, predicted⟩
  · obtain ⟨_, rule', found', same⟩ := g.mem_startItems.mp isStart
    obtain rfl := Option.some.inj (found.symm.trans found')
    have short := List.drop_eq_nil_iff.mp bottom
    exact .inr ⟨same, by omega⟩
  · obtain ⟨key, expected, isStart⟩ := g.mem_predicted.mp predicted
    obtain ⟨_, rule', found', rfl⟩ := g.mem_startItems.mp isStart
    obtain rfl := Option.some.inj (found.symm.trans found')
    obtain ⟨target, goes⟩ := built.exists_goto isUnder inside expected
    refine .inl ⟨target, ?_⟩
    rw [Table.goto?, isUnder]
    exact goes

namespace Table

variable {g : Grammar τ κ T N} {start : κ} {table : Table τ κ T N} {path : List (Symbol τ κ)}
  {frames : List (Frame T N)}

namespace Stands

omit [DecidableEq τ] in
theorem length_eq (stands : table.Stands path frames) : path.length = frames.length := by
  induction stands with
  | nil => rfl
  | cons _ _ ih => rw [List.length_cons, List.length_cons, ih]

omit [DecidableEq τ] in
theorem drop (stands : table.Stands path frames) (count : Nat) :
    table.Stands (path.drop count) (frames.drop count) := by
  induction stands generalizing count with
  | nil =>
    rw [List.drop_nil, List.drop_nil]
    exact .nil
  | cons enters rest ih =>
    cases count with
    | zero => exact .cons enters rest
    | succ count => exact ih count

omit [DecidableEq τ] in
/-- Between two states that follow each other, the topmost first, the node there
has entered. -/
theorem joined (stands : table.Stands path frames) {depth above below : Nat} {node : Tree T N}
    (isAbove : (frames.map Frame.state ++ [0])[depth]? = some above)
    (isNode : (frames.map Frame.node)[depth]? = some node)
    (isBelow : (frames.map Frame.state ++ [0])[depth + 1]? = some below) :
    ∃ symbol, table.Enters below symbol ⟨node, above⟩ := by
  induction stands generalizing depth with
  | nil => cases isNode
  | @cons path under symbol frame enters rest ih =>
    cases depth with
    | zero =>
      obtain rfl := Option.some.inj isAbove
      obtain rfl := Option.some.inj isNode
      have top : (under.map Frame.state ++ [0])[0]? = some (Stack.top ⟨0, under⟩) := by
        cases under <;> rfl
      obtain rfl := Option.some.inj (top.symm.trans isBelow)
      exact ⟨symbol, enters⟩
    | succ depth => exact ih isAbove isNode isBelow

/-- The symbols are a walk to the state on top. -/
theorem walk (stands : table.Stands path frames) (built : g.Automaton start table) :
    table.walk? 0 path.reverse = some (Stack.top ⟨0, frames⟩) := by
  induction stands with
  | nil => rfl
  | cons enters rest ih =>
    rw [List.reverse_cons, walk?_concat, ih]
    exact enters.edge built

/-- The state on top has the item set that the symbols lead to. -/
theorem reaches (stands : table.Stands path frames) (built : g.Automaton start table) :
    ∃ s, table.state? (Stack.top ⟨0, frames⟩) = some s ∧ g.Reaches start path s.items := by
  obtain ⟨s, isState, reached⟩ := built.reaches_of_walk (stands.walk built)
  rw [List.reverse_reverse] at reached
  exact ⟨s, isState, reached⟩

/-- A rule that has been read completely has its body on the stack. Below the
body the state goes on at the key of the rule, unless the key is the start key
and the body all there is. -/
theorem reduction (stands : table.Stands path frames) (built : g.Automaton start table)
    {s : State τ κ} (isState : table.state? (Stack.top ⟨0, frames⟩) = some s) {place : Nat}
    (complete : place ∈ g.completeRules s.items) {rule : Rule τ κ T N}
    (found : g.rule? place = some rule) :
    rule.length ≤ frames.length ∧
      ((∃ target, table.goto? (Stack.top ⟨0, frames.drop rule.length⟩) rule.key = some target) ∨
        (rule.key = start ∧ frames.length = rule.length)) := by
  obtain ⟨s', isState', reached⟩ := stands.reaches built
  obtain rfl := Option.some.inj (isState.symm.trans isState')
  obtain ⟨under, isUnder, reachedUnder⟩ := (stands.drop rule.length).reaches built
  have count := stands.length_eq
  obtain ⟨held, goes | ⟨isStart, all⟩⟩ :=
    built.exists_goto_of_complete reached complete found isUnder reachedUnder
  · exact ⟨by omega, .inl goes⟩
  · exact ⟨by omega, .inr ⟨isStart, by omega⟩⟩

/-- No frame stands in the start state, and each in a state of the table. -/
theorem entered (stands : table.Stands path frames) (built : g.Automaton start table) :
    ∀ frame ∈ frames, frame.state ≠ 0 ∧ frame.state < table.states.length := by
  induction stands with
  | nil => exact List.forall_mem_nil _
  | @cons path below symbol frame enters rest ih =>
    refine List.forall_mem_cons.mpr ⟨?_, ih⟩
    obtain ⟨s, isState, _⟩ := rest.reaches built
    have edge := enters.edge built
    have next := edge
    rw [edge?, isState] at next
    obtain ⟨item, member, expected⟩ := (built.of_next? isState next).2
    obtain ⟨s', isState', passed⟩ := built.bump_mem_of_edge? isState member expected edge
    refine ⟨fun isFirst => ?_, (List.getElem?_eq_some_iff.mp isState').1⟩
    -- an item that has passed a symbol is none of the start set
    obtain ⟨first, isFirst', items⟩ := built.first
    rw [isFirst] at isState'
    obtain rfl := Option.some.inj (isFirst'.symm.trans isState')
    rw [items] at passed
    exact absurd (g.cursor_of_mem_startSet passed) (Nat.succ_ne_zero item.cursor)

end Stands

/-- The frames of a stack stand on each other, the lowest on the start state. -/
def Footed (table : Table τ κ T N) (stack : Stack T N) : Prop :=
  stack.start = 0 ∧ ∃ path, table.Stands path stack.frames

omit [DecidableEq τ] in
theorem footed_base (table : Table τ κ T N) : table.Footed (.base 0) := ⟨rfl, [], .nil⟩

omit [DecidableEq τ] in
theorem Footed.drop {stack : Stack T N} (footed : table.Footed stack) (count : Nat) :
    table.Footed (stack.drop count) := by
  obtain ⟨isFirst, path, stands⟩ := footed
  exact ⟨isFirst, path.drop count, stands.drop count⟩

omit [DecidableEq τ] in
theorem Footed.push {stack : Stack T N} (footed : table.Footed stack) {symbol : Symbol τ κ}
    {node : Tree T N} {target : Nat} (enters : table.Enters stack.top symbol ⟨node, target⟩) :
    table.Footed (stack.push node target) := by
  obtain ⟨first, frames⟩ := stack
  obtain ⟨rfl, path, stands⟩ := footed
  exact ⟨rfl, symbol :: path, .cons enters stands⟩

/-- The state on top of a stack has an item set that is reached. -/
theorem Footed.reaches {stack : Stack T N} (footed : table.Footed stack)
    (built : g.Automaton start table) :
    ∃ s path, table.state? stack.top = some s ∧ g.Reaches start path s.items := by
  obtain ⟨first, frames⟩ := stack
  obtain ⟨rfl, path, stands⟩ := footed
  obtain ⟨s, isState, reached⟩ := stands.reaches built
  exact ⟨s, path, isState, reached⟩

end Table

end ShiftReduce
