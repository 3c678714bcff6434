/-
  Building a table without the empty texts.

  As long as every set discovered is solid, the exploration of a grammar and that
  of the grammar without the empty texts are one. When a set with an item that
  expects the empty text is discovered, the two part (`Exploration.Parted`): from
  then on they give other numbers to what they find. But they still fill the sets
  in front of that one alike, and the first exploration cannot get past it. So it
  ends there, or both end at an earlier obstacle (`Ends.of_parted`).
-/
import ShiftReduce.Proofs.Epsilon.Erasure
import ShiftReduce.Proofs.Table.Worklists

namespace ShiftReduce

variable {τ κ T N : Type} [Ordered τ] [Ordered κ] [DecidableEq τ] [DecidableEq κ]

/-- Where an item expects the empty text, there is no plan, and such an item is told. -/
theorem Grammar.Interrupted.plan {g : Grammar τ κ T N} {items : ItemSet}
    (interrupted : g.Interrupted items) (follow : FollowSets τ κ) (context : Context) :
    ∃ item, g.expected? item = some .epsilon ∧
      g.plan follow items context = .error (.epsilonExpected item) := by
  obtain ⟨item, member, expected⟩ := interrupted
  obtain ⟨told, failed⟩ := g.plan_of_expects_epsilon follow context member expected
  refine ⟨told, ?_, failed⟩
  rcases g.obstacle_of_plan follow failed with ⟨item, _, expected, same⟩ |
    ⟨_, _, _, _, _, _, same⟩
  · obtain rfl := Obstacle.epsilonExpected.inj same
    exact expected
  · cases same

namespace Exploration

/-! ### Sets discovered -/

section Discovered

variable (e : Exploration τ κ)

omit [DecidableEq τ] [DecidableEq κ] in
theorem prefix_enter (items : ItemSet) (context : Context) :
    e.discovered <+: (e.enter items context).2.discovered := by
  unfold enter
  split
  · exact List.prefix_append _ _
  · split
    · exact List.prefix_rfl
    · rw [discovered_note]

omit [DecidableEq τ] [DecidableEq κ] in
theorem prefix_enterAll (requests : List (ItemSet × Context)) :
    e.discovered <+: (e.enterAll requests).2.discovered := by
  induction requests generalizing e with
  | nil => exact List.prefix_rfl
  | cons request rest ih => exact (e.prefix_enter request.1 request.2).trans (ih _)

omit [DecidableEq τ] [DecidableEq κ] in
theorem mem_enter {items : ItemSet} {context : Context} {entry : ItemSet × Context}
    (member : entry ∈ (e.enter items context).2.discovered) :
    entry ∈ e.discovered ∨ entry = (items, context) := by
  unfold enter at member
  split at member
  · exact (List.mem_append.mp member).imp_right List.mem_singleton.mp
  · split at member
    · exact .inl member
    · rw [discovered_note] at member
      exact .inl member

omit [DecidableEq τ] [DecidableEq κ] in
/-- A set unlike those discovered is discovered next. -/
theorem discovered_enter_new {items : ItemSet} (new : ∀ entry ∈ e.discovered, entry.1 ≠ items)
    (context : Context) :
    (e.enter items context).2.discovered = e.discovered ++ [(items, context)] := by
  have unknown : e.number? items = none :=
    List.findIdx?_eq_none_iff.mpr fun entry member => decide_eq_false (new entry member)
  rw [enter, unknown]

/-- What is entered when a set is filled: the sets behind its shifts, then those behind its
gotos, each in its context. -/
def requests (g : Grammar τ κ T N) (items : ItemSet) (context : Context) (plan : Plan τ κ) :
    List (ItemSet × Context) :=
  plan.shifts.toList.map (fun t => (g.advance items (.terminal t), Context.of (g.copyIn items t))) ++
    plan.gotos.toList.map fun key => (g.advance items (.nonterminal key), context)

variable (g : Grammar τ κ T N) (items : ItemSet) (context : Context) (plan : Plan τ κ)

theorem discovered_fill : (e.fill g items context plan).discovered =
    (e.enterAll (requests g items context plan)).2.discovered := by
  rw [requests, enterAll_append]
  rfl

theorem length_states_fill :
    (e.fill g items context plan).states.length = e.states.length + 1 := by
  unfold fill
  dsimp only
  rw [List.length_append, states_enterAll, states_enterAll]
  rfl

end Discovered

variable {g : Grammar τ κ T N} {follow : FollowSets τ κ} {e e' : Exploration τ κ}
  {items : ItemSet} {context : Context} {plan : Plan τ κ}

/-! ### Explorations in step -/

/-- What is entered without the empty texts is the same, unless the set with them has an
item that expects the empty text. -/
theorem requests_erased (solid : g.SolidSet items) :
    List.Forall₂ (fun request request' =>
        (g.SolidSet request.1 ∧ request' = request) ∨ g.Interrupted request.1)
      (requests g items context plan) (requests g.erased items context plan) := by
  have behind : ∀ (symbol : Symbol τ κ) (passed : Context),
      (g.SolidSet (g.advance items symbol) ∧
        (g.erased.advance items symbol, passed) = (g.advance items symbol, passed)) ∨
          g.Interrupted (g.advance items symbol) := by
    intro symbol passed
    refine (solid.advance symbol).imp_left fun solid' => ⟨solid', ?_⟩
    rw [g.advance_erased solid solid']
  refine List.rel_append (List.forall₂_map_left_iff.mpr ?_) (List.forall₂_map_left_iff.mpr ?_)
  · refine List.forall₂_map_right_iff.mpr (List.forall₂_same.mpr fun t _ => ?_)
    rw [g.copyIn_erased solid]
    exact behind (.terminal t) _
  · exact List.forall₂_map_right_iff.mpr
      (List.forall₂_same.mpr fun key _ => behind (.nonterminal key) _)

omit [DecidableEq τ] [DecidableEq κ] in
/-- Entering solid sets discovers solid sets. Otherwise some set is the first to be
discovered that has an item that expects the empty text, and entering the other requests
discovers the same sets before. -/
theorem enterAll_or_exists_interrupted {requested requested' : List (ItemSet × Context)}
    (solid : ∀ entry ∈ e.discovered, g.SolidSet entry.1)
    (related : List.Forall₂ (fun request request' =>
      (g.SolidSet request.1 ∧ request' = request) ∨ g.Interrupted request.1)
      requested requested') :
    (requested' = requested ∧ ∀ entry ∈ (e.enterAll requested).2.discovered, g.SolidSet entry.1) ∨
      ∃ front bad, e.discovered <+: front ∧ (∀ entry ∈ front, g.SolidSet entry.1) ∧
        g.Interrupted bad.1 ∧ front ++ [bad] <+: (e.enterAll requested).2.discovered ∧
        front <+: (e.enterAll requested').2.discovered := by
  induction related generalizing e with
  | nil => exact .inl ⟨rfl, solid⟩
  | @cons request request' rest rest' here _ ih =>
    rcases here with ⟨solidHere, rfl⟩ | interrupted
    · have solid' : ∀ entry ∈ (e.enter request'.1 request'.2).2.discovered, g.SolidSet entry.1 := by
        intro entry member
        rcases e.mem_enter member with old | rfl
        · exact solid entry old
        · exact solidHere
      rcases ih solid' with ⟨rfl, all⟩ | ⟨front, bad, grows, found⟩
      · exact .inl ⟨rfl, all⟩
      · exact .inr ⟨front, bad, (e.prefix_enter request'.1 request'.2).trans grows, found⟩
    · -- the set is new, since all that was discovered before is solid
      have new : ∀ entry ∈ e.discovered, entry.1 ≠ request.1 := fun entry member same =>
        (solid entry member).not_interrupted (same ▸ interrupted)
      refine .inr ⟨e.discovered, request, List.prefix_rfl, solid, interrupted, ?_, ?_⟩
      · rw [← e.discovered_enter_new new request.2]
        exact prefix_enterAll _ rest
      · exact (e.prefix_enter request'.1 request'.2).trans (prefix_enterAll _ rest')

/-- The two explorations have found the same solid sets up to the first one that has an item
that expects the empty text, which only the first exploration has found there, and neither
has come as far as that in filling states. -/
structure Parted (g : Grammar τ κ T N) (front : List (ItemSet × Context))
    (bad : ItemSet × Context) (e e' : Exploration τ κ) : Prop where
  solid : ∀ entry ∈ front, g.SolidSet entry.1
  interrupted : g.Interrupted bad.1
  discovered : front ++ [bad] <+: e.discovered
  discovered' : front <+: e'.discovered
  within : e.states.length ≤ front.length
  states : e'.states.length = e.states.length

namespace Parted

variable {front : List (ItemSet × Context)} {bad : ItemSet × Context}

omit [DecidableEq τ] [DecidableEq κ] in
/-- The next set to be filled is solid and the same in both explorations, or the first is to
fill one with an item that expects the empty text. -/
theorem next_cases (parted : Parted g front bad e e') {entry : ItemSet × Context}
    (next : e.discovered[e.states.length]? = some entry) :
    (e.states.length < front.length ∧ g.SolidSet entry.1 ∧
      e'.discovered[e'.states.length]? = some entry) ∨ g.Interrupted entry.1 := by
  have found := List.prefix_iff_getElem?.mp parted.discovered e.states.length
    (by rw [List.length_append]; exact Nat.lt_succ_of_le parted.within)
  obtain rfl := Option.some.inj (next.symm.trans found)
  rcases parted.within.lt_or_eq with before | here
  · rw [List.getElem_append_left before, parted.states]
    exact .inl ⟨before, parted.solid _ (List.getElem_mem before),
      List.prefix_iff_getElem?.mp parted.discovered' _ before⟩
  · rw [List.getElem_append_right here.ge, List.getElem_singleton]
    exact .inr parted.interrupted

/-- Explorations that have parted stay so when both fill a state. -/
theorem fill (parted : Parted g front bad e e') (before : e.states.length < front.length)
    (items : ItemSet) (context : Context) (plan : Plan τ κ) :
    Parted g front bad (e.fill g items context plan) (e'.fill g.erased items context plan) where
  solid := parted.solid
  interrupted := parted.interrupted
  discovered := by
    rw [discovered_fill]
    exact parted.discovered.trans (prefix_enterAll _ _)
  discovered' := by
    rw [discovered_fill]
    exact parted.discovered'.trans (prefix_enterAll _ _)
  within := by
    rw [length_states_fill]
    exact before
  states := by rw [length_states_fill, length_states_fill, parted.states]

end Parted

/-- Filling a state in step keeps two explorations in step, or they part. -/
theorem fill_erased_or_parted (solid : ∀ entry ∈ e.discovered, g.SolidSet entry.1)
    (next : e.discovered[e.states.length]? = some (items, context)) :
    (e.fill g.erased items context plan = e.fill g items context plan ∧
      ∀ entry ∈ (e.fill g items context plan).discovered, g.SolidSet entry.1) ∨
    ∃ front bad, Parted g front bad (e.fill g items context plan)
      (e.fill g.erased items context plan) := by
  have member := List.mem_of_getElem? next
  have within := (List.getElem?_eq_some_iff.mp next).1
  have related : List.Forall₂ _ (requests g items context plan)
      (requests g.erased items context plan) := requests_erased (solid _ member)
  rcases enterAll_or_exists_interrupted solid related with
    ⟨same, all⟩ | ⟨front, bad, grows, solidFront, interrupted, found, found'⟩
  · rw [← discovered_fill] at all
    obtain ⟨shifts, gotos⟩ := List.append_inj same (by rw [List.length_map, List.length_map])
    refine .inl ⟨?_, all⟩
    unfold fill
    rw [shifts, gotos]
  · rw [← discovered_fill] at found found'
    have := grows.length_le
    refine .inr ⟨front, bad, solidFront, interrupted, found, found', ?_, ?_⟩
    · rw [length_states_fill]
      omega
    · rw [length_states_fill, length_states_fill]

/-! ### How explorations end -/

variable {result : Exploration τ κ × Option (Nat × Obstacle τ)}

/-- An exploration ends at a set with an item that expects the empty text. -/
theorem Ends.of_interrupted (ends : Ends g follow e result)
    (next : e.discovered[e.states.length]? = some (items, context))
    (interrupted : g.Interrupted items) :
    ∃ number item, g.expected? item = some .epsilon ∧
      result.2 = some (number, .epsilonExpected item) := by
  obtain ⟨item, expected, failed⟩ := interrupted.plan follow context
  rw [ends.unique (.blocked next failed)]
  exact ⟨_, item, expected, rfl⟩

/-- Where two explorations have parted, the first ends at an item that expects the empty
text, or both end at the same obstacle. -/
theorem Ends.of_parted {front : List (ItemSet × Context)} {bad : ItemSet × Context}
    (ends : Ends g follow e result) (parted : Parted g front bad e e') :
    (∃ number item, g.expected? item = some .epsilon ∧
      result.2 = some (number, .epsilonExpected item)) ∨
    ∃ result', Ends g.erased follow e' result' ∧ result'.2 = result.2 ∧ result.2 ≠ none := by
  induction ends generalizing e' with
  | @done e last =>
    -- the set at which the two part is still to be filled
    have more := parted.discovered.length_le
    have within := parted.within
    rw [List.length_append, List.length_singleton] at more
    rw [List.getElem?_eq_none_iff] at last
    omega
  | blocked next failed =>
    rcases parted.next_cases next with ⟨_, solid, next'⟩ | interrupted
    · rw [← g.plan_erased solid] at failed
      exact .inr ⟨_, .blocked next' failed, by rw [parted.states], nofun⟩
    · exact .inl (Ends.of_interrupted (.blocked next failed) next interrupted)
  | fill next planned rest ih =>
    rcases parted.next_cases next with ⟨before, solid, next'⟩ | interrupted
    · rw [← g.plan_erased solid] at planned
      refine (ih (parted.fill before _ _ _)).imp_right fun ⟨result', ends', same⟩ => ?_
      exact ⟨result', .fill next' planned ends', same⟩
    · exact .inl (Ends.of_interrupted (.fill next planned rest) next interrupted)

/-- An exploration that has found solid sets only ends at an item that expects the empty
text, or it ends as without the empty texts. -/
theorem Ends.erased (ends : Ends g follow e result)
    (solid : ∀ entry ∈ e.discovered, g.SolidSet entry.1) :
    (∃ number item, g.expected? item = some .epsilon ∧
      result.2 = some (number, .epsilonExpected item)) ∨
    ∃ result', Ends g.erased follow e result' ∧ result'.2 = result.2 ∧
      (result.2 = none → result' = result) := by
  induction ends with
  | done last => exact .inr ⟨_, .done last, rfl, fun _ => rfl⟩
  | blocked next failed =>
    rw [← g.plan_erased (solid _ (List.mem_of_getElem? next))] at failed
    exact .inr ⟨_, .blocked next failed, rfl, fun _ => rfl⟩
  | fill next planned rest ih =>
    have planned' := planned
    rw [← g.plan_erased (solid _ (List.mem_of_getElem? next))] at planned'
    rcases fill_erased_or_parted solid next with ⟨same, solid'⟩ | ⟨front, bad, parted⟩
    · refine (ih solid').imp_right fun ⟨result', ends', alike⟩ => ?_
      exact ⟨result', .fill next planned' (same ▸ ends'), alike⟩
    · refine (rest.of_parted parted).imp_right fun ⟨result', ends', alike, refused⟩ => ?_
      exact ⟨result', .fill next planned' ends', alike, fun none => absurd none refused⟩

end Exploration

/-! ### Tables -/

namespace Grammar

variable (g : Grammar τ κ T N)

/-- The exploration from the start set of a key ends at an item that expects the empty text,
or it ends as without the empty texts. -/
theorem explore_erased (follow : FollowSets τ κ) (start : κ) :
    (∃ number item, g.expected? item = some .epsilon ∧
      (g.explore follow start).2 = some (number, .epsilonExpected item)) ∨
    ((g.erased.explore follow start).2 = (g.explore follow start).2 ∧
      ((g.explore follow start).2 = none →
        g.erased.explore follow start = g.explore follow start)) := by
  have ends := g.ends_explore follow start
  rcases g.solid_or_interrupted_startSet start with solid | interrupted
  · have ends' := g.erased.ends_explore follow start
    rw [startSet_erased solid] at ends'
    refine (ends.erased fun entry member => ?_).imp_right fun ⟨result', isEnd, alike⟩ => ?_
    · obtain rfl := List.mem_singleton.mp member
      exact solid
    · rw [ends'.unique isEnd]
      exact alike
  · exact .inl (ends.of_interrupted rfl interrupted)

end Grammar

/-- The table with the empty texts taken out of the bodies of its rules. -/
def Table.erased (table : Table τ κ T N) : Table τ κ T N :=
  { table with grammar := table.grammar.erased }

namespace Grammar

variable (g : Grammar τ κ T N)

/-- A grammar is refused a table since an item expects the empty text, or the empty texts
in its rule bodies make no difference: without them it is refused a table for the same
reason in the same state, or it has a table that is the same in everything but the rule
bodies. -/
theorem table_erased (start : κ) (placeholders : List (κ × Tree T N)) :
    (∃ state item, g.table start placeholders = .error (.blocked state (.epsilonExpected item)) ∧
      g.expected? item = some .epsilon) ∨
    g.erased.table start placeholders = (g.table start placeholders).map Table.erased := by
  rw [table_eq, table_eq]
  simp only [defines_erased, followSets, symbolSets_erased]
  split
  · exact .inr rfl
  · split
    · exact .inr rfl
    · have ended := g.explore_erased g.symbolSets.followers start
      generalize g.explore g.symbolSets.followers start = result at ended
      generalize g.erased.explore g.symbolSets.followers start = result' at ended
      obtain ⟨e, blocked⟩ := result
      obtain ⟨e', blocked'⟩ := result'
      rcases ended with ⟨number, item, expected, rfl⟩ | ⟨rfl, same⟩
      · exact .inl ⟨number, item, rfl, expected⟩
      · cases blocked' with
        | none =>
          obtain ⟨rfl, _⟩ := Prod.mk.inj (same rfl)
          exact .inr rfl
        | some blocked => exact .inr rfl

end Grammar

end ShiftReduce
