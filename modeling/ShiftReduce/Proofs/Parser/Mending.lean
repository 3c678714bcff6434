/-
  Runs with recoveries, seen as readings of derivations.

  A recovery takes derivations from the stack, skips tokens and puts a
  placeholder in place of what it took. If placeholders are built by derivations
  of their own (`Table.Spares`), the stack still holds derivations only. So a
  machine that recovers shadows a reading in which a recovery is one more kind of
  step (`Table.Mends`), and a parse that is accepted is a sequence of such steps
  (`exists_mends_of_parseTokens`).

  Where the spare derivations are derivations of the grammar without tokens, a
  reading that mends stays sound for the tokens that it has kept, and these are the
  input with some tokens left out (`exists_sound_of_mends`).
-/
import ShiftReduce.Proofs.Parser.Effect

namespace ShiftReduce

variable {τ κ T N : Type} [Ordered τ] [Ordered κ] [DecidableEq τ] [DecidableEq κ]

namespace Table

/-- `table.Spares spare` says that the placeholder of every key is built by the spare
derivation of the key. -/
structure Spares (table : Table τ κ T N) (spare : κ → Derivation τ κ T N) : Prop where
  root : ∀ key tree, table.placeholder? key = some tree → (spare key).root = .nonterminal key
  build : ∀ key tree, table.placeholder? key = some tree → (spare key).build = tree

variable [DecidableEq N]

/-- `table.Mends spare goal r r'` says that the parser, looking for a node of the kind
`goal`, shifts, reduces or recovers from `r` to `r'`. -/
inductive Mends (table : Table τ κ T N) (spare : κ → Derivation τ κ T N) (goal : N) :
    Reading τ κ T N → Reading τ κ T N → Prop
  | reads {r r' : Reading τ κ T N} (reads : table.Reads goal r r') : table.Mends spare goal r r'
  | recover {frames : List (Derivation τ κ T N × Nat)} {input rest : List T} {token : T} {key : κ}
      {target : Nat} (count : Nat) (skips : token :: rest <:+ input)
      (root : (spare key).root = .nonterminal key)
      (goes : table.goto? (Reading.topState (frames.drop count)) key = some target)
      (resumes : table.canFollow key token = true) :
      table.Mends spare goal ⟨frames, input⟩
        ⟨(spare key, target) :: frames.drop count, token :: rest⟩

variable [Named κ] [Token T] {g : Grammar τ κ T N} {start : κ} {table : Table τ κ T N}
  {spare : κ → Derivation τ κ T N} {goal : N} {r : Reading τ κ T N} {m m' : Machine T N}

/-! ### Steps -/

omit [DecidableEq τ] in
/-- Every step of a machine is one of the reading that it shadows. -/
theorem exists_mends_of_step (spares : table.Spares spare) (shadows : m.Shadows r)
    (next : table.step goal m = .next m') : ∃ r', table.Mends spare goal r r' ∧ m'.Shadows r' := by
  have unreported : m'.diagnostics = m.diagnostics →
      ∃ r', table.Mends spare goal r r' ∧ m'.Shadows r' := by
    intro same
    rcases reads_of_step shadows next with more | ⟨_, r', reads, shadows'⟩
    · rw [same] at more
      omega
    · exact ⟨r', .reads reads, shadows'⟩
  obtain ⟨frames, tokens⟩ := r
  obtain ⟨stack, input⟩ := shadows
  cases effect_of_step next with
  | shift _ _ _ _ same _ => exact unreported same
  | reduce _ _ _ _ _ _ same _ => exact unreported same
  | @recover unwound foothold _ skips _ found stack' _ _ resumes =>
    obtain ⟨count, rfl, isFoothold⟩ := of_unwind? found
    obtain ⟨placed, goes⟩ := of_foothold? isFoothold
    have dropped : (⟨m.stack.start, m.stack.frames.drop count⟩ : Stack T N) =
        (⟨frames.drop count, tokens⟩ : Reading τ κ T N).stack := by
      rw [stack]
      exact Reading.drop_stack ⟨frames, tokens⟩ count
    rw [dropped, Reading.top_stack] at goes
    obtain ⟨token, rest, resumed, resumes⟩ := resumes
    rw [input, resumed] at skips
    refine ⟨_, .recover count skips (spares.root _ _ placed) goes resumes, ?_, resumed⟩
    rw [stack', dropped, ← spares.build _ _ placed]
    rfl

omit [DecidableEq τ] in
/-- A run that accepts is one of the reading, down to the tree on top. -/
theorem exists_mends_of_run (spares : table.Spares spare) {budget : Nat} {tree : Tree T N}
    (shadows : m.Shadows r) (ran : table.run goal budget m = (.accepted tree, m')) :
    ∃ D state below, Relation.ReflTransGen (table.Mends spare goal) r ⟨(D, state) :: below, []⟩ ∧
      D.build = tree ∧ tree.kind? = some goal := by
  induction budget generalizing m r with
  | zero => cases congrArg Prod.fst ran
  | succ budget ih =>
    rw [run] at ran
    split at ran
    · rename_i next isNext
      obtain ⟨r', first, shadows'⟩ := exists_mends_of_step spares shadows isNext
      obtain ⟨D, state, below, others, rest⟩ := ih shadows' ran
      exact ⟨D, state, below, .head first others, rest⟩
    · rename_i tree' last accepted
      obtain ⟨same, rfl⟩ := Prod.mk.inj ran
      obtain rfl := Outcome.accepted.inj same
      obtain ⟨moves, _⟩ := move_of_step_accepted accepted
      rw [shadows.1, shadows.2] at moves
      obtain ⟨frames, tokens⟩ := r
      cases tokens with
      | nil =>
        obtain ⟨top, kind⟩ := topNode?_of_moveAtEnd moves
        rw [Reading.topNode?_stack, Option.map_eq_some_iff] at top
        obtain ⟨⟨D, state⟩, top, rfl⟩ := top
        obtain ⟨below, rfl⟩ := List.head?_eq_some_iff.mp top
        exact ⟨D, state, below, .refl, rfl, kind⟩
      | cons token rest => exact absurd moves (moveOn_ne_accept _)
    · cases congrArg Prod.fst ran

omit [DecidableEq τ] in
/-- A parse that is accepted is one of readings, from the tokens down to the tree on top. -/
theorem exists_mends_of_parseTokens (spares : table.Spares spare) {budget : Nat} {tokens : List T}
    {stats : Stats} {tree : Tree T N}
    (accepted : table.parseTokens goal budget tokens stats = (.accepted tree, m)) :
    ∃ D state below,
      Relation.ReflTransGen (table.Mends spare goal) ⟨[], tokens⟩ ⟨(D, state) :: below, []⟩ ∧
        D.build = tree ∧ tree.kind? = some goal := by
  unfold parseTokens parse at accepted
  split at accepted
  · have shadows : (⟨.base 0, tokens, stats, [], none, none⟩ : Machine T N).Shadows
        (⟨[], tokens⟩ : Reading τ κ T N) := ⟨rfl, rfl⟩
    exact exists_mends_of_run spares shadows accepted
  · cases congrArg Prod.fst accepted

/-! ### Soundness -/

omit [Named κ] [Token T] in
/-- Recoveries leave out tokens, but otherwise keep a reading sound. -/
theorem exists_sound_of_mends (built : g.Automaton start table)
    (derived : ∀ key, (spare key).root = .nonterminal key → g.IsDerivation (spare key))
    (empty : ∀ key, (spare key).tokens = []) {tokens : List T} {r' : Reading τ κ T N}
    (sound : table.Sound g tokens r) (mends : table.Mends spare goal r r') :
    ∃ kept, kept.Sublist tokens ∧ table.Sound g kept r' := by
  cases mends with
  | reads reads => exact ⟨tokens, List.Sublist.refl _, sound.reads built reads⟩
  | @recover frames input rest token key target count skips root goes _ =>
    refine ⟨_, ?_, ?_, ?_, rfl⟩
    · rw [← sound.tokens, List.reverse_cons, List.flatMap_append, List.flatMap_singleton, empty,
        List.append_nil]
      refine List.Sublist.append ?_ skips.sublist
      exact ((List.drop_sublist count frames).reverse).flatMap _
    · intro frame member
      rcases List.mem_cons.mp member with rfl | below
      · exact derived key root
      · exact sound.derived frame (List.mem_of_mem_drop below)
    · refine ⟨?_, sound.walked.drop count⟩
      rw [root]
      exact goes

end Table

end ShiftReduce
