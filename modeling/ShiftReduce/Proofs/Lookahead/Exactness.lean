/-
  FIRST and FOLLOW sets are exact.

  They hold what the rewriting of keys shows, and all of it. A terminal is a
  member of a FIRST set if and only if the key is rewritten to a form that
  starts with it, and the empty text is a member if and only if the key is
  rewritten to the empty form (`mem_firstSets_iff`). A terminal is a member of a
  FOLLOW set if and only if some key is rewritten to a form in which it stands
  right behind the key of the set (`mem_followSets_iff`).

  That members are shown is carried through the passes that find them: the form
  that shows one is rewritten from those that show the members found before.
  That all are found is carried through the steps of rewriting: a form begins
  with nothing that the form before the step does not begin with
  (`admits_of_rewrites`), and nothing new comes behind its keys
  (`Trailed.of_rewrites`).
-/
import ShiftReduce.Proofs.Brackets
import ShiftReduce.Proofs.Forms
import ShiftReduce.Proofs.Lookahead.Follow

namespace ShiftReduce

open ContextFreeGrammar (Letter)

variable {τ κ T N : Type} [Ordered τ]

/-! ### Beginnings of forms -/

namespace Beginning

theorem admits_andThen_iff {a b : Beginning τ} {u : List τ} :
    (a.andThen b).Admits u ↔ (u ≠ [] ∧ a.Admits u) ∨ (a.nullable = true ∧ b.Admits u) := by
  unfold andThen
  split
  · rename_i nullable
    cases u with
    | nil => simp [Admits, nullable]
    | cons t u => simp [Admits, nullable]
  · rename_i full
    cases u with
    | nil => simp [Admits, full]
    | cons t u => simp [full]

theorem andThen_assoc (a b c : Beginning τ) :
    (a.andThen b).andThen c = a.andThen (b.andThen c) := by
  unfold andThen
  by_cases nullable : a.nullable <;> by_cases nullable' : b.nullable <;>
    simp [nullable, nullable', SortedSet.union_assoc]

theorem empty_andThen (b : Beginning τ) : empty.andThen b = b := by
  show (⟨∅ ∪ b.terminals, b.nullable⟩ : Beginning τ) = b
  rw [SortedSet.empty_union]

theorem andThen_empty (b : Beginning τ) : b.andThen empty = b := by
  unfold andThen
  split
  · rename_i nullable
    show (⟨b.terminals ∪ ∅, true⟩ : Beginning τ) = b
    rw [SortedSet.union_empty, ← nullable]
  · rfl

end Beginning

variable [DecidableEq κ]

namespace FirstSets

variable (first : FirstSets τ κ)

theorem ofBody_append (front back : List (Symbol τ κ)) :
    first.ofBody (front ++ back) = (first.ofBody front).andThen (first.ofBody back) := by
  induction front with
  | nil => exact (Beginning.empty_andThen _).symm
  | cons symbol front ih =>
    cases symbol with
    | terminal t => rfl
    | nonterminal key =>
      rw [List.cons_append, ofBody, ih, ofBody, Beginning.andThen_assoc]
    | epsilon => exact ih

/-- The beginning of a form. -/
def ofForm (form : List (Letter τ κ)) : Beginning τ := first.ofBody (form.map Symbol.ofLetter)

theorem ofForm_append (front back : List (Letter τ κ)) :
    first.ofForm (front ++ back) = (first.ofForm front).andThen (first.ofForm back) := by
  unfold ofForm
  rw [List.map_append, ofBody_append]

theorem ofForm_letters (symbols : List (Symbol τ κ)) :
    first.ofForm (letters symbols) = first.ofBody symbols := by
  unfold ofForm
  rw [map_ofLetter_letters, ofBody_symbols]

end FirstSets

namespace Grammar

/-! ### Members of FIRST sets -/

section First

/-- `g.Shows form b` says that the form is rewritten to forms that begin in
all the ways of `b`. -/
structure Shows (g : Grammar τ κ T N) (form : List (Letter τ κ)) (b : Beginning τ) : Prop where
  starts : ∀ t ∈ b.terminals, ∃ rest, g.Derives form (.terminal t :: rest)
  vanishes : b.nullable = true → g.Derives form []

variable {g : Grammar τ κ T N} {first : FirstSets τ κ} {form : List (Letter τ κ)}

omit [DecidableEq κ] in
theorem shows_none (form : List (Letter τ κ)) : g.Shows form .none where
  starts t member := absurd member (SortedSet.not_mem_empty t)
  vanishes nullable := nomatch nullable

omit [DecidableEq κ] in
theorem Shows.orElse {a b : Beginning τ} (one : g.Shows form a) (other : g.Shows form b) :
    g.Shows form (a.orElse b) where
  starts t member := by
    rcases SortedSet.mem_union.mp member with h | h
    · exact one.starts t h
    · exact other.starts t h
  vanishes nullable := by
    rcases Bool.or_eq_true_iff.mp nullable with h | h
    · exact one.vanishes h
    · exact other.vanishes h

omit [DecidableEq κ] in
/-- What the form behind a rewriting shows, the form before it shows. -/
theorem Shows.of_derives {b : Beginning τ} {later : List (Letter τ κ)}
    (derives : g.Derives form later) (later : g.Shows later b) : g.Shows form b where
  starts t member := by
    obtain ⟨rest, starts⟩ := later.starts t member
    exact ⟨rest, derives.trans starts⟩
  vanishes nullable := derives.trans (later.vanishes nullable)

/-- Where keys show their beginnings, bodies do. -/
theorem shows_ofBody (keys : ∀ key, g.Shows [.nonterminal key] ((first.get? key).getD .none))
    (body : List (Symbol τ κ)) : g.Shows (letters body) (first.ofBody body) := by
  induction body with
  | nil => exact ⟨fun t member => absurd member (SortedSet.not_mem_empty t), fun _ => .refl⟩
  | cons symbol rest ih =>
    cases symbol with
    | terminal t =>
      refine ⟨fun u member => ?_, fun nullable => nomatch nullable⟩
      rcases SortedSet.mem_insert.mp member with rfl | h
      · exact ⟨letters rest, .refl⟩
      · exact absurd h (SortedSet.not_mem_empty u)
    | epsilon => exact ih
    | nonterminal key =>
      show g.Shows ([.nonterminal key] ++ letters rest)
        (((first.get? key).getD .none).andThen (first.ofBody rest))
      unfold Beginning.andThen
      split
      · rename_i nullable
        have passes : g.Derives ([.nonterminal key] ++ letters rest) (letters rest) :=
          ((keys key).vanishes nullable).append .refl
        refine ⟨fun t member => ?_, fun last => passes.trans (ih.vanishes last)⟩
        rcases SortedSet.mem_union.mp member with h | h
        · obtain ⟨tail, starts⟩ := (keys key).starts t h
          exact ⟨tail ++ letters rest, starts.append .refl⟩
        · obtain ⟨tail, starts⟩ := ih.starts t h
          exact ⟨tail, passes.trans starts⟩
      · rename_i full
        refine ⟨fun t member => ?_, fun nullable => absurd nullable full⟩
        obtain ⟨tail, starts⟩ := (keys key).starts t member
        exact ⟨tail ++ letters rest, starts.append .refl⟩

variable [DecidableEq τ]

/-- Every key shows its beginning. -/
theorem shows_firstSets (g : Grammar τ κ T N) (key : κ) :
    g.Shows [.nonterminal key] ((g.firstSets.get? key).getD .none) := by
  revert key
  refine g.firstSets_induction
    (P := fun first => ∀ key, g.Shows [.nonterminal key] ((first.get? key).getD .none)) ?_ ?_
  · intro key
    cases found : (Family.const g.keys (Beginning.none : Beginning τ)).get? key with
    | none => exact shows_none _
    | some b =>
      obtain ⟨_, _, same⟩ := List.mem_map.mp (Family.get?_mem found)
      obtain ⟨_, rfl⟩ := Prod.mk.inj same
      exact shows_none _
  · intro rule isRule first keys key
    rw [Family.get?_modify]
    split
    · rename_i own
      cases found : first.get? key with
      | none => exact shows_none _
      | some b =>
        -- the rule is applied first, then its body shows what is new
        have old := keys key
        have body := (shows_ofBody keys rule.body).of_derives (.single (rewrites_of_mem isRule))
        rw [found] at old
        rw [own] at body
        exact old.orElse body
    · exact keys key

/-- A form begins with nothing that the form before a step of rewriting does
not begin with. -/
theorem admits_of_rewrites {u v : List (Letter τ κ)} (step : g.Rewrites u v) {w : List τ}
    (admits : (g.firstSets.ofForm v).Admits w) : (g.firstSets.ofForm u).Admits w := by
  obtain ⟨rule, isRule, front, back, rfl, rfl⟩ := step.exists_parts
  have closed : ∀ {w : List τ}, (g.firstSets.ofForm (letters rule.body)).Admits w →
      (g.firstSets.ofForm [.nonterminal rule.key]).Admits w := by
    intro w body
    rw [FirstSets.ofForm_letters] at body
    have own := (g.firstSets_closed isRule body).andThen (b := .empty) (v := []) rfl
    rwa [List.append_nil] at own
  rw [List.append_assoc, FirstSets.ofForm_append, Beginning.admits_andThen_iff,
    FirstSets.ofForm_append, Beginning.admits_andThen_iff] at admits ⊢
  rcases admits with begins | ⟨nullable, ⟨some, inside⟩ | ⟨empty, behind⟩⟩
  · exact .inl begins
  · exact .inr ⟨nullable, .inl ⟨some, closed inside⟩⟩
  · exact .inr ⟨nullable, .inr ⟨closed (w := []) empty, behind⟩⟩

theorem admits_of_derives {u v : List (Letter τ κ)} (derives : g.Derives u v) {w : List τ}
    (admits : (g.firstSets.ofForm v).Admits w) : (g.firstSets.ofForm u).Admits w := by
  induction derives using Relation.ReflTransGen.head_induction_on with
  | refl => exact admits
  | head step _ ih => exact admits_of_rewrites step ih

/-- The beginning of a form is what it is rewritten to. -/
theorem shows_ofForm (g : Grammar τ κ T N) (form : List (Letter τ κ)) :
    g.Shows form (g.firstSets.ofForm form) := by
  have shows := shows_ofBody (shows_firstSets g) (form.map Symbol.ofLetter)
  rwa [letters_map_ofLetter] at shows

theorem mem_ofForm_iff {t : τ} :
    t ∈ (g.firstSets.ofForm form).terminals ↔ ∃ rest, g.Derives form (.terminal t :: rest) := by
  constructor
  · exact (shows_ofForm g form).starts t
  · rintro ⟨rest, derives⟩
    exact admits_of_derives derives (w := [t]) (SortedSet.mem_insert.mpr (.inl rfl))

theorem nullable_ofForm_iff :
    (g.firstSets.ofForm form).nullable = true ↔ g.Derives form [] := by
  constructor
  · exact (shows_ofForm g form).vanishes
  · intro derives
    exact admits_of_derives derives (w := []) rfl

theorem ofForm_key {key : κ} {b : Beginning τ} (found : g.firstSets.get? key = some b) :
    g.firstSets.ofForm [.nonterminal key] = b := by
  show ((g.firstSets.get? key).getD .none).andThen .empty = b
  rw [found]
  exact b.andThen_empty

/-- A key is nullable if and only if it is rewritten to the empty form. -/
theorem isNullable_iff {key : κ} :
    g.firstSets.isNullable key = true ↔ g.Derives [.nonterminal key] [] := by
  rw [← nullable_ofForm_iff]
  show ((g.firstSets.get? key).map Beginning.nullable).getD false = true ↔
    (((g.firstSets.get? key).getD .none).andThen .empty).nullable = true
  rw [Beginning.andThen_empty]
  cases g.firstSets.get? key <;> rfl

/-- The passes that collect FIRST sets end. The set of a key has a terminal if
and only if the key is rewritten to a form that starts with it, the empty text
if and only if the key is rewritten to the empty form, and no nonterminal. -/
theorem mem_firstSets_iff [Ordered κ] (g : Grammar τ κ T N) {key : κ} (isKey : key ∈ g.keys) :
    Settles g.collectFirst (.const g.keys ∅) g.firstSymbols.2 g.symbolSets.first ∧
    (g.symbolSets.isNullable key = true ↔ g.Derives [.nonterminal key] []) ∧
    ∃ set, g.symbolSets.first.get? key = some set ∧ ∀ symbol, symbol ∈ set ↔
      (∃ t, symbol = .terminal t ∧ ∃ rest, g.Derives [.nonterminal key] (.terminal t :: rest)) ∨
        (symbol = .epsilon ∧ g.Derives [.nonterminal key] []) := by
  rw [isNullable_symbolSets]
  refine ⟨g.settles_firstSymbols, isNullable_iff, ?_⟩
  obtain ⟨b, found⟩ := Family.exists_get? (g.keys_firstSets ▸ isKey)
  refine ⟨b.symbols, ?_, fun symbol => ?_⟩
  · rw [symbolSets_eq, Family.get?_map, found, Option.map_some]
  · rw [Beginning.mem_symbols, ← nullable_ofForm_iff, ofForm_key found]
    simp only [← mem_ofForm_iff, ofForm_key found]

end First

end Grammar

/-- A list of groups may be empty or start with an opening bracket, but not with
a closing one. -/
theorem Brackets.beginning_list : .list ∈ grammar.keys ∧
    Settles grammar.collectFirst (.const grammar.keys ∅) 5 grammar.symbolSets.first ∧
    grammar.Derives [.nonterminal .list] [] ∧
    (∃ rest, grammar.Derives [.nonterminal .list] (.terminal .opening :: rest)) ∧
    ¬ ∃ rest, grammar.Derives [.nonterminal .list] (.terminal .closing :: rest) := by
  have isKey : Part.list ∈ grammar.keys := by decide
  have passes : grammar.firstSymbols.2 = 5 := by decide +kernel
  obtain ⟨settles, nullable, set, found, members⟩ := Grammar.mem_firstSets_iff grammar isKey
  have isList : some set = some (.ofList [.terminal .opening, .epsilon]) := by
    rw [← found]
    decide +kernel
  obtain rfl := Option.some.inj isList
  have opens := (members (.terminal .opening)).mp (by decide)
  have closes := (members (.terminal .closing)).not.mp (by decide)
  refine ⟨isKey, passes ▸ settles, nullable.mp (by decide +kernel), ?_, ?_⟩
  · simpa using opens
  · simpa using closes

namespace Grammar

/-! ### Members of FOLLOW sets -/

section Follow

variable [Ordered κ] [DecidableEq τ] {g : Grammar τ κ T N} {u v : List (Letter τ κ)}

/-- A form is trailed if behind every key in it the FOLLOW set of the key holds
what the rest of the form can begin with. -/
def Trailed (g : Grammar τ κ T N) (form : List (Letter τ κ)) : Prop :=
  ∀ front key back, form = front ++ .nonterminal key :: back →
    ∀ t ∈ (g.firstSets.ofForm back).terminals, t ∈ g.followOf key

theorem trailed_key (g : Grammar τ κ T N) (key : κ) : g.Trailed [.nonterminal key] := by
  intro front inner back same t member
  have alone := congrArg List.length same
  simp only [List.length_append, List.length_cons, List.length_nil] at alone
  obtain rfl : back = [] := List.eq_nil_of_length_eq_zero (by omega)
  exact absurd member (SortedSet.not_mem_empty t)

/-- Rewriting keeps a form trailed. -/
theorem Trailed.of_rewrites (trailed : g.Trailed u) (step : g.Rewrites u v) : g.Trailed v := by
  obtain ⟨rule, isRule, first, third, rfl, rfl⟩ := step.exists_parts
  intro front key back same t member
  rcases exists_of_append_eq same with ⟨rest, rfl, rfl⟩ | ⟨before, after, body, rfl, rfl⟩ |
    ⟨before, rfl, rfl⟩
  · -- the key stands before the rule: behind it the form was rewritten
    have step : g.Rewrites (rest ++ [.nonterminal rule.key] ++ third)
        (rest ++ letters rule.body ++ third) :=
      ((rewrites_of_mem isRule).append_left rest).append_right third
    refine trailed front key _ ?_ t (admits_of_rewrites step (w := [t]) member)
    simp
  · -- the key is one of the rule: the laws of FOLLOW sets
    obtain ⟨bodyFront, bodyBack, split, _, rfl⟩ := letters_eq_append_cons body
    have admits : (g.firstSets.ofForm (letters bodyBack ++ third)).Admits [t] := member
    rw [FirstSets.ofForm_append, Beginning.admits_andThen_iff, FirstSets.ofForm_letters] at admits
    rcases admits with ⟨_, inside⟩ | ⟨nullable, behind⟩
    · exact mem_follow_of_first isRule split inside
    · have own : t ∈ g.followOf rule.key := trailed first rule.key third (by simp) t behind
      exact mem_follow_of_behind isRule split nullable own
  · -- the key stands behind the rule: nothing has changed there
    exact trailed (first ++ [.nonterminal rule.key] ++ before) key back (by simp) t member

theorem Trailed.of_derives (trailed : g.Trailed u) (derives : g.Derives u v) : g.Trailed v := by
  induction derives with
  | refl => exact trailed
  | tail _ step ih => exact ih.of_rewrites step

/-- `g.Neighbours key t` says that some key is rewritten, in one step or more,
to a form in which the terminal stands right behind `key`. -/
def Neighbours (g : Grammar τ κ T N) (key : κ) (t : τ) : Prop :=
  ∃ origin ∈ g.keys, ∃ front back, Relation.TransGen g.Rewrites [.nonterminal origin]
    (front ++ .nonterminal key :: .terminal t :: back)

omit [Ordered κ] in
/-- What stands behind keys in forms is as the laws of FOLLOW sets ask for. -/
theorem followBound_neighbours (g : Grammar τ κ T N) : g.FollowBound g.Neighbours where
  first rule isRule front inner rest split t member := by
    rw [← FirstSets.ofForm_letters, mem_ofForm_iff] at member
    obtain ⟨tail, starts⟩ := member
    refine ⟨rule.key, mem_keys.mpr ⟨rule, isRule, rfl⟩, letters front, tail, ?_⟩
    have step := rewrites_of_mem isRule
    rw [split, letters_append, letters_nonterminal] at step
    have later : g.Derives (letters front ++ .nonterminal inner :: letters rest)
        (letters front ++ .nonterminal inner :: .terminal t :: tail) :=
      Derives.append .refl (Derives.append (u := [.nonterminal inner]) .refl starts)
    exact .head' step later
  behind rule isRule front inner rest split nullable t := by
    rw [← FirstSets.ofForm_letters, nullable_ofForm_iff] at nullable
    rintro ⟨origin, isKey, before, after, derives⟩
    refine ⟨origin, isKey, before ++ letters front, after, ?_⟩
    have step := rewrites_of_mem isRule
    rw [split, letters_append, letters_nonterminal] at step
    -- apply the rule in front of the terminal, then empty what it has put in between
    have applied : g.Derives (before ++ .nonterminal rule.key :: .terminal t :: after)
        (before ++ (letters front ++ .nonterminal inner :: letters rest) ++ .terminal t :: after) := by
      have inContext := (step.append_left before).append_right (.terminal t :: after)
      simpa using Relation.ReflTransGen.single inContext
    have emptied : g.Derives
        (before ++ (letters front ++ .nonterminal inner :: letters rest) ++ .terminal t :: after)
        (before ++ letters front ++ .nonterminal inner :: .terminal t :: after) := by
      have last : g.Derives (letters rest ++ .terminal t :: after) (.terminal t :: after) :=
        nullable.append .refl
      have inContext := Derives.append
        (u := before ++ letters front ++ [.nonterminal inner]) .refl last
      simpa using inContext
    exact derives.trans_left (applied.trans emptied)

/-- The FOLLOW set of a key is what stands behind it in forms. -/
theorem mem_followOf_iff {key : κ} {t : τ} : t ∈ g.followOf key ↔ g.Neighbours key t := by
  constructor
  · exact follow_least g.followBound_neighbours
  · rintro ⟨origin, _, front, back, derives⟩
    have trailed := (g.trailed_key origin).of_derives derives.to_reflTransGen
    exact trailed front key _ rfl t (SortedSet.mem_insert.mpr (.inl rfl))

/-- The passes that collect FOLLOW sets end. The set of a key has a terminal if
and only if some key is rewritten, in one step or more, to a form in which the
terminal stands right behind the key, and nothing but terminals. -/
theorem mem_followSets_iff (g : Grammar τ κ T N) {key : κ} (isKey : key ∈ g.keys) :
    Settles (g.collectFollow g.symbolSets.first) (.const g.keys ∅)
      (g.followSymbols g.symbolSets.first).2 g.symbolSets.follow ∧
    ∃ set, g.symbolSets.follow.get? key = some set ∧ ∀ symbol, symbol ∈ set ↔
      ∃ t, symbol = .terminal t ∧ ∃ origin ∈ g.keys, ∃ front back,
        Relation.TransGen g.Rewrites [.nonterminal origin]
          (front ++ .nonterminal key :: .terminal t :: back) := by
  refine ⟨g.settles_followSymbols, ?_⟩
  obtain ⟨set, found⟩ := Family.exists_get? (g.followBound_occurrences.followSets.1 ▸ isKey)
  have same : g.followOf key = set := by
    unfold followOf
    rw [found, Option.getD_some]
  refine ⟨Beginning.ofTerminals set, ?_, fun symbol => ?_⟩
  · rw [symbolSets_eq, ← followSets_eq, Family.get?_map, found, Option.map_some]
  · rw [← same, Beginning.mem_ofTerminals]
    exact exists_congr fun t => and_congr_right' mem_followOf_iff

end Follow

end Grammar

/-- Behind a list of groups stands a bracket of either kind, and behind a text
none. -/
theorem Brackets.followers : .list ∈ grammar.keys ∧ .text ∈ grammar.keys ∧
    Settles (grammar.collectFollow grammar.symbolSets.first) (.const grammar.keys ∅) 3
      grammar.symbolSets.follow ∧
    (∀ t, ∃ origin ∈ grammar.keys, ∃ front back, Relation.TransGen grammar.Rewrites
      [.nonterminal origin] (front ++ .nonterminal .list :: .terminal t :: back)) ∧
    ∀ t, ¬ ∃ origin ∈ grammar.keys, ∃ front back, Relation.TransGen grammar.Rewrites
      [.nonterminal origin] (front ++ .nonterminal .text :: .terminal t :: back) := by
  have isList : Part.list ∈ grammar.keys := by decide
  have isText : Part.text ∈ grammar.keys := by decide
  have passes : (grammar.followSymbols grammar.symbolSets.first).2 = 3 := by decide +kernel
  obtain ⟨settles, behindList, foundList, members⟩ := Grammar.mem_followSets_iff grammar isList
  obtain ⟨_, behindText, foundText, members'⟩ := Grammar.mem_followSets_iff grammar isText
  have both : some behindList = some (.ofList [.terminal .opening, .terminal .closing]) := by
    rw [← foundList]
    decide +kernel
  have none : some behindText = some ∅ := by
    rw [← foundText]
    decide +kernel
  obtain rfl := Option.some.inj both
  obtain rfl := Option.some.inj none
  refine ⟨isList, isText, passes ▸ settles, fun t => ?_, fun t => ?_⟩
  · have behind := (members (.terminal t)).mp (by cases t <;> decide)
    simpa using behind
  · have behind := (members' (.terminal t)).not.mp (by cases t <;> decide)
    simpa using behind

end ShiftReduce
