/-
  The span of a tree is the smallest that covers its tokens.

  The first and the last token of a tree are the ends of its leaves, however many empty branches
  stand around them (`firstToken?_eq`, `lastToken?_eq`). Merging some spans gives the smallest
  span that covers them (`isHull_foldl_merge`), and so the order does not matter
  (`IsHull.unique`). Where the leaves are in reading order, the first and the last one cover
  those between them (`isHull_of_inOrder`).
-/
import ShiftReduce.Proofs.Derivation

namespace ShiftReduce

/-! ### Positions -/

namespace Position

variable {p q r : Position}

/-- What comes before the earlier of two positions comes before both. -/
theorem isLE_earlier :
    (compare p (q.earlier r)).isLE ↔ (compare p q).isLE ∧ (compare p r).isLE := by
  unfold earlier
  split_ifs with order
  · have le : (compare r q).isLE := by rw [Std.OrientedCmp.gt_iff_lt.mp order]; rfl
    exact ⟨fun before => ⟨Std.TransCmp.isLE_trans before le, before⟩, And.right⟩
  · have le : (compare q r).isLE := Ordering.isLE_iff_ne_gt.mpr order
    exact ⟨fun before => ⟨before, Std.TransCmp.isLE_trans before le⟩, And.left⟩

/-- What comes behind the later of two positions comes behind both. -/
theorem later_isLE :
    (compare (q.later r) p).isLE ↔ (compare q p).isLE ∧ (compare r p).isLE := by
  unfold later
  split_ifs with order
  · have le : (compare r q).isLE := by rw [Std.OrientedCmp.gt_iff_lt.mp order]; rfl
    exact ⟨fun behind => ⟨behind, Std.TransCmp.isLE_trans le behind⟩, And.left⟩
  · have le : (compare q r).isLE := Ordering.isLE_iff_ne_gt.mpr order
    exact ⟨fun behind => ⟨Std.TransCmp.isLE_trans le behind, behind⟩, And.right⟩

theorem eq_of_isLE (le : (compare p q).isLE) (ge : (compare q p).isLE) : p = q :=
  Std.LawfulEqCmp.eq_of_compare (Std.OrientedCmp.isLE_antisymm le ge)

end Position

/-! ### Spans -/

namespace Span

/-- A span covers another that starts no earlier and ends no later. -/
def Covers (s t : Span) : Prop := (compare s.start t.start).isLE ∧ (compare t.stop s.stop).isLE

/-- The span is the smallest that covers all of these. -/
structure IsHull (span : Span) (spans : List Span) : Prop where
  covers : ∀ s ∈ spans, span.Covers s
  least : ∀ other : Span, (∀ s ∈ spans, other.Covers s) → other.Covers span

variable {s t u : Span} {spans : List Span}

theorem Covers.refl (s : Span) : s.Covers s := ⟨Std.ReflCmp.isLE_rfl, Std.ReflCmp.isLE_rfl⟩

theorem Covers.trans (covers : s.Covers t) (covers' : t.Covers u) : s.Covers u :=
  ⟨Std.TransCmp.isLE_trans covers.1 covers'.1, Std.TransCmp.isLE_trans covers'.2 covers.2⟩

theorem Covers.antisymm (covers : s.Covers t) (covers' : t.Covers s) : s = t := by
  obtain ⟨start, stop⟩ := s
  obtain ⟨start', stop'⟩ := t
  obtain rfl : start = start' := Position.eq_of_isLE covers.1 covers'.1
  obtain rfl : stop = stop' := Position.eq_of_isLE covers'.2 covers.2
  rfl

/-- What covers a merge covers both parts. -/
theorem covers_merge : u.Covers (s.merge t) ↔ u.Covers s ∧ u.Covers t := by
  unfold Covers merge
  rw [Position.isLE_earlier, Position.later_isLE, and_and_and_comm]

theorem merge_covers (s t : Span) : (s.merge t).Covers s ∧ (s.merge t).Covers t :=
  covers_merge.mp (.refl _)

theorem IsHull.unique (isHull : s.IsHull spans) (isHull' : t.IsHull spans) : s = t :=
  (isHull'.least s isHull.covers).antisymm (isHull.least t isHull'.covers)

theorem IsHull.perm {spans' : List Span} (isHull : s.IsHull spans) (perm : spans'.Perm spans) :
    s.IsHull spans' where
  covers t member := isHull.covers t (perm.mem_iff.mp member)
  least other covers := isHull.least other fun t member => covers t (perm.mem_iff.mpr member)

/-- Merging spans one after another gives the smallest that covers them all. -/
theorem isHull_foldl_merge (first : Span) (rest : List Span) :
    (rest.foldl merge first).IsHull (first :: rest) := by
  induction rest generalizing first with
  | nil =>
    exact ⟨List.forall_mem_singleton.mpr (.refl _), fun other => List.forall_mem_singleton.mp⟩
  | cons s rest ih =>
    obtain ⟨covers, least⟩ := ih (first.merge s)
    simp only [List.forall_mem_cons, covers_merge] at covers least
    constructor
    · simp only [List.forall_mem_cons]
      exact ⟨covers.1.1, covers.1.2, covers.2⟩
    · intro other coversAll
      simp only [List.forall_mem_cons] at coversAll
      exact least other ⟨⟨coversAll.1, coversAll.2.1⟩, coversAll.2.2⟩

end Span

/-! ### Trees -/

variable {T N : Type}

namespace Tree

mutual

theorem firstToken?_eq : (tree : Tree T N) → tree.firstToken? = tree.leaves.head?
  | leaf _ => rfl
  | branch _ children => firstTokenIn?_eq children

theorem firstTokenIn?_eq :
    (trees : List (Tree T N)) → firstTokenIn? trees = (forestLeaves trees).head?
  | [] => rfl
  | tree :: rest => by
    rw [firstTokenIn?, firstToken?_eq tree, firstTokenIn?_eq rest, forestLeaves, List.head?_append]

end

mutual

theorem lastToken?_eq : (tree : Tree T N) → tree.lastToken? = tree.leaves.getLast?
  | leaf _ => rfl
  | branch _ children => lastTokenIn?_eq children

theorem lastTokenIn?_eq :
    (trees : List (Tree T N)) → lastTokenIn? trees = (forestLeaves trees).getLast?
  | [] => rfl
  | tree :: rest => by
    rw [lastTokenIn?, lastToken?_eq tree, lastTokenIn?_eq rest, forestLeaves, List.getLast?_append]

end

/-- The leaves of a part are leaves of the whole, in their order. -/
theorem Within.leaves_sublist {inner tree : Tree T N} (within : Within inner tree) :
    inner.leaves.Sublist tree.leaves := by
  induction within with
  | refl => exact .refl _
  | child kind children isChild _ ih =>
    show inner.leaves.Sublist (forestLeaves children)
    rw [forestLeaves_eq_flatMap, List.flatMap_def]
    exact ih.trans (List.sublist_flatten_of_mem (List.mem_map_of_mem isChild))

variable [Token T]

/-- A token is in reading order before another that starts no earlier and ends no earlier. -/
def InOrder (a b : T) : Prop :=
  (compare (Token.span a).start (Token.span b).start).isLE ∧
    (compare (Token.span a).stop (Token.span b).stop).isLE

theorem InOrder.refl (token : T) : InOrder token token :=
  ⟨Std.ReflCmp.isLE_rfl, Std.ReflCmp.isLE_rfl⟩

instance : Trans (InOrder (T := T)) InOrder InOrder where
  trans first second :=
    ⟨Std.TransCmp.isLE_trans first.1 second.1, Std.TransCmp.isLE_trans first.2 second.2⟩

variable {tree : Tree T N}

theorem span?_eq_some_iff {span : Span} : tree.span? = some span ↔
    ∃ first, tree.leaves.head? = some first ∧ ∃ last, tree.leaves.getLast? = some last ∧
      (Token.span first).merge (Token.span last) = span := by
  unfold span?
  simp only [firstToken?_eq, lastToken?_eq, Option.bind_eq_bind, Option.bind_eq_some_iff,
    Option.pure_def, Option.some.injEq]

/-- A tree with a token has a span. -/
theorem exists_span? (some : tree.leaves ≠ []) : ∃ span, tree.span? = .some span :=
  ⟨_, span?_eq_some_iff.mpr ⟨_, List.head?_eq_some_head some, _,
    List.getLast?_eq_some_getLast some, rfl⟩⟩

theorem span?_eq_none_iff : tree.span? = none ↔ tree.leaves = [] := by
  constructor
  · intro none
    by_contra some
    obtain ⟨span, isSpan⟩ := exists_span? some
    cases none.symm.trans isSpan
  · intro empty
    refine Option.eq_none_iff_forall_ne_some.mpr fun span isSpan => ?_
    obtain ⟨first, isFirst, _⟩ := span?_eq_some_iff.mp isSpan
    rw [empty] at isFirst
    cases isFirst

/-- Leaves in reading order lie between the first and the last of them. -/
theorem isHull_of_inOrder (inOrder : tree.leaves.IsChain InOrder) {span : Span}
    (isSpan : tree.span? = some span) : span.IsHull (tree.leaves.map Token.span) := by
  obtain ⟨first, isFirst, last, isLast, rfl⟩ := span?_eq_some_iff.mp isSpan
  have sorted := inOrder.pairwise
  have fromFirst : ∀ token ∈ tree.leaves, InOrder first token := by
    obtain ⟨rest, cut⟩ := List.head?_eq_some_iff.mp isFirst
    rw [cut] at sorted ⊢
    exact List.forall_mem_cons.mpr ⟨.refl first, (List.pairwise_cons.mp sorted).1⟩
  have toLast : ∀ token ∈ tree.leaves, InOrder token last := by
    obtain ⟨front, cut⟩ := List.getLast?_eq_some_iff.mp isLast
    rw [cut] at sorted ⊢
    have before := (List.pairwise_append.mp sorted).2.2
    rw [List.forall_mem_append, List.forall_mem_singleton]
    exact ⟨fun token isIn => before token isIn last List.mem_cons_self, .refl last⟩
  obtain ⟨coversFirst, coversLast⟩ := Span.merge_covers (Token.span first) (Token.span last)
  constructor
  · refine List.forall_mem_map.mpr fun token isIn => ⟨?_, ?_⟩
    · exact Std.TransCmp.isLE_trans coversFirst.1 (fromFirst token isIn).1
    · exact Std.TransCmp.isLE_trans (toLast token isIn).2 coversLast.2
  · intro other covers
    rw [List.forall_mem_map] at covers
    exact Span.covers_merge.mpr ⟨covers first (List.mem_of_head? isFirst),
      covers last (List.mem_of_getLast? isLast)⟩

/-- The spans of leaves in reading order are merged to the span of the tree, in any order. -/
theorem span?_eq_merged (inOrder : tree.leaves.IsChain InOrder) {first : Span} {rest : List Span}
    (perm : (first :: rest).Perm (tree.leaves.map Token.span)) :
    tree.span? = some (rest.foldl Span.merge first) := by
  have some : tree.leaves ≠ [] := fun empty => by
    rw [empty] at perm
    exact List.cons_ne_nil _ _ perm.eq_nil
  obtain ⟨span, isSpan⟩ := exists_span? some
  rw [isSpan, ((isHull_of_inOrder inOrder isSpan).perm perm).unique
    (Span.isHull_foldl_merge first rest)]

end Tree

end ShiftReduce
