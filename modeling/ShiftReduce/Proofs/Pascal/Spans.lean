/-
  The spans in the trees of sources.

  The scanner finds tokens one behind the other, none of them empty, and the leaves of a tree are
  tokens of the source in their order, also where the parser has recovered. So the leaves of every
  node are in reading order, and its span is the smallest that covers them.
-/
import ShiftReduce.Proofs.Spans
import ShiftReduce.Proofs.Pascal.Recovered
import ShiftReduce.Proofs.Pascal.Seams

namespace ShiftReduce.Pascal

variable {source : String} {tokens : List Token} {tree : Tree} {m : Progress Token NodeKind}

/-- Tokens of a source are in reading order, and each starts before it ends. -/
theorem inOrder_of_tokenize (scanned : tokenize source = .ok tokens) :
    tokens.Pairwise Tree.InOrder ∧
    ∀ token ∈ tokens, compare token.span.start token.span.stop = .lt := by
  have laid := laidOut_lexemes source
  have items : lexemes source = tokens.map .ok := eq_map_of_collect scanned
  have forward : ∀ token ∈ tokens, compare token.span.start token.span.stop = .lt := by
    intro token isIn
    exact laid.compare_span (.ok token) (items ▸ List.mem_map_of_mem isIn)
  have apart := laid.pairwise
  rw [items, List.pairwise_map] at apart
  refine ⟨apart.imp_of_mem fun {a b} isIn isIn' ends => ?_, forward⟩
  have le : (compare a.span.start a.span.stop).isLE := by rw [forward a isIn]; rfl
  have le' : (compare b.span.start b.span.stop).isLE := by rw [forward b isIn']; rfl
  exact ⟨Std.TransCmp.isLE_trans le ends, Std.TransCmp.isLE_trans ends le'⟩

/-- The leaves of a tree that is accepted are tokens that were read, in their order. -/
theorem leaves_sublist_of_accepted (accepted : parseProgram tokens = (.accepted tree, m)) :
    tree.leaves.Sublist tokens := by
  obtain ⟨D, _, _, derived, _, builds, kept, _⟩ := exists_readsIn_of_accepted accepted
  rw [← builds, derived.leaves_build fun rule isRule nodes => leaves_build isRule nodes]
  exact kept

/-- The first and the last token of a tree are the ends of its leaves, and it has a span exactly
if it has a leaf. Where the leaves start and end in reading order, the span is the smallest that
covers them, and what merging their spans gives, in any order. And this is how the leaves stand
in every node of a tree that is read from a source, with or without errors, and where there is
one, the span of the node starts before it ends. -/
theorem spans_cover_leaves :
    (∀ (T N : Type) [ShiftReduce.Token T] (tree : ShiftReduce.Tree T N),
      tree.firstToken? = tree.leaves.head? ∧ tree.lastToken? = tree.leaves.getLast? ∧
      (tree.span? = none ↔ tree.leaves = []) ∧
      (tree.leaves.IsChain Tree.InOrder →
        (∀ span, tree.span? = some span →
          span.IsHull (tree.leaves.map ShiftReduce.Token.span)) ∧
        ∀ first rest, (first :: rest).Perm (tree.leaves.map ShiftReduce.Token.span) →
          tree.span? = some (rest.foldl Span.merge first))) ∧
    ∀ source program, parse source = .ok program →
      ∀ node, Tree.Within node program.tree → node.leaves.IsChain Tree.InOrder ∧
        (node.leaves ≠ [] → ∃ span, node.span? = some span ∧
          compare span.start span.stop = .lt) := by
  refine ⟨fun T N _ tree => ⟨tree.firstToken?_eq, tree.lastToken?_eq, Tree.span?_eq_none_iff,
    fun inOrder => ⟨fun span => Tree.isHull_of_inOrder inOrder,
      fun first rest => Tree.span?_eq_merged inOrder⟩⟩, fun source program ok node within => ?_⟩
  obtain ⟨tokens, m, scanned, accepted⟩ := exists_tokens_of_parse ok
  obtain ⟨sorted, forward⟩ := inOrder_of_tokenize scanned
  have sublist := within.leaves_sublist.trans (leaves_sublist_of_accepted accepted)
  have inOrder : node.leaves.IsChain Tree.InOrder := (sorted.sublist sublist).isChain
  refine ⟨inOrder, fun some => ?_⟩
  obtain ⟨span, isSpan⟩ := Tree.exists_span? some
  obtain ⟨token, isIn⟩ := List.exists_mem_of_ne_nil _ some
  -- the span covers a token, which starts before it ends
  obtain ⟨starts, ends⟩ :=
    (Tree.isHull_of_inOrder inOrder isSpan).covers _ (List.mem_map_of_mem isIn)
  exact ⟨span, isSpan, Std.TransCmp.lt_of_isLE_of_lt starts
    (Std.TransCmp.lt_of_lt_of_isLE (forward token (sublist.subset isIn)) ends)⟩

/-- A statement list over two lines, with an empty statement at either end. -/
def padded : Tree :=
  .branch .statements [.branch .statement [], .leaf ⟨.identifier, "x", ⟨⟨0, 2⟩, ⟨0, 3⟩⟩⟩,
    .leaf ⟨.operator .semicolon, ";", ⟨⟨1, 0⟩, ⟨1, 1⟩⟩⟩, .branch .statement []]

/-- The span looks past the empty statements, and merging from the right gives it as well. The
nodes of the broken program, from which a part is missing, have their leaves in order too. -/
theorem spans_cover_padded : padded.leaves.IsChain Tree.InOrder ∧
    padded.span? = some ([(⟨⟨0, 2⟩, ⟨0, 3⟩⟩ : Span)].foldl Span.merge ⟨⟨1, 0⟩, ⟨1, 1⟩⟩) ∧
    ∃ program, parse broken = .ok program ∧
      ∀ node, Tree.Within node program.tree → node.leaves.IsChain Tree.InOrder ∧
        (node.leaves ≠ [] → ∃ span, node.span? = some span ∧
          compare span.start span.stop = .lt) := by
  have inOrder : padded.leaves.IsChain Tree.InOrder :=
    .cons_cons ⟨by decide, by decide⟩ (.singleton _)
  obtain ⟨trees, sources⟩ := spans_cover_leaves
  obtain ⟨program, ok, _⟩ := exists_program_broken
  exact ⟨inOrder, ((trees Token NodeKind padded).2.2.2 inOrder).2 _ _ (.swap _ _ _),
    program, ok, sources broken program ok⟩

end ShiftReduce.Pascal
