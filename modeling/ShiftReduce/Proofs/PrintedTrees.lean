/-
  A tree can be read back from its layout.

  A label is on one line and starts with no space, so a line gives back its depth and its label
  (`layoutLine_append_inj`) and a layout the labels of the tree (`flatMap_layoutLine_inj`). What
  stands below a node is the run of deeper labels behind its own, and a quoted text is no name of
  a kind, so the labels give back the tree (`labels_append_inj`). All that is lost of a token is
  what its text does not say.
-/
import ShiftReduce.Pascal.Grammar
import ShiftReduce.Proofs.QuotedText

namespace ShiftReduce

/-- The literals of the kinds tell them apart, and are written in letters. -/
structure WordKinds (N : Type) [Named N] : Prop where
  injective : Function.Injective (Named.literal : N → String)
  letters : ∀ kind : N, ∀ c ∈ (Named.literal kind).toList, c.isAlpha

namespace Tree

/-! ### Lines -/

/-- A label that is on one line and starts with no space. -/
structure PlainLabel (label : String) : Prop where
  oneLine : '\n' ∉ label.toList
  start : label.toList.head? ≠ some ' '

/-- Leading spaces can be counted. -/
theorem replicate_space_append_inj {m n : Nat} {text other : List Char}
    (start : text.head? ≠ some ' ') (otherStart : other.head? ≠ some ' ')
    (same : List.replicate m ' ' ++ text = List.replicate n ' ' ++ other) :
    m = n ∧ text = other := by
  induction m generalizing n with
  | zero =>
    cases n with
    | zero => exact ⟨rfl, same⟩
    | succ n => exact absurd (congrArg List.head? same) start
  | succ m ih =>
    cases n with
    | zero => exact absurd (congrArg List.head? same).symm otherStart
    | succ n =>
      obtain ⟨depths, texts⟩ := ih (List.cons.inj same).2
      exact ⟨congrArg Nat.succ depths, texts⟩

theorem toList_layoutLine (depth : Nat) (label : String) :
    (layoutLine depth label).toList =
      List.replicate (2 * depth) ' ' ++ (label.toList ++ ['\n']) := by
  simp [layoutLine]

/-- A line gives back its depth and its label, whatever is behind it. -/
theorem layoutLine_append_inj {d e : Nat} {label other : String} {rest rest' : List Char}
    (plain : PlainLabel label) (otherPlain : PlainLabel other)
    (same : (layoutLine d label).toList ++ rest = (layoutLine e other).toList ++ rest') :
    (d, label) = (e, other) ∧ rest = rest' := by
  have start {l : String} (plain : PlainLabel l) (r : List Char) :
      (l.toList ++ '\n' :: r).head? ≠ some ' ' := by
    cases chars : l.toList with
    | nil => simp
    | cons c cs => simpa [chars] using plain.start
  simp only [toList_layoutLine, List.append_assoc, List.singleton_append] at same
  obtain ⟨depths, lines⟩ :=
    replicate_space_append_inj (start plain rest) (start otherPlain rest') same
  have labels : label.toList = other.toList := by
    have fronts := congrArg (List.takeWhile (· ≠ '\n')) lines
    rwa [Text.takeWhile_front plain.oneLine, Text.takeWhile_front otherPlain.oneLine] at fronts
  rw [labels] at lines
  obtain ⟨-, rests⟩ := List.cons.inj (List.append_cancel_left lines)
  have depths : d = e := Nat.eq_of_mul_eq_mul_left Nat.two_pos depths
  exact ⟨Prod.ext depths (String.toList_inj.mp labels), rests⟩

/-- Lines with plain labels give back their depths and labels. -/
theorem flatMap_layoutLine_inj {entries others : List (Nat × String)}
    (plain : ∀ entry ∈ entries, PlainLabel entry.2)
    (otherPlain : ∀ entry ∈ others, PlainLabel entry.2)
    (same : entries.flatMap (fun entry => (layoutLine entry.1 entry.2).toList) =
      others.flatMap fun entry => (layoutLine entry.1 entry.2).toList) : entries = others := by
  induction entries generalizing others with
  | nil =>
    cases others with
    | nil => rfl
    | cons other others => simp [toList_layoutLine] at same
  | cons entry entries ih =>
    cases others with
    | nil => simp [toList_layoutLine] at same
    | cons other others =>
      obtain ⟨first, rest⟩ := List.forall_mem_cons.mp plain
      obtain ⟨otherFirst, otherRest⟩ := List.forall_mem_cons.mp otherPlain
      rw [List.flatMap_cons, List.flatMap_cons] at same
      obtain ⟨heads, tails⟩ := layoutLine_append_inj first otherFirst same
      rw [show entry = other from heads, ih rest otherRest tails]

/-! ### Labels -/

variable {T N : Type} [Token T]

mutual

/-- The tree with nothing of its tokens but their texts. -/
def texts : Tree T N → Tree String N
  | leaf token => leaf (Token.text token)
  | branch kind children => branch kind (forestTexts children)

/-- The trees with nothing of their tokens but the texts. -/
def forestTexts : List (Tree T N) → List (Tree String N)
  | [] => []
  | tree :: rest => texts tree :: forestTexts rest

end

variable [Named N]

theorem plainLabel_quote (text : String) : PlainLabel (Text.quote text) where
  oneLine := Text.newline_notMem_quote text
  start := by rw [Text.head?_quote]; decide

theorem plainLabel_literal (words : WordKinds N) (kind : N) :
    PlainLabel (Named.literal kind) where
  oneLine mem := absurd (words.letters kind _ mem) (by decide)
  start head := absurd (words.letters kind _ (List.mem_of_head? head)) (by decide)

/-- A quoted text is no name of a kind. -/
theorem quote_ne_literal (words : WordKinds N) (text : String) (kind : N) :
    Text.quote text ≠ Named.literal kind := by
  intro same
  have head : (Named.literal kind).toList.head? = some '"' := same ▸ Text.head?_quote text
  exact absurd (words.letters kind _ (List.mem_of_head? head)) (by decide)

mutual

theorem plain_of_mem_labels (words : WordKinds N) (depth : Nat) : (tree : Tree T N) →
    ∀ entry ∈ tree.labels depth, PlainLabel entry.2
  | leaf token => by
    rw [labels, List.forall_mem_singleton]
    exact plainLabel_quote (Token.text token)
  | branch kind children => by
    rw [labels, List.forall_mem_cons]
    exact ⟨plainLabel_literal words kind, plain_of_mem_forestLabels words (depth + 1) children⟩

theorem plain_of_mem_forestLabels (words : WordKinds N) (depth : Nat) :
    (forest : List (Tree T N)) → ∀ entry ∈ forestLabels depth forest, PlainLabel entry.2
  | [] => List.forall_mem_nil _
  | tree :: rest => by
    rw [forestLabels, List.forall_mem_append]
    exact ⟨plain_of_mem_labels words depth tree, plain_of_mem_forestLabels words depth rest⟩

end

/-! ### Trees -/

/-- What is behind trees at this depth: their parent's next sibling, or what comes later. -/
def Behind (depth : Nat) (entries : List (Nat × String)) : Prop :=
  ∀ entry ∈ entries.head?, entry.1 < depth

theorem Behind.mono {d e : Nat} {entries : List (Nat × String)} (behind : Behind d entries)
    (le : d ≤ e) : Behind e entries :=
  fun entry head => Nat.lt_of_lt_of_le (behind entry head) le

theorem head?_labels (depth : Nat) (tree : Tree T N) :
    ∃ label rest, tree.labels depth = (depth, label) :: rest := by
  cases tree with
  | leaf token => exact ⟨_, _, by rw [labels]⟩
  | branch kind children => exact ⟨_, _, by rw [labels]⟩

/-- Behind a tree stand its next sibling or what is behind the trees. -/
theorem Behind.forestLabels_append {depth : Nat} {rest : List (Nat × String)}
    (behind : Behind depth rest) (forest : List (Tree T N)) :
    Behind (depth + 1) (forestLabels depth forest ++ rest) := by
  cases forest with
  | nil =>
    rw [forestLabels, List.nil_append]
    exact behind.mono (Nat.le_succ depth)
  | cons tree forest =>
    obtain ⟨label, more, labels⟩ := head?_labels depth tree
    rw [forestLabels, labels]
    rintro entry ⟨rfl⟩
    exact Nat.lt_succ_self depth

/-- What is behind trees is no further tree. -/
theorem Behind.ne_forestLabels_append {depth : Nat} {rest : List (Nat × String)}
    (behind : Behind depth rest) (tree : Tree T N) (forest : List (Tree T N))
    (rest' : List (Nat × String)) : rest ≠ forestLabels depth (tree :: forest) ++ rest' := by
  rintro rfl
  obtain ⟨label, more, labels⟩ := head?_labels depth tree
  rw [forestLabels, labels] at behind
  exact Nat.lt_irrefl depth (behind (depth, label) rfl)

mutual

/-- Labels give back the tree, whatever is behind it. -/
theorem labels_append_inj (words : WordKinds N) {depth : Nat} {rest rest' : List (Nat × String)}
    (behind : Behind (depth + 1) rest) (behind' : Behind (depth + 1) rest') :
    (s t : Tree T N) → s.labels depth ++ rest = t.labels depth ++ rest' →
      s.texts = t.texts ∧ rest = rest'
  | leaf a, leaf b, same => by
    obtain ⟨head, rests⟩ := List.cons.inj same
    have same : Token.text a = Token.text b := Text.quote_injective (Prod.mk.inj head).2
    exact ⟨by rw [texts, texts, same], rests⟩
  | branch k cs, branch l ds, same => by
    obtain ⟨head, below⟩ := List.cons.inj same
    have kinds : k = l := words.injective (Prod.mk.inj head).2
    obtain ⟨children, rests⟩ := forestLabels_append_inj words behind behind' cs ds below
    exact ⟨by rw [texts, texts, kinds, children], rests⟩
  | leaf a, branch l _, same => by
    obtain ⟨head, -⟩ := List.cons.inj same
    exact absurd (Prod.mk.inj head).2 (quote_ne_literal words _ l)
  | branch k _, leaf b, same => by
    obtain ⟨head, -⟩ := List.cons.inj same
    exact absurd (Prod.mk.inj head).2.symm (quote_ne_literal words _ k)

/-- The labels of trees side by side give them back, whatever is behind them. -/
theorem forestLabels_append_inj (words : WordKinds N) {depth : Nat}
    {rest rest' : List (Nat × String)} (behind : Behind depth rest)
    (behind' : Behind depth rest') :
    (ss ts : List (Tree T N)) → forestLabels depth ss ++ rest = forestLabels depth ts ++ rest' →
      forestTexts ss = forestTexts ts ∧ rest = rest'
  | [], [], same => ⟨rfl, same⟩
  | s :: ss, t :: ts, same => by
    rw [forestLabels, forestLabels, List.append_assoc, List.append_assoc] at same
    obtain ⟨first, more⟩ := labels_append_inj words (behind.forestLabels_append ss)
      (behind'.forestLabels_append ts) s t same
    obtain ⟨others, rests⟩ := forestLabels_append_inj words behind behind' ss ts more
    exact ⟨by rw [forestTexts, forestTexts, first, others], rests⟩
  | [], t :: ts, same => absurd same (behind.ne_forestLabels_append t ts rest')
  | s :: ss, [], same => absurd same.symm (behind'.ne_forestLabels_append s ss rest)

end

mutual

/-- A token leaves nothing but its text in the labels. -/
theorem labels_congr (depth : Nat) : (s t : Tree T N) → s.texts = t.texts →
    s.labels depth = t.labels depth
  | leaf a, leaf b, same => by
    rw [labels, labels, leaf.inj same]
  | branch k cs, branch l ds, same => by
    obtain ⟨kinds, children⟩ := branch.inj same
    rw [labels, labels, kinds, forestLabels_congr (depth + 1) cs ds children]

theorem forestLabels_congr (depth : Nat) : (ss ts : List (Tree T N)) →
    forestTexts ss = forestTexts ts → forestLabels depth ss = forestLabels depth ts
  | [], [], _ => rfl
  | s :: ss, t :: ts, same => by
    obtain ⟨first, others⟩ := List.cons.inj same
    rw [forestLabels, forestLabels, labels_congr depth s t first,
      forestLabels_congr depth ss ts others]

end

theorem toList_layout (tree : Tree T N) : tree.layout.toList =
    (tree.labels 0).flatMap fun entry => (layoutLine entry.1 entry.2).toList := by
  rw [layout, String.toList_join, List.flatMap_map]

/-- Trees have the same layout if they differ in nothing but what the texts of the tokens do not
say, and only then. -/
theorem layout_eq_iff (words : WordKinds N) (s t : Tree T N) :
    s.layout = t.layout ↔ s.texts = t.texts := by
  constructor
  · intro same
    have lines := congrArg String.toList same
    rw [toList_layout, toList_layout] at lines
    have labels := flatMap_layoutLine_inj (plain_of_mem_labels words 0 s)
      (plain_of_mem_labels words 0 t) lines
    have nothing : Behind (0 + 1) [] := by rintro entry ⟨⟩
    exact (labels_append_inj words nothing nothing s t (congrArg (· ++ []) labels)).1
  · intro same
    rw [layout, layout, labels_congr 0 s t same]

end Tree

namespace Pascal

/-! ### Pascal -/

theorem wordKinds : WordKinds NodeKind where
  injective k l same := by
    have named : k.name = l.name := same
    revert named
    cases k <;> cases l <;> decide
  letters kind := by
    have word : kind.name.toList.all Char.isAlpha := by cases kind <;> decide
    exact List.all_eq_true.mp word

/-- Two trees of the Pascal subset are printed alike if they agree in shape, in the kinds of the
nodes and in the texts of the tokens, and only then. -/
theorem layout_eq_layout_iff (s t : Tree) : s.layout = t.layout ↔ s.texts = t.texts :=
  Tree.layout_eq_iff wordKinds s t

end Pascal

end ShiftReduce
