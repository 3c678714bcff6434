/-
  FIRST and FOLLOW sets without symbols that they never have.

  A nonterminal is in no FIRST set, and in a FOLLOW set are terminals only. So a FIRST
  set is a set of terminals with a flag for the empty text (`Beginning`), and a FOLLOW
  set is a set of terminals. The passes that collect sets of symbols go as passes over
  these (`collectFirst_symbols`, `collectFollow_symbols`): they find the same
  (`symbolSets_eq`), in as many passes.
-/
import ShiftReduce.Lookahead.SymbolSets
import ShiftReduce.Proofs.Lookahead.Saturation

namespace ShiftReduce

variable {τ κ T N : Type} [Ordered τ]

/-! ### Beginnings -/

/-- How the texts of a symbol or of a sequence of symbols can begin: with one
of the terminals or, if nullable, not at all. -/
structure Beginning (τ : Type) [Ordered τ] where
  terminals : SortedSet τ
  nullable : Bool
deriving DecidableEq

namespace Beginning

/-- No text at all. -/
def none : Beginning τ := ⟨∅, false⟩

/-- Only the empty text. -/
def empty : Beginning τ := ⟨∅, true⟩

/-- Texts that start with a given terminal. -/
def single (t : τ) : Beginning τ := ⟨(∅ : SortedSet τ).insert t, false⟩

/-- A text of `a` followed by a text of `b`: where `a` may be empty, `b` shows
through. -/
def andThen (a b : Beginning τ) : Beginning τ :=
  if a.nullable then ⟨a.terminals ∪ b.terminals, b.nullable⟩ else a

/-- A text of either kind. -/
def orElse (a b : Beginning τ) : Beginning τ :=
  ⟨a.terminals ∪ b.terminals, a.nullable || b.nullable⟩

end Beginning

/-- The beginning of every nonterminal. -/
abbrev FirstSets (τ κ : Type) [Ordered τ] := Family κ (Beginning τ)

section Bodies

variable [DecidableEq κ]

/-- The beginning of a sequence of symbols, given those of the nonterminals. -/
def FirstSets.ofBody (first : FirstSets τ κ) : List (Symbol τ κ) → Beginning τ
  | [] => .empty
  | .terminal t :: _ => .single t
  | .nonterminal key :: rest => ((first.get? key).getD .none).andThen (first.ofBody rest)
  | .epsilon :: rest => first.ofBody rest

/-- Whether a nonterminal can stand for the empty text. -/
def FirstSets.isNullable (first : FirstSets τ κ) (key : κ) : Bool :=
  ((first.get? key).map Beginning.nullable).getD false

/-- What can come behind an occurrence in a rule for `key`, when `rest` is the
rest of the body. -/
def FollowSets.behind (first : FirstSets τ κ) (key : κ) (rest : List (Symbol τ κ))
    (follow : FollowSets τ κ) : SortedSet τ :=
  (first.ofBody rest).terminals ∪
    if (first.ofBody rest).nullable then (follow.get? key).getD ∅ else ∅

/-- Adds to every nonterminal of a rule body what can come behind it there. -/
def FollowSets.absorb (first : FirstSets τ κ) (key : κ) :
    List (Symbol τ κ) → FollowSets τ κ → FollowSets τ κ
  | [], follow => follow
  | .nonterminal inner :: rest, follow =>
    FollowSets.absorb first key rest (follow.modify inner (· ∪ behind first key rest follow))
  | _ :: rest, follow => FollowSets.absorb first key rest follow

end Bodies

/-! ### Passes -/

namespace Grammar

variable [DecidableEq κ]

/-- Adds to the beginning of each rule's key that of its body. -/
def firstPass (g : Grammar τ κ T N) (first : FirstSets τ κ) : FirstSets τ κ :=
  g.rules.foldl (fun first rule => first.modify rule.key (·.orElse (first.ofBody rule.body))) first

/-- Absorbs every rule body. -/
def followPass (g : Grammar τ κ T N) (first : FirstSets τ κ) (follow : FollowSets τ κ) :
    FollowSets τ κ :=
  g.rules.foldl (fun follow rule => FollowSets.absorb first rule.key rule.body follow) follow

variable [DecidableEq τ]

/-- The beginnings of all nonterminals and the number of passes that settled
them. -/
def firstRun (g : Grammar τ κ T N) : FirstSets τ κ × Nat :=
  saturate g.firstPass (g.keys.length * (g.terminalOccurrences.length + 1) + 1)
    (.const g.keys .none)

/-- The beginnings of all nonterminals. -/
def firstSets (g : Grammar τ κ T N) : FirstSets τ κ := g.firstRun.1

/-- The terminals that can come after each nonterminal, and the number of
passes that settled them. -/
def followRun (g : Grammar τ κ T N) (first : FirstSets τ κ) : FollowSets τ κ × Nat :=
  saturate (g.followPass first) (g.keys.length * g.terminalOccurrences.length + 1)
    (.const g.keys ∅)

end Grammar

/-! ### Sets of symbols -/

section Symbols

variable [Ordered κ]

namespace SymbolSet

theorem mem_absorb {set other : SymbolSet τ κ} {symbol : Symbol τ κ} :
    symbol ∈ set.absorb other ↔ symbol ∈ set ∨ (symbol ∈ other ∧ symbol.isEpsilon = false) := by
  rw [← SortedSet.mem_toList (s := other), absorb]
  induction other.toList generalizing set with
  | nil => simp
  | cons next rest ih =>
    rw [List.foldl_cons, ih, List.mem_cons]
    by_cases skipped : next.isEpsilon = true
    · rw [if_pos skipped]
      refine or_congr_right (and_congr_left fun other => (or_iff_right ?_).symm)
      rintro rfl
      rw [skipped] at other
      cases other
    · rw [if_neg skipped, SortedSet.mem_insert]
      have taken : symbol = next → symbol.isEpsilon = false := by
        rintro rfl
        exact Bool.eq_false_iff.mpr skipped
      tauto

theorem mem_terminals {set : SymbolSet τ κ} {t : τ} : t ∈ set.terminals ↔ .terminal t ∈ set := by
  show t ∈ set.toList.filterMap Symbol.terminal? ↔ _
  rw [List.mem_filterMap]
  constructor
  · rintro ⟨symbol, member, same⟩
    cases symbol <;> cases same
    exact member
  · exact fun member => ⟨_, member, rfl⟩

end SymbolSet

namespace Beginning

/-- The members of a beginning: the terminals and, if nullable, the empty text. -/
def symbols (a : Beginning τ) : SymbolSet τ κ :=
  let terminals := SortedSet.ofList (a.terminals.toList.map .terminal)
  if a.nullable then terminals.insert .epsilon else terminals

theorem mem_symbols {a : Beginning τ} {symbol : Symbol τ κ} :
    symbol ∈ a.symbols ↔
      (∃ t, symbol = .terminal t ∧ t ∈ a.terminals) ∨ (symbol = .epsilon ∧ a.nullable = true) := by
  have inside : symbol ∈ SortedSet.ofList (a.terminals.toList.map Symbol.terminal) ↔
      ∃ t, symbol = .terminal t ∧ t ∈ a.terminals := by
    rw [SortedSet.mem_ofList, List.mem_map]
    exact exists_congr fun t => and_comm.trans (and_congr_left' eq_comm)
  unfold symbols
  dsimp only
  split
  · rename_i nullable
    rw [SortedSet.mem_insert, inside, nullable, or_comm, eq_self, and_true]
  · rename_i solid
    rw [inside]
    simp [solid]

@[simp] theorem terminal_mem_symbols {a : Beginning τ} {t : τ} :
    .terminal t ∈ (a.symbols : SymbolSet τ κ) ↔ t ∈ a.terminals := by
  simp [mem_symbols]

@[simp] theorem nonterminal_not_mem_symbols (a : Beginning τ) (key : κ) :
    .nonterminal key ∉ (a.symbols : SymbolSet τ κ) := by
  simp [mem_symbols]

@[simp] theorem epsilon_mem_symbols {a : Beginning τ} :
    .epsilon ∈ (a.symbols : SymbolSet τ κ) ↔ a.nullable = true := by
  simp [mem_symbols]

theorem symbols_injective :
    Function.Injective (symbols : Beginning τ → SymbolSet τ κ) := by
  intro a b same
  have terminals : a.terminals = b.terminals := SortedSet.ext fun t => by
    rw [← terminal_mem_symbols (κ := κ), same, terminal_mem_symbols]
  have nullable : a.nullable = b.nullable := by
    rw [Bool.eq_iff_iff, ← epsilon_mem_symbols (κ := κ), same, epsilon_mem_symbols]
  cases a
  cases b
  exact congrArg₂ mk terminals nullable

theorem terminals_symbols (a : Beginning τ) :
    (a.symbols : SymbolSet τ κ).terminals = a.terminals :=
  SortedSet.ext fun _ => SymbolSet.mem_terminals.trans terminal_mem_symbols

@[simp] theorem nullable_symbols [DecidableEq τ] [DecidableEq κ] (a : Beginning τ) :
    (a.symbols : SymbolSet τ κ).nullable = a.nullable := by
  rw [Bool.eq_iff_iff, SymbolSet.nullable, decide_eq_true_iff, epsilon_mem_symbols]

theorem union_symbols (a b : Beginning τ) :
    (a.symbols ∪ b.symbols : SymbolSet τ κ) = (a.orElse b).symbols := by
  refine SortedSet.ext fun symbol => ?_
  cases symbol <;> simp [orElse]

/-- A set of terminals as a set of symbols. -/
def ofTerminals (set : SortedSet τ) : SymbolSet τ κ := symbols ⟨set, false⟩

theorem mem_ofTerminals {set : SortedSet τ} {symbol : Symbol τ κ} :
    symbol ∈ (ofTerminals set : SymbolSet τ κ) ↔ ∃ t, symbol = .terminal t ∧ t ∈ set :=
  mem_symbols.trans (or_iff_left fun none => Bool.false_ne_true none.2)

theorem ofTerminals_injective : Function.Injective (ofTerminals : SortedSet τ → SymbolSet τ κ) :=
  fun _ _ same => (Beginning.mk.inj (symbols_injective same)).1

theorem ofTerminals_union (a b : SortedSet τ) :
    (ofTerminals (a ∪ b) : SymbolSet τ κ) = ofTerminals a ∪ ofTerminals b :=
  (union_symbols ⟨a, false⟩ ⟨b, false⟩).symm

/-- Only the terminals of a beginning are absorbed. -/
theorem absorb_symbols (set : SymbolSet τ κ) (a : Beginning τ) :
    set.absorb a.symbols = set ∪ ofTerminals a.terminals := by
  refine SortedSet.ext fun symbol => ?_
  cases symbol <;> simp [SymbolSet.mem_absorb, ofTerminals, Symbol.isEpsilon]

theorem absorb_ofTerminals (set : SymbolSet τ κ) (terminals : SortedSet τ) :
    set.absorb (ofTerminals terminals) = set ∪ ofTerminals terminals :=
  absorb_symbols set ⟨terminals, false⟩

end Beginning

/-! ### Passes over sets of symbols -/

section Passes

open Beginning (ofTerminals ofTerminals_union absorb_symbols absorb_ofTerminals)

variable [DecidableEq τ] [DecidableEq κ]

namespace SymbolSet

/-- A scan finds the terminals of a beginning, and its flag says that it is nullable. -/
theorem scan_eq (first : FirstSets τ κ) (body : List (Symbol τ κ)) (found : SymbolSet τ κ) :
    scan (first.map Beginning.symbols) body found =
      (found ∪ ofTerminals (first.ofBody body).terminals, (first.ofBody body).nullable) := by
  have nothing (set : SymbolSet τ κ) : set ∪ ofTerminals ∅ = set :=
    SortedSet.ext fun symbol => by cases symbol <;> simp [ofTerminals]
  induction body generalizing found with
  | nil => exact Prod.ext (nothing found).symm rfl
  | cons symbol rest ih =>
    cases symbol with
    | terminal t =>
      refine Prod.ext (SortedSet.ext fun symbol => ?_) rfl
      rw [scan, SortedSet.mem_insert, SortedSet.mem_union, or_comm]
      refine or_congr_right ?_
      cases symbol <;>
        simp [FirstSets.ofBody, Beginning.single, ofTerminals]
    | epsilon => exact ih found
    | nonterminal key =>
      rw [scan, Family.get?_map, FirstSets.ofBody]
      cases first.get? key with
      | none => exact Prod.ext (nothing found).symm rfl
      | some own =>
        dsimp only [Option.map_some, Option.getD_some]
        rw [Beginning.nullable_symbols, absorb_symbols, Beginning.andThen]
        split
        · -- the rest shows through
          rw [ih, ofTerminals_union, SortedSet.union_assoc]
        · rename_i solid
          rw [Bool.eq_false_iff.mpr solid]

/-- A scan of the rest of a body, with the FOLLOW set where the rest can be empty, finds
what can come behind. -/
theorem absorbBody_eq (first : FirstSets τ κ) (key : κ) (body : List (Symbol τ κ))
    (follow : FollowSets τ κ) :
    absorbBody (first.map Beginning.symbols) key body (follow.map ofTerminals) =
      (FollowSets.absorb first key body follow).map ofTerminals := by
  induction body generalizing follow with
  | nil => rfl
  | cons symbol rest ih =>
    cases symbol with
    | terminal t => exact ih follow
    | epsilon => exact ih follow
    | nonterminal inner =>
      have behind : (follow.map ofTerminals).modify inner (·.absorb
          (if (scan (first.map Beginning.symbols) rest ∅).2 then
            (scan (first.map Beginning.symbols) rest ∅).1.absorb
              (((follow.map ofTerminals).get? key).getD ∅)
          else (scan (first.map Beginning.symbols) rest ∅).1)) =
          (follow.modify inner (· ∪ FollowSets.behind first key rest follow)).map ofTerminals := by
        refine Family.modify_map fun set => ?_
        have own : ((follow.map ofTerminals).get? key).getD ∅ =
            (ofTerminals ((follow.get? key).getD ∅) : SymbolSet τ κ) := by
          rw [Family.get?_map]
          cases follow.get? key <;> rfl
        rw [scan_eq, own, absorb_ofTerminals, SortedSet.empty_union, ← ofTerminals_union,
          FollowSets.behind]
        dsimp only
        split
        · exact (absorb_ofTerminals _ _).trans (ofTerminals_union _ _).symm
        · exact (absorb_ofTerminals _ _).trans (ofTerminals_union _ _).symm
      rw [absorbBody, FollowSets.absorb, ← ih, ← behind]

end SymbolSet

namespace Grammar

variable (g : Grammar τ κ T N)

/-- A pass over FIRST sets is one over beginnings. -/
theorem collectFirst_symbols (first : FirstSets τ κ) :
    g.collectFirst (first.map Beginning.symbols) = (g.firstPass first).map Beginning.symbols := by
  refine List.foldl_hom (Family.map Beginning.symbols) fun first rule => ?_
  refine Family.modify_map fun own => ?_
  rw [← Beginning.union_symbols, SymbolSet.scan_eq, SortedSet.empty_union]
  rfl

/-- A pass over FOLLOW sets is one over sets of terminals. -/
theorem collectFollow_symbols (first : FirstSets τ κ) (follow : FollowSets τ κ) :
    g.collectFollow (first.map Beginning.symbols) (follow.map Beginning.ofTerminals) =
      (g.followPass first follow).map Beginning.ofTerminals :=
  List.foldl_hom (Family.map Beginning.ofTerminals) fun follow rule =>
    SymbolSet.absorbBody_eq first rule.key rule.body follow

/-- The FIRST sets are the beginnings, and settle in as many passes. -/
theorem firstSymbols_eq :
    g.firstSymbols = (g.firstSets.map Beginning.symbols, g.firstRun.2) := by
  have view := saturate_view (Family.map_injective Beginning.symbols_injective)
    g.collectFirst_symbols (g.keys.length * (g.terminalOccurrences.length + 1) + 1)
    (.const g.keys .none)
  rwa [Family.map_const] at view

/-- The FOLLOW sets are sets of terminals, and settle in as many passes. -/
theorem followSymbols_eq :
    g.followSymbols g.symbolSets.first =
      ((g.followRun g.firstSets).1.map ofTerminals, (g.followRun g.firstSets).2) := by
  have view := saturate_view (Family.map_injective Beginning.ofTerminals_injective)
    (g.collectFollow_symbols g.firstSets) (g.keys.length * g.terminalOccurrences.length + 1)
    (.const g.keys ∅)
  rw [Family.map_const] at view
  have first : g.symbolSets.first = g.firstSets.map Beginning.symbols :=
    congrArg Prod.fst g.firstSymbols_eq
  rw [followSymbols, first]
  exact view

/-- The sets of a grammar have no other symbols than terminals and, for FIRST sets, the
empty text. -/
theorem symbolSets_eq :
    g.symbolSets =
      ⟨g.firstSets.map Beginning.symbols, (g.followRun g.firstSets).1.map ofTerminals⟩ :=
  congrArg₂ SymbolSets.mk (congrArg Prod.fst g.firstSymbols_eq)
    (congrArg Prod.fst g.followSymbols_eq)

theorem followSets_eq : g.followSets = (g.followRun g.firstSets).1 := by
  have same : SymbolSet.terminals ∘ (ofTerminals : SortedSet τ → SymbolSet τ κ) = id :=
    funext fun set => Beginning.terminals_symbols ⟨set, false⟩
  rw [followSets, symbolSets_eq, SymbolSets.followers, Family.map_map, same]
  exact congrArg Family.mk (List.map_id _)

theorem isNullable_symbolSets (key : κ) :
    g.symbolSets.isNullable key = g.firstSets.isNullable key := by
  have same : SymbolSet.nullable ∘ (Beginning.symbols : Beginning τ → SymbolSet τ κ) =
      Beginning.nullable := funext Beginning.nullable_symbols
  rw [SymbolSets.isNullable, symbolSets_eq, Family.get?_map, Option.map_map, same]
  rfl

end Grammar

end Passes

end Symbols

end ShiftReduce
