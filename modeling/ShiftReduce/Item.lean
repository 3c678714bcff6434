/-
  Items and item sets: how far each rule of a grammar has been read.

  An item is a rule with a cursor in its body. A set of items predicts the
  rules of every nonterminal under one of its cursors; its closure holds these
  too (`Grammar.closure`), and reading a symbol moves the cursor of the items
  that expect it (`Grammar.advance`). The states of a parser are closed item
  sets.
-/
import ShiftReduce.Grammar

namespace ShiftReduce

/-- The rule at a place, read up to a cursor. -/
structure Item where
  rule : Nat
  cursor : Nat
deriving DecidableEq, Inhabited, Repr

namespace Item

/-- Items are ordered by rule, then by cursor. -/
instance : Ord Item := ⟨compareLex (compareOn rule) (compareOn cursor)⟩

instance : Std.TransOrd Item :=
  inferInstanceAs (Std.TransCmp (compareLex (compareOn rule) (compareOn cursor)))

instance : Std.LawfulEqOrd Item where
  compare_self := Std.ReflCmp.compare_self
  eq_of_compare {a b} h := by
    have h : (compare a.rule b.rule).then (compare a.cursor b.cursor) = .eq := h
    obtain ⟨rules, cursors⟩ := Ordering.then_eq_eq.mp h
    cases a; cases b
    simp_all

instance : Ordered Item := {}

/-- The item after one more symbol. -/
def bump (item : Item) : Item := ⟨item.rule, item.cursor + 1⟩

end Item

/-- A finite set of items. -/
abbrev ItemSet := SortedSet Item

variable {τ κ T N : Type}

namespace Grammar

/-! ### Single items -/

/-- What stands under the cursor of an item; nothing when the rule has been
read. -/
def part? (g : Grammar τ κ T N) (item : Item) : Option (BodyPart τ κ) :=
  (g.rule? item.rule).bind fun rule => rule.partAt? item.cursor

/-- The symbol that an item expects; none when the rule has been read. -/
def expected? (g : Grammar τ κ T N) (item : Item) : Option (Symbol τ κ) :=
  (g.rule? item.rule).bind fun rule => rule.symbolAt? item.cursor

theorem map_symbol_part? (g : Grammar τ κ T N) (item : Item) :
    (g.part? item).map BodyPart.symbol = g.expected? item := by
  rw [part?, expected?, Option.map_bind]
  rfl

/-- Whether an item has read its whole rule. -/
def isComplete (g : Grammar τ κ T N) (item : Item) : Bool :=
  ((g.rule? item.rule).map Rule.length).getD 0 ≤ item.cursor

/-- An item in the form `key → a · b`. -/
def itemText [Named κ] (g : Grammar τ κ T N) (item : Item) : String :=
  match g.rule? item.rule with
  | none => ""
  | some rule =>
    let body := (rule.body.take rule.length).map (Symbol.text g.alphabet)
    " ".intercalate
      (Named.name rule.key :: "→" :: (body.take item.cursor ++ "·" :: body.drop item.cursor))

/-! ### Closure -/

variable [DecidableEq κ]

/-- The items that a key starts with: its rules, with nothing read. -/
def startItems (g : Grammar τ κ T N) (key : κ) : List Item :=
  (g.rulesFor key).map fun rule => ⟨rule, 0⟩

/-- The items that an item predicts: those that the nonterminal under its
cursor starts with. -/
def predicted (g : Grammar τ κ T N) (item : Item) : List Item :=
  match g.expected? item with
  | some (.nonterminal key) => g.startItems key
  | _ => []

/-- Predicts from the pending items until no item is new; `keys` holds the
nonterminals whose start items are in the set already. Every item enters
`pending` at most once, so a budget of as many steps as there are pending
items and rules is enough. -/
def closeFrom (g : Grammar τ κ T N) : Nat → List Item → List κ → ItemSet → ItemSet
  | 0, _, _, closed => closed
  | _ + 1, [], _, closed => closed
  | budget + 1, item :: pending, keys, closed =>
    match g.expected? item with
    | some (.nonterminal key) =>
      if key ∈ keys then g.closeFrom budget pending keys closed
      else
        let fresh := (g.startItems key).filter fun item => item ∉ closed
        g.closeFrom budget (fresh ++ pending) (key :: keys) (closed.insertAll fresh)
    | _ => g.closeFrom budget pending keys closed

/-- The least set that holds `items` and, with every item, all that it
predicts. -/
def closure (g : Grammar τ κ T N) (items : ItemSet) : ItemSet :=
  g.closeFrom (items.size + g.rules.length) items.toList [] items

variable [DecidableEq τ]

/-- The items that expect a symbol, after reading it. -/
def kernel (g : Grammar τ κ T N) (items : ItemSet) (symbol : Symbol τ κ) : ItemSet :=
  .ofList ((items.toList.filter fun item => g.expected? item = some symbol).map Item.bump)

/-- A terminal as a set of items expects it: the copy of it that stands under
the cursor of the first item to expect it. -/
def copyIn (g : Grammar τ κ T N) (items : ItemSet) (t : τ) : Terminal T :=
  (items.toList.findSome? fun item => (g.part? item).bind (BodyPart.copyOf? g.alphabet t)).getD
    (g.alphabet t)

/-- The closed set that reading a symbol leads to. It is empty when no item
expects the symbol. -/
def advance (g : Grammar τ κ T N) (items : ItemSet) (symbol : Symbol τ κ) : ItemSet :=
  g.closure (g.kernel items symbol)

/-- The closed set that a parse for `key` starts from. -/
def startSet (g : Grammar τ κ T N) (key : κ) : ItemSet :=
  g.closure (.ofList (g.startItems key))

end Grammar

end ShiftReduce
