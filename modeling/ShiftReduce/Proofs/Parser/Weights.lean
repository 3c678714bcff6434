/-
  Weights of the frames on a stack.

  A frame is hollow if it was put on the stack by reductions that took nothing but
  hollow frames, so its letter stands for the empty text; the others are solid. Solid
  frames have a charge, hollow ones a lift, by the depth of their keys in ranks of a
  sane grammar. A body of hollow frames counts less than the hollow frame of its rule
  (`Ranks.lifts_lt`), and a body with a solid frame more than the solid frame of its
  rule (`Ranks.lt_charges`).

  Keys that may be empty do not follow each other for ever: the reach of the keys bounds
  how many of them a path to an item set ends with (`Reaches.emptyRun_le`).
-/
import Mathlib.Algebra.BigOperators.Ring.List
import Mathlib.Algebra.Order.BigOperators.Group.List
import Mathlib.Algebra.Order.Ring.Nat
import Mathlib.Data.List.TakeWhile
import ShiftReduce.Proofs.Prefix
import ShiftReduce.Proofs.Sane

namespace ShiftReduce

open ContextFreeGrammar (Letter)

variable {τ κ T N : Type}

/-! ### Empty runs on paths -/

namespace Grammar

/-- How many symbols the bodies of a grammar hold. -/
def extent (g : Grammar τ κ T N) : Nat := (g.rules.map Rule.length).sum

theorem length_le_extent {g : Grammar τ κ T N} {rule : Rule τ κ T N} (isRule : rule ∈ g.rules) :
    rule.length ≤ g.extent :=
  List.le_sum_of_mem (List.mem_map_of_mem isRule)

variable [Ordered τ] [DecidableEq τ] [DecidableEq κ] {g : Grammar τ κ T N} {start : κ}
  {path : List (Symbol τ κ)} {items : ItemSet}

/-- Whether a symbol is a key that may be empty. -/
def mayVanish (g : Grammar τ κ T N) : Symbol τ κ → Bool
  | .nonterminal key => g.firstSets.isNullable key
  | _ => false

/-- How many of the latest symbols of a path are keys that may be empty. -/
def emptyRun (g : Grammar τ κ T N) (path : List (Symbol τ κ)) : Nat :=
  (path.takeWhile g.mayVanish).length

theorem emptyRun_cons_le (symbol : Symbol τ κ) (path : List (Symbol τ κ)) :
    g.emptyRun (symbol :: path) ≤ g.emptyRun path + 1 := by
  unfold emptyRun
  rw [List.takeWhile_cons]
  split
  · exact Nat.le_refl _
  · exact Nat.zero_le _

theorem emptyRun_cons_of_derives {letter : Letter τ κ} (empty : g.Derives [letter] []) :
    g.emptyRun (Symbol.ofLetter letter :: path) = g.emptyRun path + 1 := by
  obtain ⟨key, rfl, derives⟩ := derives_nil_iff.mp empty letter List.mem_cons_self
  have vanishes : g.mayVanish (.nonterminal key) = true := isNullable_iff.mpr derives
  unfold emptyRun
  rw [Symbol.ofLetter, List.takeWhile_cons, if_pos vanishes, List.length_cons]

/-- The symbols of an empty run are keys that are rewritten to the empty form. -/
theorem exists_key_of_mem_take {count : Nat} (within : count ≤ g.emptyRun path)
    {symbol : Symbol τ κ} (member : symbol ∈ path.take count) :
    ∃ key, symbol = .nonterminal key ∧ g.Derives [.nonterminal key] [] := by
  obtain ⟨rest, whole⟩ := List.takeWhile_prefix (l := path) g.mayVanish
  rw [← whole, List.take_append_of_le_length within] at member
  have vanishes := List.mem_takeWhile_imp (List.mem_of_mem_take member)
  cases symbol with
  | terminal t => cases vanishes
  | nonterminal key => exact ⟨key, rfl, isNullable_iff.mp vanishes⟩
  | epsilon => cases vanishes

omit [Ordered τ] [DecidableEq τ] [DecidableEq κ] in
/-- Such symbols have a letter each, and the form of these is empty. -/
theorem derives_of_keys {symbols : List (Symbol τ κ)}
    (keys : ∀ symbol ∈ symbols, ∃ key, symbol = .nonterminal key ∧ g.Derives [.nonterminal key] []) :
    g.Derives (letters symbols) [] ∧ (letters symbols).length = symbols.length := by
  induction symbols with
  | nil => exact ⟨.refl, rfl⟩
  | cons symbol rest ih =>
    rw [List.forall_mem_cons] at keys
    obtain ⟨⟨key, rfl, empty⟩, others⟩ := keys
    obtain ⟨derives, count⟩ := ih others
    rw [letters_nonterminal, List.length_cons, List.length_cons, count]
    exact ⟨empty.append derives, rfl⟩

/-- What an item has read is empty if it lies within the empty run of the path. -/
theorem Reaches.derives_read (reached : g.Reaches start path items) {item : Item}
    (member : item ∈ items) {rule : Rule τ κ T N} (found : g.rule? item.rule = some rule)
    (passed : item.cursor ≤ rule.body.length) (within : item.cursor ≤ g.emptyRun path) :
    g.Derives (letters (rule.body.take item.cursor)) [] ∧
      (letters (rule.body.take item.cursor)).length = item.cursor := by
  obtain ⟨spelled, _⟩ := reached.backed member found
  have keys : ∀ symbol ∈ rule.body.take item.cursor, ∃ key, symbol = .nonterminal key ∧
      g.Derives [.nonterminal key] [] := by
    intro symbol inside
    rw [← List.mem_reverse, spelled] at inside
    exact exists_key_of_mem_take within inside
  obtain ⟨empty, count⟩ := derives_of_keys keys
  exact ⟨empty, count.trans (List.length_take_of_le passed)⟩

namespace Ranks

/-- `r.Covers path item` says that the keys that may be empty at the end of the path are
no more than the cursor of the item has passed, and those that the reach of its key
leaves room for before its rule. -/
def Covers (r : g.Ranks) (path : List (Symbol τ κ)) (item : Item) : Prop :=
  ∃ rule, g.rule? item.rule = some rule ∧
    g.emptyRun path ≤ item.cursor + g.extent * (r.bound + 1 - r.reach rule.key)

variable {r : g.Ranks} {item : Item}

theorem Covers.bump (covers : r.Covers path item) (symbol : Symbol τ κ) :
    r.Covers (symbol :: path) item.bump := by
  obtain ⟨rule, found, bounded⟩ := covers
  have grown := g.emptyRun_cons_le symbol path
  refine ⟨rule, found, ?_⟩
  show _ ≤ item.cursor + 1 + _
  omega

/-- The run ends within the rule of the item, or it goes on before that rule, and then
the predicted key has less reach, or the same if nothing was read. -/
theorem Covers.predicted (covers : r.Covers path item) (reached : g.Reaches start path items)
    (member : item ∈ items) {next : Item} (predicts : next ∈ g.predicted item) :
    r.Covers path next := by
  obtain ⟨rule, found, bounded⟩ := covers
  obtain ⟨key, expected, isStart⟩ := g.mem_predicted.mp predicts
  obtain ⟨unread, rule', found', rfl⟩ := g.mem_startItems.mp isStart
  obtain ⟨own, ownFound, within, here⟩ := g.expected?_eq_some_iff.mp expected
  obtain rfl := Option.some.inj (found.symm.trans ownFound)
  have isRule : rule ∈ g.rules := List.mem_of_getElem? found
  have short := length_le_extent isRule
  have below := r.reach_le rule'.key
  refine ⟨rule', found', ?_⟩
  rw [unread, Nat.zero_add]
  by_cases inside : g.emptyRun path < item.cursor
  · have room := Nat.mul_le_mul_left g.extent (show 1 ≤ r.bound + 1 - r.reach rule'.key by omega)
    omega
  · obtain ⟨empty, count⟩ :=
      reached.derives_read member found (within.le.trans rule.length_le) (Nat.not_lt.mp inside)
    have split := congrArg letters (Rule.body_eq_append here)
    rw [letters_append, letters_nonterminal] at split
    obtain ⟨mono, less⟩ := r.reach_mono rule isRule _ _ _ split empty
    by_cases unmoved : item.cursor = 0
    · have room := Nat.mul_le_mul_left g.extent
        (show r.bound + 1 - r.reach rule.key ≤ r.bound + 1 - r.reach rule'.key by omega)
      omega
    · have less := less (List.ne_nil_of_length_pos (by omega))
      have room := Nat.mul_le_mul_left g.extent
        (show r.bound + 1 - r.reach rule.key + 1 ≤ r.bound + 1 - r.reach rule'.key by omega)
      rw [Nat.mul_succ] at room
      omega

end Ranks

/-- Every item of a set that is reached covers the path. -/
theorem Reaches.covers (r : g.Ranks) (reached : g.Reaches start path items) :
    ∀ item ∈ items, r.Covers path item := by
  refine reached.item_induction ?_ ?_ fun _ _ symbol covers _ => covers.bump symbol
  · intro item isStart
    obtain ⟨_, rule, found, _⟩ := g.mem_startItems.mp isStart
    exact ⟨rule, found, Nat.zero_le _⟩
  · exact fun _ _ reached _ member covers _ predicts => covers.predicted reached member predicts

/-- How many keys that may be empty can follow each other on a path. -/
def Ranks.stretch (r : g.Ranks) : Nat := g.extent * (r.bound + 2)

theorem Reaches.emptyRun_le (r : g.Ranks) (reached : g.Reaches start path items) :
    g.emptyRun path ≤ r.stretch := by
  cases reached with
  | start => exact Nat.zero_le _
  | @read path items symbol item before member expected =>
    obtain ⟨rule, found, bounded⟩ := before.covers r item member
    obtain ⟨rule', found', within, _⟩ := g.expected?_eq_some_iff.mp expected
    obtain rfl := Option.some.inj (found.symm.trans found')
    have short : rule.length ≤ g.extent := length_le_extent (List.mem_of_getElem? found)
    have grown := g.emptyRun_cons_le symbol path
    have room := Nat.mul_le_mul_left g.extent
      (show r.bound + 1 - r.reach rule.key + 1 ≤ r.bound + 2 by omega)
    unfold Ranks.stretch
    rw [Nat.mul_succ] at room
    omega

end Grammar

/-! ### Weights of frames -/

/-- What is kept of a frame on the stack: the letter that it stands for, and whether it
is hollow. -/
structure Tag (τ κ : Type) where
  letter : Letter τ κ
  hollow : Bool

/-- The symbol that the frame was put on the stack for. -/
def Tag.symbol (tag : Tag τ κ) : Symbol τ κ := .ofLetter tag.letter

namespace Grammar.Ranks

variable {g : Grammar τ κ T N} (r : g.Ranks)

/-- What a solid frame counts: the less, the deeper its key, and the most for a
terminal. Two of them count more than any key. -/
def charge : Tag τ κ → Nat
  | ⟨_, true⟩ => 0
  | ⟨.terminal _, false⟩ => 2 * r.bound + 2
  | ⟨.nonterminal key, false⟩ => 2 * r.bound + 1 - r.depth key

/-- What a hollow frame counts: more than a body full of keys that are less deep. -/
def lift : Tag τ κ → Nat
  | ⟨.nonterminal key, true⟩ => (g.extent + 1) ^ r.depth key
  | _ => 0

/-- What the solid frames count together. -/
def charges (tags : List (Tag τ κ)) : Nat := (tags.map r.charge).sum

/-- What the hollow frames count together. -/
def lifts (tags : List (Tag τ κ)) : Nat := (tags.map r.lift).sum

/-- No hollow frame counts more. -/
def cap : Nat := (g.extent + 1) ^ r.bound

/-- How far hollow frames can be lifted among solid frames with these charges. -/
def ceiling (charges : Nat) : Nat := r.cap * (r.stretch * (charges + 1))

theorem charge_hollow (letter : Letter τ κ) : r.charge ⟨letter, true⟩ = 0 := by
  cases letter <;> rfl

theorem bound_lt_charge (letter : Letter τ κ) : r.bound < r.charge ⟨letter, false⟩ := by
  cases letter with
  | terminal t =>
    show r.bound < 2 * r.bound + 2
    omega
  | nonterminal key =>
    have low := r.depth_le key
    show r.bound < 2 * r.bound + 1 - r.depth key
    omega

theorem charge_nonterminal_le (key : κ) :
    r.charge (⟨.nonterminal key, false⟩ : Tag τ κ) ≤ 2 * r.bound + 1 :=
  Nat.sub_le _ _

theorem lift_le_cap (tag : Tag τ κ) : r.lift tag ≤ r.cap := by
  unfold lift
  split
  · exact Nat.pow_le_pow_right (Nat.succ_pos _) (r.depth_le _)
  · exact Nat.zero_le _

@[simp] theorem charges_cons (tag : Tag τ κ) (tags : List (Tag τ κ)) :
    r.charges (tag :: tags) = r.charge tag + r.charges tags := by
  simp [charges]

@[simp] theorem lifts_cons (tag : Tag τ κ) (tags : List (Tag τ κ)) :
    r.lifts (tag :: tags) = r.lift tag + r.lifts tags := by
  simp [lifts]

@[simp] theorem charges_append (front back : List (Tag τ κ)) :
    r.charges (front ++ back) = r.charges front + r.charges back := by
  simp [charges]

@[simp] theorem lifts_append (front back : List (Tag τ κ)) :
    r.lifts (front ++ back) = r.lifts front + r.lifts back := by
  simp [lifts]

variable {children : List (Tag τ κ)} {rule : Rule τ κ T N}

theorem charges_eq_zero (hollow : ∀ tag ∈ children, tag.hollow = true) :
    r.charges children = 0 := by
  unfold charges
  rw [List.sum_eq_zero_iff]
  intro charge member
  obtain ⟨⟨letter, isHollow⟩, isChild, rfl⟩ := List.mem_map.mp member
  obtain rfl := hollow _ isChild
  exact r.charge_hollow letter

theorem bound_lt_charges {tag : Tag τ κ} (member : tag ∈ children) (solid : tag.hollow = false) :
    r.bound < r.charges children := by
  obtain ⟨letter, hollow⟩ := tag
  obtain rfl : hollow = false := solid
  exact (r.bound_lt_charge letter).trans_le (List.le_sum_of_mem (List.mem_map_of_mem member))

/-- In a body of letters that are all empty, every key is less deep than that of the
rule. -/
theorem depth_lt_of_mem (isRule : rule ∈ g.rules)
    (empty : ∀ letter ∈ letters rule.body, g.Derives [letter] []) {key : κ}
    (used : .nonterminal key ∈ letters rule.body) : r.depth key < r.depth rule.key := by
  obtain ⟨front, back, split⟩ := List.append_of_mem used
  rw [split, List.forall_mem_append, List.forall_mem_cons] at empty
  exact r.depth_lt rule isRule front key back split (derives_nil empty.1) (derives_nil empty.2.2)

/-- Where every frame of a body is hollow, a hollow frame of the rule counts more. -/
theorem lifts_lt (isRule : rule ∈ g.rules)
    (body : letters rule.body = (children.map Tag.letter).reverse)
    (empty : ∀ tag ∈ children, g.Derives [tag.letter] []) :
    r.lifts children < r.lift ⟨.nonterminal rule.key, true⟩ := by
  have each : ∀ tag ∈ children,
      (g.extent + 1) * r.lift tag ≤ r.lift ⟨.nonterminal rule.key, true⟩ := by
    intro tag isChild
    unfold lift
    split
    · rename_i key
      have used : .nonterminal key ∈ letters rule.body := by
        rw [body, List.mem_reverse]
        exact List.mem_map_of_mem isChild
      have deeper := r.depth_lt_of_mem isRule (by simpa [body] using empty) used
      rw [← Nat.pow_succ']
      exact Nat.pow_le_pow_right (Nat.succ_pos _) deeper
    · exact Nat.zero_le _
  have total : (g.extent + 1) * r.lifts children ≤
      children.length * r.lift ⟨.nonterminal rule.key, true⟩ := by
    have bounded := List.sum_le_card_nsmul (children.map fun tag => (g.extent + 1) * r.lift tag)
      (r.lift ⟨.nonterminal rule.key, true⟩) (by simpa using each)
    rwa [List.sum_map_mul_left, List.length_map, nsmul_eq_mul] at bounded
  have few : children.length ≤ g.extent := by
    have count := congrArg List.length body
    rw [rule.length_letters, List.length_reverse, List.length_map] at count
    rw [← count]
    exact length_le_extent isRule
  have positive : 0 < r.lift ⟨.nonterminal rule.key, true⟩ := Nat.pow_pos (Nat.succ_pos _)
  apply Nat.lt_of_mul_lt_mul_left (a := g.extent + 1)
  calc (g.extent + 1) * r.lifts children
      ≤ children.length * r.lift ⟨.nonterminal rule.key, true⟩ := total
    _ ≤ g.extent * r.lift ⟨.nonterminal rule.key, true⟩ := Nat.mul_le_mul_right _ few
    _ < (g.extent + 1) * r.lift ⟨.nonterminal rule.key, true⟩ :=
      Nat.mul_lt_mul_of_pos_right (Nat.lt_succ_self _) positive

/-- A solid frame that is the only one in a body counts more than that of the rule, since
its key is less deep or it is a terminal. -/
theorem charge_lt_charge (isRule : rule ∈ g.rules) {front back : List (Letter τ κ)}
    {letter : Letter τ κ} (body : letters rule.body = front ++ letter :: back)
    (before : g.Derives front []) (behind : g.Derives back []) :
    r.charge (⟨.nonterminal rule.key, false⟩ : Tag τ κ) < r.charge ⟨letter, false⟩ := by
  cases letter with
  | terminal t => exact Nat.lt_succ_of_le (r.charge_nonterminal_le rule.key)
  | nonterminal key =>
    have deeper := r.depth_lt rule isRule front key back body before behind
    have low := r.depth_le rule.key
    show 2 * r.bound + 1 - r.depth rule.key < 2 * r.bound + 1 - r.depth key
    omega

/-- Where some frame of a body is solid, a solid frame of the rule counts less. -/
theorem lt_charges (isRule : rule ∈ g.rules)
    (body : letters rule.body = (children.map Tag.letter).reverse)
    (empty : ∀ tag ∈ children, tag.hollow = true → g.Derives [tag.letter] [])
    (some : ¬ ∀ tag ∈ children, tag.hollow = true) :
    r.charge ⟨.nonterminal rule.key, false⟩ < r.charges children := by
  simp only [not_forall, Bool.not_eq_true] at some
  obtain ⟨⟨letter, hollow⟩, isChild, solid⟩ := some
  obtain rfl : hollow = false := solid
  obtain ⟨front, back, rfl⟩ := List.append_of_mem isChild
  rw [charges_append, charges_cons]
  by_cases only : (∀ tag ∈ front, tag.hollow = true) ∧ ∀ tag ∈ back, tag.hollow = true
  · -- the letters around the solid frame are empty
    have split : letters rule.body = (back.map Tag.letter).reverse ++
        letter :: (front.map Tag.letter).reverse := by
      simp [body]
    simp only [List.forall_mem_append, List.forall_mem_cons] at empty
    have before : g.Derives (back.map Tag.letter).reverse [] := by
      apply derives_nil
      simpa using fun tag member => empty.2.2 tag member (only.2 tag member)
    have behind : g.Derives (front.map Tag.letter).reverse [] := by
      apply derives_nil
      simpa using fun tag member => empty.1 tag member (only.1 tag member)
    have alone := r.charge_lt_charge isRule split before behind
    omega
  · -- another frame is solid, and two of them count more than a key
    have least := r.charge_nonterminal_le (τ := τ) rule.key
    have own := r.bound_lt_charge letter
    rw [not_and_or] at only
    simp only [not_forall, Bool.not_eq_true] at only
    rcases only with ⟨tag, member, solid⟩ | ⟨tag, member, solid⟩
    · have other := r.bound_lt_charges member solid
      omega
    · have other := r.bound_lt_charges member solid
      omega

end Grammar.Ranks

end ShiftReduce
