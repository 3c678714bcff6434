/-
  Finite sets and finite maps over an ordered type, held as strictly
  increasing lists.

  A set has exactly one such list, so equality of sets is equality of values
  (`SortedSet.ext`), listing a set needs no choice of order, and membership is
  the whole theory: every operation below comes with the one lemma that says
  what it does to membership (`SortedSet.mem_insert`, `SortedSet.mem_union`,
  `SortedSet.mem_filter`, `SortedMap.get?_insert`).
-/

namespace ShiftReduce

/-- A type with a decidable total order, given as a three-way comparison that
answers `.eq` on equal elements only. -/
class Ordered (α : Type) extends Ord α, Std.TransOrd α, Std.LawfulEqOrd α

instance : Ordered Nat := {}

instance : Ordered String := {}

instance (n : Nat) : Ordered (Fin n) := {}

/-- Lists are ordered by their first difference. -/
instance {α : Type} [Ordered α] : Ordered (List α) := {}

/-- The order that an injective rank pulls back from the natural numbers. -/
@[reducible] def Ordered.ofRank {α : Type} (rank : α → Nat)
    (injective : ∀ a b, rank a = rank b → a = b) : Ordered α :=
  letI : Ord α := ⟨fun a b => compare (rank a) (rank b)⟩
  { eq_swap := fun {a b} => @Std.OrientedCmp.eq_swap Nat compare _ (rank a) (rank b)
    isLE_trans := fun {a b c} => @Std.TransCmp.isLE_trans Nat compare _ (rank a) (rank b) (rank c)
    compare_self := fun {a} => @Std.ReflCmp.compare_self Nat compare _ (rank a)
    eq_of_compare := fun {a b} h =>
      injective a b (@Std.LawfulEqCmp.eq_of_compare Nat compare _ (rank a) (rank b) h) }

/-- No element comes before itself. -/
theorem compare_self_ne_lt {α : Type} [Ordered α] (a : α) : compare a a ≠ .lt := by
  have h : compare a a = .eq := Std.ReflCmp.compare_self
  rw [h]
  exact Ordering.noConfusion

/-! ### Strictly increasing lists -/

section Lists

variable {α : Type} [Ordered α]

/-- The place of `a` in a strictly increasing list; an element that is there
already is not repeated. -/
def insertSorted (a : α) : List α → List α
  | [] => [a]
  | b :: rest =>
    match compare a b with
    | .lt => a :: b :: rest
    | .eq => b :: rest
    | .gt => b :: insertSorted a rest

theorem mem_insertSorted {a x : α} {l : List α} :
    x ∈ insertSorted a l ↔ x = a ∨ x ∈ l := by
  induction l with
  | nil => simp [insertSorted]
  | cons b rest ih =>
    simp only [insertSorted]
    split
    · simp
    · rename_i h
      obtain rfl := Std.LawfulEqCmp.eq_of_compare h
      simp
    · simp only [List.mem_cons, ih]
      constructor
      · rintro (h | h | h) <;> simp [h]
      · rintro (h | h | h) <;> simp [h]

theorem pairwise_insertSorted {a : α} {l : List α}
    (sorted : l.Pairwise (fun a b => compare a b = .lt)) :
    (insertSorted a l).Pairwise (fun a b => compare a b = .lt) := by
  induction l with
  | nil => simp [insertSorted]
  | cons b rest ih =>
    obtain ⟨above, tail⟩ := List.pairwise_cons.mp sorted
    simp only [insertSorted]
    split
    · rename_i h
      refine List.pairwise_cons.mpr ⟨fun x member => ?_, sorted⟩
      rcases List.mem_cons.mp member with rfl | member
      · exact h
      · exact Std.TransCmp.lt_trans h (above x member)
    · exact sorted
    · rename_i h
      refine List.pairwise_cons.mpr ⟨fun x member => ?_, ih tail⟩
      rcases mem_insertSorted.mp member with rfl | member
      · exact Std.OrientedCmp.gt_iff_lt.mp h
      · exact above x member

/-- Two strictly increasing lists with the same elements are the same list. -/
theorem eq_of_pairwise_of_mem_iff {l m : List α}
    (hl : l.Pairwise (fun a b => compare a b = .lt))
    (hm : m.Pairwise (fun a b => compare a b = .lt)) (same : ∀ a, a ∈ l ↔ a ∈ m) : l = m := by
  induction l generalizing m with
  | nil =>
    cases m with
    | nil => rfl
    | cons b rest => exact absurd ((same b).mpr List.mem_cons_self) List.not_mem_nil
  | cons a l ih =>
    cases m with
    | nil => exact absurd ((same a).mp List.mem_cons_self) List.not_mem_nil
    | cons b m =>
      obtain ⟨al, tailL⟩ := List.pairwise_cons.mp hl
      obtain ⟨bm, tailM⟩ := List.pairwise_cons.mp hm
      have heads : a = b := by
        rcases List.mem_cons.mp ((same a).mp List.mem_cons_self) with h | h
        · exact h
        · rcases List.mem_cons.mp ((same b).mpr List.mem_cons_self) with h' | h'
          · exact h'.symm
          · exact absurd (Std.TransCmp.lt_trans (bm a h) (al b h')) (compare_self_ne_lt b)
      subst heads
      refine congrArg (a :: ·) (ih tailL tailM fun x => ?_)
      constructor
      · intro h
        rcases List.mem_cons.mp ((same x).mp (List.mem_cons_of_mem _ h)) with rfl | h'
        · exact absurd (al x h) (compare_self_ne_lt x)
        · exact h'
      · intro h
        rcases List.mem_cons.mp ((same x).mpr (List.mem_cons_of_mem _ h)) with rfl | h'
        · exact absurd (bm x h) (compare_self_ne_lt x)
        · exact h'

end Lists

/-! ### Sets -/

/-- A finite set, listed in strictly increasing order. -/
structure SortedSet (α : Type) [Ordered α] where
  toList : List α
  sorted : toList.Pairwise (fun a b => compare a b = .lt)

namespace SortedSet

variable {α : Type} [Ordered α]

instance : Membership α (SortedSet α) := ⟨fun s a => a ∈ s.toList⟩

theorem mem_toList {a : α} {s : SortedSet α} : a ∈ s.toList ↔ a ∈ s := Iff.rfl

instance [DecidableEq α] (a : α) (s : SortedSet α) : Decidable (a ∈ s) :=
  inferInstanceAs (Decidable (a ∈ s.toList))

theorem toList_injective {s t : SortedSet α} (h : s.toList = t.toList) : s = t := by
  cases s; cases t; cases h; rfl

/-- Sets with the same elements are equal. -/
theorem ext {s t : SortedSet α} (same : ∀ a, a ∈ s ↔ a ∈ t) : s = t :=
  toList_injective (eq_of_pairwise_of_mem_iff s.sorted t.sorted same)

instance [DecidableEq α] : DecidableEq (SortedSet α) := fun s t =>
  decidable_of_iff (s.toList = t.toList) ⟨toList_injective, congrArg toList⟩

/-- Sets are ordered as their lists of elements. -/
instance : Ord (SortedSet α) := ⟨compareOn toList⟩

instance : Std.TransOrd (SortedSet α) :=
  inferInstanceAs (Std.TransCmp (compareOn (toList (α := α))))

instance : Std.LawfulEqOrd (SortedSet α) where
  compare_self := Std.ReflCmp.compare_self
  eq_of_compare h := toList_injective (Std.LawfulEqCmp.eq_of_compare h)

instance : Ordered (SortedSet α) := {}

/-- The set with no elements. -/
def empty : SortedSet α := ⟨[], .nil⟩

instance : EmptyCollection (SortedSet α) := ⟨empty⟩

instance : Inhabited (SortedSet α) := ⟨empty⟩

@[simp] theorem not_mem_empty (a : α) : ¬ a ∈ (∅ : SortedSet α) := List.not_mem_nil

/-- Adds one element. -/
def insert (a : α) (s : SortedSet α) : SortedSet α :=
  ⟨insertSorted a s.toList, pairwise_insertSorted s.sorted⟩

@[simp] theorem mem_insert {a x : α} {s : SortedSet α} : x ∈ s.insert a ↔ x = a ∨ x ∈ s :=
  mem_insertSorted

/-- Adds every element of a list. -/
def insertAll (s : SortedSet α) (l : List α) : SortedSet α := l.foldl (fun s a => s.insert a) s

@[simp] theorem mem_insertAll {x : α} {s : SortedSet α} {l : List α} :
    x ∈ s.insertAll l ↔ x ∈ l ∨ x ∈ s := by
  induction l generalizing s with
  | nil => simp [insertAll]
  | cons a l ih =>
    have step : s.insertAll (a :: l) = (s.insert a).insertAll l := rfl
    rw [step, ih, mem_insert, List.mem_cons]
    constructor
    · rintro (h | h | h) <;> simp [h]
    · rintro ((h | h) | h) <;> simp [h]

/-- The set of the elements of a list. -/
def ofList (l : List α) : SortedSet α := empty.insertAll l

@[simp] theorem mem_ofList {x : α} {l : List α} : x ∈ ofList l ↔ x ∈ l := by
  have nothing : ¬ x ∈ (empty : SortedSet α) := List.not_mem_nil
  simp [ofList, nothing]

/-- The elements of either set. -/
def union (s t : SortedSet α) : SortedSet α := s.insertAll t.toList

instance : Union (SortedSet α) := ⟨union⟩

@[simp] theorem mem_union {x : α} {s t : SortedSet α} : x ∈ s ∪ t ↔ x ∈ s ∨ x ∈ t := by
  have h : x ∈ s.insertAll t.toList ↔ x ∈ t.toList ∨ x ∈ s := mem_insertAll
  exact h.trans or_comm

@[simp] theorem empty_union (s : SortedSet α) : ∅ ∪ s = s := ext fun x => by simp

@[simp] theorem union_empty (s : SortedSet α) : s ∪ ∅ = s := rfl

theorem union_assoc (s t u : SortedSet α) : s ∪ t ∪ u = s ∪ (t ∪ u) :=
  ext fun x => by simp only [mem_union, or_assoc]

/-- The elements that pass a test. -/
def filter (p : α → Bool) (s : SortedSet α) : SortedSet α :=
  ⟨s.toList.filter p, s.sorted.filter p⟩

@[simp] theorem mem_filter {x : α} {p : α → Bool} {s : SortedSet α} :
    x ∈ s.filter p ↔ x ∈ s ∧ p x = true :=
  List.mem_filter

/-- How many elements there are. -/
def size (s : SortedSet α) : Nat := s.toList.length

/-- Whether there is no element. -/
def isEmpty (s : SortedSet α) : Bool := s.toList.isEmpty

end SortedSet

/-! ### Maps -/

section Entries

variable {κ β : Type} [Ordered κ]

/-- The place of an entry in a list with strictly increasing keys; an entry
with the same key gives way. -/
def insertEntry (key : κ) (value : β) : List (κ × β) → List (κ × β)
  | [] => [(key, value)]
  | entry :: rest =>
    match compare key entry.1 with
    | .lt => (key, value) :: entry :: rest
    | .eq => (key, value) :: rest
    | .gt => entry :: insertEntry key value rest

theorem key_of_mem_insertEntry {key : κ} {value : β} {l : List (κ × β)} {entry : κ × β}
    (h : entry ∈ insertEntry key value l) : entry = (key, value) ∨ entry ∈ l := by
  induction l with
  | nil => simpa [insertEntry] using h
  | cons first rest ih =>
    simp only [insertEntry] at h
    split at h
    · simpa using h
    · rcases List.mem_cons.mp h with h | h <;> simp [h]
    · rcases List.mem_cons.mp h with h | h
      · simp [h]
      · rcases ih h with h | h <;> simp [h]

theorem pairwise_insertEntry {key : κ} {value : β} {l : List (κ × β)}
    (sorted : l.Pairwise (fun a b => compare a.1 b.1 = .lt)) :
    (insertEntry key value l).Pairwise (fun a b => compare a.1 b.1 = .lt) := by
  induction l with
  | nil => simp [insertEntry]
  | cons first rest ih =>
    obtain ⟨above, tail⟩ := List.pairwise_cons.mp sorted
    simp only [insertEntry]
    split
    · rename_i h
      refine List.pairwise_cons.mpr ⟨fun entry member => ?_, sorted⟩
      rcases List.mem_cons.mp member with rfl | member
      · exact h
      · exact Std.TransCmp.lt_trans h (above entry member)
    · rename_i h
      have same : key = first.1 := Std.LawfulEqCmp.eq_of_compare h
      exact List.pairwise_cons.mpr ⟨fun entry member => same ▸ above entry member, tail⟩
    · rename_i h
      refine List.pairwise_cons.mpr ⟨fun entry member => ?_, ih tail⟩
      rcases key_of_mem_insertEntry member with rfl | member
      · exact Std.OrientedCmp.gt_iff_lt.mp h
      · exact above entry member

end Entries

/-- A finite map, listed by strictly increasing keys. -/
structure SortedMap (κ β : Type) [Ordered κ] where
  entries : List (κ × β)
  sorted : entries.Pairwise (fun a b => compare a.1 b.1 = .lt)

namespace SortedMap

variable {κ β : Type} [Ordered κ]

/-- The map with no entries. -/
def empty : SortedMap κ β := ⟨[], .nil⟩

instance : EmptyCollection (SortedMap κ β) := ⟨empty⟩

instance : Inhabited (SortedMap κ β) := ⟨empty⟩

/-- The value at a key. -/
def get? [DecidableEq κ] (m : SortedMap κ β) (key : κ) : Option β :=
  (m.entries.find? fun entry => entry.1 = key).map Prod.snd

/-- Gives a key a value, in place of any it had. -/
def insert (m : SortedMap κ β) (key : κ) (value : β) : SortedMap κ β :=
  ⟨insertEntry key value m.entries, pairwise_insertEntry m.sorted⟩

/-- Enters every pair of a list, the later ones over the earlier. -/
def insertAll (m : SortedMap κ β) (entries : List (κ × β)) : SortedMap κ β :=
  entries.foldl (fun m entry => m.insert entry.1 entry.2) m

/-- The map of the pairs of a list, the later ones over the earlier. -/
def ofList (entries : List (κ × β)) : SortedMap κ β := empty.insertAll entries

/-- The entries that pass a test. -/
def filter (p : κ → β → Bool) (m : SortedMap κ β) : SortedMap κ β :=
  ⟨m.entries.filter fun entry => p entry.1 entry.2, m.sorted.filter _⟩

/-- The keys, in increasing order. -/
def keys (m : SortedMap κ β) : List κ := m.entries.map Prod.fst

/-- How many entries there are. -/
def size (m : SortedMap κ β) : Nat := m.entries.length

@[simp] theorem get?_empty [DecidableEq κ] (key : κ) :
    (∅ : SortedMap κ β).get? key = none := rfl

theorem get?_insert [DecidableEq κ] (m : SortedMap κ β) (key probe : κ) (value : β) :
    (m.insert key value).get? probe = if key = probe then some value else m.get? probe := by
  obtain ⟨l, sorted⟩ := m
  simp only [insert, get?]
  clear sorted
  induction l with
  | nil => by_cases h : key = probe <;> simp [insertEntry, h]
  | cons first rest ih =>
    simp only [insertEntry]
    split
    · by_cases h : key = probe <;> simp [h]
    · rename_i h
      have same : key = first.1 := Std.LawfulEqCmp.eq_of_compare h
      subst same
      by_cases h : first.1 = probe <;> simp [h]
    · rename_i order
      by_cases h : first.1 = probe
      · have distinct : ¬ key = probe := by
          rintro rfl
          rw [h, Std.compare_self] at order
          cases order
        simp [h, distinct]
      · simpa [List.find?_cons, h] using ih

/-- A value is at a key exactly when the entry of both is listed. -/
theorem mem_entries [DecidableEq κ] {m : SortedMap κ β} {key : κ} {value : β} :
    (key, value) ∈ m.entries ↔ m.get? key = some value := by
  obtain ⟨l, sorted⟩ := m
  simp only [get?]
  induction l with
  | nil => simp
  | cons first rest ih =>
    obtain ⟨above, tail⟩ := List.pairwise_cons.mp sorted
    by_cases here : first.1 = key
    · rw [List.find?_cons_of_pos (by simpa using here), Option.map_some, Option.some.injEq,
        List.mem_cons]
      constructor
      · rintro (rfl | member)
        · rfl
        · have before := above _ member
          rw [here] at before
          exact absurd before (compare_self_ne_lt key)
      · rintro rfl
        exact .inl (Prod.ext here.symm rfl)
    · rw [List.find?_cons_of_neg (by simpa using here), List.mem_cons, ← ih tail]
      constructor
      · rintro (rfl | member)
        · exact absurd rfl here
        · exact member
      · exact .inr

theorem get?_insertAll [DecidableEq κ] {m : SortedMap κ β} {l : List (κ × β)}
    (nodup : (l.map Prod.fst).Nodup) {key : κ} {value : β} :
    (m.insertAll l).get? key = some value ↔
      (key, value) ∈ l ∨ (key ∉ l.map Prod.fst ∧ m.get? key = some value) := by
  induction l generalizing m with
  | nil => simp [insertAll]
  | cons first rest ih =>
    have unfolded : m.insertAll (first :: rest) = (m.insert first.1 first.2).insertAll rest := rfl
    rw [List.map_cons, List.nodup_cons] at nodup
    rw [unfolded, ih nodup.2, get?_insert, List.map_cons, List.mem_cons, List.mem_cons]
    by_cases here : first.1 = key
    · subst here
      have once : ¬ (first.1, value) ∈ rest := fun member =>
        nodup.1 (List.mem_map.mpr ⟨_, member, rfl⟩)
      rw [if_pos rfl, Option.some.injEq]
      constructor
      · rintro (member | ⟨_, same⟩)
        · exact absurd member once
        · exact .inl (.inl (Prod.ext rfl same.symm))
      · rintro ((same | member) | ⟨new, _⟩)
        · exact .inr ⟨nodup.1, (congrArg Prod.snd same).symm⟩
        · exact absurd member once
        · exact absurd (.inl rfl) new
    · have other : ¬ (key, value) = first := fun same => here (congrArg Prod.fst same).symm
      have fresh : ¬ key = first.1 := fun same => here same.symm
      simp only [if_neg here, other, fresh, false_or]

/-- The entries of a list without repeated keys are those of its map. -/
theorem get?_ofList [DecidableEq κ] {l : List (κ × β)} (nodup : (l.map Prod.fst).Nodup) {key : κ}
    {value : β} : (ofList l).get? key = some value ↔ (key, value) ∈ l := by
  have nothing : (empty : SortedMap κ β).get? key = none := rfl
  simp [ofList, get?_insertAll nodup, nothing]

theorem get?_filter [DecidableEq κ] {m : SortedMap κ β} {p : κ → β → Bool} {key : κ} {value : β} :
    (m.filter p).get? key = some value ↔ m.get? key = some value ∧ p key value = true := by
  rw [← mem_entries, ← mem_entries]
  exact List.mem_filter

end SortedMap

end ShiftReduce
