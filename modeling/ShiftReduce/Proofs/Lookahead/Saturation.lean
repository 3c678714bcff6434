/-
  Repeated passes settle: why the budget of a saturation is never used up.

  A pass over families of sets raises their size: it makes nothing smaller, and
  what it does not make larger it leaves as it was (`Raises`). Raising changes
  compose, so a pass that leaves a family as it was leaves it so at every one
  of its steps (`Raises.fixed_of_foldl`), and a pass that does change it adds at
  least one to a size that is bounded. So the loop that repeats a pass until it
  changes nothing (`Settles`) ends, with the value that a saturation finds
  (`settles_saturate`).
-/
import ShiftReduce.Lookahead.Saturation
import ShiftReduce.Ordered
import Mathlib.Algebra.GroupWithZero.Nat
import Mathlib.Data.List.Perm.Subperm

namespace ShiftReduce

/-! ### Sizes of sets -/

namespace SortedSet

variable {α : Type} [Ordered α]

theorem nodup_toList (s : SortedSet α) : s.toList.Nodup := by
  refine s.sorted.imp fun {a b} before same => ?_
  subst same
  exact compare_self_ne_lt a before

theorem size_le_length {s : SortedSet α} {l : List α} (subset : ∀ a ∈ s, a ∈ l) :
    s.size ≤ l.length :=
  (s.nodup_toList.subperm subset).length_le

theorem eq_of_subset_of_size_le {s t : SortedSet α} (subset : ∀ a ∈ s, a ∈ t)
    (small : t.size ≤ s.size) : t = s := by
  have included : s.toList ⊆ t.toList := subset
  have perm := (s.nodup_toList.subperm included).perm_of_length_le small
  exact SortedSet.ext fun a => (perm.mem_iff (a := a)).symm

end SortedSet

/-! ### Raising changes -/

/-- A change raises a size if it never lessens it and leaves alone what it
does not make larger. -/
def Raises {α : Type} (size : α → Nat) (change : α → α) : Prop :=
  ∀ a, size a ≤ size (change a) ∧ (size (change a) ≤ size a → change a = a)

namespace Raises

variable {α β : Type} {size : α → Nat}

theorem comp {f h : α → α} (raisesF : Raises size f) (raisesH : Raises size h) :
    Raises size (fun a => h (f a)) := by
  intro a
  obtain ⟨grows, still⟩ := raisesF a
  obtain ⟨grows', still'⟩ := raisesH (f a)
  refine ⟨Nat.le_trans grows grows', fun small => ?_⟩
  show h (f a) = a
  rw [still' (Nat.le_trans small grows), still (Nat.le_trans grows' small)]

/-- Two changes that together change nothing do nothing each. -/
theorem fixed_of_comp {f h : α → α} (raisesF : Raises size f) (raisesH : Raises size h) {a : α}
    (fixed : h (f a) = a) : f a = a ∧ h a = a := by
  have small : size (f a) ≤ size a := by
    have grows := (raisesH (f a)).1
    rwa [fixed] at grows
  have still : f a = a := (raisesF a).2 small
  exact ⟨still, by rw [still] at fixed; exact fixed⟩

theorem foldl {f : α → β → α} {l : List β} (raises : ∀ b ∈ l, Raises size (f · b)) :
    Raises size (fun a => l.foldl f a) := by
  induction l with
  | nil => exact fun a => ⟨Nat.le_refl _, fun _ => rfl⟩
  | cons b l ih =>
    exact (raises b List.mem_cons_self).comp
      (ih fun c member => raises c (List.mem_cons_of_mem _ member))

/-- Where a whole pass changes nothing, no step of it does. -/
theorem fixed_of_foldl {f : α → β → α} {l : List β} (raises : ∀ b ∈ l, Raises size (f · b))
    {a : α} (fixed : l.foldl f a = a) : ∀ b ∈ l, f a b = a := by
  induction l with
  | nil => exact fun b member => absurd member List.not_mem_nil
  | cons b l ih =>
    have rest : ∀ c ∈ l, Raises size (f · c) := fun c member =>
      raises c (List.mem_cons_of_mem _ member)
    obtain ⟨first, others⟩ :=
      (raises b List.mem_cons_self).fixed_of_comp (foldl rest) (a := a) fixed
    intro c member
    rcases List.mem_cons.mp member with rfl | h
    · exact first
    · exact ih rest others c h

theorem union {α : Type} [Ordered α] (t : SortedSet α) : Raises SortedSet.size (· ∪ t) := by
  intro s
  have subset : ∀ a ∈ s, a ∈ s ∪ t := fun a member => SortedSet.mem_union.mpr (.inl member)
  exact ⟨SortedSet.size_le_length subset, fun small => SortedSet.eq_of_subset_of_size_le subset small⟩

end Raises

/-! ### Families -/

namespace Family

variable {κ β : Type}

/-- The size of a family: that of all its values together. -/
def weight (size : β → Nat) (family : Family κ β) : Nat :=
  (family.entries.map fun entry => size entry.2).sum

theorem weight_le {size : β → Nat} {family : Family κ β} {bound : Nat}
    (small : ∀ entry ∈ family.entries, size entry.2 ≤ bound) :
    family.weight size ≤ family.keys.length * bound := by
  obtain ⟨entries⟩ := family
  simp only [weight, keys, List.length_map] at small ⊢
  induction entries with
  | nil => exact Nat.zero_le _
  | cons entry rest ih =>
    have first := small entry List.mem_cons_self
    have others := ih fun other member => small other (List.mem_cons_of_mem _ member)
    rw [List.map_cons, List.sum_cons, List.length_cons, Nat.add_mul, Nat.one_mul]
    omega

variable [DecidableEq κ]

theorem get?_mem {family : Family κ β} {key : κ} {value : β}
    (found : family.get? key = some value) : (key, value) ∈ family.entries := by
  obtain ⟨entry, h, rfl⟩ := Option.map_eq_some_iff.mp found
  obtain rfl : entry.1 = key := by simpa using List.find?_some h
  exact List.mem_of_find?_eq_some h

theorem exists_get? {family : Family κ β} {key : κ} (member : key ∈ family.keys) :
    ∃ value, family.get? key = some value := by
  obtain ⟨entry, inside, same⟩ := List.mem_map.mp member
  have found : (family.entries.find? fun entry => entry.1 = key).isSome := by
    rw [List.find?_isSome]
    exact ⟨entry, inside, by simpa using same⟩
  obtain ⟨first, h⟩ := Option.isSome_iff_exists.mp found
  exact ⟨first.2, by rw [get?, h, Option.map_some]⟩

theorem mem_modify {family : Family κ β} {key : κ} {change : β → β} {entry : κ × β}
    (member : entry ∈ (family.modify key change).entries) :
    entry ∈ family.entries ∨ ∃ value, (key, value) ∈ family.entries ∧ entry = (key, change value) := by
  obtain ⟨old, inside, same⟩ := List.mem_map.mp member
  split at same
  · rename_i here
    obtain ⟨key', value⟩ := old
    obtain rfl : key' = key := here
    exact .inr ⟨value, inside, same.symm⟩
  · exact .inl (same ▸ inside)

theorem raises_modify {size : β → Nat} (key : κ) {change : β → β} (raises : Raises size change) :
    Raises (weight size) (fun family : Family κ β => family.modify key change) := by
  rintro ⟨entries⟩
  simp only [weight, modify, List.map_map, mk.injEq]
  induction entries with
  | nil => exact ⟨Nat.le_refl _, fun _ => rfl⟩
  | cons entry rest ih =>
    obtain ⟨grows, still⟩ := ih
    obtain ⟨grows', still'⟩ := raises entry.2
    simp only [List.map_cons, List.sum_cons, Function.comp_apply] at grows still ⊢
    by_cases here : entry.1 = key
    · simp only [if_pos here]
      refine ⟨by omega, fun small => ?_⟩
      rw [still (by omega), still' (by omega)]
    · simp only [if_neg here]
      refine ⟨by omega, fun small => ?_⟩
      rw [still (by omega)]

section Map

variable {γ : Type} (f : β → γ)

omit [DecidableEq κ] in
theorem map_const (keys : List κ) (value : β) :
    (const keys value).map f = const keys (f value) := by
  rw [map, const, List.map_map]
  rfl

omit [DecidableEq κ] in
theorem map_map {δ : Type} (h : γ → δ) (family : Family κ β) :
    (family.map f).map h = family.map (h ∘ f) := by
  simp only [map, List.map_map]
  rfl

theorem get?_map (family : Family κ β) (key : κ) :
    (family.map f).get? key = (family.get? key).map f := by
  rw [get?, map, List.find?_map, Option.map_map, get?, Option.map_map]
  rfl

variable {f}

omit [DecidableEq κ] in
theorem map_injective (injective : Function.Injective f) :
    Function.Injective (map (κ := κ) f) := by
  rintro ⟨entries⟩ ⟨entries'⟩ same
  rw [map, map, mk.injEq] at same
  refine congrArg mk (List.map_injective_iff.mpr ?_ same)
  rintro ⟨key, value⟩ ⟨key', value'⟩ same
  obtain ⟨sameKey, sameValue⟩ := Prod.mk.inj same
  exact Prod.ext sameKey (injective sameValue)

/-- Changing a value and then all of them is changing all of them first, if the
changes agree. -/
theorem modify_map {family : Family κ β} {key : κ} {change : β → β} {change' : γ → γ}
    (agree : ∀ value, change' (f value) = f (change value)) :
    (family.map f).modify key change' = (family.modify key change).map f := by
  simp only [modify, map, List.map_map]
  refine congrArg mk (List.map_congr_left fun entry _ => ?_)
  simp only [Function.comp_apply]
  split
  · rw [agree]
  · rfl

end Map

/-- A modification that changes nothing leaves the value as it is. -/
theorem eq_of_modify_eq {family : Family κ β} {key : κ} {change : β → β} {value : β}
    (fixed : family.modify key change = family) (found : family.get? key = some value) :
    change value = value := by
  have h := family.get?_modify key key change
  rw [fixed, if_pos rfl, found, Option.map_some] at h
  exact (Option.some.inj h).symm

end Family

/-! ### Saturation -/

section Saturate

variable {α : Type} [DecidableEq α] {pass : α → α}

/-- What every pass keeps holds of the value that is reached. -/
theorem saturate_induction {P : α → Prop} (keeps : ∀ a, P a → P (pass a)) {budget : Nat} {a : α}
    (start : P a) : P (saturate pass budget a).1 := by
  induction budget generalizing a with
  | zero => exact start
  | succ budget ih =>
    simp only [saturate]
    split
    · exact start
    · exact ih (keeps a start)

/-- `Settles pass a passes b` says that repeating the pass from `a` until it
changes nothing ends at `b`, after so many passes, the idle one included. -/
inductive Settles (pass : α → α) : α → Nat → α → Prop
  | idle {a : α} (fixed : pass a = a) : Settles pass a 1 a
  | again {a b : α} {passes : Nat} (changed : pass a ≠ a) (rest : Settles pass (pass a) passes b) :
      Settles pass a (passes + 1) b

omit [DecidableEq α] in
theorem Settles.fixed {a b : α} {passes : Nat} (settles : Settles pass a passes b) :
    pass b = b := by
  induction settles with
  | idle fixed => exact fixed
  | again _ _ ih => exact ih

section View

variable {β : Type} {pass' : β → β} {view : α → β}

omit [DecidableEq α] in
/-- A pass settles as it does in another view of the values. -/
theorem Settles.of_view (injective : Function.Injective view)
    (agree : ∀ a, pass' (view a) = view (pass a)) {a b : α} {passes : Nat}
    (settles : Settles pass a passes b) : Settles pass' (view a) passes (view b) := by
  induction settles with
  | idle fixed => exact .idle ((agree _).trans (congrArg view fixed))
  | again changed _ ih =>
    refine .again (fun same => changed (injective ((agree _).symm.trans same))) ?_
    rw [agree]
    exact ih

/-- So do the passes that are made on a budget. -/
theorem saturate_view [DecidableEq β] (injective : Function.Injective view)
    (agree : ∀ a, pass' (view a) = view (pass a)) (budget : Nat) (a : α) :
    saturate pass' budget (view a) =
      (view (saturate pass budget a).1, (saturate pass budget a).2) := by
  induction budget generalizing a with
  | zero => rfl
  | succ budget ih =>
    simp only [saturate, agree, injective.eq_iff, ih]
    split <;> rfl

end View

/-- A pass that raises a bounded size settles within the bound. -/
theorem settles_saturate {size : α → Nat} {P : α → Prop} {n : Nat} (raises : Raises size pass)
    (keeps : ∀ a, P a → P (pass a)) (bounded : ∀ a, P a → size a ≤ n) {budget : Nat} {a : α}
    (start : P a) (enough : n < budget + size a) :
    Settles pass a (saturate pass budget a).2 (saturate pass budget a).1 := by
  induction budget generalizing a with
  | zero =>
    have := bounded a start
    omega
  | succ budget ih =>
    simp only [saturate]
    split
    · rename_i fixed
      exact .idle fixed
    · rename_i changed
      obtain ⟨grows, still⟩ := raises a
      have larger : size a < size (pass a) := by
        by_contra h
        exact changed (still (by omega))
      exact .again changed (ih (keeps a start) (by omega))

end Saturate

end ShiftReduce
