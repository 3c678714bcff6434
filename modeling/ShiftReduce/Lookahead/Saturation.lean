/-
  Families of values by key, and the repetition of a pass until it changes
  nothing.

  The sets that decide a parser's reductions are least fixed points: a pass
  over the rules enlarges them, and passes are repeated until one leaves them
  as they were.
-/

namespace ShiftReduce

/-- One value for each of finitely many keys, in a fixed order of the keys. -/
structure Family (κ β : Type) where
  entries : List (κ × β)
deriving DecidableEq

namespace Family

variable {κ β : Type}

/-- The family that has the same value at every key of a list. -/
def const (keys : List κ) (value : β) : Family κ β := ⟨keys.map fun key => (key, value)⟩

/-- The value at a key. -/
def get? [DecidableEq κ] (family : Family κ β) (key : κ) : Option β :=
  (family.entries.find? fun entry => entry.1 = key).map Prod.snd

/-- The family that has another value at each key. -/
def map {γ : Type} (change : β → γ) (family : Family κ β) : Family κ γ :=
  ⟨family.entries.map fun entry => (entry.1, change entry.2)⟩

/-- Changes the value at a key and leaves the others. -/
def modify [DecidableEq κ] (family : Family κ β) (key : κ) (change : β → β) : Family κ β :=
  ⟨family.entries.map fun entry => if entry.1 = key then (entry.1, change entry.2) else entry⟩

@[simp] theorem get?_modify [DecidableEq κ] (family : Family κ β) (key probe : κ)
    (change : β → β) :
    (family.modify key change).get? probe =
      if key = probe then (family.get? probe).map change else family.get? probe := by
  obtain ⟨entries⟩ := family
  simp only [modify, get?]
  induction entries with
  | nil => simp
  | cons first rest ih =>
    rw [List.map_cons]
    by_cases found : first.1 = probe
    · by_cases changed : first.1 = key
      · simp [changed, show key = probe from changed ▸ found]
      · have distinct : key ≠ probe := fun same => changed (found.trans same.symm)
        rw [if_neg changed, if_neg distinct, List.find?_cons_of_pos (by simp [found]),
          List.find?_cons_of_pos (by simp [found])]
    · have passed : (if first.1 = key then (first.1, change first.2) else first).1 ≠ probe := by
        split <;> exact found
      rw [List.find?_cons_of_neg (by simpa using passed),
        List.find?_cons_of_neg (by simpa using found)]
      exact ih

/-- The keys, in their order. -/
def keys (family : Family κ β) : List κ := family.entries.map Prod.fst

@[simp] theorem keys_const (keys : List κ) (value : β) : (const keys value).keys = keys := by
  simp only [const, Family.keys, List.map_map]
  exact List.map_id _

@[simp] theorem keys_modify [DecidableEq κ] (family : Family κ β) (key : κ) (change : β → β) :
    (family.modify key change).keys = family.keys := by
  simp only [modify, Family.keys, List.map_map]
  exact List.map_congr_left fun entry _ => by
    by_cases h : entry.1 = key <;> simp [h]

end Family

/-- The value at which repeated passes settle, and the number of passes made,
the last one, which changes nothing, included. At most `budget` passes are
made. -/
def saturate {α : Type} [DecidableEq α] (pass : α → α) : Nat → α → α × Nat
  | 0, value => (value, 0)
  | budget + 1, value =>
    let next := pass value
    if next = value then (value, 1)
    else
      let settled := saturate pass budget next
      (settled.1, settled.2 + 1)

end ShiftReduce
