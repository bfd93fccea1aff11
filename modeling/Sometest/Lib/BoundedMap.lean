import Mathlib.Data.List.AList

/-! Finite maps that hold a bounded number of keys and never replace a value.
No program is named here. -/

structure BoundedMap (κ ν : Type*) [DecidableEq κ] (limit : Nat) where
  table : AList fun _ : κ => ν
  bounded : table.entries.length ≤ limit

namespace BoundedMap
variable {κ ν : Type*} [DecidableEq κ] {limit : Nat}

def empty : BoundedMap κ ν limit := ⟨∅, Nat.zero_le _⟩

def lookup (m : BoundedMap κ ν limit) (k : κ) : Option ν := m.table.lookup k

def count (m : BoundedMap κ ν limit) : Nat := m.table.entries.length

/-- Inserts a new key into a map that is not full. The result is `false`, and
the map as before, when the key is there or the map is full. -/
def insert (m : BoundedMap κ ν limit) (k : κ) (v : ν) : BoundedMap κ ν limit × Bool :=
  if new : k ∉ m.table ∧ m.count < limit then
    (⟨m.table.insert k v, by
      rw [AList.entries_insert_of_notMem new.1]
      exact new.2⟩, true)
  else (m, false)

@[simp] theorem lookup_empty (k : κ) : (empty : BoundedMap κ ν limit).lookup k = none :=
  AList.lookup_empty k

variable {m : BoundedMap κ ν limit} {k k' : κ} {v : ν}

theorem mem_iff : k ∈ m.table ↔ ∃ v, m.lookup k = some v := by
  rw [← AList.lookup_isSome, Option.isSome_iff_exists]
  rfl

theorem insert_full (full : ¬ m.count < limit) : m.insert k v = (m, false) := by
  rw [insert, dif_neg fun new => full new.2]

theorem insert_present (present : m.lookup k = some v') : m.insert k v = (m, false) := by
  rw [insert, dif_neg fun new => new.1 (mem_iff.mpr ⟨v', present⟩)]

section Accepted
variable (absent : m.lookup k = none) (room : m.count < limit)
include absent room

theorem insert_new : k ∉ m.table ∧ m.count < limit := by
  refine ⟨fun member => ?_, room⟩
  obtain ⟨v', present⟩ := mem_iff.mp member
  exact absurd (absent.symm.trans present) (by simp)

theorem insert_accepted : (m.insert k v).2 = true := by
  rw [insert, dif_pos (insert_new absent room)]

theorem count_insert : (m.insert k v).1.count = m.count + 1 := by
  have new := insert_new absent room
  rw [insert, dif_pos new, count, AList.entries_insert_of_notMem new.1]
  rfl

theorem lookup_insert : (m.insert k v).1.lookup k = some v := by
  rw [insert, dif_pos (insert_new absent room)]
  exact AList.lookup_insert m.table

theorem lookup_insert_ne (ne : k' ≠ k) : (m.insert k v).1.lookup k' = m.lookup k' := by
  rw [insert, dif_pos (insert_new absent room)]
  exact AList.lookup_insert_ne ne

end Accepted

/-- An insert adds no other key. -/
theorem lookup_insert_some (present : (m.insert k v).1.lookup k' = some v') :
    k' = k ∨ m.lookup k' = some v' := by
  by_cases new : k ∉ m.table ∧ m.count < limit
  · have absent : m.lookup k = none := AList.lookup_eq_none.mpr new.1
    by_cases same : k' = k
    · exact .inl same
    · exact .inr (lookup_insert_ne absent new.2 same ▸ present)
  · rw [insert, dif_neg new] at present
    exact .inr present

end BoundedMap
