import Mathlib.Data.List.Basic

/-! Bounded memory blocks over an arbitrary cell type. A load or a store that
leaves the block is refused, so a program that never sees a refusal never
touches memory outside its allocation. -/
namespace Memory

structure Block (α : Type*) where
  size : Nat
  cell : Nat → α

namespace Block
variable {α : Type*} (b : Block α)

/-- The cells `off, …, off + len - 1`, whether or not they lie in the block. -/
def view (off len : Nat) : List α := (List.range len).map fun i => b.cell (off + i)

def put (off : Nat) (src : List α) : Block α where
  size := b.size
  cell i := if h : off ≤ i ∧ i - off < src.length then src.get ⟨i - off, h.2⟩ else b.cell i

def load? (off len : Nat) : Option (List α) :=
  if off + len ≤ b.size then some (b.view off len) else none

def store? (off : Nat) (src : List α) : Option (Block α) :=
  if off + src.length ≤ b.size then some (b.put off src) else none

@[simp] theorem view_length (off len : Nat) : (b.view off len).length = len := by simp [view]

@[simp] theorem view_zero (off : Nat) : b.view off 0 = [] := rfl

@[simp] theorem put_size (off : Nat) (src : List α) : (b.put off src).size = b.size := rfl

theorem view_getElem (off len i : Nat) (bound : i < (b.view off len).length) :
    (b.view off len)[i] = b.cell (off + i) := by simp [view]

theorem view_add (off m n : Nat) : b.view off (m + n) = b.view off m ++ b.view (off + m) n := by
  simp only [view, List.range_add, List.map_append, List.map_map, Function.comp_def, Nat.add_assoc]

theorem view_take (off len n : Nat) : (b.view off len).take n = b.view off (min n len) := by
  simp only [view, ← List.map_take, List.take_range]

theorem view_drop (off len n : Nat) : (b.view off len).drop n = b.view (off + n) (len - n) := by
  apply List.ext_getElem
  · simp
  · intro i _ _
    simp only [List.getElem_drop, view_getElem, Nat.add_assoc]

/-- A view depends on the cells it covers only. -/
theorem view_congr {b c : Block α} {off len : Nat}
    (same : ∀ i, off ≤ i → i < off + len → b.cell i = c.cell i) : b.view off len = c.view off len := by
  apply List.map_congr_left
  intro i member
  exact same _ (Nat.le_add_right off i) (Nat.add_lt_add_left (List.mem_range.mp member) off)

theorem view_put_same (off : Nat) (src : List α) : (b.put off src).view off src.length = src := by
  apply List.ext_getElem
  · simp
  · intro i _ bound
    simp [view_getElem, put, bound]

theorem view_put_disjoint {off : Nat} {src : List α} {start len : Nat}
    (apart : start + len ≤ off ∨ off + src.length ≤ start) :
    (b.put off src).view start len = b.view start len := by
  apply view_congr
  intro i low high
  have outside : ¬ (off ≤ i ∧ i - off < src.length) := by omega
  simp only [put, dif_neg outside]

/-- Storing right after a view extends it. -/
theorem view_put_after (off len : Nat) (src : List α) :
    (b.put (off + len) src).view off (len + src.length) = b.view off len ++ src := by
  rw [view_add, view_put_disjoint _ (.inl (Nat.le_refl _)), view_put_same]

theorem load?_eq_some {off len : Nat} {out : List α} :
    b.load? off len = some out ↔ off + len ≤ b.size ∧ out = b.view off len := by
  simp [load?, eq_comm]

theorem store?_eq_some {off : Nat} {src : List α} {c : Block α} :
    b.store? off src = some c ↔ off + src.length ≤ b.size ∧ c = b.put off src := by
  simp [store?, eq_comm]

end Block
end Memory
