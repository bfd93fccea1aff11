import Sometest.Lib.Block
import Sometest.Net.Typedef

/-! The receive buffer of CircularBuffer.h and CircularBuffer.cpp. Pointers are
offsets from `_base`. Every `memcpy` is checked against the allocation. -/
namespace Sometest.Net
open Memory (Block)

/-- `memcpy` out of a block. -/
def copyOut (block : Block Byte) (off len : Nat) : Except Fault (List Byte) :=
  match block.load? off len with
  | some bytes => .ok bytes
  | none => .error .outOfBounds

/-- `memcpy` into a block. -/
def copyIn (block : Block Byte) (off : Nat) (src : List Byte) : Except Fault (Block Byte) :=
  match block.store? off src with
  | some block => .ok block
  | none => .error .outOfBounds

theorem copyOut_ok {block : Block Byte} {off len : Nat} (inside : off + len ≤ block.size) :
    copyOut block off len = .ok (block.view off len) := by
  rw [copyOut, block.load?_eq_some.mpr ⟨inside, rfl⟩]

theorem copyIn_ok {block : Block Byte} {off : Nat} {src : List Byte}
    (inside : off + src.length ≤ block.size) : copyIn block off src = .ok (block.put off src) := by
  rw [copyIn, block.store?_eq_some.mpr ⟨inside, rfl⟩]

theorem copyIn_eq_ok {block block' : Block Byte} {off : Nat} {src : List Byte} :
    copyIn block off src = .ok block' ↔
      off + src.length ≤ block.size ∧ block' = block.put off src := by
  rw [copyIn]
  split
  · rename_i stored
    obtain ⟨inside, rfl⟩ := block.store?_eq_some.mp stored
    simp only [Except.ok.injEq, inside, true_and, eq_comm]
  · rename_i refused
    simp only [reduceCtorEq, false_iff]
    rintro ⟨inside, rfl⟩
    cases refused.symm.trans (block.store?_eq_some.mpr ⟨inside, rfl⟩)

structure CircularBuffer where
  base : Block Byte
  a : Nat
  asize : Nat
  b : Option Nat
  bsize : Nat

namespace CircularBuffer

/-- `fresh` is what the new allocation holds. -/
def init (size : Nat) (fresh : Nat → Byte) : CircularBuffer := ⟨⟨size, fresh⟩, 0, 0, none, 0⟩

def getFreeSpaceSize (r : CircularBuffer) : Nat := r.base.size - r.asize - r.bsize

def getUsedSpaceSize (r : CircularBuffer) : Nat := r.asize + r.bsize

def getFreeSpaceSizeAfterA (r : CircularBuffer) : Nat := r.base.size - r.a - r.asize

def write (r : CircularBuffer) (src : List Byte) : Except Fault CircularBuffer :=
  if r.getFreeSpaceSize < src.length then .error .assertion
  else
    match r.b with
    | some b => do
      let base ← copyIn r.base (b + r.bsize) src
      .ok { r with base, bsize := r.bsize + src.length }
    | none =>
      if src.length ≤ r.getFreeSpaceSizeAfterA then do
        let base ← copyIn r.base (r.a + r.asize) src
        .ok { r with base, asize := r.asize + src.length }
      else do
        let inA := r.getFreeSpaceSizeAfterA
        let base ← copyIn r.base (r.a + r.asize) (src.take inA)
        let base ← copyIn base 0 (src.drop inA)
        .ok { r with base, asize := r.asize + inA, b := some 0, bsize := src.length - inA }

def read (r : CircularBuffer) (size : Nat) : Except Fault (List Byte) :=
  if size ≤ r.asize then copyOut r.base r.a size
  else do
    let first ← copyOut r.base r.a r.asize
    match r.b with
    | none => .error .nullPointer
    | some b => do
      let second ← copyOut r.base b (size - r.asize)
      .ok (first ++ second)

/-- The end of `Remove`: an empty region A is replaced by region B. -/
def switch (r : CircularBuffer) : CircularBuffer :=
  if r.asize = 0 then
    match r.b with
    | some b => { r with a := b, asize := r.bsize, b := none, bsize := 0 }
    | none => { r with a := 0, asize := 0 }
  else r

def remove (r : CircularBuffer) (size : Nat) : Except Fault CircularBuffer :=
  if r.getUsedSpaceSize < size then .error .assertion
  else if size ≤ r.asize then .ok { r with a := r.a + size, asize := r.asize - size }.switch
  else .ok { r with
    b := r.b.map (· + (size - r.asize))
    bsize := r.bsize - (size - r.asize)
    asize := 0 }.switch

/-- Region A lies in the allocation. A region B starts at its base, ends before
the live bytes of A, and exists only while A runs to the end. -/
structure WellFormed (r : CircularBuffer) : Prop where
  inside : r.a + r.asize ≤ r.base.size
  empty : r.b = none → r.bsize = 0
  wrapped : ∀ b, r.b = some b → b = 0 ∧ r.a + r.asize = r.base.size ∧ r.bsize ≤ r.a

/-- Region A followed by region B. -/
def content (r : CircularBuffer) : List Byte :=
  r.base.view r.a r.asize ++ match r.b with
    | none => []
    | some b => r.base.view b r.bsize

theorem wellFormed_init (size : Nat) (fresh : Nat → Byte) : (init size fresh).WellFormed where
  inside := Nat.zero_le _
  empty := fun _ => rfl
  wrapped := fun _ nonempty => by cases nonempty

@[simp] theorem content_init (size : Nat) (fresh : Nat → Byte) : (init size fresh).content = [] := rfl

section Operations
variable {r : CircularBuffer} (wf : r.WellFormed)
include wf

theorem content_length : r.content.length = r.getUsedSpaceSize := by
  cases b : r.b with
  | none => simp [content, b, getUsedSpaceSize, wf.empty b]
  | some o => simp [content, b, getUsedSpaceSize]

theorem content_le : r.content.length ≤ r.base.size := by
  rw [content_length wf, getUsedSpaceSize]
  have inside := wf.inside
  cases b : r.b with
  | none =>
    rw [wf.empty b]
    omega
  | some o =>
    have wrapped := wf.wrapped o b
    omega

theorem getFreeSpaceSize_eq : r.getFreeSpaceSize = r.base.size - r.content.length := by
  rw [content_length wf, getFreeSpaceSize, getUsedSpaceSize, Nat.sub_sub]

/-- What every accepted `Write` achieves. -/
def Appended (r r' : CircularBuffer) (src : List Byte) : Prop :=
  r'.WellFormed ∧ r'.content = r.content ++ src ∧ r'.base.size = r.base.size

theorem append_to_b {src : List Byte} {b : Nat} (hb : r.b = some b)
    (fits : src.length ≤ r.getFreeSpaceSize) : ∃ base, copyIn r.base (b + r.bsize) src = .ok base ∧
      Appended r { r with base, bsize := r.bsize + src.length } src := by
  obtain ⟨rfl, full, below⟩ := wf.wrapped b hb
  simp only [getFreeSpaceSize] at fits
  refine ⟨_, copyIn_ok (by omega), ⟨wf.inside, ?_, ?_⟩, ?_, rfl⟩
  · intro missing
    cases hb.symm.trans missing
  · intro o same
    obtain rfl : 0 = o := Option.some.inj (hb.symm.trans same)
    exact ⟨rfl, full, by simp only; omega⟩
  · simp only [content, hb, Block.view_put_after]
    rw [Block.view_put_disjoint _ (.inr (by omega)), List.append_assoc]

theorem append_to_a {src : List Byte} (hb : r.b = none)
    (fits : src.length ≤ r.getFreeSpaceSizeAfterA) :
    ∃ base, copyIn r.base (r.a + r.asize) src = .ok base ∧
      Appended r { r with base, asize := r.asize + src.length } src := by
  have inside := wf.inside
  simp only [getFreeSpaceSizeAfterA] at fits
  refine ⟨_, copyIn_ok (by omega), ⟨?_, wf.empty, ?_⟩, ?_, rfl⟩
  · simp only [Block.put_size]
    omega
  · intro o same
    cases hb.symm.trans same
  · simp only [content, hb, Block.view_put_after, List.append_nil]

/-- The source is split where region A meets the end of the allocation. -/
theorem append_to_both {low high : List Byte} (hb : r.b = none)
    (split : low.length = r.getFreeSpaceSizeAfterA)
    (fits : (low ++ high).length ≤ r.getFreeSpaceSize) :
    ∃ base base', copyIn r.base (r.a + r.asize) low = .ok base ∧ copyIn base 0 high = .ok base' ∧
      Appended r { r with base := base', asize := r.asize + low.length, b := some 0, bsize := high.length }
        (low ++ high) := by
  have inside := wf.inside
  have bsize := wf.empty hb
  simp only [getFreeSpaceSizeAfterA, getFreeSpaceSize, List.length_append] at split fits
  have apart : 0 + high.length ≤ r.a := by omega
  refine ⟨_, _, copyIn_ok (by omega), copyIn_ok (by simp only [Block.put_size]; omega), ⟨?_, ?_, ?_⟩,
    ?_, rfl⟩
  · simp only [Block.put_size]
    omega
  · intro missing
    cases missing
  · intro o same
    cases same
    exact ⟨rfl, by simp only [Block.put_size]; omega, by simp only; omega⟩
  · simp only [content, hb, List.append_nil]
    rw [Block.view_put_disjoint _ (.inr apart), Block.view_put_after, Block.view_put_same,
      List.append_assoc]

theorem write_content {src : List Byte} (fits : src.length ≤ r.getFreeSpaceSize) :
    ∃ r', r.write src = .ok r' ∧ Appended r r' src := by
  rw [write, if_neg (Nat.not_lt.mpr fits)]
  cases hb : r.b with
  | some b =>
    obtain ⟨base, stored, appended⟩ := append_to_b wf hb fits
    simp only [stored]
    rw [hb] at appended
    exact ⟨_, rfl, appended⟩
  | none =>
    by_cases single : src.length ≤ r.getFreeSpaceSizeAfterA
    · obtain ⟨base, stored, appended⟩ := append_to_a wf hb single
      simp only [if_pos single, stored]
      rw [hb] at appended
      exact ⟨_, rfl, appended⟩
    · have taken : (src.take r.getFreeSpaceSizeAfterA).length = r.getFreeSpaceSizeAfterA := by
        simp only [List.length_take]
        omega
      rw [← List.take_append_drop r.getFreeSpaceSizeAfterA src] at fits
      obtain ⟨base, base', first, second, appended⟩ := append_to_both wf hb taken fits
      rw [List.take_append_drop, taken, List.length_drop] at appended
      simp only [if_neg single, first]
      refine ⟨_, ?_, appended⟩
      show (copyIn base 0 _ >>= _) = _
      rw [second]
      rfl

theorem read_content {size : Nat} (used : size ≤ r.getUsedSpaceSize) :
    r.read size = .ok (r.content.take size) := by
  have inside := wf.inside
  simp only [getUsedSpaceSize] at used
  rw [read]
  split
  · rename_i only
    rw [copyOut_ok (by omega), content, List.take_append_of_le_length (by simpa using only),
      Block.view_take, Nat.min_eq_left only]
  · rw [copyOut_ok inside]
    cases hb : r.b with
    | none =>
      have bsize := wf.empty hb
      omega
    | some b =>
      obtain ⟨rfl, full, below⟩ := wf.wrapped b hb
      have second : copyOut r.base 0 (size - r.asize) = .ok (r.base.view 0 (size - r.asize)) :=
        copyOut_ok (by omega)
      simp only [second, content, hb]
      rw [List.take_append, Block.view_length, List.take_of_length_le (by simp; omega),
        Block.view_take, Nat.min_eq_left (by omega)]
      rfl

omit wf in
theorem switch_spec {u : CircularBuffer} (uwf : u.WellFormed) :
    u.switch.WellFormed ∧ u.switch.content = u.content ∧ u.switch.base = u.base := by
  rw [switch]
  split
  · rename_i drained
    cases hb : u.b with
    | none =>
      have bsize := uwf.empty hb
      refine ⟨⟨Nat.zero_le _, fun _ => bsize, ?_⟩, ?_, rfl⟩
      · intro o same
        cases same
      · simp [content, hb, drained]
    | some b =>
      obtain ⟨rfl, full, below⟩ := uwf.wrapped b hb
      refine ⟨⟨?_, fun _ => rfl, ?_⟩, ?_, rfl⟩
      · simp only
        omega
      · intro o same
        cases same
      · simp [content, hb, drained]
  · exact ⟨uwf, rfl, rfl⟩

theorem remove_content {size : Nat} (used : size ≤ r.getUsedSpaceSize) :
    ∃ r', r.remove size = .ok r' ∧ r'.WellFormed ∧ r'.content = r.content.drop size ∧
      r'.base.size = r.base.size := by
  have inside := wf.inside
  rw [remove, if_neg (Nat.not_lt.mpr used)]
  simp only [getUsedSpaceSize] at used
  split
  · rename_i only
    have shorter : CircularBuffer.WellFormed { r with a := r.a + size, asize := r.asize - size } := by
      constructor
      · simp only
        omega
      · exact wf.empty
      · intro o same
        obtain ⟨zero, full, below⟩ := wf.wrapped o same
        exact ⟨zero, by simp only; omega, by simp only; omega⟩
    obtain ⟨next, same, base⟩ := switch_spec shorter
    refine ⟨_, rfl, next, ?_, by rw [base]⟩
    rw [same]
    simp only [content]
    rw [List.drop_append_of_le_length (by simpa using only), Block.view_drop]
  · cases hb : r.b with
    | none =>
      have bsize := wf.empty hb
      omega
    | some b =>
      obtain ⟨rfl, full, below⟩ := wf.wrapped b hb
      refine ⟨⟨r.base, size - r.asize, r.bsize - (size - r.asize), none, 0⟩, ?_, ?_, ?_, rfl⟩
      · simp [switch]
      · constructor
        · simp only
          omega
        · exact fun _ => rfl
        · intro o same
          cases same
      · simp only [content, hb, List.append_nil]
        rw [List.drop_append, Block.view_length, List.drop_of_length_le (by simp; omega),
          Block.view_drop, List.nil_append, Nat.zero_add]

end Operations
end CircularBuffer
end Sometest.Net
