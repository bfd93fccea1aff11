import Sometest.Net.CircularBuffer

/-! The send buffer of CSyncBuffer.h and CSyncBuffer.cpp, the same file in both
ports. `size_` is the length of the allocation, `alloc` tells one allocation from
the next, and pointers are offsets from `buffer_`. A call is one step, as its lock
makes it; that `write` takes the lock again in `resize` is the subject of `Locks`. -/
namespace Sometest.Net
open Memory (Block)

structure CSyncBuffer where
  buffer : Block Byte
  alloc : Nat
  rptr : Nat
  wptr : Nat

namespace CSyncBuffer

def init (size : Nat) : CSyncBuffer := ⟨⟨size, fun _ => 0⟩, 0, 0, 0⟩

def getFreeSize (b : CSyncBuffer) : Nat := b.buffer.size - b.wptr

def getUsedSize (b : CSyncBuffer) : Nat := b.wptr - b.rptr

def resize (b : CSyncBuffer) (size : Int) : Except Fault CSyncBuffer :=
  if (b.buffer.size : Int) < size then do
    let kept ← copyOut b.buffer b.rptr b.getUsedSize
    let newBuffer ← copyIn ⟨size.toNat, fun _ => 0⟩ 0 kept
    .ok ⟨newBuffer, b.alloc + 1, 0, b.getUsedSize⟩
  else .ok b

/-- `int` is what the arithmetic of the C++ `int` makes of a value: the identity
when it is taken as unbounded. The result is the length. -/
def write (int : Int → Int) (b : CSyncBuffer) (src : List Byte) : Except Fault (CSyncBuffer × Nat) :=
  if src.length ≤ b.getFreeSize then do
    let buffer ← copyIn b.buffer b.wptr src
    .ok ({ b with buffer, wptr := b.wptr + src.length }, src.length)
  else do
    let b ← b.resize (int (b.buffer.size * 2))
    let buffer ← copyIn b.buffer b.wptr src
    .ok ({ b with buffer, wptr := b.wptr + src.length }, src.length)

def remove (b : CSyncBuffer) (len : Nat) : CSyncBuffer × Nat :=
  if len ≤ b.getUsedSize then ({ b with rptr := b.rptr + len }, len) else (b, 0)

def restoration (b : CSyncBuffer) : Except Fault CSyncBuffer := do
  let kept ← copyOut b.buffer b.rptr b.getUsedSize
  let buffer ← copyIn b.buffer 0 kept
  .ok { b with buffer, rptr := 0, wptr := b.getUsedSize }

/-- `sizeof(buffer_)`, the size of a pointer. -/
def pointerSize : Nat := 8

/-- Only the first bytes are set to zero. -/
def clear (b : CSyncBuffer) : Except Fault CSyncBuffer := do
  let buffer ← copyIn b.buffer 0 (List.replicate pointerSize 0)
  .ok { b with buffer, rptr := 0, wptr := 0 }

structure WellFormed (b : CSyncBuffer) : Prop where
  order : b.rptr ≤ b.wptr
  inside : b.wptr ≤ b.buffer.size

/-- The unread bytes. -/
def content (b : CSyncBuffer) : List Byte := b.buffer.view b.rptr b.getUsedSize

theorem wellFormed_init (size : Nat) : (init size).WellFormed := ⟨Nat.le_refl _, Nat.zero_le _⟩

@[simp] theorem content_init (size : Nat) : (init size).content = [] := rfl

@[simp] theorem content_length (b : CSyncBuffer) : b.content.length = b.getUsedSize := by
  simp only [content, Block.view_length]

section Operations
variable {b : CSyncBuffer} (wf : b.WellFormed)
include wf

/-- The end of `write`: the bytes are copied behind the unread ones. -/
theorem copyIn_content {src : List Byte} {buffer : Block Byte}
    (copied : copyIn b.buffer b.wptr src = .ok buffer) :
    let b' : CSyncBuffer := { b with buffer, wptr := b.wptr + src.length }
    b'.WellFormed ∧ b'.content = b.content ++ src ∧ buffer = b.buffer.put b.wptr src := by
  have order := wf.order
  obtain ⟨inside, rfl⟩ := copyIn_eq_ok.mp copied
  refine ⟨⟨Nat.le_add_right_of_le order, inside⟩, ?_, rfl⟩
  have start : b.wptr = b.rptr + (b.wptr - b.rptr) := by omega
  have length : b.wptr + src.length - b.rptr = b.wptr - b.rptr + src.length := by omega
  simp only [content, getUsedSize, length]
  conv_lhs => rw [start]
  simp only [Nat.add_sub_cancel_left]
  exact Block.view_put_after ..

theorem resize_content (size : Int) : ∃ b', b.resize size = .ok b' ∧ b'.WellFormed ∧
    b'.content = b.content ∧ b'.getUsedSize = b.getUsedSize ∧
    if (b.buffer.size : Int) < size then
      b'.buffer.size = size.toNat ∧ b'.alloc = b.alloc + 1 ∧ b'.wptr = b.getUsedSize
    else b' = b := by
  have order := wf.order
  have inside := wf.inside
  rw [resize]
  split
  · rename_i larger
    have used : b.rptr + b.getUsedSize ≤ b.buffer.size := by
      simp only [getUsedSize]
      omega
    have fits : 0 + b.content.length ≤ size.toNat := by
      simp only [content_length, getUsedSize]
      omega
    have loaded : copyOut b.buffer b.rptr b.getUsedSize = .ok b.content := copyOut_ok used
    rw [loaded, ok_bind, copyIn_ok fits, ok_bind]
    refine ⟨_, rfl, ⟨Nat.zero_le _, ?_⟩, ?_, Nat.sub_zero _, rfl, rfl, rfl⟩
    · simpa using fits
    · have same := Block.view_put_same (⟨size.toNat, fun _ => 0⟩ : Block Byte) 0 b.content
      rw [content_length] at same
      exact same
  · exact ⟨b, rfl, wf, rfl, rfl, rfl⟩

/-- Every write that has an outcome appends its bytes. -/
theorem write_content {int : Int → Int} {src : List Byte} {out : CSyncBuffer × Nat}
    (written : b.write int src = .ok out) :
    out.1.WellFormed ∧ out.1.content = b.content ++ src ∧ out.2 = src.length ∧
      b.buffer.size ≤ out.1.buffer.size := by
  rw [write] at written
  split at written
  · obtain ⟨buffer, copied, same⟩ := bind_eq_ok.mp written
    cases same
    obtain ⟨wf', content, rfl⟩ := copyIn_content wf copied
    exact ⟨wf', content, rfl, Nat.le_refl _⟩
  · obtain ⟨grown, resized, wf', same, -, size⟩ := resize_content wf (int (b.buffer.size * 2))
    have larger : b.buffer.size ≤ grown.buffer.size := by
      split at size
      · rw [size.1]
        omega
      · exact Nat.le_of_eq (by rw [size])
    rw [resized, ok_bind] at written
    obtain ⟨buffer, copied, out⟩ := bind_eq_ok.mp written
    cases out
    obtain ⟨wf'', content, rfl⟩ := copyIn_content wf' copied
    exact ⟨wf'', content.trans (by rw [same]), rfl, larger⟩

/-- A source that fits behind the unread bytes is stored in place. -/
theorem write_fits {int : Int → Int} {src : List Byte} (fits : src.length ≤ b.getFreeSize) :
    b.write int src = .ok
      ({ b with buffer := b.buffer.put b.wptr src, wptr := b.wptr + src.length }, src.length) := by
  have inside := wf.inside
  rw [write, if_pos fits, copyIn_ok (by simp only [getFreeSize] at fits; omega), ok_bind]

/-- A source that does not fit goes into a new allocation. -/
theorem write_grows {int : Int → Int} {src : List Byte} {out : CSyncBuffer × Nat}
    (full : ¬ src.length ≤ b.getFreeSize) (written : b.write int src = .ok out) :
    out.1.alloc = b.alloc + 1 ∧ out.1.rptr = 0 ∧
      out.1.buffer.size = (int (b.buffer.size * 2)).toNat := by
  have inside := wf.inside
  rw [write, if_neg full] at written
  rw [resize] at written
  split at written
  · obtain ⟨grown, resized, written⟩ := bind_eq_ok.mp written
    obtain ⟨kept, -, resized⟩ := bind_eq_ok.mp resized
    obtain ⟨newBuffer, moved, same⟩ := bind_eq_ok.mp resized
    cases same
    obtain ⟨buffer, copied, same⟩ := bind_eq_ok.mp written
    cases same
    obtain ⟨-, rfl⟩ := copyIn_eq_ok.mp moved
    obtain ⟨-, rfl⟩ := copyIn_eq_ok.mp copied
    exact ⟨rfl, rfl, rfl⟩
  · rw [ok_bind] at written
    obtain ⟨buffer, copied, -⟩ := bind_eq_ok.mp written
    have room := (copyIn_eq_ok.mp copied).1
    simp only [getFreeSize] at full
    omega

theorem write_rptr {int : Int → Int} {src : List Byte} {out : CSyncBuffer × Nat}
    (start : b.rptr = 0) (written : b.write int src = .ok out) : out.1.rptr = 0 := by
  by_cases fits : src.length ≤ b.getFreeSize
  · rw [write_fits wf fits] at written
    cases written
    exact start
  · exact (write_grows wf fits written).2.1

/-- The buffer into which `write` copies `len` bytes. -/
def room (int : Int → Int) (b : CSyncBuffer) (len : Nat) : Except Fault CSyncBuffer :=
  if len ≤ b.getFreeSize then .ok b else b.resize (int (b.buffer.size * 2))

omit wf in
theorem write_room (int : Int → Int) (b : CSyncBuffer) (src : List Byte) :
    b.write int src = (do
      let b ← b.room int src.length
      let buffer ← copyIn b.buffer b.wptr src
      .ok ({ b with buffer, wptr := b.wptr + src.length }, src.length)) := by
  rw [write, room]
  split <;> rfl

/-- The one growth of `write` makes enough room exactly when the doubled size is
larger than the size and holds the unread bytes and the new ones. -/
theorem room_iff {int : Int → Int} {len : Nat} :
    (∃ b', b.room int len = .ok b' ∧ len ≤ b'.getFreeSize) ↔
      len ≤ b.getFreeSize ∨ ((b.buffer.size : Int) < int (b.buffer.size * 2) ∧
        (b.getUsedSize + len : Int) ≤ int (b.buffer.size * 2)) := by
  rw [room]
  by_cases fits : len ≤ b.getFreeSize
  · rw [if_pos fits]
    exact ⟨fun _ => .inl fits, fun _ => ⟨b, rfl, fits⟩⟩
  · obtain ⟨grown, resized, -, -, -, size⟩ := resize_content wf (int (b.buffer.size * 2))
    rw [if_neg fits, resized]
    constructor
    · rintro ⟨b', same, enough⟩
      cases same
      split at size
      · rename_i larger
        obtain ⟨size, -, wptr⟩ := size
        rw [getFreeSize, size, wptr] at enough
        exact .inr ⟨larger, by omega⟩
      · rw [size] at enough
        exact absurd enough fits
    · intro either
      obtain ⟨larger, enough⟩ := either.resolve_left fits
      rw [if_pos larger] at size
      refine ⟨grown, rfl, ?_⟩
      rw [getFreeSize, size.1, size.2.2]
      omega

/-- With enough room the source is stored. -/
theorem write_stored {int : Int → Int} {src : List Byte}
    (enough : ∃ b', b.room int src.length = .ok b' ∧ src.length ≤ b'.getFreeSize) :
    ∃ out, b.write int src = .ok out := by
  obtain ⟨b', made, enough⟩ := enough
  have inside : b'.wptr ≤ b'.buffer.size := by
    rw [room] at made
    split at made
    · cases made
      exact wf.inside
    · obtain ⟨grown, resized, wf', -⟩ := resize_content wf (int (b.buffer.size * 2))
      cases resized.symm.trans made
      exact wf'.inside
  simp only [getFreeSize] at enough
  rw [write_room, made, ok_bind, copyIn_ok (by omega), ok_bind]
  exact ⟨_, rfl⟩

/-- Where `int` is exact up to twice the bytes to be held, one doubling makes enough
room for a source that is no longer than the buffer. -/
theorem write_total {int : Int → Int} {limit : Nat} (exact : ∀ n : Nat, n < limit → int n = n)
    (start : b.rptr = 0) {src : List Byte} (short : src.length ≤ b.buffer.size)
    (room : 2 * (b.getUsedSize + src.length) ≤ limit) : ∃ out, b.write int src = .ok out := by
  have order := wf.order
  have inside := wf.inside
  apply write_stored wf
  apply (room_iff wf).mpr
  by_cases fits : src.length ≤ b.getFreeSize
  · exact .inl fits
  · simp only [getFreeSize, getUsedSize] at fits room
    have double : int (b.buffer.size * 2) = (b.buffer.size * 2 : Nat) := by
      rw [← exact (b.buffer.size * 2) (by omega)]
      push_cast
      rfl
    rw [double]
    simp only [getUsedSize]
    exact .inr ⟨by omega, by omega⟩

theorem remove_content {len : Nat} (used : len ≤ b.getUsedSize) :
    b.remove len = ({ b with rptr := b.rptr + len }, len) ∧
      CSyncBuffer.WellFormed { b with rptr := b.rptr + len } ∧
      CSyncBuffer.content { b with rptr := b.rptr + len } = b.content.drop len := by
  have order := wf.order
  refine ⟨by rw [remove, if_pos used], ⟨?_, wf.inside⟩, ?_⟩
  · simp only [getUsedSize] at used ⊢
    omega
  · simp only [content, getUsedSize, Block.view_drop, Nat.sub_sub]

theorem restoration_content : ∃ b', b.restoration = .ok b' ∧ b'.WellFormed ∧
    b'.content = b.content ∧ b'.alloc = b.alloc ∧ b'.buffer.size = b.buffer.size ∧ b'.rptr = 0 := by
  have order := wf.order
  have inside := wf.inside
  have used : b.rptr + b.getUsedSize ≤ b.buffer.size := by
    simp only [getUsedSize]
    omega
  have fits : 0 + b.content.length ≤ b.buffer.size := by
    simp only [content_length]
    omega
  have loaded : copyOut b.buffer b.rptr b.getUsedSize = .ok b.content := copyOut_ok used
  rw [restoration, loaded, ok_bind, copyIn_ok fits, ok_bind]
  refine ⟨_, rfl, ⟨Nat.zero_le _, by simpa using fits⟩, ?_, rfl, rfl, rfl⟩
  have same := Block.view_put_same b.buffer 0 b.content
  rw [content_length] at same
  exact same

omit wf in
theorem clear_content (large : pointerSize ≤ b.buffer.size) : ∃ b', b.clear = .ok b' ∧
    b'.WellFormed ∧ b'.content = [] ∧ b'.buffer.size = b.buffer.size := by
  have fits : 0 + (List.replicate pointerSize (0 : Byte)).length ≤ b.buffer.size := by
    rw [List.length_replicate, Nat.zero_add]
    exact large
  rw [clear, copyIn_ok fits, ok_bind]
  exact ⟨_, rfl, ⟨Nat.le_refl 0, Nat.zero_le _⟩, rfl, rfl⟩

end Operations
end CSyncBuffer
end Sometest.Net
