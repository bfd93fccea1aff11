import Mathlib.Logic.Function.Iterate
import Sometest.Lib.Fifo
import Sometest.Lib.Run
import Sometest.Net.CSyncBuffer

/-! The send buffer against a queue of bytes, over every sequence of calls, with an
unbounded `int`; and what the 32-bit `int` and the single doubling make of `write`. -/
namespace Sometest.Net.CSyncBuffer

inductive Op where
  | write (src : List Byte)
  | remove (len : Nat)
  | resize (size : Int)
  | restoration
  | clear

/-- No outcome after a copy outside the allocation. -/
def perform (int : Int → Int) (b : CSyncBuffer) : Op → Option CSyncBuffer
  | .write src => (b.write int src).toOption.map Prod.fst
  | .remove len => some (b.remove len).1
  | .resize size => (b.resize size).toOption
  | .restoration => b.restoration.toOption
  | .clear => b.clear.toOption

/-- A write is no longer than the buffer. -/
def Permits (b : CSyncBuffer) : Op → Prop
  | .write src => src.length ≤ b.buffer.size
  | _ => True

def specified (q : Fifo Byte) : Op → Fifo Byte
  | .write src => q.write src
  | .remove len => q.remove len
  | .clear => .empty
  | _ => q

/-- The unread bytes are the bytes of the queue. -/
structure Holds (b : CSyncBuffer) (q : Fifo Byte) : Prop where
  wellFormed : b.WellFormed
  large : pointerSize ≤ b.buffer.size
  content : b.content = q.content

theorem holds_init {size : Nat} (large : pointerSize ≤ size) : Holds (.init size) .empty where
  wellFormed := wellFormed_init size
  large := large
  content := content_init size

section Fifo
variable {int : Int → Int} {b b' : CSyncBuffer} {q : Fifo Byte}

theorem resize_size (wf : b.WellFormed) (size : Int) {b' : CSyncBuffer}
    (resized : b.resize size = .ok b') : b.buffer.size ≤ b'.buffer.size := by
  obtain ⟨grown, same, -, -, -, either⟩ := resize_content wf size
  cases same.symm.trans resized
  split at either
  · omega
  · rw [either]

theorem Holds.remove (holds : Holds b q) (len : Nat) : Holds (b.remove len).1 (q.remove len) := by
  have used := b.content_length
  rw [holds.content] at used
  by_cases enough : len ≤ b.getUsedSize
  · obtain ⟨removed, wf, content⟩ := remove_content holds.wellFormed enough
    rw [removed]
    refine ⟨wf, holds.large, ?_⟩
    rw [Fifo.content_remove (used ▸ enough), content, holds.content]
  · rw [CSyncBuffer.remove, if_neg enough, Fifo.remove_short (by omega)]
    exact holds

theorem Holds.perform (holds : Holds b q) {op : Op} (performed : b.perform int op = some b') :
    Holds b' (specified q op) := by
  have wf := holds.wellFormed
  cases op with
  | write src =>
    cases written : b.write int src with
    | error fault =>
      rw [CSyncBuffer.perform, written] at performed
      cases performed
    | ok out =>
      rw [CSyncBuffer.perform, written] at performed
      cases performed
      obtain ⟨wf', content, -, larger⟩ := write_content wf written
      refine ⟨wf', Nat.le_trans holds.large larger, ?_⟩
      rw [specified, Fifo.content_write, content, holds.content]
  | remove len =>
    cases performed
    exact holds.remove len
  | resize size =>
    obtain ⟨grown, resized, wf', content, -, -⟩ := resize_content wf size
    rw [CSyncBuffer.perform, resized] at performed
    cases performed
    exact ⟨wf', Nat.le_trans holds.large (resize_size wf size resized), content.trans holds.content⟩
  | restoration =>
    obtain ⟨moved, restored, wf', content, -, size, -⟩ := restoration_content wf
    rw [CSyncBuffer.perform, restored] at performed
    cases performed
    exact ⟨wf', by rw [size]; exact holds.large, content.trans holds.content⟩
  | clear =>
    obtain ⟨cleared, done, wf', content, size⟩ := clear_content holds.large
    rw [CSyncBuffer.perform, done] at performed
    cases performed
    exact ⟨wf', by rw [size]; exact holds.large, content⟩

theorem perform_total (wf : b.WellFormed) (large : pointerSize ≤ b.buffer.size) {op : Op}
    (permitted : b.Permits op) : ∃ b', b.perform id op = some b' := by
  cases op with
  | write src =>
    have order := wf.order
    have inside := wf.inside
    have short : src.length ≤ b.buffer.size := permitted
    have enough : ∃ b', b.room id src.length = .ok b' ∧ src.length ≤ b'.getFreeSize := by
      apply (room_iff wf).mpr
      right
      simp only [id, getUsedSize, pointerSize] at large ⊢
      constructor
      · omega
      · omega
    obtain ⟨out, written⟩ := write_stored wf enough
    exact ⟨out.1, by rw [perform, written]; rfl⟩
  | remove len => exact ⟨_, rfl⟩
  | resize size =>
    obtain ⟨grown, resized, -⟩ := resize_content wf size
    exact ⟨grown, by rw [perform, resized]; rfl⟩
  | restoration =>
    obtain ⟨moved, restored, -⟩ := restoration_content wf
    exact ⟨moved, by rw [perform, restored]; rfl⟩
  | clear =>
    obtain ⟨cleared, done, -⟩ := clear_content large
    exact ⟨cleared, by rw [perform, done]; rfl⟩

/-- After every sequence of calls the unread bytes are those written since the last
`clear` and not yet removed, in order; `remove` takes all it is asked for or nothing,
`resize` and `restoration` change no byte, and no permitted call copies outside the
allocation. -/
theorem growable_fifo (size : Nat) (large : pointerSize ≤ size) (ops : List Op) (b : CSyncBuffer)
    (reached : Runs.run (perform id) (.init size) ops = some b) :
    let queue := ops.foldl specified .empty
    b.content = queue.content ∧ b.rptr ≤ b.wptr ∧ b.wptr ≤ b.buffer.size ∧
    (∀ len, (b.remove len).2 = (if len ≤ queue.content.length then len else 0) ∧
      (b.remove len).1.content = (queue.remove len).content) ∧
    (∀ n, ∃ b', b.resize n = .ok b' ∧ b'.content = b.content) ∧
    (∃ b', b.restoration = .ok b' ∧ b'.content = b.content) ∧
    (∀ op, b.Permits op → ∃ b', b.perform id op = some b') := by
  intro queue
  have simulated : ∀ b q op b', Holds b q → b.perform id op = some b' →
      Holds b' (specified q op) := fun b q op b' holds performed => holds.perform performed
  have holds : Holds b queue := Runs.simulates simulated (holds_init large) reached
  have wf := holds.wellFormed
  refine ⟨holds.content, wf.order, wf.inside, ?_, ?_, ?_, ?_⟩
  · intro len
    refine ⟨?_, (holds.remove len).content⟩
    rw [← holds.content, content_length, remove]
    split <;> rfl
  · intro n
    obtain ⟨b', resized, -, content, -⟩ := resize_content wf n
    exact ⟨b', resized, content⟩
  · obtain ⟨b', restored, -, content, -⟩ := restoration_content wf
    exact ⟨b', restored, content⟩
  · intro op permitted
    exact perform_total wf holds.large permitted

/-- Bytes are removed, compacted, carried over by a growth and cleared. -/
theorem growable_fifo_grown :
    ∃ b, Runs.run (perform id) (.init 8) [.write [1, 2, 3, 4, 5], .remove 2, .write [6, 7, 8, 9, 10],
        .restoration, .remove 4] = some b ∧ b.buffer.size = 16 ∧ b.content = [7, 8, 9, 10] ∧
      (b.remove 5).2 = 0 := by
  have ran : (Runs.run (perform id) (.init 8) [.write [1, 2, 3, 4, 5], .remove 2,
      .write [6, 7, 8, 9, 10], .restoration, .remove 4]).map (·.buffer.size) = some 16 := by decide
  obtain ⟨b, reached, size⟩ := Option.map_eq_some_iff.mp ran
  obtain ⟨content, -, -, removes, -⟩ := growable_fifo 8 (by decide) _ b reached
  exact ⟨b, reached, size, content, (removes 5).1⟩

end Fifo

/-- What a 32-bit `int` makes of a value. -/
def wrap32 (n : Int) : Int := n.bmod 4294967296

/-- The lengths and sizes that are passed are values of `int`. -/
def Op.Int32 : Op → Prop
  | .write src => src.length < 2147483648
  | .remove len => len < 2147483648
  | .resize size => -2147483648 ≤ size ∧ size < 2147483648
  | _ => True

instance : (op : Op) → Decidable op.Int32
  | .write src => inferInstanceAs (Decidable (src.length < 2147483648))
  | .remove len => inferInstanceAs (Decidable (len < 2147483648))
  | .resize size => inferInstanceAs (Decidable (-2147483648 ≤ size ∧ size < 2147483648))
  | .restoration => isTrue trivial
  | .clear => isTrue trivial

def perform32 (b : CSyncBuffer) (op : Op) : Option CSyncBuffer :=
  if op.Int32 then b.perform wrap32 op else none

theorem wrap32_lt (n : Int) : wrap32 n < 2147483648 := by
  rw [wrap32, Int.bmod]
  split <;> omega

/-- Doubling a size overflows from 2 to the 30th on. -/
theorem lt_wrap32_double {size : Nat} (small : size < 2147483648) :
    (size : Int) < wrap32 (size * 2) ↔ 0 < size ∧ size < 1073741824 := by
  rw [wrap32, Int.bmod]
  split
  · omega
  · omega

theorem wrap32_double {size : Nat} (small : size < 1073741824) :
    wrap32 (size * 2) = (2 * size : Nat) := by
  rw [wrap32, Int.bmod]
  split
  · omega
  · omega

section Overflow
variable {b b' : CSyncBuffer}

/-- Every size the code can give a buffer is an `int`. -/
structure Sized (b : CSyncBuffer) : Prop where
  wellFormed : b.WellFormed
  small : b.buffer.size < 2147483648

theorem Sized.resize (sized : Sized b) {size : Int} (small : size < 2147483648)
    (resized : b.resize size = .ok b') : Sized b' := by
  obtain ⟨grown, same, wf, -, -, either⟩ := resize_content sized.wellFormed size
  cases same.symm.trans resized
  refine ⟨wf, ?_⟩
  split at either
  · omega
  · rw [either]
    exact sized.small

theorem Sized.write (sized : Sized b) {src : List Byte} {out : CSyncBuffer × Nat}
    (written : b.write wrap32 src = .ok out) : Sized out.1 := by
  refine ⟨(write_content sized.wellFormed written).1, ?_⟩
  rw [write_room] at written
  obtain ⟨b', made, written⟩ := bind_eq_ok.mp written
  obtain ⟨buffer, copied, same⟩ := bind_eq_ok.mp written
  cases same
  obtain ⟨-, rfl⟩ := copyIn_eq_ok.mp copied
  show b'.buffer.size < 2147483648
  rw [room] at made
  split at made
  · cases made
    exact sized.small
  · exact (sized.resize (wrap32_lt _) made).small

theorem Sized.perform (sized : Sized b) {op : Op} (performed : b.perform32 op = some b') :
    Sized b' := by
  rw [perform32] at performed
  split at performed
  · rename_i ints
    cases op with
    | write src =>
      cases written : b.write wrap32 src with
      | error fault =>
        rw [CSyncBuffer.perform, written] at performed
        cases performed
      | ok out =>
        rw [CSyncBuffer.perform, written] at performed
        cases performed
        exact sized.write written
    | remove len =>
      cases performed
      by_cases enough : len ≤ b.getUsedSize
      · obtain ⟨removed, wf, -⟩ := remove_content sized.wellFormed enough
        rw [removed]
        exact ⟨wf, sized.small⟩
      · rw [remove, if_neg enough]
        exact sized
    | resize size =>
      cases resized : b.resize size with
      | error fault =>
        rw [CSyncBuffer.perform, resized] at performed
        cases performed
      | ok grown =>
        rw [CSyncBuffer.perform, resized] at performed
        cases performed
        exact sized.resize ints.2 resized
    | restoration =>
      obtain ⟨moved, restored, wf', -, -, size, -⟩ := restoration_content sized.wellFormed
      rw [CSyncBuffer.perform, restored] at performed
      cases performed
      exact ⟨wf', by rw [size]; exact sized.small⟩
    | clear =>
      cases cleared : b.clear with
      | error fault =>
        rw [CSyncBuffer.perform, cleared] at performed
        cases performed
      | ok empty =>
        rw [CSyncBuffer.perform, cleared] at performed
        cases performed
        obtain ⟨buffer, copied, same⟩ := bind_eq_ok.mp cleared
        cases same
        obtain ⟨-, rfl⟩ := copyIn_eq_ok.mp copied
        exact ⟨⟨Nat.le_refl 0, Nat.zero_le _⟩, sized.small⟩
  · cases performed

/-- In every reachable buffer `write` has room for `len` bytes at its `memcpy` exactly
when they fit behind the unread bytes, or when doubling the size does not overflow
and the doubled size holds the unread bytes and the new ones. -/
theorem write_room_iff (size : Nat) (small : size < 2147483648) (ops : List Op) (b : CSyncBuffer)
    (reached : Runs.run perform32 (.init size) ops = some b) (len : Nat) :
    (∃ b', b.room wrap32 len = .ok b' ∧ len ≤ b'.getFreeSize) ↔
      len ≤ b.getFreeSize ∨
        (2 * b.buffer.size < 2147483648 ∧ b.getUsedSize + len ≤ 2 * b.buffer.size) := by
  have always : Runs.Throughout perform32 Sized (.init size) ops :=
    Runs.invariant (fun b op b' sized performed => sized.perform performed)
      ⟨wellFormed_init size, small⟩ ops
  have sized := always.last reached
  have order := sized.wellFormed.order
  have inside := sized.wellFormed.inside
  rw [room_iff sized.wellFormed, lt_wrap32_double sized.small]
  by_cases fits : len ≤ b.getFreeSize
  · simp only [fits, true_or]
  · simp only [fits, false_or]
    simp only [getFreeSize] at fits
    constructor
    · rintro ⟨⟨-, below⟩, enough⟩
      rw [wrap32_double below] at enough
      exact ⟨by omega, by omega⟩
    · rintro ⟨below, enough⟩
      rw [wrap32_double (by omega)]
      simp only [getUsedSize] at enough
      exact ⟨⟨by omega, by omega⟩, by simp only [getUsedSize]; omega⟩

/-- After a partial removal, one growth makes room for a packet of twice the size. -/
theorem write_room_iff_grows :
    ∃ b, Runs.run perform32 (.init 16) [.write [1, 2, 3, 4, 5, 6, 7, 8, 9, 10], .remove 4] = some b ∧
      ∃ b', b.room wrap32 26 = .ok b' ∧ 26 ≤ b'.getFreeSize := by
  have ran : (Runs.run perform32 (.init 16) [.write [1, 2, 3, 4, 5, 6, 7, 8, 9, 10], .remove 4]).map
      (fun b => (b.buffer.size, b.getUsedSize)) = some (16, 6) := by decide
  obtain ⟨b, reached, sizes⟩ := Option.map_eq_some_iff.mp ran
  obtain ⟨size, used⟩ := Prod.mk.inj sizes
  refine ⟨b, reached, (write_room_iff 16 (by decide) _ b reached 26).mpr (.inr ?_)⟩
  omega

/-- A run of the buffer created with `start` bytes has filled it to its last byte. -/
structure Filled (start : Nat) (b : CSyncBuffer) (size : Nat) : Prop where
  reached : ∃ ops, Runs.run perform32 (.init start) ops = some b
  wellFormed : b.WellFormed
  rptr : b.rptr = 0
  wptr : b.wptr = size
  size : b.buffer.size = size

theorem run_write {start : Nat} {src : List Byte} {out : CSyncBuffer × Nat}
    (reached : ∃ ops, Runs.run perform32 (.init start) ops = some b)
    (small : src.length < 2147483648) (written : b.write wrap32 src = .ok out) :
    ∃ ops, Runs.run perform32 (.init start) ops = some out.1 := by
  obtain ⟨ops, reached⟩ := reached
  have ints : (Op.write src).Int32 := small
  refine ⟨ops ++ [.write src], ?_⟩
  rw [Runs.run_append, reached, Option.bind_some, Runs.run_cons, perform32, if_pos ints, perform,
    written]
  rfl

theorem filled_start {start : Nat} (small : start < 2147483648) : ∃ b, Filled start b start := by
  have wf := wellFormed_init start
  have length : (List.replicate start (0 : Byte)).length = start := List.length_replicate
  have fits : (List.replicate start (0 : Byte)).length ≤ (init start).getFreeSize :=
    Nat.le_of_eq length
  have written := @write_fits _ wf wrap32 _ fits
  refine ⟨_, run_write ⟨[], rfl⟩ (by omega) written, (write_content wf written).1, rfl, ?_, rfl⟩
  show 0 + (List.replicate start (0 : Byte)).length = start
  omega

/-- A filled buffer doubles and is filled again. -/
theorem Filled.double {start size : Nat} (filled : Filled start b size) (positive : 0 < size)
    (small : size < 1073741824) : ∃ b', Filled start b' (2 * size) := by
  have length : (List.replicate size (0 : Byte)).length = size := List.length_replicate
  have used : b.getUsedSize = size := by
    rw [getUsedSize, filled.wptr, filled.rptr, Nat.sub_zero]
  have full : ¬ (List.replicate size (0 : Byte)).length ≤ b.getFreeSize := by
    rw [getFreeSize, filled.wptr, filled.size]
    omega
  have doubled : wrap32 (b.buffer.size * 2) = (2 * size : Nat) := by
    rw [filled.size]
    exact wrap32_double small
  have enough : ∃ b', b.room wrap32 (List.replicate size (0 : Byte)).length = .ok b' ∧
      (List.replicate size (0 : Byte)).length ≤ b'.getFreeSize := by
    apply (room_iff filled.wellFormed).mpr
    rw [doubled, filled.size, used, length]
    exact .inr ⟨by omega, by omega⟩
  obtain ⟨out, written⟩ := write_stored filled.wellFormed enough
  obtain ⟨wf, content, -, -⟩ := write_content filled.wellFormed written
  obtain ⟨-, rptr, size'⟩ := write_grows filled.wellFormed full written
  refine ⟨out.1, run_write filled.reached (by omega) written, wf, rptr, ?_, ?_⟩
  · have unread := congrArg List.length content
    rw [List.length_append, content_length, content_length, used, length, getUsedSize, rptr] at unread
    omega
  · rw [size', doubled, Int.toNat_natCast]

/-- A packet of more than twice the size overruns a new send buffer. A reader that
never drains it brings it to 2 to the 30th bytes, and there 24 bytes more overrun it. -/
theorem write_overruns :
    (¬ ∃ b', (init 4096).room wrap32 8193 = .ok b' ∧ 8193 ≤ b'.getFreeSize) ∧
    (∃ ops b, Runs.run perform32 (.init 4096) ops = some b ∧
      ¬ ∃ b', b.room wrap32 24 = .ok b' ∧ 24 ≤ b'.getFreeSize) := by
  constructor
  · rw [room_iff (wellFormed_init 4096)]
    decide
  · have grown : ∀ k ≤ 18, ∃ b, Filled 4096 b (Nat.iterate (2 * ·) k 4096) := by
      intro k
      induction k with
      | zero => exact fun _ => filled_start (by decide)
      | succ k ih =>
        intro below
        obtain ⟨b, filled⟩ := ih (by omega)
        rw [Function.iterate_succ_apply']
        have bounds : ∀ k < 18, 0 < Nat.iterate (2 * ·) k 4096 ∧
            Nat.iterate (2 * ·) k 4096 < 1073741824 := by decide
        obtain ⟨positive, small⟩ := bounds k (by omega)
        exact filled.double positive small
    obtain ⟨b, filled⟩ := grown 18 (Nat.le_refl 18)
    have last : Nat.iterate (2 * ·) 18 4096 = 1073741824 := by decide
    rw [last] at filled
    obtain ⟨ops, reached⟩ := filled.reached
    refine ⟨ops, b, reached, ?_⟩
    rw [room_iff filled.wellFormed, getFreeSize, filled.wptr, filled.size,
      lt_wrap32_double (by decide)]
    omega

end Overflow
end Sometest.Net.CSyncBuffer
