import Sometest.Lib.Fifo
import Sometest.Lib.Run
import Sometest.Net.CircularBuffer

/-! The ring of circleBuffer.h and circleBuffer.cpp, which the connections no longer
use, against a bounded queue. The occupancy is counted modulo `size_`, but the copies
wrap one place earlier, at `tail_`. -/
namespace Sometest.Net
open Memory (Block)

/-- `size_` is the length of the allocation; the pointers are offsets from `buffer_`. -/
structure CircleBuffer where
  buffer : Block Byte
  tail_ : Nat
  begin_ : Nat
  end_ : Nat

namespace CircleBuffer

/-- `DEF_BUFFER_SIZE`. -/
def defBufferSize : Nat := 4096

/-- The pointers that the constructor sets. -/
def start (buffer : Block Byte) : CircleBuffer := ⟨buffer, buffer.size - 1, 0, 0⟩

/-- The constructor clears `DEF_BUFFER_SIZE` bytes, whatever `size` is. `fresh` is what
the new allocation holds. -/
def init (size : Nat) (fresh : Nat → Byte) : Except Fault CircleBuffer := do
  let buffer ← copyIn ⟨size, fresh⟩ 0 (List.replicate defBufferSize 0)
  .ok (start buffer)

def getUsedSize (c : CircleBuffer) : Nat :=
  (c.end_ + c.buffer.size - c.begin_) % c.buffer.size

def getFreeSize (c : CircleBuffer) : Nat := c.buffer.size - c.getUsedSize - 1

/-- The result is the number of bytes that were stored. -/
def write (c : CircleBuffer) (src : List Byte) : Except Fault (CircleBuffer × Nat) :=
  if c.getFreeSize < src.length then .ok (c, 0)
  else
    let len := c.tail_ - c.end_
    if len > src.length then do
      let buffer ← copyIn c.buffer c.end_ src
      .ok ({ c with buffer, end_ := c.end_ + src.length }, src.length)
    else do
      let buffer ← copyIn c.buffer c.end_ (src.take len)
      let buffer ← copyIn buffer 0 (src.drop len)
      .ok ({ c with buffer, end_ := src.length - len }, src.length)

/-- The bytes that are copied to `dest`, as many as the call returns. -/
def read (c : CircleBuffer) (size : Nat) : Except Fault (List Byte) :=
  if c.getUsedSize < size then .ok []
  else
    let len := c.tail_ - c.begin_
    if len < size then do
      let first ← copyOut c.buffer c.begin_ len
      let second ← copyOut c.buffer 0 (size - len)
      .ok (first ++ second)
    else copyOut c.buffer c.begin_ size

def remove (c : CircleBuffer) (size : Nat) : CircleBuffer :=
  if c.getUsedSize < size then c
  else
    let len := c.tail_ - c.begin_
    if len ≤ size then { c with begin_ := size - len }
    else { c with begin_ := c.begin_ + size }

inductive Op where
  | write (src : List Byte)
  | read (size : Nat)
  | remove (size : Nat)

/-- No outcome after a copy outside the allocation. -/
def perform (c : CircleBuffer) : Op → Option CircleBuffer
  | .write src => (c.write src).toOption.map Prod.fst
  | .read size => (c.read size).toOption.map fun _ => c
  | .remove size => some (c.remove size)

/-- The pointers stay before `tail_`, which is the last place of the allocation. -/
structure Inside (c : CircleBuffer) : Prop where
  tail_ : c.tail_ + 1 = c.buffer.size
  begin_ : c.begin_ < c.tail_
  end_ : c.end_ < c.tail_

section Copies
variable {c c' : CircleBuffer}

theorem Inside.getUsedSize (inside : Inside c) : c.getUsedSize =
    if c.begin_ ≤ c.end_ then c.end_ - c.begin_ else c.end_ + c.buffer.size - c.begin_ := by
  obtain ⟨tail, start, stop⟩ := inside
  rw [CircleBuffer.getUsedSize]
  split
  · rename_i order
    have shift : c.end_ + c.buffer.size - c.begin_ = c.end_ - c.begin_ + c.buffer.size := by omega
    rw [shift, Nat.add_mod_right, Nat.mod_eq_of_lt (by omega)]
  · exact Nat.mod_eq_of_lt (by omega)

theorem Inside.write (inside : Inside c) (src : List Byte) :
    ∃ c', c.write src = .ok (c', if src.length ≤ c.getFreeSize then src.length else 0) ∧
      Inside c' := by
  have used := inside.getUsedSize
  obtain ⟨tail, start, stop⟩ := inside
  rw [CircleBuffer.write]
  by_cases full : c.getFreeSize < src.length
  · rw [if_pos full, if_neg (Nat.not_le.mpr full)]
    exact ⟨c, rfl, tail, start, stop⟩
  · rw [if_neg full, if_pos (Nat.not_lt.mp full)]
    simp only [getFreeSize] at full
    by_cases straight : c.tail_ - c.end_ > src.length
    · have fits : c.end_ + src.length ≤ c.buffer.size := by omega
      simp only [if_pos straight, copyIn_ok fits, ok_bind]
      exact ⟨_, rfl, tail, start, by simp only; omega⟩
    · have first : c.end_ + (src.take (c.tail_ - c.end_)).length ≤ c.buffer.size := by
        rw [List.length_take]
        omega
      -- what goes to the front ends before the first unread byte
      have below : src.length - (c.tail_ - c.end_) ≤ c.begin_ := by
        split at used
        · omega
        · omega
      have second : 0 + (src.drop (c.tail_ - c.end_)).length ≤
          (c.buffer.put c.end_ (src.take (c.tail_ - c.end_))).size := by
        rw [Block.put_size, List.length_drop]
        omega
      simp only [if_neg straight, copyIn_ok first, copyIn_ok second, ok_bind]
      exact ⟨_, rfl, tail, start, Nat.lt_of_le_of_lt below start⟩

theorem write_wrapped {src : List Byte} {n : Nat} (fits : src.length ≤ c.getFreeSize)
    (long : c.tail_ ≤ c.end_ + src.length) (written : c.write src = .ok (c', n)) :
    c'.begin_ = c.begin_ ∧ c'.end_ = src.length - (c.tail_ - c.end_) ∧
      c'.buffer.size = c.buffer.size := by
  rw [CircleBuffer.write, if_neg (Nat.not_lt.mpr fits)] at written
  simp only at written
  rw [if_neg (by omega)] at written
  obtain ⟨first, copied, written⟩ := bind_eq_ok.mp written
  obtain ⟨second, copied', written⟩ := bind_eq_ok.mp written
  cases written
  obtain ⟨-, rfl⟩ := copyIn_eq_ok.mp copied
  obtain ⟨-, rfl⟩ := copyIn_eq_ok.mp copied'
  exact ⟨rfl, rfl, rfl⟩

theorem Inside.read (inside : Inside c) (size : Nat) : ∃ dest, c.read size = .ok dest := by
  have used := inside.getUsedSize
  obtain ⟨tail, start, stop⟩ := inside
  rw [CircleBuffer.read]
  by_cases short : c.getUsedSize < size
  · exact ⟨[], by rw [if_pos short]⟩
  · rw [if_neg short]
    by_cases wraps : c.tail_ - c.begin_ < size
    · have first : c.begin_ + (c.tail_ - c.begin_) ≤ c.buffer.size := by omega
      have second : 0 + (size - (c.tail_ - c.begin_)) ≤ c.buffer.size := by
        split at used
        · omega
        · omega
      simp only [if_pos wraps, copyOut_ok first, copyOut_ok second, ok_bind]
      exact ⟨_, rfl⟩
    · have fits : c.begin_ + size ≤ c.buffer.size := by omega
      simp only [if_neg wraps, copyOut_ok fits]
      exact ⟨_, rfl⟩

theorem Inside.remove (inside : Inside c) (size : Nat) : Inside (c.remove size) := by
  have used := inside.getUsedSize
  obtain ⟨tail, start, stop⟩ := inside
  rw [CircleBuffer.remove]
  split
  · exact ⟨tail, start, stop⟩
  · rename_i enough
    simp only
    split
    · refine ⟨tail, ?_, stop⟩
      simp only
      split at used
      · omega
      · omega
    · refine ⟨tail, ?_, stop⟩
      simp only
      omega

theorem Inside.perform (inside : Inside c) (op : Op) : ∃ c', c.perform op = some c' ∧ Inside c' := by
  cases op with
  | write src =>
    obtain ⟨c', written, next⟩ := inside.write src
    exact ⟨c', by rw [CircleBuffer.perform, written]; rfl, next⟩
  | read size =>
    obtain ⟨dest, done⟩ := inside.read size
    exact ⟨c, by rw [CircleBuffer.perform, done]; rfl, inside⟩
  | remove size => exact ⟨_, rfl, inside.remove size⟩

theorem inside_start {buffer : Block Byte} (large : 2 ≤ buffer.size) : Inside (start buffer) where
  tail_ := Nat.sub_add_cancel (Nat.le_of_succ_le large)
  begin_ := Nat.sub_pos_of_lt large
  end_ := Nat.sub_pos_of_lt large

/-- No call copies outside the allocation, also where the ring miscounts. -/
theorem always_inside {buffer : Block Byte} (large : 2 ≤ buffer.size) (ops : List Op) :
    Runs.Always CircleBuffer.perform Inside (start buffer) ops :=
  Runs.always_invariant (fun _ op inside => inside.perform op) (inside_start large) ops

end Copies

/-- A queue of at most `size - 1` bytes refuses a write for which it has no room. -/
def specified (size : Nat) (q : Fifo Byte) : Op → Fifo Byte
  | .write src => if src.length ≤ size - 1 - q.content.length then q.write src else q
  | .read _ => q
  | .remove n => q.remove n

structure Traced where
  circle : CircleBuffer
  queue : Fifo Byte

def step (s : Traced) (op : Op) : Option Traced :=
  (s.circle.perform op).map fun circle => ⟨circle, specified s.circle.buffer.size s.queue op⟩

/-- What the four functions say about the queue. -/
structure Agrees (s : Traced) : Prop where
  used : s.circle.getUsedSize = s.queue.accepted.length - s.queue.taken
  free : s.circle.getFreeSize = s.circle.buffer.size - 1 - (s.queue.accepted.length - s.queue.taken)
  write : ∀ src, ∃ c, s.circle.write src =
    .ok (c, if src.length ≤ s.circle.getFreeSize then src.length else 0)
  read : ∀ n, n ≤ s.circle.getUsedSize → s.circle.read n = .ok (s.queue.content.take n)

/-- No write has come to `tail_`: the pointers count the bytes. -/
structure Straight (size : Nat) (s : Traced) : Prop where
  allocated : s.circle.buffer.size = size
  tail_ : s.circle.tail_ + 1 = size
  begin_ : s.circle.begin_ = s.queue.taken
  end_ : s.circle.end_ = s.queue.accepted.length
  below : s.circle.end_ < s.circle.tail_
  stored : s.circle.buffer.view 0 s.queue.accepted.length = s.queue.accepted

/-- The condition on a write: when there is room for it, it ends before `tail_`. -/
def Short (s : Traced) : Op → Prop
  | .write src => src.length ≤ s.circle.getFreeSize → s.circle.end_ + src.length < s.circle.tail_
  | _ => True

section Queue
variable {size : Nat} {s s' : Traced} {op : Op}

theorem straight_start {buffer : Block Byte} (large : 2 ≤ buffer.size) :
    Straight buffer.size ⟨start buffer, .empty⟩ where
  allocated := rfl
  tail_ := (inside_start large).tail_
  begin_ := rfl
  end_ := rfl
  below := (inside_start large).end_
  stored := rfl

theorem Straight.order (straight : Straight size s) : s.circle.begin_ ≤ s.circle.end_ := by
  rw [straight.begin_, straight.end_]
  exact s.queue.inside

theorem Straight.inside (straight : Straight size s) : Inside s.circle where
  tail_ := straight.tail_.trans straight.allocated.symm
  begin_ := Nat.lt_of_le_of_lt straight.order straight.below
  end_ := straight.below

theorem Straight.used (straight : Straight size s) :
    s.circle.getUsedSize = s.queue.accepted.length - s.queue.taken := by
  rw [straight.inside.getUsedSize, if_pos straight.order, straight.begin_, straight.end_]

theorem Straight.free (straight : Straight size s) :
    s.circle.getFreeSize = size - 1 - (s.queue.accepted.length - s.queue.taken) := by
  rw [getFreeSize, straight.used, straight.allocated]
  omega

theorem Straight.room (straight : Straight size s) (n : Nat) :
    n ≤ s.circle.getFreeSize ↔ n ≤ s.circle.buffer.size - 1 - s.queue.content.length := by
  rw [straight.free, straight.allocated, Fifo.content_length]

theorem Straight.agrees (straight : Straight size s) : Agrees s where
  used := straight.used
  free := by
    rw [straight.allocated]
    exact straight.free
  write := by
    intro src
    obtain ⟨c, written, -⟩ := straight.inside.write src
    exact ⟨c, written⟩
  read := by
    intro n enough
    have tail := straight.inside.tail_
    have below := straight.below
    have order := straight.order
    have used := straight.used
    rw [← straight.begin_, ← straight.end_] at used
    rw [CircleBuffer.read, if_neg (Nat.not_lt.mpr enough)]
    simp only
    rw [if_neg (by omega), copyOut_ok (by omega), Fifo.content]
    conv_rhs => rw [← straight.stored, Block.view_drop, Block.view_take, Nat.zero_add,
      ← straight.begin_, ← straight.end_, Nat.min_eq_left (by omega)]

theorem Straight.accept (straight : Straight size s) {src : List Byte}
    (fits : src.length ≤ s.circle.getFreeSize) (short : s.circle.end_ + src.length < s.circle.tail_)
    (stepped : step s (.write src) = some s') : Straight size s' := by
  have tail := straight.inside.tail_
  have written : s.circle.write src = .ok ({ s.circle with
      buffer := s.circle.buffer.put s.circle.end_ src
      end_ := s.circle.end_ + src.length }, src.length) := by
    rw [CircleBuffer.write, if_neg (Nat.not_lt.mpr fits)]
    simp only
    rw [if_pos (by omega), copyIn_ok (by omega), ok_bind]
  have after := Block.view_put_after s.circle.buffer 0 s.queue.accepted.length src
  rw [straight.stored, Nat.zero_add, ← straight.end_] at after
  rw [step, perform, written, specified, if_pos ((straight.room _).mp fits)] at stepped
  cases stepped
  refine ⟨straight.allocated, straight.tail_, straight.begin_, ?_, short, ?_⟩
  · show s.circle.end_ + src.length = (s.queue.accepted ++ src).length
    rw [List.length_append, straight.end_]
  · show Block.view _ 0 (s.queue.accepted ++ src).length = s.queue.accepted ++ src
    rw [List.length_append, ← straight.end_]
    exact after

theorem Straight.refuse (straight : Straight size s) {src : List Byte}
    (full : s.circle.getFreeSize < src.length) (stepped : step s (.write src) = some s') :
    s' = s := by
  have noRoom := mt (straight.room src.length).mpr (Nat.not_le.mpr full)
  rw [step, perform, CircleBuffer.write, if_pos full, specified, if_neg noRoom] at stepped
  cases stepped
  rfl

theorem Straight.remove (straight : Straight size s) (n : Nat) :
    Straight size ⟨s.circle.remove n, s.queue.remove n⟩ := by
  have below := straight.below
  have order := straight.order
  have length := s.queue.content_length
  have used := straight.used
  rw [← length] at used
  by_cases enough : n ≤ s.circle.getUsedSize
  · have left : n ≤ s.circle.end_ - s.circle.begin_ := by
      rw [straight.begin_, straight.end_, ← length, ← used]
      exact enough
    have removed : s.circle.remove n = { s.circle with begin_ := s.circle.begin_ + n } := by
      rw [CircleBuffer.remove, if_neg (Nat.not_lt.mpr enough)]
      simp only
      rw [if_neg (by omega)]
    rw [removed]
    refine ⟨straight.allocated, straight.tail_, ?_, ?_, below, ?_⟩
    · rw [Fifo.remove_taken (used ▸ enough), ← straight.begin_]
    · rw [Fifo.remove_accepted]
      exact straight.end_
    · rw [Fifo.remove_accepted]
      exact straight.stored
  · rw [CircleBuffer.remove, if_pos (Nat.not_le.mp enough), Fifo.remove_short (by omega)]
    exact straight

theorem Straight.step (straight : Straight size s) (short : Short s op)
    (stepped : step s op = some s') : Straight size s' := by
  cases op with
  | write src =>
    by_cases fits : src.length ≤ s.circle.getFreeSize
    · exact straight.accept fits (short fits) stepped
    · rw [straight.refuse (Nat.not_le.mp fits) stepped]
      exact straight
  | read n =>
    obtain ⟨circle, performed, same⟩ := Option.map_eq_some_iff.mp stepped
    obtain ⟨dest, -, kept⟩ := Option.map_eq_some_iff.mp performed
    cases kept
    cases same
    exact straight
  | remove n =>
    cases stepped
    exact straight.remove n

/-- A write that comes to `tail_` makes `getUsedSize` count one byte too many, or none
when it fills the ring. -/
theorem Straight.short_of_agrees (straight : Straight size s)
    (stepped : CircleBuffer.step s op = some s') (agrees : Agrees s') : Short s op := by
  cases op with
  | read n => trivial
  | remove n => trivial
  | write src =>
    intro fits
    by_contra long
    obtain ⟨circle, performed, same⟩ := Option.map_eq_some_iff.mp stepped
    cases same
    obtain ⟨c, written, -⟩ := straight.inside.write src
    rw [perform, written] at performed
    cases performed
    obtain ⟨start, stop, kept⟩ := write_wrapped fits (Nat.not_lt.mp long) written
    have tail := straight.tail_
    have below := straight.below
    have order := straight.order
    have free := straight.free
    rw [← straight.begin_, ← straight.end_] at free
    have wrong := agrees.used
    rw [specified, if_pos ((straight.room _).mp fits)] at wrong
    simp only [getUsedSize, Fifo.write, start, stop, kept, straight.allocated, List.length_append,
      ← straight.begin_, ← straight.end_] at wrong
    have shift : src.length - (s.circle.tail_ - s.circle.end_) + size - s.circle.begin_ =
        s.circle.end_ - s.circle.begin_ + src.length + 1 := by omega
    rw [shift] at wrong
    rcases Nat.lt_or_ge (s.circle.end_ - s.circle.begin_ + src.length + 1) size with more | full
    · rw [Nat.mod_eq_of_lt more] at wrong
      omega
    · have whole : s.circle.end_ - s.circle.begin_ + src.length + 1 = size := by omega
      rw [whole, Nat.mod_self] at wrong
      omega

theorem Straight.progress (straight : Straight size s) (op : Op) :
    ∃ s', CircleBuffer.step s op = some s' := by
  obtain ⟨c, performed, -⟩ := straight.inside.perform op
  exact ⟨_, by rw [CircleBuffer.step, performed]; rfl⟩

theorem specified_grows (size : Nat) (q : Fifo Byte) (op : Op) :
    q.accepted.length ≤ (specified size q op).accepted.length := by
  cases op with
  | write src =>
    rw [specified]
    split
    · rw [Fifo.write, List.length_append]
      exact Nat.le_add_right _ _
    · exact Nat.le_refl _
  | read n => exact Nat.le_refl _
  | remove n => rw [specified, Fifo.remove_accepted]

theorem foldl_grows (size : Nat) (ops : List Op) (q : Fifo Byte) :
    q.accepted.length ≤ (ops.foldl (specified size) q).accepted.length := by
  induction ops generalizing q with
  | nil => exact Nat.le_refl _
  | cons op rest ih => exact Nat.le_trans (specified_grows size q op) (ih _)

/-- No write comes to `tail_` exactly when the queue accepts less than `size - 1` bytes
altogether. -/
theorem Straight.guarded_iff (straight : Straight size s) (ops : List Op) :
    Runs.Guarded CircleBuffer.step Short s ops ↔
      (ops.foldl (specified size) s.queue).accepted.length < size - 1 := by
  induction ops generalizing s with
  | nil =>
    have tail := straight.tail_
    have below := straight.below
    rw [straight.end_] at below
    constructor
    · intro _
      rw [List.foldl_nil]
      omega
    · exact fun _ => .nil
  | cons op rest ih =>
    obtain ⟨next, stepped⟩ := straight.progress op
    have queue : next.queue = specified size s.queue op := by
      obtain ⟨circle, -, same⟩ := Option.map_eq_some_iff.mp stepped
      rw [← same, straight.allocated]
    rw [List.foldl_cons, ← queue]
    constructor
    · intro guarded
      have short := guarded.here stepped
      exact (ih (straight.step short stepped)).mp (guarded.tail stepped)
    · intro few
      have short : Short s op := by
        cases op with
        | read n => trivial
        | remove n => trivial
        | write src =>
          intro fits
          have tail := straight.tail_
          have accepted : next.queue = s.queue.write src := by
            rw [queue, specified, ← straight.allocated, if_pos ((straight.room _).mp fits)]
          have grows := foldl_grows size rest next.queue
          rw [accepted, Fifo.write, List.length_append, ← straight.end_] at grows
          rw [accepted, Fifo.write] at few
          omega
      refine .cons (fun _ _ => short) fun t first => ?_
      cases stepped.symm.trans first
      exact (ih (straight.step short stepped)).mpr few

end Queue

/-- The ring is the queue for as long as all the bytes it has ever accepted end before
`tail_`, the last place of the allocation; and without an overrun it is only
constructed with the default size or more. -/
theorem circle_fifo_iff (size : Nat) (large : 2 ≤ size) (fresh : Nat → Byte) (ops : List Op) :
    ((∃ c, init size fresh = .ok c ∧ Runs.Always step Agrees ⟨c, .empty⟩ ops) ↔
      defBufferSize ≤ size ∧
        (ops.foldl (specified size) .empty).accepted.length < size - 1) ∧
    ∀ buffer : Block Byte, buffer.size = size →
      (Runs.Always step Agrees ⟨start buffer, .empty⟩ ops ↔
        (ops.foldl (specified size) .empty).accepted.length < size - 1) := by
  have started : ∀ buffer : Block Byte, buffer.size = size →
      (Runs.Always step Agrees ⟨start buffer, .empty⟩ ops ↔
        (ops.foldl (specified size) .empty).accepted.length < size - 1) := by
    rintro buffer rfl
    have straight := straight_start large
    rw [← straight.guarded_iff ops]
    exact Runs.always_iff_guarded (fun _ => Straight.agrees) (fun _ op s => s.progress op)
      (fun _ _ _ s short stepped => s.step short stepped)
      (fun _ _ _ s stepped agrees => s.short_of_agrees stepped agrees) straight ops
  refine ⟨?_, started⟩
  constructor
  · rintro ⟨c, made, always⟩
    obtain ⟨buffer, cleared, same⟩ := bind_eq_ok.mp made
    cases same
    obtain ⟨inside, rfl⟩ := copyIn_eq_ok.mp cleared
    rw [List.length_replicate, Nat.zero_add] at inside
    exact ⟨inside, (started _ rfl).mp always⟩
  · rintro ⟨inside, few⟩
    refine ⟨start (Block.put ⟨size, fresh⟩ 0 (List.replicate defBufferSize 0)), ?_, ?_⟩
    · rw [init, copyIn_ok (by rw [List.length_replicate, Nat.zero_add]; exact inside), ok_bind]
    · exact (started _ rfl).mpr few

theorem circle_fifo_iff_write :
    ∃ c, init 4096 (fun _ => 0) = .ok c ∧
      Runs.Always step Agrees ⟨c, .empty⟩ [.write [1, 2, 3], .remove 2, .read 1] :=
  (circle_fifo_iff 4096 (by decide) _ _).1.mpr (by decide)

/-- A write that fills the ring leaves it empty. -/
theorem full_looks_empty {buffer : Block Byte} (large : 2 ≤ buffer.size) {src : List Byte}
    (full : src.length + 1 = buffer.size) :
    ∃ c, (start buffer).write src = .ok (c, src.length) ∧ c.getUsedSize = 0 := by
  have straight := straight_start large
  have fits : src.length ≤ (start buffer).getFreeSize := by
    have free : (start buffer).getFreeSize = _ := straight.free
    rw [free]
    simp only [Fifo.empty, List.length_nil]
    omega
  obtain ⟨c, written, inside⟩ := straight.inside.write src
  rw [if_pos fits] at written
  have long : (start buffer).tail_ ≤ (start buffer).end_ + src.length := by
    simp only [start]
    omega
  obtain ⟨begin_, end_, -⟩ := write_wrapped fits long written
  refine ⟨c, written, ?_⟩
  have empty : c.end_ = 0 := by
    rw [end_]
    simp only [start]
    omega
  rw [inside.getUsedSize, begin_, empty]
  rfl

/-- 4095 bytes in a ring of 4096. -/
theorem circle_not_fifo :
    ¬ ∃ c, init 4096 (fun _ => 0) = .ok c ∧
      Runs.Always step Agrees ⟨c, .empty⟩ [.write (List.replicate 4095 7)] := by
  rintro ⟨c, made, always⟩
  obtain ⟨buffer, cleared, same⟩ := bind_eq_ok.mp made
  cases same
  have size : buffer.size = 4096 := by
    obtain ⟨-, rfl⟩ := copyIn_eq_ok.mp cleared
    rfl
  have full : (List.replicate 4095 (7 : Byte)).length + 1 = buffer.size := by
    rw [List.length_replicate, size]
  obtain ⟨c, written, empty⟩ := full_looks_empty (by rw [size]; decide) full
  obtain ⟨s, reached, agrees⟩ := always _ (List.prefix_refl _)
  rw [Runs.run_cons, step, perform, written] at reached
  cases reached
  have used := agrees.used
  have room : (List.replicate 4095 (7 : Byte)).length ≤ (start buffer).buffer.size - 1 - 0 := by
    show _ ≤ buffer.size - 1 - 0
    rw [List.length_replicate, size]
  rw [specified, Fifo.content_empty, List.length_nil, if_pos room, empty] at used
  simp only [Fifo.write, Fifo.empty, List.nil_append, List.length_replicate] at used
  omega

end CircleBuffer
end Sometest.Net
