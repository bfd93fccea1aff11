import Sometest.Lib.Fifo
import Sometest.Lib.Run
import Sometest.Net.CircularBuffer

/-! The receive buffer against a queue of bytes, over every sequence of calls. -/
namespace Sometest.Net.CircularBuffer

inductive Op where
  | write (src : List Byte)
  | read (size : Nat)
  | remove (size : Nat)

/-- What the callers of `Write`, `Read` and `Remove` make sure of. -/
def Permits (r : CircularBuffer) : Op → Prop
  | .write src => src.length ≤ r.getFreeSpaceSize
  | .read size => size ≤ r.getUsedSpaceSize
  | .remove size => size ≤ r.getUsedSpaceSize

/-- No outcome after an assertion that fails or a copy outside the allocation. -/
def perform (r : CircularBuffer) : Op → Option CircularBuffer
  | .write src => (r.write src).toOption
  | .read size => (r.read size).toOption.map fun _ => r
  | .remove size => (r.remove size).toOption

def specified (q : Fifo Byte) : Op → Fifo Byte
  | .write src => q.write src
  | .read _ => q
  | .remove size => q.remove size

/-- Both regions lie in the allocation, and region B ends before region A. -/
structure Separate (r : CircularBuffer) : Prop where
  inside : r.a + r.asize ≤ r.base.size
  below : ∀ b, r.b = some b → b + r.bsize ≤ r.a

/-- The buffer of `size` bytes holds the bytes of the queue. -/
structure Holds (size : Nat) (r : CircularBuffer) (q : Fifo Byte) : Prop where
  wellFormed : r.WellFormed
  size : r.base.size = size
  content : r.content = q.content

theorem WellFormed.separate {r : CircularBuffer} (wf : r.WellFormed) : r.Separate where
  inside := wf.inside
  below := by
    intro b nonempty
    obtain ⟨rfl, -, below⟩ := wf.wrapped b nonempty
    omega

section Fifo
variable {size : Nat} {r r' : CircularBuffer} {q : Fifo Byte}

theorem holds_init (size : Nat) (fresh : Nat → Byte) : Holds size (.init size fresh) .empty where
  wellFormed := wellFormed_init size fresh
  size := rfl
  content := rfl

theorem Holds.perform (holds : Holds size r q) {op : Op} (performed : r.perform op = some r') :
    Holds size r' (specified q op) := by
  cases op with
  | write src =>
    have fits : src.length ≤ r.getFreeSpaceSize := by
      by_contra long
      rw [CircularBuffer.perform, write, if_pos (Nat.not_le.mp long)] at performed
      cases performed
    obtain ⟨next, written, wf, content, same⟩ := write_content holds.wellFormed fits
    rw [CircularBuffer.perform, written] at performed
    cases performed
    refine ⟨wf, same.trans holds.size, ?_⟩
    rw [specified, Fifo.content_write, content, holds.content]
  | read n =>
    obtain ⟨dest, -, same⟩ := Option.map_eq_some_iff.mp performed
    cases same
    exact holds
  | remove n =>
    have used : n ≤ r.getUsedSpaceSize := by
      by_contra long
      rw [CircularBuffer.perform, remove, if_pos (Nat.not_le.mp long)] at performed
      cases performed
    obtain ⟨next, removed, wf, content, same⟩ := remove_content holds.wellFormed used
    rw [CircularBuffer.perform, removed] at performed
    cases performed
    refine ⟨wf, same.trans holds.size, ?_⟩
    rw [← content_length holds.wellFormed, holds.content] at used
    rw [specified, Fifo.content_remove used, content, holds.content]

theorem perform_total (wf : r.WellFormed) {op : Op} (permitted : r.Permits op) :
    ∃ r', r.perform op = some r' := by
  cases op with
  | write src =>
    obtain ⟨next, written, -⟩ := write_content wf permitted
    exact ⟨next, by rw [perform, written]; rfl⟩
  | read n => exact ⟨r, by rw [perform, read_content wf permitted]; rfl⟩
  | remove n =>
    obtain ⟨next, removed, -⟩ := remove_content wf permitted
    exact ⟨next, by rw [perform, removed]; rfl⟩

/-- After every sequence of calls the two regions hold the bytes written and not yet
removed, in order; a read returns the oldest of them, and no permitted call fails an
assertion or copies outside the allocation. -/
theorem bounded_fifo (size : Nat) (fresh : Nat → Byte) (ops : List Op) (r : CircularBuffer)
    (reached : Runs.run perform (.init size fresh) ops = some r) :
    let queue := ops.foldl specified .empty
    r.content = queue.content ∧ r.getUsedSpaceSize = queue.content.length ∧
    queue.content.length ≤ size ∧ r.getFreeSpaceSize = size - queue.content.length ∧
    r.base.size = size ∧ r.Separate ∧
    (∀ n, n ≤ r.getUsedSpaceSize → r.read n = .ok (queue.content.take n)) ∧
    (∀ op, r.Permits op → ∃ r', r.perform op = some r') := by
  intro queue
  have simulated : ∀ r q op r', Holds size r q → r.perform op = some r' →
      Holds size r' (specified q op) := fun r q op r' holds performed => holds.perform performed
  have holds : Holds size r queue := Runs.simulates simulated (holds_init size fresh) reached
  have wf := holds.wellFormed
  have used := content_length wf
  have bounded := content_le wf
  rw [holds.content] at used
  rw [holds.content, holds.size] at bounded
  refine ⟨holds.content, used.symm, bounded, ?_, holds.size, wf.separate, ?_, ?_⟩
  · rw [getFreeSpaceSize_eq wf, holds.size, holds.content]
  · intro n enough
    rw [read_content wf enough, holds.content]
  · intro op permitted
    exact perform_total wf permitted

theorem bounded_fifo_wrapped :
    ∃ r, Runs.run perform (.init 8 fun _ => 0)
        [.write [1, 2, 3, 4, 5, 6], .remove 4, .write [7, 8, 9, 10, 11], .read 7] = some r ∧
      r.b = some 0 ∧ r.content = [5, 6, 7, 8, 9, 10, 11] ∧
      r.read 5 = .ok ([5, 6, 7, 8, 9, 10, 11].take 5) := by
  have ran : (Runs.run perform (.init 8 fun _ => 0)
      [.write [1, 2, 3, 4, 5, 6], .remove 4, .write [7, 8, 9, 10, 11], .read 7]).map (·.b) =
        some (some 0) := by decide
  obtain ⟨r, reached, wrapped⟩ := Option.map_eq_some_iff.mp ran
  obtain ⟨content, used, -, -, -, -, read, -⟩ := bounded_fifo 8 (fun _ => 0) _ r reached
  exact ⟨r, reached, wrapped, content, read 5 (by rw [used]; decide)⟩

end Fifo
end Sometest.Net.CircularBuffer
