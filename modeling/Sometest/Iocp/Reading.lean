import Sometest.Lib.Run
import Sometest.Net.Receiver
import Sometest.Iocp.Connection

/-! The read side of the IOCP port on a stream of well-formed packets. -/
namespace Sometest.Iocp
open Sometest.Net
open Connection (startNextRead readWindow storeReceived onRead)

/-- `received` is what the completions have delivered so far, `handled` the packets
that `update` has dispatched. -/
structure Reader where
  conn : Connection
  received : List Byte
  handled : List (List Byte)

/-- After `addConnection`, which posts the first `WSARecv`. -/
def Reader.start (fresh : Nat → Byte) : Reader :=
  ⟨{ Connection.init fresh with recvs := [(Connection.init fresh).readWindow] }, [], []⟩

inductive ReadEvent where
  | completed (bytes : List Byte)
  | update (junk : Nat → Nat → Byte)

def ReadEvent.bytes : ReadEvent → List Byte
  | .completed bytes => bytes
  | .update _ => []

/-- A completion of the `WSARecv` under way delivers at most its window. -/
def Completes (s : Reader) : ReadEvent → Prop
  | .completed bytes => bytes ≠ [] ∧ ∃ window, s.conn.recvs = [window] ∧ bytes.length ≤ window
  | .update _ => True

/-- No outcome for an event that cannot occur, and after a fault. -/
def readStep (bound : Nat) (int : Int → Int) (s : Reader) : ReadEvent → Option Reader
  | .completed bytes =>
    match s.conn.recvs with
    | [window] =>
      if bytes ≠ [] ∧ bytes.length ≤ window then
        match { s.conn with recvs := [] }.startNextRead bound true bytes with
        | .ok (conn, _) => some ⟨conn, s.received ++ bytes, s.handled⟩
        | .error _ => none
      else none
    | _ => none
  | .update junk =>
    match s.conn.session.update int junk with
    | .ok session => some ⟨{ s.conn with session }, s.received,
        s.handled ++ if s.conn.session.active then s.conn.session.packetList else []⟩
    | .error _ => none

structure Reader.Delivering (packets : List (List Byte)) (s : Reader) : Prop where
  delivering : Net.Delivering packets s.conn.session s.conn.readBuffer s.received s.handled
  posted : s.conn.recvs = [s.conn.readWindow]

section Reading
variable {packets : List (List Byte)} {s s' : Reader} {bound : Nat} {int : Int → Int}

theorem completed_delivering (reading : s.Delivering packets) (framed : ∀ p ∈ packets, Framed p)
    (enough : 4096 < bound) {bytes : List Byte} (completes : Completes s (.completed bytes))
    (stream : s.received ++ bytes <+: packets.flatten) :
    ∃ s', readStep bound int s (.completed bytes) = some s' ∧ s'.Delivering packets := by
  obtain ⟨nonempty, window, posted, fits⟩ := completes
  have same : window = s.conn.readWindow := by simpa using posted.symm.trans reading.posted
  have room : bytes.length ≤ s.conn.readBuffer.getFreeSpaceSize :=
    Nat.le_trans (same ▸ fits) (Nat.min_le_right _ _)
  obtain ⟨stored, readBuffer, packetList, written, extracted, delivering⟩ :=
    reading.delivering.receive framed room stream enough
  have arrived : 0 ≠ bytes.length := by
    intro zero
    exact nonempty (List.length_eq_zero_iff.mp zero.symm)
  simp only [readStep, posted, if_pos (And.intro nonempty fits), startNextRead, storeReceived,
    if_pos (And.intro arrived reading.delivering.active), written, ok_bind, onRead,
    if_pos reading.delivering.active, extracted, if_true, List.nil_append]
  exact ⟨_, rfl, delivering, rfl⟩

theorem readStep_received {e : ReadEvent} (stepped : readStep bound int s e = some s') :
    Completes s e ∧ s'.received = s.received ++ e.bytes := by
  cases e with
  | completed bytes =>
    simp only [readStep] at stepped
    split at stepped
    · rename_i window posted
      split at stepped
      · rename_i delivered
        split at stepped
        · cases stepped
          exact ⟨⟨delivered.1, window, posted, delivered.2⟩, rfl⟩
        · cases stepped
      · cases stepped
    · cases stepped
  | update junk =>
    simp only [readStep] at stepped
    split at stepped
    · cases stepped
      exact ⟨trivial, (List.append_nil _).symm⟩
    · cases stepped

theorem step_delivering (reading : s.Delivering packets) (framed : ∀ p ∈ packets, Framed p)
    (enough : 4096 < bound) (stream : s'.received <+: packets.flatten) {e : ReadEvent}
    (stepped : readStep bound int s e = some s') : s'.Delivering packets := by
  obtain ⟨completes, received⟩ := readStep_received stepped
  cases e with
  | completed bytes =>
    rw [received] at stream
    obtain ⟨t, same, reading'⟩ := completed_delivering reading framed enough completes stream
    cases same.symm.trans stepped
    exact reading'
  | update junk =>
    simp only [readStep] at stepped
    split at stepped
    · rename_i session done
      cases stepped
      exact ⟨reading.delivering.update done, reading.posted⟩
    · cases stepped

theorem run_delivering (framed : ∀ p ∈ packets, Framed p) (enough : 4096 < bound)
    (fresh : Nat → Byte) {events : List ReadEvent}
    (reached : Runs.run (readStep bound int) (.start fresh) events = some s)
    (stream : s.received <+: packets.flatten) : s.Delivering packets := by
  have preserved : ∀ s e s', (s.received <+: packets.flatten → s.Delivering packets) →
      readStep bound int s e = some s' → s'.received <+: packets.flatten →
      s'.Delivering packets := by
    intro s e s' before stepped stream
    have start : s.received <+: s'.received :=
      (readStep_received stepped).2 ▸ List.prefix_append _ _
    exact step_delivering (before (start.trans stream)) framed enough stream stepped
  have initial : (Reader.start fresh).Delivering packets := ⟨delivering_init framed fresh, rfl⟩
  exact (Runs.invariant preserved (fun _ => initial) events).last reached stream

end Reading
end Sometest.Iocp
