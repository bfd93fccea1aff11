import Sometest.Lib.Run
import Sometest.Iocp.Connection

/-! The send side of one connection of the IOCP port: producers append to the send
buffer while `WSASend` operations are under way. -/
namespace Sometest.Iocp
open Sometest.Net

/-- `transmitted` is what the completions have reported as sent, `pushed` the packets
given to `pushSendPacket`. -/
structure Writer where
  conn : Connection
  transmitted : List Byte
  pushed : List (List Byte)

def Writer.start (c : Connection) : Writer := ⟨c, [], []⟩

/-- `completed i n` is a completion with `n` bytes of the `i`-th operation under way. -/
inductive WriteEvent where
  | pushSendPacket (packet : List Byte)
  | doPushSend
  | completed (i n : Nat)

def Completed (s : Writer) : WriteEvent → Prop
  | .completed i n => ∃ posted, s.conn.sends[i]? = some posted ∧ 0 < n ∧ n ≤ posted.bytes.length
  | _ => True

/-- `WSASend` accepts every request. No outcome for a completion that cannot occur,
and after a fault. -/
def writeStep (int : Int → Int) (s : Writer) : WriteEvent → Option Writer
  | .pushSendPacket packet =>
    match s.conn.session.pushSendPacket int packet with
    | .ok session => some ⟨{ s.conn with session }, s.transmitted, s.pushed ++ [packet]⟩
    | .error _ => none
  | .doPushSend =>
    match s.conn.doPushSend true with
    | .ok (conn, _) => some { s with conn }
    | .error _ => none
  | .completed i n =>
    match s.conn.sends[i]? with
    | some posted =>
      if 0 < n ∧ n ≤ posted.bytes.length then
        match { s.conn with sends := s.conn.sends.eraseIdx i }.startNextWrite true n with
        | .ok (conn, _) => some ⟨conn, s.transmitted ++ posted.bytes.take n, s.pushed⟩
        | .error _ => none
      else none
    | none => none

/-- Nothing is under way and the lock is free, or one operation is, on the first
unread bytes, and the lock is taken. -/
inductive Sending (c : Connection) : Prop where
  | idle (free : c.writeLock = 0) (none : c.sends = [])
  | busy (op : Posted) (held : c.writeLock = 1) (one : c.sends = [op])
      (front : op.bytes <+: c.session.sendBuffer.content)

/-- Operations under way were posted with the current allocation and read pointer. -/
def InPlace (c : Connection) : Prop :=
  ∀ op ∈ c.sends, op.alloc = c.session.sendBuffer.alloc ∧ op.off = c.session.sendBuffer.rptr

section Connection
variable {c : Connection}

theorem startNextWrite_zero (held : c.writeLock = 1) (quiet : c.sends = []) :
    ∃ c', c.startNextWrite true 0 = .ok (c', true) ∧ c'.session = c.session ∧
      Sending c' ∧ InPlace c' := by
  simp only [Connection.startNextWrite, ne_eq, not_true_eq_false, if_false, ok_bind, if_true]
  split
  · refine ⟨_, rfl, rfl, .idle ?_ quiet, ?_⟩
    · simp only [Connection.releaseWriteLock, compareAndSwap, if_pos held]
    · intro op member
      simp only [Connection.releaseWriteLock, quiet, List.not_mem_nil] at member
  · refine ⟨_, rfl, rfl, .busy _ held (by rw [Connection.postSend, quiet]; rfl) (List.prefix_refl _), ?_⟩
    intro op member
    simp only [Connection.postSend, quiet, List.nil_append, List.mem_singleton] at member
    subst member
    exact ⟨rfl, rfl⟩

theorem startNextWrite_removes {n : Nat} (positive : 0 < n) (wf : c.session.sendBuffer.WellFormed)
    (used : n ≤ c.session.getRemainSendDataSize) :
    ∃ sendBuffer : CSyncBuffer, c.startNextWrite true n =
        { c with session := { c.session with sendBuffer } }.startNextWrite true 0 ∧
      sendBuffer.WellFormed ∧ sendBuffer.content = c.session.sendBuffer.content.drop n ∧
      sendBuffer.buffer.size = c.session.sendBuffer.buffer.size ∧ sendBuffer.rptr = 0 := by
  obtain ⟨sendBuffer, removed, wf', content, -, size, rptr⟩ := Session.removeSendData_spec wf used
  exact ⟨sendBuffer, Connection.startNextWrite_removed (Nat.ne_of_lt positive) removed, wf', content,
    size, rptr⟩

end Connection

structure Serial (s : Writer) : Prop where
  wellFormed : s.conn.session.sendBuffer.WellFormed
  start : s.conn.session.sendBuffer.rptr = 0
  large : packetBSize ≤ s.conn.session.sendBuffer.buffer.size
  sending : Sending s.conn
  bytes : s.transmitted ++ s.conn.session.sendBuffer.content = s.pushed.flatten

structure Idle (c : Connection) : Prop where
  wellFormed : c.session.sendBuffer.WellFormed
  start : c.session.sendBuffer.rptr = 0
  large : packetBSize ≤ c.session.sendBuffer.buffer.size
  empty : c.session.sendBuffer.content = []
  free : c.writeLock = 0
  none : c.sends = []

theorem idle_init (fresh : Nat → Byte) : Idle (.init fresh) where
  wellFormed := CSyncBuffer.wellFormed_init 4096
  start := rfl
  large := show packetBSize ≤ 4096 by decide
  empty := rfl
  free := rfl
  none := rfl

theorem serial_start {c : Connection} (idle : Idle c) : Serial (.start c) where
  wellFormed := idle.wellFormed
  start := idle.start
  large := idle.large
  sending := .idle idle.free idle.none
  bytes := idle.empty

section Steps
variable {s s' : Writer} {int : Int → Int}

theorem Serial.push (serial : Serial s) {packet : List Byte}
    (stepped : writeStep int s (.pushSendPacket packet) = some s') : Serial s' := by
  simp only [writeStep] at stepped
  split at stepped
  · rename_i session pushed
    cases stepped
    have start := Session.pushSendPacket_rptr serial.wellFormed serial.start pushed
    obtain ⟨sendBuffer, rfl, -, wf, content, size⟩ :=
      Session.pushSendPacket_spec serial.wellFormed pushed
    refine ⟨wf, start, Nat.le_trans serial.large size, ?_, ?_⟩
    · cases serial.sending with
      | idle free quiet => exact .idle free quiet
      | busy op held one front =>
        refine .busy op held one ?_
        simp only [content]
        exact front.trans (List.prefix_append _ _)
    · simp only [content, ← List.append_assoc, serial.bytes, List.flatten_append,
        List.flatten_cons, List.flatten_nil, List.append_nil]
  · cases stepped

theorem Serial.doPushSend (serial : Serial s) (int : Int → Int) :
    ∃ s', writeStep int s .doPushSend = some s' ∧ Serial s' ∧ (InPlace s.conn → InPlace s'.conn) := by
  cases set : s.conn.session.pushSend with
  | false =>
    simp only [writeStep, Connection.doPushSend_unset set]
    exact ⟨_, rfl, serial, id⟩
  | true =>
    cases serial.sending with
    | idle free quiet =>
      obtain ⟨c', posted, session, sending, inPlace⟩ := startNextWrite_zero
        (c := { s.conn with session := { s.conn.session with pushSend := false }, writeLock := 1 })
        rfl quiet
      simp only [writeStep, Connection.doPushSend_free set free, posted]
      refine ⟨_, rfl, ⟨?_, ?_, ?_, sending, ?_⟩, fun _ => inPlace⟩
      · rw [session]
        exact serial.wellFormed
      · rw [session]
        exact serial.start
      · rw [session]
        exact serial.large
      · rw [session]
        exact serial.bytes
    | busy op held one front =>
      have taken : s.conn.writeLock ≠ 0 := by omega
      simp only [writeStep, Connection.doPushSend_held set taken]
      refine ⟨_, rfl, ⟨serial.wellFormed, serial.start, serial.large, ?_, serial.bytes⟩, id⟩
      exact .busy op held one front

theorem Serial.completed (serial : Serial s) (int : Int → Int) {i n : Nat}
    (completed : Completed s (.completed i n)) :
    ∃ s', writeStep int s (.completed i n) = some s' ∧ Serial s' ∧ InPlace s'.conn := by
  obtain ⟨posted, listed, positive, fits⟩ := completed
  cases serial.sending with
  | idle free quiet =>
    rw [quiet] at listed
    cases listed
  | busy op held one front =>
    rw [one] at listed
    obtain ⟨rfl, rfl⟩ : i = 0 ∧ op = posted := by
      cases i with
      | zero => exact ⟨rfl, Option.some.inj listed⟩
      | succ i => cases listed
    have used : n ≤ s.conn.session.getRemainSendDataSize := by
      have length := front.length_le
      rw [CSyncBuffer.content_length] at length
      exact Nat.le_trans fits length
    obtain ⟨sendBuffer, removes, wf, content, size, rptr⟩ := startNextWrite_removes
      (c := { s.conn with sends := [] }) positive serial.wellFormed used
    obtain ⟨c', posts, session, sending, inPlace⟩ := startNextWrite_zero
      (c := { s.conn with sends := [], session := { s.conn.session with sendBuffer } }) held rfl
    have enabled : 0 < n ∧ n ≤ op.bytes.length := ⟨positive, fits⟩
    simp only [writeStep, one, List.getElem?_cons_zero, if_pos enabled, List.eraseIdx_cons_zero,
      removes, posts]
    refine ⟨_, rfl, ⟨?_, ?_, ?_, sending, ?_⟩, inPlace⟩
    · rw [session]
      exact wf
    · rw [session]
      exact rptr
    · rw [session]
      exact size ▸ serial.large
    · have sent : op.bytes.take n = s.conn.session.sendBuffer.content.take n := by
        obtain ⟨rest, whole⟩ := front
        rw [← whole, List.take_append_of_le_length fits]
      simp only [session, content, sent, List.append_assoc, List.take_append_drop]
      exact serial.bytes

theorem completed_of_step {e : WriteEvent} (stepped : writeStep int s e = some s') :
    Completed s e := by
  cases e with
  | pushSendPacket packet => trivial
  | doPushSend => trivial
  | completed i n =>
    simp only [writeStep] at stepped
    split at stepped
    · rename_i posted listed
      split at stepped
      · exact ⟨posted, listed, ‹_›⟩
      · cases stepped
    · cases stepped

theorem Serial.step (serial : Serial s) {e : WriteEvent}
    (stepped : writeStep int s e = some s') : Serial s' := by
  cases e with
  | pushSendPacket packet => exact serial.push stepped
  | doPushSend =>
    obtain ⟨t, same, serial', -⟩ := serial.doPushSend int
    cases same.symm.trans stepped
    exact serial'
  | completed i n =>
    obtain ⟨t, same, serial', -⟩ := serial.completed int (completed_of_step stepped)
    cases same.symm.trans stepped
    exact serial'

theorem Serial.posted_front (serial : Serial s) {op : Posted} (member : op ∈ s.conn.sends) :
    op.bytes <+: s.conn.session.sendBuffer.content := by
  cases serial.sending with
  | idle free quiet =>
    rw [quiet] at member
    cases member
  | busy posted held one front =>
    rw [one] at member
    cases List.mem_singleton.mp member
    exact front

theorem serial_run {c : Connection} (idle : Idle c) {events : List WriteEvent}
    (reached : Runs.run (writeStep int) (.start c) events = some s) : Serial s := by
  have always : Runs.Throughout (writeStep int) Serial (.start c) events :=
    Runs.invariant (fun s e s' serial stepped => serial.step stepped) (serial_start idle) events
  exact always.last reached

end Steps

/-- A packet of the server, with `int` exact up to twice the bytes that the send
buffer has to hold then, as every value of the unbounded `int` is. -/
def Room (int : Int → Int) (s : Writer) : WriteEvent → Prop
  | .pushSendPacket packet => packet.length ≤ packetBSize ∧
      ∀ n : Nat, n < 2 * (s.conn.session.getRemainSendDataSize + packet.length) → int n = n
  | _ => True

theorem Serial.total {s : Writer} {int : Int → Int} (serial : Serial s) {e : WriteEvent}
    (completed : Completed s e) (room : Room int s e) : ∃ s', writeStep int s e = some s' := by
  cases e with
  | pushSendPacket packet =>
    obtain ⟨session, pushed⟩ := Session.pushSendPacket_total serial.wellFormed room.2 serial.start
      packet (Nat.le_trans room.1 serial.large) (Nat.le_refl _)
    simp only [writeStep, pushed]
    exact ⟨_, rfl⟩
  | doPushSend =>
    obtain ⟨s', stepped, -⟩ := serial.doPushSend int
    exact ⟨s', stepped⟩
  | completed i n =>
    obtain ⟨s', stepped, -⟩ := serial.completed int completed
    exact ⟨s', stepped⟩

/-- In every state that is reached from an idle connection: at most one operation
is under way, exactly when the lock is taken; it has posted the first unread bytes;
no byte of the packets is lost or out of order; and the next step has an outcome. -/
theorem writes_serialised (c : Connection) (idle : Idle c) (int : Int → Int)
    (events : List WriteEvent) (s : Writer)
    (reached : Runs.run (writeStep int) (.start c) events = some s) :
    s.conn.sends.length ≤ 1 ∧
    (s.conn.writeLock = 1 ↔ s.conn.sends.length = 1) ∧
    (∀ op ∈ s.conn.sends, op.bytes <+: s.conn.session.sendBuffer.content) ∧
    s.transmitted ++ s.conn.session.sendBuffer.content = s.pushed.flatten ∧
    (∀ e, Completed s e → Room int s e → ∃ s', writeStep int s e = some s') := by
  have serial := serial_run idle reached
  refine ⟨?_, ?_, ?_, serial.bytes, fun e completed room => serial.total completed room⟩
  · cases serial.sending with
    | idle free quiet => simp only [quiet, List.length_nil, Nat.zero_le]
    | busy op held one front => simp only [one, List.length_singleton, Nat.le_refl]
  · cases serial.sending with
    | idle free quiet => simp only [free, quiet, List.length_nil, Nat.zero_ne_one]
    | busy op held one front => simp only [held, one, List.length_singleton]
  · exact fun op member => serial.posted_front member

theorem writes_serialised_partial :
    let packet := packetHeader .SMSG_A packetASize ++ List.replicate 16 0
    ∃ s, Runs.run (writeStep id) (.start (.init fun _ => 0))
        [.pushSendPacket packet, .doPushSend, .pushSendPacket packet, .completed 0 10] = some s ∧
      s.conn.sends.map (·.bytes.length) = [38] ∧ s.conn.writeLock = 1 ∧
      s.transmitted ++ s.conn.session.sendBuffer.content = packet ++ packet := by
  intro packet
  have ran : (Runs.run (writeStep id) (.start (.init fun _ => 0))
      [.pushSendPacket packet, .doPushSend, .pushSendPacket packet, .completed 0 10]).map
      (fun s => (s.conn.sends.map (·.bytes.length), s.pushed)) = some ([38], [packet, packet]) := by
    decide +kernel
  obtain ⟨s, reached, same⟩ := Option.map_eq_some_iff.mp ran
  obtain ⟨posted, pushed⟩ := Prod.mk.inj same
  obtain ⟨-, lock, -, bytes, -⟩ :=
    writes_serialised (.init fun _ => 0) (idle_init _) id _ s reached
  have one : s.conn.sends.length = 1 := by simpa using congrArg List.length posted
  refine ⟨s, reached, posted, lock.mpr one, ?_⟩
  rw [bytes, pushed]
  simp

/-- The allocation of every operation under way is still the one of the buffer, and
holds the posted bytes where they were. -/
def Intact (s : Writer) : Prop :=
  ∀ op ∈ s.conn.sends, op.alloc = s.conn.session.sendBuffer.alloc ∧
    s.conn.session.sendBuffer.buffer.view op.off op.bytes.length = op.bytes

/-- While an operation is under way, only packets are pushed that fit behind the
unread bytes. -/
def FitsBehind (s : Writer) : WriteEvent → Prop
  | .pushSendPacket packet =>
    s.conn.sends ≠ [] → packet.length ≤ s.conn.session.sendBuffer.getFreeSize
  | _ => True

section Region
variable {s s' : Writer} {int : Int → Int}

theorem intact_of_inPlace (serial : Serial s) (inPlace : InPlace s.conn) : Intact s := by
  intro op member
  obtain ⟨alloc, off⟩ := inPlace op member
  refine ⟨alloc, ?_⟩
  have front := serial.posted_front member
  have length := front.length_le
  rw [CSyncBuffer.content_length] at length
  rw [off]
  conv_rhs => rw [List.prefix_iff_eq_take.mp front, CSyncBuffer.content, Memory.Block.view_take,
    Nat.min_eq_left length]

theorem inPlace_push (serial : Serial s) (inPlace : InPlace s.conn) {packet : List Byte}
    (stepped : writeStep int s (.pushSendPacket packet) = some s') :
    (FitsBehind s (.pushSendPacket packet) → InPlace s'.conn) ∧
      (¬ FitsBehind s (.pushSendPacket packet) → ¬ Intact s') := by
  simp only [writeStep] at stepped
  split at stepped
  · rename_i session pushed
    cases stepped
    obtain ⟨sendBuffer, rfl, written, -, -, -⟩ :=
      Session.pushSendPacket_spec serial.wellFormed pushed
    constructor
    · intro fits op member
      have room := fits (List.ne_nil_of_mem member)
      rw [CSyncBuffer.write_fits serial.wellFormed room] at written
      cases written
      exact inPlace op member
    · intro outside intact
      obtain ⟨busy, full⟩ := Classical.not_imp.mp outside
      obtain ⟨op, member⟩ := List.exists_mem_of_ne_nil _ busy
      have grown := (CSyncBuffer.write_grows serial.wellFormed full written).1
      have stale := (intact op member).1
      have alloc := (inPlace op member).1
      simp only at stale grown
      omega
  · cases stepped

/-- The posted regions stay intact along a run exactly when all its pushes that meet
an operation under way fit. -/
theorem regions_intact_iff (int : Int → Int) (fresh : Nat → Byte) (events : List WriteEvent) :
    Runs.Throughout (writeStep int) Intact (.start (.init fresh)) events ↔
      Runs.Guarded (writeStep int) FitsBehind (.start (.init fresh)) events := by
  apply Runs.throughout_iff_guarded (I := fun s => Serial s ∧ InPlace s.conn)
  · exact fun s both => intact_of_inPlace both.1 both.2
  · rintro s e s' ⟨serial, inPlace⟩ fits stepped
    refine ⟨serial.step stepped, ?_⟩
    cases e with
    | pushSendPacket packet => exact (inPlace_push serial inPlace stepped).1 fits
    | doPushSend =>
      obtain ⟨t, same, -, kept⟩ := serial.doPushSend int
      cases same.symm.trans stepped
      exact kept inPlace
    | completed i n =>
      obtain ⟨t, same, -, kept⟩ := serial.completed int (completed_of_step stepped)
      cases same.symm.trans stepped
      exact kept
  · rintro s e s' ⟨serial, inPlace⟩ stepped intact
    cases e with
    | pushSendPacket packet =>
      by_contra outside
      exact (inPlace_push serial inPlace stepped).2 outside intact
    | doPushSend => trivial
    | completed i n => trivial
  · refine ⟨serial_start (idle_init fresh), ?_⟩
    intro op member
    cases member

/-- The 103rd packet of 40 bytes reallocates the buffer under the first one's send. -/
theorem region_freed :
    let packet := packetHeader .SMSG_B packetBSize ++ List.replicate 32 0
    ¬ Runs.Throughout (writeStep id) Intact (.start (.init fun _ => 0))
      ([.pushSendPacket packet, .doPushSend] ++ List.replicate 102 (.pushSendPacket packet)) := by
  intro packet holds
  have ran : (Runs.run (writeStep id) (.start (.init fun _ => 0))
      ([.pushSendPacket packet, .doPushSend] ++ List.replicate 102 (.pushSendPacket packet))).map
      (fun s => (s.conn.session.sendBuffer.alloc, s.conn.sends.map (·.alloc))) =
        some (1, [0]) := by decide +kernel
  obtain ⟨s, reached, same⟩ := Option.map_eq_some_iff.mp ran
  obtain ⟨alloc, posted⟩ := Prod.mk.inj same
  obtain ⟨op, member, stale⟩ := List.mem_map.mp (posted ▸ List.mem_singleton_self 0)
  have kept := (holds.last reached op member).1
  omega

end Region
end Sometest.Iocp
