import Sometest.Epoll.Responses
import Sometest.Locks

/-! CTcpConnection.cpp and Session.cpp in singlethread/, where they differ from src/: no lock is
taken, a response is sent at once, and the mutex of the send buffer is plain. -/
namespace Sometest.SingleThread
open Sometest.Net
open Epoll (Connection RecvResult SendResult)

/-- The loop body of `Read`, which ends with a release of a lock that nobody has. -/
def readBody (bound : Nat) (c : Connection) (result : RecvResult) :
    Except Fault (Connection × Option Bool) :=
  if c.readWindow = 0 then .error .bound
  else
    match result with
    | .again => .ok (c.releaseReadLock, some true)
    | .failed => .ok (c, some false)
    | .data bytes => do
      let next ← c.storeReceived bound bytes
      if bytes.length < c.readWindow then .ok (next.releaseReadLock, some true)
      else .ok (next, none)

def writeBody (c : Connection) (result : SendResult) : Except Fault (Connection × Option Bool) :=
  if c.session.getRemainSendDataSize = 0 then .ok (c, some true)
  else
    match result with
    | .again => .ok (c, some true)
    | .failed => .ok (c, some false)
    | .accepted n => do
      let len := min (n + 1) c.session.getRemainSendDataSize
      let session ← c.session.removeSendData len
      let next := { c with session, sent := c.sent ++ c.session.sendBuffer.content.take len }
      if len < c.session.getRemainSendDataSize then .ok (next, some true) else .ok (next, none)

def write : List SendResult → Connection → Except Fault (Connection × Bool)
  | [], c => do
    let (c, returned) ← writeBody c .again
    .ok (c, returned.getD true)
  | result :: rest, c => do
    match ← writeBody c result with
    | (c, some returned) => .ok (c, returned)
    | (c, none) => write rest c

/-- `CSyncBuffer::write` acquires the plain mutex a second time. -/
def waitsForItself (b : CSyncBuffer) (len : Nat) : Bool :=
  Locking.reenters [] (Locks.CSyncBuffer.write 0 (b.getFreeSize < len))

/-- `false` when the thread waits for itself. What `Write` returns is not looked at. -/
def pushSendPacket (int : Int → Int) (results : List SendResult) (c : Connection)
    (packet : List Byte) : Except Fault (Connection × Bool) :=
  if waitsForItself c.session.sendBuffer packet.length then .ok (c, false)
  else do
    let (sendBuffer, len) ← c.session.sendBuffer.write int packet
    if packet.length ≠ len then .error .assertion
    else do
      let (c, _) ← write results { c with session := { c.session with sendBuffer } }
      .ok (c, true)

def dispatch (int : Int → Int) (junk : Nat → Byte) (results : List SendResult) (c : Connection)
    (packet : List Byte) : Except Fault (Connection × Bool) :=
  if packet.length < 4 then .error .outOfBounds
  else
    match handlerOf (packetOpcode packet) with
    | none => .error .outOfBounds
    | some handler => pushSendPacket int results c (handler.response junk)

/-- The loop of `Session::update`; `false` when it waits for itself, with the packet still in the
list. The results of `send` are given for each dispatch. -/
def dispatchAll (int : Int → Int) (junk : Nat → Nat → Byte) (results : Nat → List SendResult) :
    Nat → List (List Byte) → Connection → Except Fault (Connection × Bool)
  | _, [], c => .ok (c, true)
  | k, packet :: rest, c => do
    match ← dispatch int (junk k) (results k) c packet with
    | (c, false) => .ok (c, false)
    | (c, true) =>
      dispatchAll int junk results (k + 1) rest
        { c with session := { c.session with packetList := rest } }

def update (int : Int → Int) (junk : Nat → Nat → Byte) (results : Nat → List SendResult)
    (c : Connection) : Except Fault (Connection × Bool) :=
  if c.session.active then dispatchAll int junk results 0 c.session.packetList c else .ok (c, true)

/-- The unread bytes after a `Write`: a first `send` that takes them all is followed by no other. -/
def drain (unread : Nat) : List SendResult → Nat
  | .accepted n :: _ => unread - (n + 1)
  | _ => unread

structure Fixed (c : Connection) : Prop where
  wellFormed : c.session.sendBuffer.WellFormed
  start : c.session.sendBuffer.rptr = 0
  size : c.session.sendBuffer.buffer.size = 4096

structure Frame (c c' : Connection) : Prop where
  readBuffer : c'.readBuffer = c.readBuffer
  writeLock : c'.writeLock = c.writeLock
  interest : c'.interest = c.interest
  active : c'.session.active = c.session.active

/-- `added` goes behind the unread bytes, and the call leaves `unread` bytes. -/
structure Sends (c c' : Connection) (added : List Byte) (unread : Nat) : Prop extends Frame c c' where
  fixed : Fixed c'
  bytes : c'.sent ++ c'.session.sendBuffer.content = c.sent ++ c.session.sendBuffer.content ++ added
  left : c'.session.getRemainSendDataSize = unread

section Writing
variable {c c' : Connection}

theorem Frame.trans {c'' : Connection} (first : Frame c c') (second : Frame c' c'') : Frame c c'' where
  readBuffer := second.readBuffer.trans first.readBuffer
  writeLock := second.writeLock.trans first.writeLock
  interest := second.interest.trans first.interest
  active := second.active.trans first.active

theorem writeBody_unlocked {result : SendResult} {out : Connection × Option Bool}
    (ran : writeBody c result = .ok out) :
    ∃ lock, c.writeBody result = .ok ({ out.1 with writeLock := lock }, out.2) ∧
      (out.2 = none → lock = out.1.writeLock) := by
  rw [writeBody.eq_def] at ran
  unfold Connection.writeBody
  split at ran
  · cases ran
    exact ⟨_, if_pos ‹_›, fun never => by cases never⟩
  · rename_i unread
    rw [if_neg unread]
    cases result with
    | again =>
      cases ran
      exact ⟨_, rfl, fun never => by cases never⟩
    | failed =>
      cases ran
      exact ⟨_, rfl, fun never => by cases never⟩
    | accepted n =>
      obtain ⟨session, removed, rest⟩ := bind_eq_ok.mp ran
      simp only [removed, ok_bind]
      split at rest
      · cases rest
        exact ⟨_, if_pos ‹_›, fun never => by cases never⟩
      · cases rest
        exact ⟨_, if_neg ‹_›, fun _ => rfl⟩

/-- `Write` does what it does in src/, except for the lock. -/
theorem write_unlocked {results : List SendResult} {out : Connection × Bool}
    (ran : write results c = .ok out) :
    ∃ lock, c.write results = .ok ({ out.1 with writeLock := lock }, out.2) := by
  induction results generalizing c with
  | nil =>
    obtain ⟨⟨next, returned⟩, body, same⟩ := bind_eq_ok.mp ran
    obtain ⟨lock, locked, -⟩ := writeBody_unlocked body
    cases same
    exact ⟨lock, by rw [Connection.write, locked, ok_bind]⟩
  | cons result rest ih =>
    obtain ⟨⟨next, returned⟩, body, more⟩ := bind_eq_ok.mp ran
    obtain ⟨lock, locked, unchanged⟩ := writeBody_unlocked body
    cases returned with
    | some returned =>
      cases more
      exact ⟨lock, by rw [Connection.write, locked, ok_bind]⟩
    | none =>
      obtain ⟨lock', later⟩ := ih more
      cases unchanged rfl
      exact ⟨lock', by rw [Connection.write, locked, ok_bind]; exact later⟩

theorem write_nothing (results : List SendResult) (empty : c.session.getRemainSendDataSize = 0) :
    write results c = .ok (c, true) := by
  cases results with
  | nil => simp only [write, writeBody, if_pos empty, ok_bind, Option.getD_some]
  | cons result rest => simp only [write, writeBody, if_pos empty, ok_bind]

theorem write_sends (fixed : Fixed c) (results : List SendResult) :
    ∃ c' ok, write results c = .ok (c', ok) ∧ c'.session.packetList = c.session.packetList ∧
      Sends c c' [] (drain c.session.getRemainSendDataSize results) := by
  have idle : Frame c c := ⟨rfl, rfl, rfl, rfl⟩
  by_cases empty : c.session.getRemainSendDataSize = 0
  · refine ⟨c, true, write_nothing results empty, rfl, idle, fixed, by simp, ?_⟩
    rw [drain.eq_def, empty]
    split <;> omega
  · cases results with
    | nil =>
      simp only [write, writeBody, if_neg empty, ok_bind]
      exact ⟨_, _, rfl, rfl, idle, fixed, by simp, rfl⟩
    | cons result rest =>
      cases result with
      | again =>
        simp only [write, writeBody, if_neg empty, ok_bind]
        exact ⟨_, _, rfl, rfl, idle, fixed, by simp, rfl⟩
      | failed =>
        simp only [write, writeBody, if_neg empty, ok_bind]
        exact ⟨_, _, rfl, rfl, idle, fixed, by simp, rfl⟩
      | accepted n =>
        obtain ⟨sendBuffer, removed, wf, content, -, size, rptr⟩ := Session.removeSendData_spec
          fixed.wellFormed (Nat.min_le_right (n + 1) c.session.getRemainSendDataSize)
        have length : sendBuffer.getUsedSize = c.session.getRemainSendDataSize -
            min (n + 1) c.session.getRemainSendDataSize := by
          rw [← CSyncBuffer.content_length, content, List.length_drop, CSyncBuffer.content_length,
            Session.getRemainSendDataSize]
        have fixed' : Fixed { c with
            session := { c.session with sendBuffer }
            sent := c.sent ++ c.session.sendBuffer.content.take
              (min (n + 1) c.session.getRemainSendDataSize) } :=
          ⟨wf, rptr, size.trans fixed.size⟩
        have bytes : c.sent ++ c.session.sendBuffer.content.take
            (min (n + 1) c.session.getRemainSendDataSize) ++ sendBuffer.content =
              c.sent ++ c.session.sendBuffer.content ++ [] := by
          rw [content, List.append_assoc, List.take_append_drop, List.append_nil]
        have left : sendBuffer.getUsedSize = c.session.getRemainSendDataSize - (n + 1) := by omega
        simp only [write, writeBody, if_neg empty, removed, ok_bind]
        by_cases short : min (n + 1) c.session.getRemainSendDataSize <
            c.session.getRemainSendDataSize
        · simp only [if_pos short, ok_bind]
          exact ⟨_, _, rfl, rfl, ⟨rfl, rfl, rfl, rfl⟩, fixed', bytes, left⟩
        · simp only [if_neg short, ok_bind]
          have nothing : sendBuffer.getUsedSize = 0 := by omega
          rw [write_nothing rest]
          · exact ⟨_, _, rfl, rfl, ⟨rfl, rfl, rfl, rfl⟩, fixed', bytes, left⟩
          · exact nothing

theorem waitsForItself_iff (fixed : Fixed c) (len : Nat) :
    waitsForItself c.session.sendBuffer len = true ↔
      4096 < c.session.getRemainSendDataSize + len := by
  have inside := fixed.wellFormed.inside
  rw [fixed.size] at inside
  have grows : waitsForItself c.session.sendBuffer len =
      decide (c.session.sendBuffer.getFreeSize < len) := by
    rw [waitsForItself, Locks.CSyncBuffer.write, Locking.reenters_critical]
    split
    · rename_i less
      simp [less, Locks.CSyncBuffer.resize, Locking.reenters_critical]
    · rename_i more
      simp [more, Locking.reenters]
  rw [grows, decide_eq_true_iff, CSyncBuffer.getFreeSize, Session.getRemainSendDataSize,
    CSyncBuffer.getUsedSize, fixed.size, fixed.start]
  omega

theorem pushSendPacket_cases (fixed : Fixed c) (int : Int → Int) (results : List SendResult)
    (packet : List Byte) :
    if 4096 < c.session.getRemainSendDataSize + packet.length then
      pushSendPacket int results c packet = .ok (c, false)
    else ∃ c', pushSendPacket int results c packet = .ok (c', true) ∧
      c'.session.packetList = c.session.packetList ∧
      Sends c c' packet (drain (c.session.getRemainSendDataSize + packet.length) results) := by
  rw [pushSendPacket]
  split
  · rename_i full
    rw [if_pos ((waitsForItself_iff fixed _).mpr full)]
  · rename_i fits
    rw [if_neg fun waits => fits ((waitsForItself_iff fixed _).mp waits)]
    have inside := fixed.wellFormed.inside
    rw [fixed.size] at inside
    have room : packet.length ≤ c.session.sendBuffer.getFreeSize := by
      simp only [Session.getRemainSendDataSize, CSyncBuffer.getUsedSize, fixed.start] at fits
      rw [CSyncBuffer.getFreeSize, fixed.size]
      omega
    have written := @CSyncBuffer.write_fits _ fixed.wellFormed int _ room
    obtain ⟨wf, content, -, -⟩ := CSyncBuffer.write_content fixed.wellFormed written
    have used := congrArg List.length content
    rw [List.length_append, CSyncBuffer.content_length, CSyncBuffer.content_length] at used
    have stored : Fixed { c with session := { c.session with sendBuffer :=
        { c.session.sendBuffer with
          buffer := c.session.sendBuffer.buffer.put c.session.sendBuffer.wptr packet
          wptr := c.session.sendBuffer.wptr + packet.length } } } :=
      ⟨wf, fixed.start, fixed.size⟩
    obtain ⟨c', ok, sent, queue, sends⟩ := write_sends stored results
    simp only [written, ok_bind, ne_eq, not_true_eq_false, if_false, sent]
    refine ⟨c', rfl, queue, ⟨sends.readBuffer, sends.writeLock, sends.interest, sends.active⟩,
      sends.fixed, ?_, ?_⟩
    · rw [sends.bytes, content, List.append_nil, List.append_assoc]
    · rw [sends.left]
      simp only [Session.getRemainSendDataSize]
      rw [used]

end Writing

/-- The unread bytes after an `update`, `none` when a response does not fit behind them. -/
def backlog (results : Nat → List SendResult) : Nat → Nat → List (List Byte) → Option Nat
  | _, unread, [] => some unread
  | k, unread, packet :: rest =>
    if 4096 < unread + packet.length then none
    else backlog results (k + 1) (drain (unread + packet.length) (results k)) rest

structure Still (c c' : Connection) : Prop where
  sent : c'.sent = c.sent
  sendBuffer : c'.session.sendBuffer = c.session.sendBuffer

theorem Still.refl (c : Connection) : Still c c := ⟨rfl, rfl⟩

theorem Still.trans {c c' c'' : Connection} (first : Still c c') (second : Still c' c'') :
    Still c c'' where
  sent := second.sent.trans first.sent
  sendBuffer := second.sendBuffer.trans first.sendBuffer

/-- What a call of `update` on requests does. It has answered the packets that it has taken out. -/
structure Updates (results : Nat → List SendResult) (k : Nat) (c c' : Connection) (ok : Bool) : Prop
    extends Frame c c' where
  fixed : Fixed c'
  answered : ∃ handled responses, c.session.packetList = handled ++ c'.session.packetList ∧
    List.Forall₂ Session.Answers handled responses ∧
    c'.sent ++ c'.session.sendBuffer.content =
      c.sent ++ c.session.sendBuffer.content ++ responses.flatten ∧
    (handled = [] → Still c c')
  returned : ok = (backlog results k c.session.getRemainSendDataSize c.session.packetList).isSome
  emptied : ok = true → c'.session.packetList = []

theorem dispatchAll_updates {int : Int → Int} {junk : Nat → Nat → Byte}
    {results : Nat → List SendResult} {k : Nat} {packets : List (List Byte)} {c : Connection}
    (requested : ∀ p ∈ packets, Epoll.Request p) (fixed : Fixed c)
    (queued : c.session.packetList = packets) :
    ∃ c' ok, dispatchAll int junk results k packets c = .ok (c', ok) ∧
      Updates results k c c' ok := by
  induction packets generalizing k c with
  | nil =>
    refine ⟨c, true, rfl, ⟨rfl, rfl, rfl, rfl⟩, fixed, ⟨[], [], ?_, .nil, ?_, fun _ => .refl c⟩, ?_,
      fun _ => queued⟩
    · rw [List.nil_append]
    · rw [List.flatten_nil, List.append_nil]
    · rw [queued, backlog, Option.isSome_some]
  | cons packet rest ih =>
    have request := requested packet List.mem_cons_self
    obtain ⟨handler, found, size⟩ := request.handler
    have long : ¬ packet.length < 4 := Nat.not_lt.mpr request.handled.1
    have length : (handler.response (junk k)).length = packet.length := by
      rw [Handler.response_length, size]
    have pushed := pushSendPacket_cases fixed int (results k) (handler.response (junk k))
    rw [length] at pushed
    simp only [dispatchAll, dispatch, if_neg long, found]
    split at pushed
    · rename_i full
      rw [pushed, ok_bind]
      refine ⟨c, false, rfl, ⟨rfl, rfl, rfl, rfl⟩, fixed, ⟨[], [], rfl, .nil, ?_, fun _ => .refl c⟩, ?_,
        fun never => nomatch never⟩
      · rw [List.flatten_nil, List.append_nil]
      · rw [queued, backlog, if_pos full, Option.isSome_none]
    · rename_i fits
      obtain ⟨next, done, -, sends⟩ := pushed
      obtain ⟨c', ok, more, updates⟩ := ih (k := k + 1)
        (c := { next with session := { next.session with packetList := rest } })
        (fun p member => requested p (List.mem_cons_of_mem _ member))
        ⟨sends.fixed.wellFormed, sends.fixed.start, sends.fixed.size⟩ rfl
      obtain ⟨handled, responses, parts, answered, bytes, -⟩ := updates.answered
      have after : Frame next c' :=
        ⟨updates.readBuffer, updates.writeLock, updates.interest, updates.active⟩
      rw [done, ok_bind]
      refine ⟨c', ok, more, sends.toFrame.trans after, updates.fixed,
        ⟨packet :: handled, handler.response (junk k) :: responses, ?_,
          .cons ⟨handler, junk k, found, rfl⟩ answered, ?_, fun never => nomatch never⟩, ?_,
        updates.emptied⟩
      · rw [queued, List.cons_append]
        exact congrArg _ parts
      · rw [bytes, List.flatten_cons, ← List.append_assoc, ← sends.bytes]
      · rw [updates.returned, queued, backlog, if_neg fits, ← sends.left]
        rfl

end Sometest.SingleThread
