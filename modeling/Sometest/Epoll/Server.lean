import Sometest.Lib.Run
import Sometest.Epoll.Connection

/-! One active connection of the epoll server as a state machine. A `Read` call is
split at its `recv` calls, so that other steps may come in between. -/
namespace Sometest.Epoll
open Sometest.Net

/-- `received` is what `recv` has returned so far, `handled` the packets that
`update` has dispatched. -/
structure Server where
  conn : Connection
  reading : Bool
  received : List Byte
  handled : List (List Byte)

def Server.start (fresh : Nat → Byte) : Server := ⟨.init fresh, false, [], []⟩

inductive Event where
  | enterRead
  | recv (result : RecvResult)
  | update (junk : Nat → Nat → Byte)
  | doPushSend (ctl : Bool)
  | write (results : List SendResult)

/-- One `Read` call at a time, and `recv` returns at most what it was asked for. -/
def Enabled (s : Server) : Event → Prop
  | .enterRead => s.reading = false
  | .recv (.data bytes) => s.reading = true ∧ bytes ≠ [] ∧ bytes.length ≤ s.conn.readWindow
  | .recv _ => s.reading = true
  | _ => True

instance (s : Server) : (e : Event) → Decidable (Enabled s e)
  | .enterRead => inferInstanceAs (Decidable (s.reading = false))
  | .recv (.data bytes) => inferInstanceAs
      (Decidable (s.reading = true ∧ bytes ≠ [] ∧ bytes.length ≤ s.conn.readWindow))
  | .recv .again => inferInstanceAs (Decidable (s.reading = true))
  | .recv .failed => inferInstanceAs (Decidable (s.reading = true))
  | .update _ => isTrue trivial
  | .doPushSend _ => isTrue trivial
  | .write _ => isTrue trivial

def RecvResult.bytes : RecvResult → List Byte
  | .data bytes => bytes
  | .again => []
  | .failed => []

/-- `bound` limits the loop of `onRead`, `int` is the arithmetic of `int`. -/
def step (bound : Nat) (int : Int → Int) (s : Server) : Event → Except Fault Server
  | .enterRead =>
    match s.conn.tryAcquireReadLock with
    | (conn, true) => .ok { s with conn, reading := true }
    | (conn, false) => .ok { s with conn := conn.releaseReadLock }
  | .recv result => do
    let (conn, returned) ← s.conn.readBody bound result
    .ok { s with
      conn
      reading := returned.isNone
      received := s.received ++ result.bytes }
  | .update junk => do
    let session ← s.conn.session.update int junk
    .ok { s with
      conn := { s.conn with session }
      handled := s.handled ++ if s.conn.session.active then s.conn.session.packetList else [] }
  | .doPushSend ctl => .ok { s with conn := (s.conn.doPushSend ctl).1 }
  | .write results => do
    let (conn, _) ← s.conn.write results
    .ok { s with conn }

/-- No outcome for an event that cannot occur, and after a fault. -/
def transition (bound : Nat) (int : Int → Int) (s : Server) (e : Event) : Option Server :=
  if Enabled s e then (step bound int s e).toOption else none

theorem transition_eq_some {bound : Nat} {int : Int → Int} {s s' : Server} {e : Event} :
    transition bound int s e = some s' ↔ Enabled s e ∧ step bound int s e = .ok s' := by
  rw [transition]
  split
  · rename_i enabled
    cases step bound int s e <;> simp [Except.toOption, enabled]
  · rename_i disabled
    simp [disabled]

namespace Connection

/-- What `Read` leaves alone. -/
structure WasRead (c c' : Connection) : Prop where
  sendBuffer : c'.session.sendBuffer = c.session.sendBuffer
  pushSend : c'.session.pushSend = c.session.pushSend
  writeLock : c'.writeLock = c.writeLock
  interest : c'.interest = c.interest
  sent : c'.sent = c.sent

theorem WasRead.refl (c : Connection) : WasRead c c := ⟨rfl, rfl, rfl, rfl, rfl⟩

theorem WasRead.trans {c c' c'' : Connection} (first : WasRead c c') (second : WasRead c' c'') :
    WasRead c c'' where
  sendBuffer := second.sendBuffer.trans first.sendBuffer
  pushSend := second.pushSend.trans first.pushSend
  writeLock := second.writeLock.trans first.writeLock
  interest := second.interest.trans first.interest
  sent := second.sent.trans first.sent

theorem onRead_frame {bound : Nat} {c c' : Connection} (ran : c.onRead bound = .ok c') :
    WasRead c c' := by
  rw [onRead] at ran
  split at ran
  · obtain ⟨⟨readBuffer, packetList⟩, -, same⟩ := bind_eq_ok.mp ran
    cases same
    exact ⟨rfl, rfl, rfl, rfl, rfl⟩
  · cases ran
    exact .refl c

theorem storeReceived_frame {bound : Nat} {bytes : List Byte} {c c' : Connection}
    (stored : c.storeReceived bound bytes = .ok c') : WasRead c c' := by
  rw [storeReceived] at stored
  split at stored
  · obtain ⟨readBuffer, -, extracted⟩ := bind_eq_ok.mp stored
    have frame := onRead_frame extracted
    exact ⟨frame.sendBuffer, frame.pushSend, frame.writeLock, frame.interest, frame.sent⟩
  · cases stored
    exact .refl c

theorem readBody_frame {bound : Nat} {result : RecvResult} {c : Connection}
    {out : Connection × Option Bool} (ran : c.readBody bound result = .ok out) :
    WasRead c out.1 := by
  unfold readBody at ran
  split at ran
  · cases ran
  · cases result with
    | again =>
      cases ran
      exact ⟨rfl, rfl, rfl, rfl, rfl⟩
    | failed =>
      cases ran
      exact ⟨rfl, rfl, rfl, rfl, rfl⟩
    | data bytes =>
      obtain ⟨next, stored, rest⟩ := bind_eq_ok.mp ran
      have frame := storeReceived_frame stored
      split at rest
      · cases rest
        exact ⟨frame.sendBuffer, frame.pushSend, frame.writeLock, frame.interest, frame.sent⟩
      · cases rest
        exact frame

theorem readLoop_frame {bound : Nat} {results : List RecvResult} {c : Connection}
    {out : Connection × Bool} (ran : c.readLoop bound results = .ok out) : WasRead c out.1 := by
  induction results generalizing c with
  | nil =>
    obtain ⟨⟨next, returned⟩, body, same⟩ := bind_eq_ok.mp ran
    cases same
    exact readBody_frame body
  | cons result rest ih =>
    obtain ⟨⟨next, returned⟩, body, more⟩ := bind_eq_ok.mp ran
    have frame := readBody_frame body
    cases returned with
    | some returned =>
      cases more
      exact frame
    | none => exact frame.trans (ih more)

theorem read_frame {bound : Nat} {results : List RecvResult} {c : Connection}
    {out : Connection × Bool} (ran : c.read bound results = .ok out) : WasRead c out.1 := by
  rw [read] at ran
  split at ran
  · rename_i next acquired
    obtain ⟨rfl, -⟩ := Prod.mk.inj acquired
    have frame := readLoop_frame ran
    exact ⟨frame.sendBuffer, frame.pushSend, frame.writeLock, frame.interest, frame.sent⟩
  · rename_i next acquired
    obtain ⟨rfl, -⟩ := Prod.mk.inj acquired
    cases ran
    exact ⟨rfl, rfl, rfl, rfl, rfl⟩

/-- What `Write` leaves alone, and that it neither loses nor invents a byte. -/
structure Wrote (c c' : Connection) : Prop where
  readBuffer : c'.readBuffer = c.readBuffer
  readLock : c'.readLock = c.readLock
  interest : c'.interest = c.interest
  active : c'.session.active = c.session.active
  packetList : c'.session.packetList = c.session.packetList
  pushSend : c'.session.pushSend = c.session.pushSend
  wellFormed : c'.session.sendBuffer.WellFormed
  size : c'.session.sendBuffer.buffer.size = c.session.sendBuffer.buffer.size
  bytes : c'.sent ++ c'.session.sendBuffer.content = c.sent ++ c.session.sendBuffer.content
  rptr : c.session.sendBuffer.rptr = 0 → c'.session.sendBuffer.rptr = 0

theorem wrote_release {c c' : Connection} (wrote : Wrote c c') : Wrote c c'.releaseWriteLock :=
  ⟨wrote.readBuffer, wrote.readLock, wrote.interest, wrote.active, wrote.packetList, wrote.pushSend,
    wrote.wellFormed, wrote.size, wrote.bytes, wrote.rptr⟩

theorem Wrote.trans {c c' c'' : Connection} (first : Wrote c c') (second : Wrote c' c'') :
    Wrote c c'' where
  readBuffer := second.readBuffer.trans first.readBuffer
  readLock := second.readLock.trans first.readLock
  interest := second.interest.trans first.interest
  active := second.active.trans first.active
  packetList := second.packetList.trans first.packetList
  pushSend := second.pushSend.trans first.pushSend
  wellFormed := second.wellFormed
  size := second.size.trans first.size
  bytes := second.bytes.trans first.bytes
  rptr := fun start => second.rptr (first.rptr start)

theorem writeBody_spec {result : SendResult} {c : Connection}
    (wf : c.session.sendBuffer.WellFormed) :
    ∃ c' returned, c.writeBody result = .ok (c', returned) ∧ Wrote c c' := by
  have same : Wrote c c := ⟨rfl, rfl, rfl, rfl, rfl, rfl, wf, rfl, rfl, id⟩
  unfold writeBody
  split
  · exact ⟨_, _, rfl, wrote_release same⟩
  · cases result with
    | again => exact ⟨_, _, rfl, wrote_release (wrote_release same)⟩
    | failed => exact ⟨_, _, rfl, same⟩
    | accepted n =>
      obtain ⟨sendBuffer, removed, wf', content, -, size, rptr⟩ :=
        Session.removeSendData_spec wf (Nat.min_le_right (n + 1) c.session.getRemainSendDataSize)
      have moved : Wrote c { c with
          session := { c.session with sendBuffer }
          sent := c.sent ++
            c.session.sendBuffer.content.take (min (n + 1) c.session.getRemainSendDataSize) } := by
        refine ⟨rfl, rfl, rfl, rfl, rfl, rfl, wf', size, ?_, fun _ => rptr⟩
        simp only [content, List.append_assoc, List.take_append_drop]
      simp only [removed, ok_bind]
      split
      · exact ⟨_, _, rfl, wrote_release moved⟩
      · exact ⟨_, _, rfl, moved⟩

theorem write_spec {results : List SendResult} {c : Connection}
    (wf : c.session.sendBuffer.WellFormed) :
    ∃ c' ok, c.write results = .ok (c', ok) ∧ Wrote c c' := by
  induction results generalizing c with
  | nil =>
    obtain ⟨c', returned, ran, wrote⟩ := @writeBody_spec .again c wf
    refine ⟨c', returned.getD true, ?_, wrote⟩
    rw [write, ran, ok_bind]
  | cons result rest ih =>
    obtain ⟨next, returned, ran, wrote⟩ := @writeBody_spec result c wf
    rw [write, ran, ok_bind]
    cases returned with
    | some ok => exact ⟨next, ok, rfl, wrote⟩
    | none =>
      obtain ⟨c', ok, more, wrote'⟩ := ih wrote.wellFormed
      exact ⟨c', ok, more, wrote.trans wrote'⟩

theorem writeBody_sent {c : Connection} {result : SendResult} {out : Connection × Option Bool}
    (ran : c.writeBody result = .ok out) : c.sent <+: out.1.sent := by
  rw [writeBody.eq_def] at ran
  split at ran
  · cases ran
    exact List.prefix_refl _
  · cases result with
    | again =>
      cases ran
      exact List.prefix_refl _
    | failed =>
      cases ran
      exact List.prefix_refl _
    | accepted n =>
      obtain ⟨session, -, rest⟩ := bind_eq_ok.mp ran
      split at rest
      · cases rest
        exact List.prefix_append _ _
      · cases rest
        exact List.prefix_append _ _

theorem write_sent {c : Connection} {results : List SendResult} {out : Connection × Bool}
    (ran : c.write results = .ok out) : c.sent <+: out.1.sent := by
  induction results generalizing c with
  | nil =>
    obtain ⟨⟨next, returned⟩, body, same⟩ := bind_eq_ok.mp ran
    cases same
    exact writeBody_sent body
  | cons result rest ih =>
    obtain ⟨⟨next, returned⟩, body, more⟩ := bind_eq_ok.mp ran
    cases returned with
    | some returned =>
      cases more
      exact writeBody_sent body
    | none => exact (writeBody_sent body).trans (ih more)

/-- What `doPushSend` leaves alone. -/
structure Pushed (c c' : Connection) : Prop where
  readBuffer : c'.readBuffer = c.readBuffer
  readLock : c'.readLock = c.readLock
  sent : c'.sent = c.sent
  active : c'.session.active = c.session.active
  packetList : c'.session.packetList = c.session.packetList
  sendBuffer : c'.session.sendBuffer = c.session.sendBuffer

theorem modifyRegistInfo_frame (ctl checkWrite : Bool) (c : Connection) :
    Pushed c (c.modifyRegistInfo ctl checkWrite).1 := by
  rw [modifyRegistInfo]
  cases ctl <;> split <;> exact ⟨rfl, rfl, rfl, rfl, rfl, rfl⟩

theorem doPushSend_frame (ctl : Bool) (c : Connection) : Pushed c (c.doPushSend ctl).1 := by
  rw [doPushSend]
  split
  · split
    · rename_i next acquired
      obtain ⟨rfl, -⟩ := Prod.mk.inj acquired
      have frame := modifyRegistInfo_frame ctl true { c with
        session := { c.session with pushSend := false }
        writeLock := (compareAndSwap c.writeLock 1 0).1 }
      exact ⟨frame.readBuffer, frame.readLock, frame.sent, frame.active, frame.packetList,
        frame.sendBuffer⟩
    · rename_i next acquired
      obtain ⟨rfl, -⟩ := Prod.mk.inj acquired
      exact ⟨rfl, rfl, rfl, rfl, rfl, rfl⟩
  · exact ⟨rfl, rfl, rfl, rfl, rfl, rfl⟩

end Connection
end Sometest.Epoll
