import Sometest.Net.Session

/-! CTcpConnection.h, CTcpConnection.cpp and CIOCPWorkThread.cpp in the IOCP port. What the overlapped
calls return is an argument; the operations that are under way belong to the state. -/
namespace Sometest.Iocp
open Sometest.Net

/-- A `WSASend` under way: the region it was posted with and the bytes there. -/
structure Posted where
  alloc : Nat
  off : Nat
  bytes : List Byte
  deriving DecidableEq

/-- `sends` and `recvs` are the operations under way, `recvs` with their windows.
`closes` counts the calls of `closesocket`. -/
structure Connection where
  session : Session
  readBuffer : CircularBuffer
  writeLock : Nat
  sends : List Posted
  recvs : List Nat
  closes : Nat

namespace Connection

def init (fresh : Nat → Byte) : Connection := ⟨.init, .init 4096 fresh, 0, [], [], 0⟩

def tryAcquireWriteLock (c : Connection) : Connection × Bool :=
  ({ c with writeLock := (compareAndSwap c.writeLock 1 0).1 }, (compareAndSwap c.writeLock 1 0).2)

def releaseWriteLock (c : Connection) : Connection :=
  { c with writeLock := (compareAndSwap c.writeLock 0 1).1 }

def close (c : Connection) : Connection :=
  { c with closes := c.closes + 1, session := c.session.kill }

/-- `WSASend` with `getSendData()` and `getRemainSendDataSize()`. -/
def postSend (c : Connection) : Connection :=
  { c with sends := c.sends ++
      [⟨c.session.sendBuffer.alloc, c.session.sendBuffer.rptr, c.session.sendBuffer.content⟩] }

/-- `accepts` says whether `WSASend` takes the request. -/
def startNextWrite (accepts : Bool) (lastWriteLen : Nat) (c : Connection) :
    Except Fault (Connection × Bool) := do
  let session ← if 0 ≠ lastWriteLen then c.session.removeSendData lastWriteLen else .ok c.session
  let c := { c with session }
  if 0 = c.session.getRemainSendDataSize then .ok (c.releaseWriteLock, true)
  else if accepts then .ok (c.postSend, true)
  else .ok (c.close, false)

def onRead (bound : Nat) (c : Connection) : Except Fault Connection :=
  if c.session.active then do
    let (readBuffer, packetList) ← extractPackets bound c.readBuffer c.session.packetList
    .ok { c with readBuffer, session := { c.session with packetList } }
  else .ok c

def readWindow (c : Connection) : Nat := min 4096 c.readBuffer.getFreeSpaceSize

/-- What `startNextRead` does with the bytes of the last read. -/
def storeReceived (bound : Nat) (bytes : List Byte) (c : Connection) : Except Fault Connection :=
  if 0 ≠ bytes.length ∧ c.session.active then do
    let readBuffer ← c.readBuffer.write bytes
    onRead bound { c with readBuffer }
  else .ok c

/-- `bytes` are the first `lastReadLen` bytes of `temporyReadBuffer_`. -/
def startNextRead (bound : Nat) (accepts : Bool) (bytes : List Byte) (c : Connection) :
    Except Fault (Connection × Bool) := do
  let c ← c.storeReceived bound bytes
  if accepts then .ok ({ c with recvs := c.recvs ++ [c.readWindow] }, true)
  else .ok (c.close, false)

def doPushSend (accepts : Bool) (c : Connection) : Except Fault (Connection × Bool) :=
  if c.session.pushSend then
    match { c with session := { c.session with pushSend := false } }.tryAcquireWriteLock with
    | (c, true) => c.startNextWrite accepts 0
    | (c, false) => .ok (c, true)
  else .ok (c, true)

/-- As `CIOCPWorkThread::Kernel` dispatches it. `none` is a failure with `ERROR_NETNAME_DELETED`. -/
def readCompleted (bound : Nat) (accepts : Bool) (result : Option (List Byte)) (c : Connection) :
    Except Fault Connection :=
  match result with
  | some bytes =>
    if 0 < bytes.length then do
      let (c, _) ← c.startNextRead bound accepts bytes
      .ok c
    else .ok c.close
  | none => .ok c.close

def writeCompleted (accepts : Bool) (result : Option Nat) (c : Connection) :
    Except Fault Connection :=
  match result with
  | some n => do
    let (c, _) ← c.startNextWrite accepts n
    .ok c
  | none => .ok c.close

/-- `startNextWrite` goes on as after an acquisition once the bytes are removed. -/
theorem startNextWrite_removed {c : Connection} {accepts : Bool} {n : Nat} {session : Session}
    (removes : 0 ≠ n) (removed : c.session.removeSendData n = .ok session) :
    c.startNextWrite accepts n = { c with session }.startNextWrite accepts 0 := by
  simp only [startNextWrite, if_pos removes, removed, ok_bind, ne_eq, not_true_eq_false, if_false]

section PushSend
variable {c : Connection}

theorem doPushSend_unset (unset : c.session.pushSend = false) (accepts : Bool) :
    c.doPushSend accepts = .ok (c, true) := by
  rw [doPushSend, if_neg (by rw [unset]; exact Bool.false_ne_true)]

theorem doPushSend_held (set : c.session.pushSend = true) (held : c.writeLock ≠ 0)
    (accepts : Bool) : c.doPushSend accepts =
      .ok ({ c with session := { c.session with pushSend := false } }, true) := by
  simp only [doPushSend, if_pos set, tryAcquireWriteLock, compareAndSwap,
    if_neg held]

theorem doPushSend_free (set : c.session.pushSend = true) (free : c.writeLock = 0)
    (accepts : Bool) : c.doPushSend accepts =
      { c with session := { c.session with pushSend := false }, writeLock := 1 }.startNextWrite
        accepts 0 := by
  simp only [doPushSend, if_pos set, tryAcquireWriteLock, compareAndSwap,
    if_pos free]

end PushSend

end Connection
end Sometest.Iocp
