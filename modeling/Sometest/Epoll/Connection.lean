import Sometest.Net.Session

/-! CTcpConnection.h, CTcpConnection.cpp and the event handling of
CIOCPWorkThread.cpp in the epoll server. The results of `recv`, `send` and
`epoll_ctl` are arguments. -/
namespace Sometest.Epoll
open Sometest.Net

/-- The events that the one-shot registration still waits for. Error events and
`EPOLLRDHUP` are left out. -/
structure Interest where
  epollIn : Bool
  epollOut : Bool
  deriving DecidableEq, Repr

/-- `sent` is what the socket has accepted so far. -/
structure Connection where
  session : Session
  readBuffer : CircularBuffer
  readLock : Nat
  writeLock : Nat
  interest : Interest
  sent : List Byte

/-- A call of `recv` that returns these bytes, that returns `EAGAIN`, or that fails. -/
inductive RecvResult where
  | data (bytes : List Byte)
  | again
  | failed

/-- A call of `send` that accepts `n + 1` of the offered bytes, or all when there
are fewer, that returns `EAGAIN`, or that fails. -/
inductive SendResult where
  | accepted (n : Nat)
  | again
  | failed

namespace Connection

def init (fresh : Nat → Byte) : Connection :=
  ⟨.init, .init 4096 fresh, 0, 0, ⟨true, false⟩, []⟩

def tryAcquireReadLock (c : Connection) : Connection × Bool :=
  ({ c with readLock := (compareAndSwap c.readLock 1 0).1 }, (compareAndSwap c.readLock 1 0).2)

def releaseReadLock (c : Connection) : Connection :=
  { c with readLock := (compareAndSwap c.readLock 0 1).1 }

def tryAcquireWriteLock (c : Connection) : Connection × Bool :=
  ({ c with writeLock := (compareAndSwap c.writeLock 1 0).1 }, (compareAndSwap c.writeLock 1 0).2)

def releaseWriteLock (c : Connection) : Connection :=
  { c with writeLock := (compareAndSwap c.writeLock 0 1).1 }

def onRead (bound : Nat) (c : Connection) : Except Fault Connection :=
  if c.session.active then do
    let (readBuffer, packetList) ← extractPackets bound c.readBuffer c.session.packetList
    .ok { c with readBuffer, session := { c.session with packetList } }
  else .ok c

def readWindow (c : Connection) : Nat := min 4096 c.readBuffer.getFreeSpaceSize

def storeReceived (bound : Nat) (bytes : List Byte) (c : Connection) : Except Fault Connection :=
  if c.session.active then do
    let readBuffer ← c.readBuffer.write bytes
    onRead bound { c with readBuffer }
  else .ok c

/-- The loop body of `Read`; `none` when the loop goes on, else what `Read` returns.
With an empty window the loop would spin without another `recv`. -/
def readBody (bound : Nat) (c : Connection) (result : RecvResult) :
    Except Fault (Connection × Option Bool) :=
  if c.readWindow = 0 then .error .bound
  else
    match result with
    | .again => .ok (c.releaseReadLock.releaseReadLock, some true)
    | .failed => .ok (c.releaseReadLock, some false)
    | .data bytes => do
      let next ← c.storeReceived bound bytes
      if bytes.length < c.readWindow then .ok (next.releaseReadLock, some true)
      else .ok (next, none)

/-- When the list is used up, `recv` returns `EAGAIN`. -/
def readLoop (bound : Nat) : List RecvResult → Connection → Except Fault (Connection × Bool)
  | [], c => do
    let (c, returned) ← c.readBody bound .again
    .ok (c, returned.getD true)
  | result :: rest, c => do
    match ← c.readBody bound result with
    | (c, some returned) => .ok (c, returned)
    | (c, none) => readLoop bound rest c

def read (bound : Nat) (results : List RecvResult) (c : Connection) :
    Except Fault (Connection × Bool) :=
  match c.tryAcquireReadLock with
  | (c, true) => c.readLoop bound results
  | (c, false) => .ok (c.releaseReadLock, true)

/-- The loop body of `Write`; `none` when the loop goes on, else what `Write`
returns. With nothing to send the result of `send` is not asked for. -/
def writeBody (c : Connection) (result : SendResult) : Except Fault (Connection × Option Bool) :=
  if c.session.getRemainSendDataSize = 0 then .ok (c.releaseWriteLock, some true)
  else
    match result with
    | .again => .ok (c.releaseWriteLock.releaseWriteLock, some true)
    | .failed => .ok (c, some false)
    | .accepted n => do
      let len := min (n + 1) c.session.getRemainSendDataSize
      let session ← c.session.removeSendData len
      let next := { c with session, sent := c.sent ++ c.session.sendBuffer.content.take len }
      if len < c.session.getRemainSendDataSize then .ok (next.releaseWriteLock, some true)
      else .ok (next, none)

def write : List SendResult → Connection → Except Fault (Connection × Bool)
  | [], c => do
    let (c, returned) ← c.writeBody .again
    .ok (c, returned.getD true)
  | result :: rest, c => do
    match ← c.writeBody result with
    | (c, some returned) => .ok (c, returned)
    | (c, none) => write rest c

/-- `ctl` says whether `epoll_ctl` succeeds. -/
def modifyRegistInfo (ctl checkWrite : Bool) (c : Connection) : Connection × Bool :=
  if checkWrite ∧ 0 < c.session.getRemainSendDataSize then
    let c := c.tryAcquireWriteLock.1
    (if ctl then { c with interest := ⟨true, true⟩ } else c, ctl)
  else (if ctl then { c with interest := ⟨true, false⟩ } else c, ctl)

def doPushSend (ctl : Bool) (c : Connection) : Connection × Bool :=
  if c.session.pushSend then
    match { c with session := { c.session with pushSend := false } }.tryAcquireWriteLock with
    | (c, true) => c.modifyRegistInfo ctl true
    | (c, false) => (c, true)
  else (c, true)

/-- The removal from the manager is left out. -/
def close (c : Connection) : Connection := { c with session := c.session.kill }

/-- What the loop of `Kernel` does about one event that is no error; `false` when
it closes the connection. -/
def kernel (bound : Nat) (event : Interest) (recvs : List RecvResult) (sends : List SendResult)
    (ctl : Bool) (c : Connection) : Except Fault (Connection × Bool) := do
  let (c, readOk) ← (if event.epollIn then c.read bound recvs else .ok (c, true))
  let (c, writeOk) ← (if event.epollOut then c.write sends else .ok (c, true))
  if readOk && writeOk then .ok ((c.modifyRegistInfo ctl false).1, true)
  else .ok (c.close, false)

section PushSend
variable {c : Connection} (ctl : Bool)

theorem doPushSend_unset (unset : c.session.pushSend = false) : c.doPushSend ctl = (c, true) := by
  rw [doPushSend, if_neg (by rw [unset]; exact Bool.false_ne_true)]

theorem doPushSend_held (set : c.session.pushSend = true) (held : c.writeLock ≠ 0) :
    c.doPushSend ctl = ({ c with session := { c.session with pushSend := false } }, true) := by
  simp only [doPushSend, if_pos set, tryAcquireWriteLock, compareAndSwap, if_neg held]

theorem doPushSend_free (set : c.session.pushSend = true) (free : c.writeLock = 0) :
    c.doPushSend ctl =
      { c with session := { c.session with pushSend := false }, writeLock := 1 }.modifyRegistInfo
        ctl true := by
  simp only [doPushSend, if_pos set, tryAcquireWriteLock, compareAndSwap, if_pos free]

end PushSend

end Connection
end Sometest.Epoll
