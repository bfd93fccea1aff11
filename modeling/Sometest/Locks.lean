import Sometest.Lib.Locking

/-! The mutexes that the threads of the three servers acquire and release, call by call. They are
recursive in IoCompletePort/, plain in singlethread/, and in src/ what Mutex.h makes of them. -/
namespace Sometest.Locks
open Locking (Op critical Within Bracketed Upward Level reenters)

/-- `CTcpConnectionMgr::mutex_`, the mutex of `watingSesion_`, and `Session::mutex_` and the one
of `sendBuffer_` for each connection. -/
inductive Lock where
  | manager
  | waiting
  | session (c : Nat)
  | sendBuffer (c : Nat)
  deriving DecidableEq

inductive Port where
  | epoll
  | iocp
  | singleThread
  deriving DecidableEq

/-- Mutex.h of src/ sets the type in an attribute that it has not initialised: `settype` says
whether the mutexes become recursive by it. That they work at all is assumed. -/
def Port.recursive (settype : Bool) : Port → Bool
  | .epoll => settype
  | .iocp => true
  | .singleThread => false

/-- A response: whether `CSyncBuffer::write` has to grow the buffer for it, and how often
the `Write` that follows in singlethread/ removes bytes that `send` has accepted. -/
structure Response where
  grows : Bool
  sends : Nat

namespace CSyncBuffer

def resize (c : Nat) : List (Op Lock) := critical (.sendBuffer c) []

def write (c : Nat) (grows : Bool) : List (Op Lock) :=
  critical (.sendBuffer c) (if grows then resize c else [])

def remove (c : Nat) : List (Op Lock) := critical (.sendBuffer c) []

def restoration (c : Nat) : List (Op Lock) := critical (.sendBuffer c) []

end CSyncBuffer

namespace Session

def pushPacket (c : Nat) : List (Op Lock) := critical (.session c) []

def removeSendData (c : Nat) : List (Op Lock) := CSyncBuffer.remove c ++ CSyncBuffer.restoration c

end Session

namespace CTcpConnectionMgr

def removeConnection : List (Op Lock) := critical .manager []

/-- In the IOCP port the first read is posted under the lock, and `close` follows when it is
refused. -/
def addConnection (port : Port) (refused : Bool) : List (Op Lock) :=
  critical .manager (if port = .iocp ∧ refused then removeConnection else [])

end CTcpConnectionMgr

namespace CTcpConnection

/-- `Read`, or the part of `startNextRead` that stores what has arrived. -/
def read (c packets : Nat) : List (Op Lock) :=
  (List.replicate packets ()).flatMap fun _ => Session.pushPacket c

/-- `Write`, or the part of `startNextWrite` that removes what was sent. -/
def write (c sends : Nat) : List (Op Lock) :=
  (List.replicate sends ()).flatMap fun _ => Session.removeSendData c

def close : List (Op Lock) := CTcpConnectionMgr.removeConnection

/-- Only in the IOCP port the request is posted at once, and may be refused. -/
def doPushSend (port : Port) (refused : Bool) : List (Op Lock) :=
  if port = .iocp ∧ refused then close else []

end CTcpConnection

namespace Session

def pushSendPacket (port : Port) (c : Nat) (response : Response) : List (Op Lock) :=
  CSyncBuffer.write c response.grows ++
    if port = .singleThread then CTcpConnection.write c response.sends else []

def update (port : Port) (c : Nat) (responses : List Response) : List (Op Lock) :=
  critical (.session c) (responses.flatMap (pushSendPacket port c))

end Session

/-- `enqueue` or `deEnqueue`. -/
def CSyncQueue.access : List (Op Lock) := critical .waiting []

/-- What a thread does between two times at which it holds no mutex: the listener, a worker on
one event or completion, `PushSendThread` in one pass, and whoever runs `CSessionMgr::update`,
which finds `drained` new sessions and has responses of some sessions to send. -/
inductive Call where
  | onAccept (refused : Bool)
  | event (c packets sends : Nat) (closes : Bool)
  | pushPass (refused : List Bool)
  | update (drained : Nat) (sessions : List (Nat × List Response))

def Call.locks (port : Port) : Call → List (Op Lock)
  | .onAccept refused =>
    if port = .iocp then CTcpConnectionMgr.addConnection port refused ++ CSyncQueue.access
    else CSyncQueue.access ++ CTcpConnectionMgr.addConnection port refused
  | .event c packets sends closes =>
    CTcpConnection.read c packets ++ CTcpConnection.write c sends ++
      if closes then CTcpConnection.close else []
  | .pushPass refused => critical .manager (refused.flatMap (CTcpConnection.doPushSend port))
  | .update drained sessions =>
    (List.replicate (drained + 1) ()).flatMap (fun _ => CSyncQueue.access) ++
      sessions.flatMap fun s => Session.update port s.1 s.2

def program (port : Port) (calls : List Call) : List (Op Lock) := calls.flatMap (Call.locks port)

/-- The one nesting of different mutexes is the send buffer's inside of the session's. -/
def rank : Lock → Nat
  | .manager => 0
  | .waiting => 0
  | .session _ => 1
  | .sendBuffer _ => 2

/-- A call that makes a send buffer grow. -/
def Call.grows : Call → Bool
  | .update _ sessions => sessions.any fun s => s.2.any Response.grows
  | _ => false

/-- The acquisitions of the source: upwards, again where the mutexes are recursive, or the second
one of a `write` that grows. -/
def Nested (settype : Bool) (port : Port) (grows : Bool) (held : List Lock) (l : Lock) : Prop :=
  Upward (port.recursive settype) rank held l ∨ grows = true

section Nesting
variable {settype grows : Bool} {port : Port} {held : List Lock} {c : Nat}

theorem nested_free {l : Lock} : Nested settype port grows [] l := .inl (.inl (by simp))

theorem within_free (l : Lock) : Within (Nested settype port grows) [] (critical l []) :=
  .critical nested_free Locking.within_nil

theorem within_sendBuffer (above : ∀ h ∈ held, rank h < 2) :
    Within (Nested settype port grows) held (critical (.sendBuffer c) []) :=
  .critical (.inl (.inl above)) Locking.within_nil

theorem within_write (above : ∀ h ∈ held, rank h < 2) {wide : Bool}
    (known : wide = true → port.recursive settype = true ∨ grows = true) :
    Within (Nested settype port grows) held (CSyncBuffer.write c wide) := by
  refine .critical (.inl (.inl above)) ?_
  split
  · rename_i large
    refine .critical ?_ Locking.within_nil
    rcases known large with again | allowed
    · exact .inl (.inr ⟨again, List.mem_cons_self⟩)
    · exact .inr allowed
  · exact Locking.within_nil

theorem within_sends (above : ∀ h ∈ held, rank h < 2) (sends : Nat) :
    Within (Nested settype port grows) held (CTcpConnection.write c sends) :=
  .flatMap fun _ _ => (within_sendBuffer above).append (within_sendBuffer above)

theorem within_update {responses : List Response}
    (known : ∀ r ∈ responses, r.grows = true → port.recursive settype = true ∨ grows = true) :
    Within (Nested settype port grows) [] (Session.update port c responses) := by
  refine .critical nested_free (.flatMap fun response member => ?_)
  have above : ∀ h ∈ [Lock.session c], rank h < 2 := by simp [rank]
  refine (within_write above (known response member)).append ?_
  split
  · exact within_sends above response.sends
  · exact Locking.within_nil

/-- The nested acquisition of `close` under the manager's own lock, which only the IOCP port has. -/
theorem within_close {refused : Bool} :
    Within (Nested settype port grows) [.manager]
      (if port = .iocp ∧ refused then CTcpConnection.close else []) := by
  split
  · rename_i again
    obtain ⟨rfl, -⟩ := again
    exact .critical (.inl (.inr ⟨rfl, List.mem_cons_self⟩)) Locking.within_nil
  · exact Locking.within_nil

theorem within_call {call : Call}
    (known : call.grows = true → port.recursive settype = true ∨ grows = true) :
    Within (Nested settype port grows) [] (call.locks port) := by
  cases call with
  | onAccept refused =>
    have add : Within (Nested settype port grows) [] (CTcpConnectionMgr.addConnection port refused) :=
      .critical nested_free within_close
    simp only [Call.locks]
    split
    · exact add.append (within_free _)
    · exact (within_free _).append add
  | event c packets sends closes =>
    refine .append (.append ?_ (within_sends (by simp) sends)) ?_
    · exact .flatMap fun _ _ => within_free _
    · split
      · exact within_free _
      · exact Locking.within_nil
  | pushPass refused => exact .critical nested_free (.flatMap fun _ _ => within_close)
  | update drained sessions =>
    refine .append (.flatMap fun _ _ => within_free _) (.flatMap fun s member => within_update ?_)
    intro r there wide
    refine known ?_
    simp only [Call.grows, List.any_eq_true]
    exact ⟨s, member, r, there, wide⟩

theorem within_program {calls : List Call}
    (known : ∀ call ∈ calls, call.grows = true → port.recursive settype = true ∨ grows = true) :
    Within (Nested settype port grows) [] (program port calls) :=
  .flatMap fun call member => within_call (known call member)

theorem bracketed_any (port : Port) (calls : List Call) :
    Bracketed (fun _ _ => True) [] (program port calls) := by
  have within : Within (Nested false port true) [] (program port calls) :=
    within_program fun _ _ _ => .inr rfl
  exact within.bracketed.mono fun _ _ _ => trivial

end Nesting

/-- With recursive mutexes, and with plain ones as long as no send buffer grows, the mutexes stop
nobody for good: whatever the calls of any number of threads and in whatever order their steps
come, as long as one thread is inside of a call, one can go on. -/
theorem locks_never_stuck {T : Type*} [DecidableEq T] (settype : Bool) (port : Port)
    (calls : T → List Call)
    (fits : port.recursive settype = false → ∀ t, ∀ call ∈ calls t, call.grows = false)
    (schedule : List T) :
    Runs.Throughout (Locking.step (port.recursive settype))
      (fun s => ∀ t, s.todo t ≠ [] → ∃ u s', Locking.step (port.recursive settype) s u = some s')
      (.start fun t => program port (calls t)) schedule := by
  have bounded : ∀ l, rank l < 3 := by
    intro l
    cases l <;> simp [rank]
  refine Locking.never_stuck bounded (fun t => ?_) schedule
  have within : Within (Nested settype port false) [] (program port (calls t)) := by
    refine within_program fun call member wide => .inl ?_
    by_contra plain
    rw [fits (by simpa using plain) t call member] at wide
    cases wide
  refine within.bracketed.mono fun held l nested => ?_
  rcases nested with upward | wrong
  · exact upward
  · cases wrong

/-- Two workers that answer the same client, one after a partial `send`. -/
theorem locks_never_stuck_plain :
    let calls := fun t : Bool =>
      [Call.event 0 1 0 false, .update 0 [(0, [⟨false, if t then 1 else 0⟩])]]
    Runs.Throughout (Locking.step false)
      (fun s => ∀ t, s.todo t ≠ [] → ∃ u s', Locking.step false s u = some s')
      (.start fun t => program .singleThread (calls t)) [true, false, true, true, false] := by
  intro calls
  have fits : ∀ t, ∀ call ∈ calls t, call.grows = false := by
    intro t call member
    simp only [calls, List.mem_cons, List.not_mem_nil, or_false] at member
    rcases member with rfl | rfl <;> rfl
  exact locks_never_stuck false .singleThread calls (fun _ => fits) _

section Plain
variable {port : Port} {c : Nat} {held : List Lock}

theorem level_critical (l : Lock) : Level (critical l []) := .critical fun _ => rfl

theorem level_access : Level CSyncQueue.access := level_critical _

theorem level_pushPacket : Level (Session.pushPacket c) := level_critical _

theorem level_removeSendData : Level (Session.removeSendData c) :=
  (level_critical _).append (level_critical _)

theorem level_if {p : Prop} [Decidable p] {ops : List (Op Lock)} (level : Level ops) :
    Level (if p then ops else []) := by
  split
  · exact level
  · exact fun _ => rfl

theorem level_write (grows : Bool) : Level (CSyncBuffer.write c grows) :=
  .critical (level_if (level_critical _))

theorem level_pushSendPacket (response : Response) :
    Level (Session.pushSendPacket port c response) :=
  (level_write response.grows).append (level_if (.flatMap (fun _ => level_removeSendData) _))

theorem level_update (s : Nat × List Response) : Level (Session.update port s.1 s.2) :=
  .critical (.flatMap level_pushSendPacket s.2)

theorem level_event (packets sends : Nat) :
    Level (CTcpConnection.read c packets ++ CTcpConnection.write c sends) :=
  .append (.flatMap (fun _ => level_pushPacket) _) (.flatMap (fun _ => level_removeSendData) _)

theorem level_onAccept (refused : Bool) : Level ((Call.onAccept refused).locks port) := by
  have add : Level (CTcpConnectionMgr.addConnection port refused) :=
    .critical (level_if (level_critical _))
  simp only [Call.locks]
  split
  · exact add.append level_access
  · exact level_access.append add

theorem level_call (call : Call) : Level (call.locks port) := by
  cases call with
  | onAccept refused => exact level_onAccept refused
  | event c packets sends closes =>
    exact (level_event packets sends).append (level_if (level_critical _))
  | pushPass refused =>
    exact .critical (.flatMap (fun _ => level_if (level_critical _)) _)
  | update drained sessions =>
    exact .append (.flatMap (fun _ => level_access) _) (.flatMap level_update _)

/-- A mutex that is not held is acquired once. -/
theorem reenters_free {l : Lock} (free : l ∉ held) : reenters held (critical l []) = false := by
  rw [Locking.reenters_critical, decide_eq_false free]
  rfl

theorem reenters_sends (free : .sendBuffer c ∉ held) (sends : Nat) :
    reenters held (CTcpConnection.write c sends) = false := by
  rw [CTcpConnection.write, Locking.reenters_flatMap fun _ => level_removeSendData]
  simp only [Session.removeSendData, CSyncBuffer.remove, CSyncBuffer.restoration,
    Locking.reenters_append, level_critical _ held, reenters_free free, Bool.or_false,
    List.any_eq_false]
  simp

/-- The mutex of the send buffer is acquired again where the buffer grows, and nowhere else. -/
theorem reenters_pushSendPacket (free : .sendBuffer c ∉ held) (response : Response) :
    reenters held (Session.pushSendPacket port c response) = response.grows := by
  have sends : reenters held
      (if port = .singleThread then CTcpConnection.write c response.sends else []) = false := by
    split
    · exact reenters_sends free _
    · rfl
  rw [Session.pushSendPacket, Locking.reenters_append, level_write, sends, Bool.or_false,
    CSyncBuffer.write, Locking.reenters_critical, decide_eq_false free]
  cases response.grows with
  | false => rfl
  | true => simp [CSyncBuffer.resize, Locking.reenters_critical]

theorem reenters_update (responses : List Response) :
    reenters [] (Session.update port c responses) = responses.any Response.grows := by
  have free : Lock.sendBuffer c ∉ [Lock.session c] := by simp
  rw [Session.update, Locking.reenters_critical, Locking.reenters_flatMap level_pushSendPacket]
  simp only [reenters_pushSendPacket free]
  rfl

/-- The IOCP port also acquires the manager's mutex again, in `close`. -/
theorem reenters_call (other : port ≠ .iocp) (call : Call) :
    reenters [] (call.locks port) = call.grows := by
  cases call with
  | onAccept refused =>
    have add : CTcpConnectionMgr.addConnection port refused = critical .manager [] := by
      simp [CTcpConnectionMgr.addConnection, other]
    rw [Call.locks, if_neg other, add, Locking.reenters_append, level_access, CSyncQueue.access,
      reenters_free (by simp), reenters_free (by simp)]
    rfl
  | event c packets sends closes =>
    have pushes : reenters [] (CTcpConnection.read c packets) = false := by
      rw [CTcpConnection.read, Locking.reenters_flatMap fun _ => level_pushPacket]
      simp [Session.pushPacket, reenters_free]
    have reads : Level (CTcpConnection.read c packets) := .flatMap (fun _ => level_pushPacket) _
    rw [Call.locks, Locking.reenters_append, Locking.reenters_append, pushes, reads,
      reenters_sends (by simp), level_event]
    cases closes <;> rfl
  | pushPass refused =>
    have nothing : ∀ refused, CTcpConnection.doPushSend port refused = [] :=
      fun _ => if_neg fun both => other both.1
    have level : ∀ refused, Level (CTcpConnection.doPushSend port refused) :=
      fun refused => by rw [nothing]; exact fun _ => rfl
    rw [Call.locks, Locking.reenters_critical, Locking.reenters_flatMap level]
    simp [nothing, Locking.reenters, Call.grows]
  | update drained sessions =>
    have drains : Level ((List.replicate (drained + 1) ()).flatMap fun _ => CSyncQueue.access) :=
      .flatMap (fun _ => level_access) _
    rw [Call.locks, Locking.reenters_append, drains, Locking.reenters_flatMap level_update,
      Locking.reenters_flatMap fun _ => level_access]
    simp [CSyncQueue.access, reenters_free, reenters_update, Call.grows]

theorem reenters_program (other : port ≠ .iocp) (calls : List Call) :
    reenters [] (program port calls) = calls.any Call.grows := by
  rw [program, Locking.reenters_flatMap level_call]
  simp only [reenters_call other]

end Plain

/-- A thread can get through its calls unless the mutexes are plain and a response in one of
its calls makes a send buffer grow: `write` then waits in `resize` for the mutex it holds. -/
theorem finishes_iff {T : Type*} [DecidableEq T] (settype : Bool) (port : Port)
    (calls : T → List Call) (t : T) :
    (∃ schedule s, Runs.run (Locking.step (port.recursive settype))
      (.start fun t => program port (calls t)) schedule = some s ∧ s.todo t = []) ↔
      port.recursive settype = true ∨ ∀ call ∈ calls t, call.grows = false := by
  have plain : port.recursive settype = false → port ≠ .iocp := by
    rintro plain rfl
    cases plain
  constructor
  · rintro ⟨schedule, s, reached, done⟩
    cases kind : port.recursive settype with
    | true => exact .inl rfl
    | false =>
      refine .inr ?_
      by_contra wide
      have again : reenters [] (program port (calls t)) = true := by
        rw [reenters_program (plain kind), List.any_eq_true]
        push Not at wide
        simpa using wide
      rw [kind] at reached
      have never := Locking.never_finishes (fun t => bracketed_any port (calls t)) again schedule
      exact never.last reached done
  · intro free
    have once : port.recursive settype = true ∨ reenters [] (program port (calls t)) = false := by
      cases kind : port.recursive settype with
      | true => exact .inl rfl
      | false =>
        rcases free with recursive | small
        · cases kind.symm.trans recursive
        · refine .inr ?_
          rw [reenters_program (plain kind), List.any_eq_false]
          simpa using small
    have records : Locking.Records (Locking.System.start fun t => program port (calls t)).table
        (Function.update (fun _ => []) t []) := by
      rw [Function.update_eq_self]
      exact Locking.records_start
    obtain ⟨s, ran, done⟩ := Locking.finishes_alone rfl records (bracketed_any port (calls t)) once
    exact ⟨_, s, ran, done⟩

end Sometest.Locks
