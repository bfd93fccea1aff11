import Sometest.Lib.Run
import Sometest.Iocp.Connection

/-! `pushSendPacket`, `doPushSend` and `startNextWrite` of one connection, each in its own
thread and one shared access at a time: a packet whose `doPushSend` comes between the
emptiness test and the release of the lock is never sent. -/
namespace Sometest.Iocp
open Sometest.Net

/-- A `WSABUF`: where `getSendData` pointed, and the length read after it. -/
structure Request where
  alloc : Nat
  off : Nat
  len : Nat
  deriving DecidableEq

/-- The access that `startNextWrite` makes next. `restoration` belongs to
`removeSendData`. -/
inductive Stage where
  | remove (lastWriteLen : Nat)
  | restoration
  | test
  | release
  | getSendData
  | getLength (alloc off : Nat)
  | send (request : Request)
  deriving DecidableEq

def Stage.enter (lastWriteLen : Nat) : Stage :=
  if 0 ≠ lastWriteLen then .remove lastWriteLen else .test

/-- The session thread, outside `pushSendPacket` or after its `write`. -/
inductive Pushing where
  | outside
  | written
  deriving DecidableEq

/-- The `PushSendThread`, outside `doPushSend`, after it has read the flag as set, after
it has cleared the flag, or with the lock in `startNextWrite(0)`. -/
inductive Flushing where
  | outside
  | read
  | cleared
  | writing (stage : Stage)
  deriving DecidableEq

structure Threads where
  sendBuffer : CSyncBuffer
  pushSend : Bool
  writeLock : Nat
  sends : List Request
  closed : Bool
  session : Pushing
  flusher : Flushing
  worker : Option Stage

def Threads.start : Threads := ⟨.init 4096, false, 0, [], false, .outside, .outside, none⟩

/-- `accepts` says whether `WSASend` takes the request, when that is the next call. A
completion of the `i`-th operation under way with `n` bytes starts the worker. -/
inductive Access where
  | write (packet : List Byte)
  | setFlag
  | readFlag
  | clearFlag
  | acquire
  | flush (accepts : Bool)
  | complete (i n : Nat)
  | work (accepts : Bool)

/-- One access of `startNextWrite`, and the next stage, `none` when it returns. -/
def Stage.advance (accepts : Bool) (s : Threads) : Stage → Option (Threads × Option Stage)
  | .remove lastWriteLen =>
    some ({ s with sendBuffer := (s.sendBuffer.remove lastWriteLen).1 }, some .restoration)
  | .restoration =>
    match s.sendBuffer.restoration with
    | .ok sendBuffer => some ({ s with sendBuffer }, some .test)
    | .error _ => none
  | .test => some (s, some (if 0 = s.sendBuffer.getUsedSize then .release else .getSendData))
  | .release => some ({ s with writeLock := (compareAndSwap s.writeLock 0 1).1 }, none)
  | .getSendData => some (s, some (.getLength s.sendBuffer.alloc s.sendBuffer.rptr))
  | .getLength alloc off => some (s, some (.send ⟨alloc, off, s.sendBuffer.getUsedSize⟩))
  | .send request =>
    if accepts then some ({ s with sends := s.sends ++ [request] }, none)
    else some ({ s with closed := true }, none)

/-- No outcome for an access that its thread does not make next, and after a fault. -/
def access (int : Int → Int) (s : Threads) : Access → Option Threads
  | .write packet =>
    match s.session with
    | .outside =>
      match s.sendBuffer.write int packet with
      | .ok (sendBuffer, len) =>
        if packet.length ≠ len then none else some { s with sendBuffer, session := .written }
      | .error _ => none
    | .written => none
  | .setFlag =>
    match s.session with
    | .outside => none
    | .written => some { s with pushSend := true, session := .outside }
  | .readFlag =>
    match s.flusher with
    | .outside => some { s with flusher := if s.pushSend then .read else .outside }
    | _ => none
  | .clearFlag =>
    match s.flusher with
    | .read => some { s with pushSend := false, flusher := .cleared }
    | _ => none
  | .acquire =>
    match s.flusher with
    | .cleared =>
      some { s with
        writeLock := (compareAndSwap s.writeLock 1 0).1
        flusher := if (compareAndSwap s.writeLock 1 0).2 then .writing (.enter 0) else .outside }
    | _ => none
  | .flush accepts =>
    match s.flusher with
    | .writing stage =>
      (stage.advance accepts s).map fun r =>
        { r.1 with flusher := r.2.elim .outside .writing }
    | _ => none
  | .complete i n =>
    match s.worker, s.sends[i]? with
    | none, some request =>
      if n ≤ request.len then
        some { s with sends := s.sends.eraseIdx i, worker := some (.enter n) }
      else none
    | _, _ => none
  | .work accepts =>
    match s.worker with
    | some stage => (stage.advance accepts s).map fun r => { r.1 with worker := r.2 }
    | none => none

def Quiet (s : Threads) : Prop := s.session = .outside ∧ s.flusher = .outside ∧ s.worker = none

/-- In a state at rest, unread bytes are on their way. -/
def Served (s : Threads) : Prop :=
  Quiet s → s.closed = false → s.sendBuffer.getUsedSize ≠ 0 → s.pushSend = true ∨ s.sends ≠ []

/-- The attempt on the lock would fail, the worker that holds it has found the buffer
empty and goes on to release it, the buffer is no longer empty, and nothing will set the
flag again. -/
def Missed (s : Threads) : Prop :=
  s.worker = some .release ∧ s.closed = false ∧ s.sendBuffer.getUsedSize ≠ 0 ∧
    s.pushSend = false ∧ s.session = .outside

def Heard (s : Threads) (a : Access) : Prop := a = .acquire → ¬ Missed s

/-- What an access of `startNextWrite` does: it goes on, and to the release only from an
empty buffer, or it returns after the release, with a request under way, or closed. -/
inductive Advanced (s : Threads) : Stage → Threads → Option Stage → Prop where
  | goesOn (sendBuffer : CSyncBuffer) (next : Stage) (going : stage ≠ .release)
      (empty : next = .release → sendBuffer.getUsedSize = 0) :
      Advanced s stage { s with sendBuffer } (some next)
  | releases : Advanced s .release { s with writeLock := (compareAndSwap s.writeLock 0 1).1 } none
  | sends (request : Request) :
      Advanced s (.send request) { s with sends := s.sends ++ [request] } none
  | closes (request : Request) : Advanced s (.send request) { s with closed := true } none

section Advance
variable {s s' : Threads} {stage : Stage} {next : Option Stage} {accepts : Bool}

theorem enter_going (n : Nat) : Stage.enter n ≠ .release := by
  rw [Stage.enter]
  split
  · simp
  · simp

theorem advance_cases (ran : stage.advance accepts s = some (s', next)) : Advanced s stage s' next := by
  cases stage with
  | remove n =>
    cases ran
    exact .goesOn _ _ (by simp) (by simp)
  | restoration =>
    rw [Stage.advance] at ran
    split at ran
    · cases ran
      exact .goesOn _ _ (by simp) (by simp)
    · cases ran
  | test =>
    cases ran
    refine .goesOn _ _ (by simp) (fun found => ?_)
    split at found
    · rename_i empty
      exact empty.symm
    · cases found
  | release =>
    cases ran
    exact .releases
  | getSendData =>
    cases ran
    exact .goesOn _ _ (by simp) (by simp)
  | getLength alloc off =>
    cases ran
    exact .goesOn _ _ (by simp) (by simp)
  | send request =>
    cases accepts with
    | true =>
      cases ran
      exact .sends request
    | false =>
      cases ran
      exact .closes request

end Advance

/-- The lock is taken exactly while one thread is in `startNextWrite` or one operation is
under way, until the connection is closed with the lock held. -/
inductive Locked (s : Threads) : Prop where
  | free (lock : s.writeLock = 0) (flusher : ∀ stage, s.flusher ≠ .writing stage)
      (worker : s.worker = none) (sends : s.sends = [])
  | flushing (stage : Stage) (lock : s.writeLock = 1) (flusher : s.flusher = .writing stage)
      (worker : s.worker = none) (sends : s.sends = [])
  | working (stage : Stage) (lock : s.writeLock = 1) (flusher : ∀ stage, s.flusher ≠ .writing stage)
      (worker : s.worker = some stage) (sends : s.sends = [])
  | sending (request : Request) (lock : s.writeLock = 1)
      (flusher : ∀ stage, s.flusher ≠ .writing stage) (worker : s.worker = none)
      (sends : s.sends = [request])
  | closed (closed : s.closed = true)

section Steps
variable {int : Int → Int} {s s' : Threads} {a : Access}

theorem release_held (lock : s.writeLock = 1) : (compareAndSwap s.writeLock 0 1).1 = 0 := by
  rw [compareAndSwap, if_pos lock]

theorem acquire_fails (taken : s.writeLock ≠ 0) :
    compareAndSwap s.writeLock 1 0 = (s.writeLock, false) := by
  rw [compareAndSwap, if_neg taken]

/-- The lock does not depend on the buffer, the flag or the session thread. -/
theorem Locked.congr (locked : Locked s) (lock : s'.writeLock = s.writeLock)
    (flusher : ∀ stage, s'.flusher = .writing stage ↔ s.flusher = .writing stage)
    (worker : s'.worker = s.worker) (sends : s'.sends = s.sends) (closed : s'.closed = s.closed) :
    Locked s' := by
  cases locked with
  | free free outside resting empty =>
    exact .free (lock.trans free) (fun stage stands => outside stage ((flusher stage).mp stands))
      (worker.trans resting) (sends.trans empty)
  | flushing stage held inside resting empty =>
    exact .flushing stage (lock.trans held) ((flusher stage).mpr inside) (worker.trans resting)
      (sends.trans empty)
  | working stage held outside inside empty =>
    exact .working stage (lock.trans held)
      (fun stage stands => outside stage ((flusher stage).mp stands)) (worker.trans inside)
      (sends.trans empty)
  | sending request held outside resting one =>
    exact .sending request (lock.trans held)
      (fun stage stands => outside stage ((flusher stage).mp stands)) (worker.trans resting)
      (sends.trans one)
  | closed shut => exact .closed (closed.trans shut)

/-- The thread in `startNextWrite` makes an access with the lock, or it is closed. -/
theorem Locked.advance {stage : Stage} {next : Option Stage} {t : Threads}
    (advanced : Advanced s stage t next) (held : s.writeLock = 1) (resting : s.sends = []) :
    (t.writeLock = 1 ∧ t.sends = [] ∧ next.isSome = true) ∨
      next = none ∧ (t.writeLock = 0 ∧ t.sends = [] ∨
        (∃ request, t.writeLock = 1 ∧ t.sends = [request]) ∨ t.closed = true) := by
  cases advanced with
  | goesOn => exact .inl ⟨held, resting, rfl⟩
  | releases => exact .inr ⟨rfl, .inl ⟨release_held held, resting⟩⟩
  | sends request => exact .inr ⟨rfl, .inr (.inl ⟨request, held, by rw [resting]; rfl⟩)⟩
  | closes => exact .inr ⟨rfl, .inr (.inr rfl)⟩

theorem Advanced.frame {stage : Stage} {next : Option Stage} {t : Threads}
    (advanced : Advanced s stage t next) : t.session = s.session ∧ t.flusher = s.flusher ∧
      t.worker = s.worker ∧ t.pushSend = s.pushSend ∧ (s.closed = true → t.closed = true) := by
  cases advanced with
  | goesOn => exact ⟨rfl, rfl, rfl, rfl, id⟩
  | releases => exact ⟨rfl, rfl, rfl, rfl, id⟩
  | sends => exact ⟨rfl, rfl, rfl, rfl, id⟩
  | closes => exact ⟨rfl, rfl, rfl, rfl, fun _ => rfl⟩

inductive Accessed (s : Threads) : Access → Threads → Prop where
  | write (packet : List Byte) (sendBuffer : CSyncBuffer) :
      Accessed s (.write packet) { s with sendBuffer, session := .written }
  | setFlag : Accessed s .setFlag { s with pushSend := true, session := .outside }
  | readFlag (outside : s.flusher = .outside) :
      Accessed s .readFlag { s with flusher := if s.pushSend then .read else .outside }
  | clearFlag (read : s.flusher = .read) :
      Accessed s .clearFlag { s with pushSend := false, flusher := .cleared }
  | acquire (cleared : s.flusher = .cleared) : Accessed s .acquire { s with
      writeLock := (compareAndSwap s.writeLock 1 0).1
      flusher := if (compareAndSwap s.writeLock 1 0).2 then .writing (.enter 0) else .outside }
  | flush (accepts : Bool) (stage : Stage) (inside : s.flusher = .writing stage)
      (advanced : Advanced s stage t next) :
      Accessed s (.flush accepts) { t with flusher := next.elim .outside .writing }
  | complete (i n : Nat) (request : Request) (idle : s.worker = none)
      (posted : s.sends[i]? = some request) : Accessed s (.complete i n)
        { s with sends := s.sends.eraseIdx i, worker := some (.enter n) }
  | work (accepts : Bool) (stage : Stage) (inside : s.worker = some stage)
      (advanced : Advanced s stage t next) : Accessed s (.work accepts) { t with worker := next }

theorem access_cases (stepped : access int s a = some s') : Accessed s a s' := by
  cases a with
  | write packet =>
    rw [access] at stepped
    split at stepped
    · split at stepped
      · split at stepped
        · cases stepped
        · cases stepped
          exact .write ..
      · cases stepped
    · cases stepped
  | setFlag =>
    rw [access] at stepped
    split at stepped
    · cases stepped
    · cases stepped
      exact .setFlag
  | readFlag =>
    rw [access] at stepped
    split at stepped
    · rename_i outside
      cases stepped
      exact .readFlag outside
    · cases stepped
  | clearFlag =>
    rw [access] at stepped
    split at stepped
    · rename_i read
      cases stepped
      exact .clearFlag read
    · cases stepped
  | acquire =>
    rw [access] at stepped
    split at stepped
    · rename_i cleared
      cases stepped
      exact .acquire cleared
    · cases stepped
  | flush accepts =>
    rw [access] at stepped
    split at stepped
    · rename_i stage inside
      obtain ⟨⟨t, next⟩, advanced, same⟩ := Option.map_eq_some_iff.mp stepped
      cases same
      exact .flush accepts stage inside (advance_cases advanced)
    · cases stepped
  | complete i n =>
    rw [access] at stepped
    split at stepped
    · rename_i request idle posted
      split at stepped
      · cases stepped
        exact .complete i n request idle posted
      · cases stepped
    · cases stepped
  | work accepts =>
    rw [access] at stepped
    split at stepped
    · rename_i stage inside
      obtain ⟨⟨t, next⟩, advanced, same⟩ := Option.map_eq_some_iff.mp stepped
      cases same
      exact .work accepts stage inside (advance_cases advanced)
    · cases stepped

theorem Locked.acquire (locked : Locked s) (cleared : s.flusher = .cleared) :
    Locked { s with
      writeLock := (compareAndSwap s.writeLock 1 0).1
      flusher := if (compareAndSwap s.writeLock 1 0).2 then .writing (.enter 0) else .outside } := by
  have outside : ∀ stage, s.flusher ≠ .writing stage := by
    intro stage inside
    cases cleared.symm.trans inside
  cases locked with
  | free free _ resting empty =>
    refine .flushing (.enter 0) ?_ ?_ resting empty
    · simp only [compareAndSwap, if_pos free]
    · simp only [compareAndSwap, if_pos free, if_true]
  | flushing stage _ inside => exact absurd inside (outside stage)
  | working stage held _ inside empty =>
    have taken : s.writeLock ≠ 0 := by omega
    refine .working stage ?_ ?_ inside empty
    · exact (congrArg Prod.fst (acquire_fails taken)).trans held
    · simp [acquire_fails taken]
  | sending request held _ resting one =>
    have taken : s.writeLock ≠ 0 := by omega
    refine .sending request ?_ ?_ resting one
    · exact (congrArg Prod.fst (acquire_fails taken)).trans held
    · simp [acquire_fails taken]
  | closed shut => exact .closed shut

theorem Locked.flush (locked : Locked s) {stage : Stage} (inside : s.flusher = .writing stage)
    {t : Threads} {next : Option Stage} (advanced : Advanced s stage t next) :
    Locked { t with flusher := next.elim .outside .writing } := by
  obtain ⟨-, -, worker, -, closed⟩ := advanced.frame
  cases locked with
  | free _ outside => exact absurd inside (outside stage)
  | flushing _ held _ resting empty =>
    rcases Locked.advance advanced held empty with ⟨held, empty, more⟩ | ⟨rfl, ends⟩
    · obtain ⟨next, rfl⟩ := Option.isSome_iff_exists.mp more
      exact .flushing next held rfl (worker.trans resting) empty
    · rcases ends with ⟨free, empty⟩ | ⟨request, held, one⟩ | shut
      · exact .free free (by simp) (worker.trans resting) empty
      · exact .sending request held (by simp) (worker.trans resting) one
      · exact .closed shut
  | working _ _ outside => exact absurd inside (outside stage)
  | sending _ _ outside => exact absurd inside (outside stage)
  | closed shut => exact .closed (closed shut)

theorem Locked.complete (locked : Locked s) {i n : Nat} {request : Request}
    (idle : s.worker = none) (posted : s.sends[i]? = some request) :
    Locked { s with sends := s.sends.eraseIdx i, worker := some (.enter n) } := by
  cases locked with
  | free _ _ _ empty => simp [empty] at posted
  | flushing _ _ _ _ empty => simp [empty] at posted
  | working _ _ _ busy => cases idle.symm.trans busy
  | sending request held outside _ one =>
    refine .working (.enter n) held outside rfl ?_
    rw [one] at posted ⊢
    cases i with
    | zero => rfl
    | succ i => simp at posted
  | closed shut => exact .closed shut

theorem Locked.work (locked : Locked s) {stage : Stage} (inside : s.worker = some stage)
    {t : Threads} {next : Option Stage} (advanced : Advanced s stage t next) :
    Locked { t with worker := next } := by
  obtain ⟨-, flusher, -, -, closed⟩ := advanced.frame
  cases locked with
  | free _ _ idle => cases idle.symm.trans inside
  | flushing _ _ _ idle => cases idle.symm.trans inside
  | working _ held outside _ empty =>
    have outside' : ∀ stage, t.flusher ≠ .writing stage := flusher ▸ outside
    rcases Locked.advance advanced held empty with ⟨held, empty, more⟩ | ⟨rfl, ends⟩
    · obtain ⟨next, rfl⟩ := Option.isSome_iff_exists.mp more
      exact .working next held outside' rfl empty
    · rcases ends with ⟨free, empty⟩ | ⟨request, held, one⟩ | shut
      · exact .free free outside' rfl empty
      · exact .sending request held outside' rfl one
      · exact .closed shut
  | sending _ _ _ idle => cases idle.symm.trans inside
  | closed shut => exact .closed (closed shut)

theorem Locked.access (locked : Locked s) (accessed : Accessed s a s') : Locked s' := by
  cases accessed with
  | write packet sendBuffer => exact locked.congr rfl (fun _ => Iff.rfl) rfl rfl rfl
  | setFlag => exact locked.congr rfl (fun _ => Iff.rfl) rfl rfl rfl
  | readFlag outside =>
    refine locked.congr rfl (fun stage => ?_) rfl rfl rfl
    rw [outside]
    cases s.pushSend <;> simp
  | clearFlag read =>
    refine locked.congr rfl (fun stage => ?_) rfl rfl rfl
    rw [read]
    simp
  | acquire cleared => exact locked.acquire cleared
  | flush accepts stage inside advanced => exact locked.flush inside advanced
  | complete i n request idle posted => exact locked.complete idle posted
  | work accepts stage inside advanced => exact locked.work inside advanced

/-- Unread bytes have a thread that will see them: the flag is set or about to be, the
lock is about to be tried for them, or its holder is not at the release. -/
inductive Awake (s : Threads) : Prop where
  | closed (closed : s.closed = true)
  | empty (empty : s.sendBuffer.getUsedSize = 0)
  | flag (set : s.pushSend = true)
  | written (written : s.session = .written)
  | cleared (cleared : s.flusher = .cleared)
  | flushing (stage : Stage) (flusher : s.flusher = .writing stage) (going : stage ≠ .release)
  | working (stage : Stage) (worker : s.worker = some stage) (going : stage ≠ .release)
  | sending (sends : s.sends ≠ [])

theorem Awake.served (awake : Awake s) : Served s := by
  rintro ⟨session, flusher, worker⟩ opened unread
  cases awake with
  | closed shut => cases opened.symm.trans shut
  | empty empty => exact absurd empty unread
  | flag set => exact .inl set
  | written written => cases session.symm.trans written
  | cleared cleared => cases flusher.symm.trans cleared
  | flushing _ inside => cases flusher.symm.trans inside
  | working _ inside => cases worker.symm.trans inside
  | sending sends => exact .inr sends

/-- An access that leaves the buffer, the flag, the session thread and the operations
alone only has to answer for the thread that made it. -/
theorem Awake.congr (awake : Awake s) (closed : s'.closed = s.closed)
    (sendBuffer : s'.sendBuffer = s.sendBuffer) (pushSend : s'.pushSend = s.pushSend)
    (session : s'.session = s.session) (sends : s'.sends = s.sends)
    (cleared : s.flusher = .cleared → s'.flusher = .cleared)
    (flushing : ∀ stage, s.flusher = .writing stage → stage ≠ .release → s'.flusher = .writing stage)
    (working : ∀ stage, s.worker = some stage → stage ≠ .release → s'.worker = some stage) :
    Awake s' := by
  cases awake with
  | closed shut => exact .closed (closed.trans shut)
  | empty empty => exact .empty (sendBuffer ▸ empty)
  | flag set => exact .flag (pushSend.trans set)
  | written written => exact .written (session.trans written)
  | cleared stands => exact .cleared (cleared stands)
  | flushing stage stands going => exact .flushing stage (flushing stage stands going) going
  | working stage stands going => exact .working stage (working stage stands going) going
  | sending posted => exact .sending (sends ▸ posted)

theorem Locked.acquire_awake (locked : Locked s) (heard : ¬ Missed s)
    (cleared : s.flusher = .cleared) : Awake { s with
      writeLock := (compareAndSwap s.writeLock 1 0).1
      flusher := if (compareAndSwap s.writeLock 1 0).2 then .writing (.enter 0) else .outside } := by
  cases locked with
  | free free =>
    refine .flushing (.enter 0) ?_ (enter_going 0)
    simp only [compareAndSwap, if_pos free, if_true]
  | flushing _ _ inside => cases cleared.symm.trans inside
  | sending _ _ _ _ one =>
    apply Awake.sending
    show s.sends ≠ []
    rw [one]
    exact List.cons_ne_nil _ _
  | closed shut => exact .closed shut
  | working stage _ _ inside =>
    by_cases going : stage = .release
    · subst going
      -- the attempt fails, and the worker will release: only the guard helps
      by_contra asleep
      refine heard ⟨inside, ?_, ?_, ?_, ?_⟩
      · exact eq_false_of_ne_true fun shut => asleep (.closed shut)
      · exact fun empty => asleep (.empty empty)
      · exact eq_false_of_ne_true fun set => asleep (.flag set)
      · cases session : s.session with
        | outside => rfl
        | written => exact absurd (.written session) asleep
    · exact .working stage inside going

theorem Awake.flush (awake : Awake s) {stage : Stage} (inside : s.flusher = .writing stage)
    {t : Threads} {next : Option Stage} (advanced : Advanced s stage t next) :
    Awake { t with flusher := next.elim .outside .writing } := by
  cases advanced with
  | goesOn sendBuffer next going empty =>
    by_cases last : next = .release
    · exact .empty (empty last)
    · exact .flushing next rfl last
  | sends request => exact .sending (by simp)
  | closes => exact .closed rfl
  | releases =>
    refine awake.congr rfl rfl rfl rfl rfl (fun cleared => ?_) (fun stage stands going => ?_)
      fun _ stands _ => stands
    · cases cleared.symm.trans inside
    · cases inside.symm.trans stands
      exact absurd rfl going

theorem Awake.work (awake : Awake s) {stage : Stage} (inside : s.worker = some stage)
    {t : Threads} {next : Option Stage} (advanced : Advanced s stage t next) :
    Awake { t with worker := next } := by
  cases advanced with
  | goesOn sendBuffer next going empty =>
    by_cases last : next = .release
    · exact .empty (empty last)
    · exact .working next rfl last
  | sends request => exact .sending (by simp)
  | closes => exact .closed rfl
  | releases =>
    refine awake.congr rfl rfl rfl rfl rfl id (fun _ stands _ => stands) fun stage stands going => ?_
    cases inside.symm.trans stands
    exact absurd rfl going

theorem Awake.access (awake : Awake s) (locked : Locked s) (heard : Heard s a)
    (accessed : Accessed s a s') : Awake s' := by
  cases accessed with
  | write packet sendBuffer => exact .written rfl
  | setFlag => exact .flag rfl
  | readFlag outside =>
    refine awake.congr rfl rfl rfl rfl rfl (fun cleared => ?_) (fun stage stands _ => ?_)
      fun _ stands _ => stands
    · cases outside.symm.trans cleared
    · cases outside.symm.trans stands
  | clearFlag read => exact .cleared rfl
  | acquire cleared => exact locked.acquire_awake (heard rfl) cleared
  | flush accepts stage inside advanced => exact awake.flush inside advanced
  | complete i n request idle posted => exact .working (.enter n) rfl (enter_going n)
  | work accepts stage inside advanced => exact awake.work inside advanced

/-- After a missed attempt the worker releases the lock, and nothing is left to send the
unread bytes. -/
theorem missed_unserved (locked : Locked s) (missed : Missed s)
    (stepped : access int s .acquire = some s') :
    ∃ s'', access int s' (.work true) = some s'' ∧ ¬ Served s'' := by
  obtain ⟨worker, opened, unread, clear, session⟩ := missed
  cases access_cases stepped with
  | acquire cleared =>
    cases locked with
    | free _ _ idle => cases idle.symm.trans worker
    | flushing _ _ _ idle => cases idle.symm.trans worker
    | sending _ _ _ idle => cases idle.symm.trans worker
    | closed shut => cases opened.symm.trans shut
    | working _ held _ _ empty =>
      have taken : s.writeLock ≠ 0 := by omega
      simp only [access, worker, Stage.advance, Option.map_some, acquire_fails taken,
        Bool.false_eq_true, if_false]
      refine ⟨_, rfl, fun served => ?_⟩
      rcases served ⟨session, rfl, rfl⟩ opened unread with set | sends
      · cases clear.symm.trans set
      · exact sends empty

end Steps

/-- In every run in which no attempt on the lock is missed, unread bytes are on their way
whenever all threads are at rest; and an attempt that is missed is followed by the
worker's release, after which they are not. -/
theorem served_unless_missed (int : Int → Int) (accesses : List Access)
    (heard : Runs.Guarded (access int) Heard .start accesses) :
    Runs.Throughout (access int) Served .start accesses ∧
      ∀ s s', Runs.run (access int) .start accesses = some s → Missed s →
        access int s .acquire = some s' → ∃ s'', access int s' (.work true) = some s'' ∧ ¬ Served s'' := by
  have preserved : ∀ s a t, Locked s ∧ Awake s → Heard s a → access int s a = some t →
      Locked t ∧ Awake t := by
    rintro s a t ⟨locked, awake⟩ heard stepped
    have accessed := access_cases stepped
    exact ⟨locked.access accessed, awake.access locked heard accessed⟩
  have initial : Locked .start ∧ Awake .start := by
    constructor
    · exact .free rfl (by simp [Threads.start]) rfl rfl
    · exact .empty rfl
  have always := Runs.guarded_invariant preserved initial heard
  constructor
  · intro pre t inside reached
    exact (always pre t inside reached).2.served
  · intro s s' reached missed stepped
    exact missed_unserved (always.last reached).1 missed stepped

theorem served_unless_missed_packet :
    Runs.Throughout (access id) Served .start [.write [7], .setFlag, .readFlag, .clearFlag, .acquire] := by
  refine (served_unless_missed id _ ?_).1
  have unheard : ∀ s a, a ≠ .acquire → Heard s a := fun _ _ ne same => absurd same ne
  refine .cons (fun _ _ => unheard _ _ (by simp)) fun s₁ wrote => ?_
  refine .cons (fun _ _ => unheard _ _ (by simp)) fun s₂ set => ?_
  refine .cons (fun _ _ => unheard _ _ (by simp)) fun s₃ read => ?_
  refine .cons (fun _ _ => unheard _ _ (by simp)) fun s₄ cleared => ?_
  refine .cons (fun _ _ _ missed => ?_) fun _ _ => .nil
  cases wrote
  cases set
  cases read
  cases cleared
  cases missed.1

/-- A packet is written, and `doPushSend` fails to take the lock for it, after the
worker has found the buffer empty. -/
def missedRun : List Access :=
  [.write [7], .setFlag, .readFlag, .clearFlag, .acquire, .flush true, .flush true, .flush true,
    .flush true, .complete 0 1, .work true, .work true, .work true,
    .write [8], .setFlag, .readFlag, .clearFlag, .acquire, .work true]

theorem missed_run_not_served : ¬ Runs.Throughout (access id) Served .start missedRun := by
  have ends : (Runs.run (access id) .start missedRun).map (fun s =>
      ((s.session, s.flusher, s.worker), s.closed, s.sendBuffer.getUsedSize, s.pushSend, s.sends)) =
        some ((.outside, .outside, none), false, 1, false, []) := by decide
  obtain ⟨s, reached, final⟩ := Option.map_eq_some_iff.mp ends
  simp only [Prod.mk.injEq] at final
  obtain ⟨⟨session, flusher, worker⟩, opened, unread, clear, resting⟩ := final
  intro served
  have unread' : s.sendBuffer.getUsedSize ≠ 0 := by omega
  rcases served.last reached ⟨session, flusher, worker⟩ opened unread' with set | sends
  · cases clear.symm.trans set
  · exact sends resting

end Sometest.Iocp
