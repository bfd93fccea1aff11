import Sometest.Epoll.Dispatch
import Sometest.Epoll.Reading

/-! When a call of `Read` returns, on streams whose packets may be larger than the
receive buffer: its loop only comes to `recv` while there is free space, and space is
only freed by complete packets. -/
namespace Sometest.Epoll
open Sometest.Net

/-- Each header that comes to the front of the receive buffer has a `size_` of at least 8. -/
def Headed (stream : List Byte) : Prop :=
  ∀ rest, Boundary stream rest → headerSize ≤ rest.length → (headerSize : Int) ≤ packetSize rest

/-- No packet that is larger than the receive buffer has filled it. -/
def Fitting (stream : List Byte) : Prop :=
  ∀ rest, Boundary stream rest → 4096 ≤ rest.length → packetSize rest ≤ 4096

section Boundaries
variable {stream rest rest' more : List Byte}

theorem Boundary.append (boundary : Boundary stream rest) (more : List Byte) :
    Boundary (stream ++ more) (rest ++ more) := by
  induction boundary with
  | start => exact .start
  | next _ complete ih =>
    have inside := (front_eq_some.mp complete).2.2
    rw [List.length_take] at inside
    have next := ih.next (front_take_append complete more)
    rwa [List.drop_append_of_le_length (by omega)] at next

theorem Boundary.first (boundary : Boundary stream rest) :
    rest = stream ∨ ∃ n, front (stream.take 4096) = .ok (some n) ∧ Boundary (stream.drop n) rest := by
  induction boundary with
  | start => exact .inl rfl
  | next _ complete ih =>
    rcases ih with rfl | ⟨n, first, later⟩
    · exact .inr ⟨_, complete, .start⟩
    · exact .inr ⟨n, first, later.next complete⟩

theorem Boundary.compare (one : Boundary stream rest) (other : Boundary stream rest') :
    Boundary rest rest' ∨ Boundary rest' rest := by
  induction one with
  | start => exact .inl other
  | @next rest n _ complete ih =>
    rcases ih with before | after
    · rcases before.first with rfl | ⟨m, first, later⟩
      · exact .inr (.next .start complete)
      · cases first.symm.trans complete
        exact .inl later
    · exact .inr (after.next complete)

/-- A boundary with no complete packet behind it is the last one. -/
theorem Boundary.last (stuck : front (rest.take 4096) = .ok none) (one : Boundary stream rest)
    (other : Boundary stream rest') : rest' = rest ∨ ∃ n, front (rest'.take 4096) = .ok (some n) := by
  rcases one.compare other with after | before
  · rcases after.first with same | ⟨n, complete, -⟩
    · exact .inl same
    · cases stuck.symm.trans complete
  · rcases before.first with same | ⟨n, complete, -⟩
    · exact .inl same.symm
    · exact .inr ⟨n, complete⟩

theorem Boundary.only (stuck : front (stream.take 4096) = .ok none)
    (boundary : Boundary stream rest) : rest = stream := by
  rcases boundary.first with same | ⟨n, complete, -⟩
  · exact same
  · cases stuck.symm.trans complete

theorem Headed.earlier (headed : Headed (stream ++ more)) : Headed stream := by
  intro rest boundary header
  have size := headed (rest ++ more) (boundary.append more) (by rw [List.length_append]; omega)
  rwa [packetSize_append header] at size

end Boundaries

/-- The complete packets of what was received are gone from the receive buffer. -/
structure Settled (received : List Byte) (c : Connection) : Prop where
  active : c.session.active = true
  sendBuffer : c.session.sendBuffer.WellFormed
  wellFormed : c.readBuffer.WellFormed
  size : c.readBuffer.base.size = 4096
  boundary : Boundary received c.readBuffer.content
  stuck : front c.readBuffer.content = .ok none

section Settled
variable {received : List Byte} {c : Connection} {bound : Nat}

theorem settled_init (fresh : Nat → Byte) : Settled [] (.init fresh) where
  active := rfl
  sendBuffer := CSyncBuffer.wellFormed_init 4096
  wellFormed := CircularBuffer.wellFormed_init 4096 fresh
  size := rfl
  boundary := .start
  stuck := rfl

theorem Settled.congr (settled : Settled received c) {c' : Connection}
    (readBuffer : c'.readBuffer = c.readBuffer) (active : c'.session.active = c.session.active)
    (sendBuffer : c'.session.sendBuffer.WellFormed) : Settled received c' where
  active := active.trans settled.active
  sendBuffer := sendBuffer
  wellFormed := readBuffer ▸ settled.wellFormed
  size := readBuffer ▸ settled.size
  boundary := readBuffer ▸ settled.boundary
  stuck := readBuffer ▸ settled.stuck

theorem Settled.small (settled : Settled received c) : c.readBuffer.content.length ≤ 4096 :=
  settled.size ▸ CircularBuffer.content_le settled.wellFormed

theorem Settled.free (settled : Settled received c) :
    c.readWindow = 4096 - c.readBuffer.content.length := by
  rw [Connection.readWindow, CircularBuffer.getFreeSpaceSize_eq settled.wellFormed, settled.size]
  omega

/-- The window of the next `recv` is 0 exactly when a packet that is too large has
filled the buffer. -/
theorem Settled.window (settled : Settled received c) (headed : Headed received) :
    c.readWindow ≠ 0 ↔ Fitting received := by
  have small := settled.small
  have whole : c.readBuffer.content.take 4096 = c.readBuffer.content := List.take_of_length_le small
  rw [settled.free]
  constructor
  · intro room rest boundary full
    have stuck : front (c.readBuffer.content.take 4096) = .ok none := whole.symm ▸ settled.stuck
    rcases settled.boundary.last stuck boundary with rfl | ⟨n, complete⟩
    · omega
    · obtain ⟨-, size, inside⟩ := front_eq_some.mp complete
      rw [packetSize_take _ _ (by decide)] at size
      rw [List.length_take] at inside
      omega
  · intro fitting zero
    have full : 4096 ≤ c.readBuffer.content.length := by omega
    have header : headerSize ≤ c.readBuffer.content.length := Nat.le_trans (by decide) full
    have most := fitting _ settled.boundary full
    have least := headed _ settled.boundary header
    rcases front_eq_none.mp settled.stuck with short | incomplete
    · omega
    · omega

theorem extractPackets_settles {stream : List Byte} (headed : Headed stream) {r : CircularBuffer}
    (wf : r.WellFormed) (size : r.base.size = 4096) (boundary : Boundary stream r.content)
    (enough : r.content.length < bound) (packetList : List (List Byte)) :
    ∃ r' packetList', extractPackets bound r packetList = .ok (r', packetList') ∧
      r'.WellFormed ∧ r'.base.size = 4096 ∧ Boundary stream r'.content ∧
      front r'.content = .ok none ∧ r'.content.length ≤ r.content.length := by
  induction bound generalizing r packetList with
  | zero => omega
  | succ bound ih =>
    have small := CircularBuffer.content_le wf
    rw [size] at small
    cases taken : front r.content with
    | error fault =>
      obtain ⟨header, negative⟩ := front_eq_error taken
      have least := headed _ boundary header
      omega
    | ok length =>
      cases length with
      | none =>
        rw [extractPackets, getPacket_null wf taken, ok_bind]
        exact ⟨r, packetList, rfl, wf, size, boundary, taken, Nat.le_refl _⟩
      | some n =>
        obtain ⟨header, length, inside⟩ := front_eq_some.mp taken
        have least := headed _ boundary header
        obtain ⟨r', got, wf', content, size'⟩ := getPacket_some wf taken
        have complete : front (r.content.take 4096) = .ok (some n) := by
          rw [List.take_of_length_le small]
          exact taken
        have shorter : r'.content.length = r.content.length - n := by
          rw [content, List.length_drop]
        simp only [headerSize] at least
        obtain ⟨r'', packetList', ran, wf'', size'', boundary', stuck, fewer⟩ :=
          ih wf' (size'.trans size) (content ▸ boundary.next complete) (by omega)
            (packetList ++ [r.content.take n])
        rw [extractPackets, got, ok_bind]
        exact ⟨r'', packetList', ran, wf'', size'', boundary', stuck, by omega⟩

end Settled

/-- A result that `recv` can give: it is only called with a window. -/
def CanReturn (c : Connection) (result : RecvResult) : Prop :=
  c.readWindow ≠ 0 ∧ ∀ bytes, result = .data bytes → bytes ≠ [] ∧ bytes.length ≤ c.readWindow

/-- Each result is one that `recv` can give at its point of the call, and none follows
the one that ends the call. -/
def Delivers (bound : Nat) : List RecvResult → Connection → Prop
  | [], _ => True
  | result :: rest, c => CanReturn c result ∧
      match c.readBody bound result with
      | .ok (next, none) => Delivers bound rest next
      | _ => rest = []

/-- The states in which the loop body of `Read` starts. -/
inductive LoopsAt (bound : Nat) : List RecvResult → Connection → Connection → Prop where
  | here : LoopsAt bound results c c
  | next : c.readBody bound result = .ok (next, none) → LoopsAt bound results next c' →
      LoopsAt bound (result :: results) c c'

section Call
variable {received : List Byte} {c : Connection} {bound : Nat}

theorem released (lock : c.readLock ≤ 1) : c.releaseReadLock.readLock = 0 := by
  show (compareAndSwap c.readLock 0 1).1 = 0
  rw [compareAndSwap]
  split
  · rfl
  · simp only
    omega

theorem Settled.store (settled : Settled received c) (enough : 4096 < bound) {bytes : List Byte}
    (room : bytes.length ≤ c.readBuffer.getFreeSpaceSize) (headed : Headed (received ++ bytes)) :
    ∃ next, c.storeReceived bound bytes = .ok next ∧ Settled (received ++ bytes) next ∧
      next.readLock = c.readLock ∧
      next.readBuffer.content.length ≤ c.readBuffer.content.length + bytes.length := by
  obtain ⟨stored, written, wf, content, size⟩ := CircularBuffer.write_content settled.wellFormed room
  have length : stored.content.length = c.readBuffer.content.length + bytes.length := by
    rw [content, List.length_append]
  have small := CircularBuffer.content_le wf
  rw [size, settled.size] at small
  have boundary : Boundary (received ++ bytes) stored.content :=
    content ▸ settled.boundary.append bytes
  obtain ⟨readBuffer, packetList, ran, wf', size', boundary', stuck, fewer⟩ :=
    extractPackets_settles headed wf (size.trans settled.size) boundary
      (Nat.lt_of_le_of_lt small enough) c.session.packetList
  refine ⟨{ c with readBuffer, session := { c.session with packetList } }, ?_, ?_, rfl, length ▸ fewer⟩
  · simp only [Connection.storeReceived, if_pos settled.active, written, ok_bind, Connection.onRead,
      ran]
  · exact ⟨settled.active, settled.sendBuffer, wf', size', boundary', stuck⟩

theorem Settled.body (settled : Settled received c) (enough : 4096 < bound)
    (lock : c.readLock ≤ 1) {result : RecvResult} (can : CanReturn c result)
    (headed : Headed (received ++ result.bytes)) :
    ∃ next returned, c.readBody bound result = .ok (next, returned) ∧
      Settled (received ++ result.bytes) next ∧
      match returned with
      | none => next.readLock = c.readLock
      | some _ => next.readLock = 0 ∧ next.readWindow ≠ 0 := by
  have free := released lock
  obtain ⟨window, data⟩ := can
  cases result with
  | again =>
    refine ⟨c.releaseReadLock.releaseReadLock, some true, ?_, ?_, ?_, window⟩
    · rw [Connection.readBody, if_neg window]
    · rw [RecvResult.bytes, List.append_nil]
      exact settled.congr rfl rfl settled.sendBuffer
    · exact released (free ▸ Nat.zero_le 1)
  | failed =>
    refine ⟨c.releaseReadLock, some false, ?_, ?_, free, window⟩
    · rw [Connection.readBody, if_neg window]
    · rw [RecvResult.bytes, List.append_nil]
      exact settled.congr rfl rfl settled.sendBuffer
  | data bytes =>
    obtain ⟨nonempty, fits⟩ := data bytes rfl
    have room : bytes.length ≤ c.readBuffer.getFreeSpaceSize := Nat.le_trans fits (Nat.min_le_right _ _)
    obtain ⟨next, stores, settled', same, filled⟩ := settled.store enough room headed
    have body : c.readBody bound (.data bytes) =
        if bytes.length < c.readWindow then .ok (next.releaseReadLock, some true)
        else .ok (next, none) := by
      rw [Connection.readBody, if_neg window]
      simp only [stores, ok_bind]
    by_cases short : bytes.length < c.readWindow
    · rw [if_pos short] at body
      refine ⟨_, _, body, ?_, released (same ▸ lock), ?_⟩
      · exact settled'.congr rfl rfl settled'.sendBuffer
      · show next.readWindow ≠ 0
        rw [settled.free] at short
        rw [settled'.free]
        omega
    · rw [if_neg short] at body
      exact ⟨_, _, body, settled', same⟩

/-- The loop of a call returns, without a window of 0 on the way, exactly when no
packet that is too large fills the buffer. -/
theorem Settled.readLoop (settled : Settled received c) (enough : 4096 < bound)
    (lock : c.readLock ≤ 1) {results : List RecvResult} (delivers : Delivers bound results c)
    (headed : Headed (received ++ results.flatMap RecvResult.bytes)) :
    ((∃ out, c.readLoop bound results = .ok out) ∧
        ∀ c', LoopsAt bound results c c' → c'.readWindow ≠ 0) ↔
      Fitting (received ++ results.flatMap RecvResult.bytes) := by
  induction results generalizing received c with
  | nil =>
    rw [List.flatMap_nil, List.append_nil] at headed ⊢
    rw [← settled.window headed]
    constructor
    · exact fun both => both.2 c .here
    · intro window
      constructor
      · rw [Connection.readLoop, Connection.readBody, if_neg window]
        exact ⟨_, rfl⟩
      · intro c' loops
        cases loops
        exact window
  | cons result rest ih =>
    obtain ⟨can, later⟩ := delivers
    rw [List.flatMap_cons, ← List.append_assoc] at headed ⊢
    obtain ⟨next, returned, body, settled', lock'⟩ := settled.body enough lock can headed.earlier
    rw [body] at later
    cases returned with
    | some returned =>
      obtain rfl : rest = [] := later
      rw [List.flatMap_nil, List.append_nil] at headed ⊢
      constructor
      · exact fun _ => (settled'.window headed).mp lock'.2
      · intro _
        constructor
        · rw [Connection.readLoop, body, ok_bind]
          exact ⟨_, rfl⟩
        · intro c' loops
          cases loops with
          | here => exact can.1
          | next continued _ => cases body.symm.trans continued
    | none =>
      have goesOn := ih settled' (Nat.le_trans (Nat.le_of_eq lock') lock) later headed
      rw [← goesOn, Connection.readLoop, body, ok_bind]
      constructor
      · rintro ⟨returns, windows⟩
        exact ⟨returns, fun c' loops => windows c' (.next body loops)⟩
      · rintro ⟨returns, windows⟩
        refine ⟨returns, fun c' loops => ?_⟩
        cases loops with
        | here => exact can.1
        | next continued loops =>
          cases body.symm.trans continued
          exact windows c' loops

end Call

structure Steady (s : Server) : Prop where
  settled : Settled s.received s.conn
  lock : s.conn.readLock = if s.reading then 1 else 0

section Run
variable {s s' : Server} {bound : Nat} {int : Int → Int}

theorem Steady.recv (steady : Steady s) (enough : 4096 < bound) {result : RecvResult}
    (headed : Headed s'.received) (stepped : transition bound int s (.recv result) = some s') :
    Steady s' := by
  obtain ⟨enabled, stepped⟩ := transition_eq_some.mp stepped
  obtain ⟨⟨next, returned⟩, body, same⟩ := bind_eq_ok.mp stepped
  cases same
  have reading : s.reading = true := by
    cases result with
    | data bytes => exact enabled.1
    | again => exact enabled
    | failed => exact enabled
  have lock : s.conn.readLock = 1 := by rw [steady.lock, if_pos reading]
  have can : CanReturn s.conn result := by
    constructor
    · intro zero
      simp only [Connection.readBody, if_pos zero] at body
      cases body
    · rintro bytes rfl
      exact enabled.2
  obtain ⟨next', returned', same, settled, lock'⟩ :=
    steady.settled.body enough (Nat.le_of_eq lock) can headed
  cases body.symm.trans same
  refine ⟨settled, ?_⟩
  cases returned with
  | none => exact lock'.trans lock
  | some ok => exact lock'.1

theorem Steady.step (steady : Steady s) (enough : 4096 < bound) (headed : Headed s'.received)
    {e : Event} (stepped : transition bound int s e = some s') : Steady s' := by
  cases e with
  | recv result => exact steady.recv enough headed stepped
  | enterRead =>
    obtain ⟨enabled, stepped⟩ := transition_eq_some.mp stepped
    have idle : s.reading = false := enabled
    have lock : s.conn.readLock = 0 := by simp only [steady.lock, idle, Bool.false_eq_true, if_false]
    simp only [Epoll.step, Connection.tryAcquireReadLock, compareAndSwap, if_pos lock] at stepped
    cases stepped
    exact ⟨steady.settled.congr rfl rfl steady.settled.sendBuffer, rfl⟩
  | update junk =>
    obtain ⟨-, stepped⟩ := transition_eq_some.mp stepped
    obtain ⟨session, done, same⟩ := bind_eq_ok.mp stepped
    cases same
    have settled := steady.settled
    rw [Session.update, if_pos settled.active] at done
    obtain ⟨-, -, wf, -, -, active, -⟩ := Session.dispatchAll_spec settled.sendBuffer rfl done
    exact ⟨settled.congr rfl active wf, steady.lock⟩
  | doPushSend ctl =>
    obtain ⟨-, stepped⟩ := transition_eq_some.mp stepped
    cases stepped
    have frame := Connection.doPushSend_frame ctl s.conn
    have sendBuffer := frame.sendBuffer ▸ steady.settled.sendBuffer
    exact ⟨steady.settled.congr frame.readBuffer frame.active sendBuffer, frame.readLock.trans steady.lock⟩
  | write results =>
    obtain ⟨-, stepped⟩ := transition_eq_some.mp stepped
    obtain ⟨⟨conn, ok⟩, written, same⟩ := bind_eq_ok.mp stepped
    cases same
    have settled := steady.settled
    obtain ⟨conn', ok', same, wrote⟩ := @Connection.write_spec results s.conn settled.sendBuffer
    cases same.symm.trans written
    exact ⟨settled.congr wrote.readBuffer wrote.active wrote.wellFormed,
      wrote.readLock.trans steady.lock⟩

theorem run_steady (enough : 4096 < bound) (fresh : Nat → Byte) {events : List Event}
    (reached : Runs.run (transition bound int) (.start fresh) events = some s)
    (headed : Headed s.received) : Steady s := by
  have preserved : ∀ s e s', (Headed s.received → Steady s) → transition bound int s e = some s' →
      Headed s'.received → Steady s' := by
    intro s e s' before stepped headed
    obtain ⟨more, same⟩ := step_received stepped
    have steady := before (@Headed.earlier _ more (same ▸ headed))
    exact steady.step enough headed stepped
  have initial : Steady (.start fresh) := ⟨settled_init fresh, rfl⟩
  exact (Runs.invariant preserved (fun _ => initial) events).last reached headed

end Run

/-- After any run that has left its last call of `Read`, and for all results that `recv`
can give to the next call on a stream whose headers all have a `size_` of at least
8: the call returns, with no window of 0 on the way, exactly when no packet of more
than 4096 bytes has had its first 4096 bytes received. -/
theorem read_returns_iff (bound : Nat) (enough : 4096 < bound) (int : Int → Int) (fresh : Nat → Byte)
    (events : List Event) (s : Server)
    (reached : Runs.run (transition bound int) (.start fresh) events = some s)
    (idle : s.reading = false) (results : List RecvResult)
    (delivers : Delivers bound results s.conn.tryAcquireReadLock.1)
    (headed : Headed (s.received ++ results.flatMap RecvResult.bytes)) :
    ((∃ out, s.conn.read bound results = .ok out) ∧
        ∀ c, LoopsAt bound results s.conn.tryAcquireReadLock.1 c → c.readWindow ≠ 0) ↔
      Fitting (s.received ++ results.flatMap RecvResult.bytes) := by
  have steady := run_steady enough fresh reached headed.earlier
  have free : s.conn.readLock = 0 := by simp only [steady.lock, idle, Bool.false_eq_true, if_false]
  have acquired : s.conn.tryAcquireReadLock = ({ s.conn with readLock := 1 }, true) := by
    simp only [Connection.tryAcquireReadLock, compareAndSwap, if_pos free]
  have entered : Settled s.received { s.conn with readLock := 1 } :=
    steady.settled.congr rfl rfl steady.settled.sendBuffer
  simp only [Connection.read, acquired] at delivers ⊢
  exact entered.readLoop enough (Nat.le_refl 1) delivers headed

theorem read_returns_iff_header :
    ∃ out, (Connection.init fun _ => 0).read 4097 [.data (packetHeader .CMSG_A 4096)] = .ok out := by
  have stuck : front ((packetHeader .CMSG_A 4096).take 4096) = .ok none := by decide
  have delivers : Delivers 4097 [.data (packetHeader .CMSG_A 4096)]
      (Connection.init fun _ => 0).tryAcquireReadLock.1 := by
    constructor
    · constructor
      · decide
      · rintro bytes ⟨⟩
        decide
    · split
      · trivial
      · rfl
  have headed : Headed (packetHeader .CMSG_A 4096) := by
    intro rest boundary _
    rw [boundary.only stuck]
    decide
  have fitting : Fitting (packetHeader .CMSG_A 4096) := by
    intro rest boundary full
    rw [boundary.only stuck] at full
    exact absurd full (by decide)
  exact ((read_returns_iff 4097 (by decide) id (fun _ => 0) [] _ rfl rfl _ delivers headed).mpr
    fitting).1

/-- The first 4096 bytes of a packet of 5000. -/
def overlong : List Byte := packetHeader .CMSG_A 5000 ++ List.replicate 4088 0

theorem overlong_length : overlong.length = 4096 := by
  rw [overlong, List.length_append, List.length_replicate]
  decide

theorem overlong_size : packetSize overlong = 5000 := by
  rw [overlong, packetSize_append (by decide)]
  decide

theorem overlong_stuck : front (overlong.take 4096) = .ok none := by
  rw [List.take_of_length_le (Nat.le_of_eq overlong_length), front_eq_none]
  apply Or.inr
  rw [overlong_size, overlong_length]
  decide

/-- One `recv` fills the receive buffer with the beginning of a packet that does not
fit in it, and the loop goes on with a window of 0. -/
theorem read_spins :
    let conn := Connection.init fun _ => 0
    Headed overlong ∧ Delivers 4097 [.data overlong] conn.tryAcquireReadLock.1 ∧
      ¬ ((∃ out, conn.read 4097 [.data overlong] = .ok out) ∧
        ∀ c, LoopsAt 4097 [.data overlong] conn.tryAcquireReadLock.1 c → c.readWindow ≠ 0) := by
  have headed : Headed overlong := by
    intro rest boundary _
    rw [boundary.only overlong_stuck, overlong_size]
    decide
  have delivers : Delivers 4097 [.data overlong] (Connection.init fun _ => 0).tryAcquireReadLock.1 := by
    constructor
    · constructor
      · decide
      · rintro bytes ⟨⟩
        constructor
        · intro empty
          cases overlong_length.symm.trans (congrArg List.length empty)
        · rw [overlong_length]
          decide
    · split
      · trivial
      · rfl
  have initial : Settled [] (Connection.init fun _ => 0) := settled_init fun _ => 0
  have entered : Settled [] (Connection.init fun _ => 0).tryAcquireReadLock.1 :=
    initial.congr rfl rfl initial.sendBuffer
  have received : [] ++ [RecvResult.data overlong].flatMap RecvResult.bytes = overlong := by
    rw [List.flatMap_cons, List.flatMap_nil, List.append_nil, List.nil_append, RecvResult.bytes]
  refine ⟨headed, delivers, fun returns => ?_⟩
  have fitting : Fitting overlong := by
    have exactly := entered.readLoop (by decide) (by decide) delivers
    rw [received] at exactly
    exact (exactly headed).mp returns
  have size := fitting overlong .start (Nat.le_of_eq overlong_length.symm)
  rw [overlong_size] at size
  exact absurd size (by decide)

end Sometest.Epoll
