import Sometest.Epoll.Interest

/-! Which packets reach `handler_`, for an arbitrary byte stream on an active
session. Reading and updating are cut into their smallest steps: one `recv`, one
`getPacketFromReadBuffer`, one packet dispatched. -/
namespace Sometest.Epoll
open Sometest.Net

/-- `extracting` tells that `onRead` is in its loop; `incoming` is what the peer
has sent and `recv` has not returned. -/
structure Intake where
  conn : Connection
  extracting : Bool
  incoming : List Byte

def Intake.start (fresh : Nat → Byte) (stream : List Byte) : Intake := ⟨.init fresh, false, stream⟩

inductive IntakeEvent where
  | recv (n : Nat)
  | extract
  | dispatch (junk : Nat → Byte)
  | write (sends : List SendResult)

/-- No outcome for an event that cannot occur, and after a fault. -/
def intake (int : Int → Int) (s : Intake) : IntakeEvent → Option Intake
  | .recv n =>
    if s.extracting = false ∧ 0 < n ∧ n ≤ s.conn.readWindow ∧ n ≤ s.incoming.length then
      match s.conn.readBuffer.write (s.incoming.take n) with
      | .ok readBuffer => some ⟨{ s.conn with readBuffer }, true, s.incoming.drop n⟩
      | .error _ => none
    else none
  | .extract =>
    if s.extracting then
      match getPacketFromReadBuffer s.conn.readBuffer with
      | .ok none => some { s with extracting := false }
      | .ok (some (packet, readBuffer)) => some { s with
          conn := { s.conn with readBuffer, session := s.conn.session.pushPacket packet } }
      | .error _ => none
    else none
  | .dispatch junk =>
    match s.conn.session.packetList with
    | [] => none
    | packet :: rest =>
      match s.conn.session.dispatch int junk packet with
      | .ok session => some { s with
          conn := { s.conn with session := { session with packetList := rest } } }
      | .error _ => none
  | .write sends =>
    match s.conn.write sends with
    | .ok (conn, true) => some { s with conn }
    | _ => none

/-- The loop of `onRead` is made of `extract` steps. -/
theorem extract_run {int : Int → Int} {bound : Nat} {s : Intake} {readBuffer : CircularBuffer}
    {packetList : List (List Byte)} (extracting : s.extracting = true)
    (ran : extractPackets bound s.conn.readBuffer s.conn.session.packetList =
      .ok (readBuffer, packetList)) :
    ∃ k, Runs.run (intake int) s (List.replicate k .extract) = some { s with
      extracting := false
      conn := { s.conn with
        readBuffer
        session := { s.conn.session with packetList } } } := by
  induction bound generalizing s with
  | zero => cases ran
  | succ bound ih =>
    rw [extractPackets] at ran
    obtain ⟨front, taken, ran⟩ := bind_eq_ok.mp ran
    cases front with
    | none =>
      cases ran
      refine ⟨1, ?_⟩
      simp only [List.replicate_succ, List.replicate_zero, Runs.run_cons, intake, if_pos extracting,
        taken, Option.bind_some, Runs.run_nil]
    | some front =>
      obtain ⟨packet, rest⟩ := front
      obtain ⟨k, more⟩ := ih (s := { s with
        conn := { s.conn with readBuffer := rest, session := s.conn.session.pushPacket packet } })
        extracting ran
      refine ⟨k + 1, ?_⟩
      simp only [List.replicate_succ, Runs.run_cons, intake, if_pos extracting, taken,
        Option.bind_some, more]
      rfl

/-- A packet that its handler can read: the opcode has one, the packet is no
shorter than the struct, and the text that is printed ends inside it. -/
structure ValidRequest (packet : List Byte) : Prop where
  registered : ∃ handler, handlerOf (packetOpcode packet) = some handler ∧
    handler.packetSize ≤ packet.length
  terminated : 0 ∈ packet.drop headerSize

def NextValid (s : Intake) : Prop :=
  ∀ packet rest, s.conn.session.packetList = packet :: rest → ValidRequest packet

/-- What follows the first complete packets of the stream. A packet is complete when
its header is there, with a size that is not negative, and the whole packet fits
into the receive buffer. -/
inductive Boundary (stream : List Byte) : List Byte → Prop where
  | start : Boundary stream stream
  | next : Boundary stream rest → front (rest.take 4096) = .ok (some n) →
      Boundary stream (rest.drop n)

/-- Every complete packet of the stream is valid. -/
def ValidStream (stream : List Byte) : Prop :=
  ∀ rest n, Boundary stream rest → front (rest.take 4096) = .ok (some n) →
    ValidRequest (rest.take n)

structure Follows (stream : List Byte) (s : Intake) : Prop where
  wellFormed : s.conn.readBuffer.WellFormed
  size : s.conn.readBuffer.base.size = 4096
  sendBuffer : s.conn.session.sendBuffer.WellFormed
  boundary : Boundary stream (s.conn.readBuffer.content ++ s.incoming)
  queued : ∀ packet ∈ s.conn.session.packetList, ∃ rest n, Boundary stream rest ∧
    front (rest.take 4096) = .ok (some n) ∧ packet = rest.take n

section Safety
variable {int : Int → Int} {stream : List Byte} {s s' : Intake}

theorem follows_start (fresh : Nat → Byte) : Follows stream (.start fresh stream) where
  wellFormed := CircularBuffer.wellFormed_init 4096 fresh
  size := rfl
  sendBuffer := CSyncBuffer.wellFormed_init 4096
  boundary := .start
  queued := fun packet member => by cases member

/-- A complete packet stays complete when more bytes follow. -/
theorem front_take_append {bytes : List Byte} {n : Nat}
    (taken : front (bytes.take 4096) = .ok (some n)) (more : List Byte) :
    front ((bytes ++ more).take 4096) = .ok (some n) := by
  obtain ⟨header, size, complete⟩ := front_eq_some.mp taken
  rw [packetSize_take _ _ (by decide)] at size
  rw [List.length_take] at header complete
  have longer : ((bytes ++ more).take 4096).length = min 4096 (bytes.length + more.length) := by
    simp only [List.length_take, List.length_append]
  apply front_eq_some.mpr
  refine ⟨by omega, ?_, by omega⟩
  rw [packetSize_take _ _ (by decide), packetSize_append (by omega), size]

/-- A packet that is complete in the buffer is complete in the stream. -/
theorem front_extend {content : List Byte} {n : Nat} (small : content.length ≤ 4096)
    (taken : front content = .ok (some n)) (rest : List Byte) :
    front ((content ++ rest).take 4096) = .ok (some n) := by
  apply front_take_append
  rw [List.take_of_length_le small]
  exact taken

theorem Follows.recv (follows : Follows stream s) {n : Nat}
    (stepped : intake int s (.recv n) = some s') : Follows stream s' := by
  simp only [intake] at stepped
  split at stepped
  · rename_i enabled
    obtain ⟨-, -, window, arrived⟩ := enabled
    have length : (s.incoming.take n).length = n := by rw [List.length_take, Nat.min_eq_left arrived]
    have fits : (s.incoming.take n).length ≤ s.conn.readBuffer.getFreeSpaceSize := by
      rw [length]
      exact Nat.le_trans window (Nat.min_le_right _ _)
    obtain ⟨readBuffer, written, wf, content, size⟩ :=
      CircularBuffer.write_content follows.wellFormed fits
    rw [written] at stepped
    cases stepped
    refine ⟨wf, size.trans follows.size, follows.sendBuffer, ?_, follows.queued⟩
    simp only [content, List.append_assoc, List.take_append_drop]
    exact follows.boundary
  · cases stepped

theorem Follows.extract (follows : Follows stream s)
    (stepped : intake int s .extract = some s') : Follows stream s' := by
  have small := CircularBuffer.content_le follows.wellFormed
  rw [follows.size] at small
  simp only [intake] at stepped
  split at stepped
  · cases taken : front s.conn.readBuffer.content with
    | error fault =>
      rw [getPacket_error follows.wellFormed taken] at stepped
      cases stepped
    | ok length =>
      cases length with
      | none =>
        rw [getPacket_null follows.wellFormed taken] at stepped
        cases stepped
        exact ⟨follows.wellFormed, follows.size, follows.sendBuffer, follows.boundary, follows.queued⟩
      | some n =>
        obtain ⟨readBuffer, got, wf, content, size⟩ := getPacket_some follows.wellFormed taken
        rw [got] at stepped
        cases stepped
        have inside := (front_eq_some.mp taken).2.2
        have complete := front_extend small taken s.incoming
        refine ⟨wf, size.trans follows.size, follows.sendBuffer, ?_, ?_⟩
        · have next := follows.boundary.next complete
          rw [List.drop_append_of_le_length inside] at next
          simp only [content]
          exact next
        · intro packet member
          rcases List.mem_append.mp member with before | last
          · exact follows.queued packet before
          · obtain rfl := List.mem_singleton.mp last
            refine ⟨_, n, follows.boundary, complete, ?_⟩
            rw [List.take_append_of_le_length inside]
  · cases stepped

theorem Follows.dispatch (follows : Follows stream s) {junk : Nat → Byte}
    (stepped : intake int s (.dispatch junk) = some s') : Follows stream s' := by
  simp only [intake] at stepped
  split at stepped
  · cases stepped
  · rename_i packet rest queue
    split at stepped
    · rename_i session dispatched
      cases stepped
      rw [Session.dispatch] at dispatched
      split at dispatched
      · cases dispatched
      · split at dispatched
        · cases dispatched
        · obtain ⟨sendBuffer, rfl, -, wf, -, -⟩ :=
            Session.pushSendPacket_spec follows.sendBuffer dispatched
          refine ⟨follows.wellFormed, follows.size, wf, follows.boundary, ?_⟩
          intro later member
          exact follows.queued later (queue ▸ List.mem_cons_of_mem packet member)
    · cases stepped

theorem Follows.write (follows : Follows stream s) {sends : List SendResult}
    (stepped : intake int s (.write sends) = some s') : Follows stream s' := by
  obtain ⟨conn, ok, ran, wrote⟩ := @Connection.write_spec sends s.conn follows.sendBuffer
  simp only [intake, ran] at stepped
  cases ok with
  | false => cases stepped
  | true =>
    cases stepped
    refine ⟨wrote.readBuffer ▸ follows.wellFormed, ?_, wrote.wellFormed, ?_, ?_⟩
    · rw [wrote.readBuffer]
      exact follows.size
    · rw [wrote.readBuffer]
      exact follows.boundary
    · rw [wrote.packetList]
      exact follows.queued

theorem Follows.step (follows : Follows stream s) {e : IntakeEvent}
    (stepped : intake int s e = some s') : Follows stream s' := by
  cases e with
  | recv n => exact follows.recv stepped
  | extract => exact follows.extract stepped
  | dispatch junk => exact follows.dispatch stepped
  | write sends => exact follows.write stepped

theorem Follows.nextValid (follows : Follows stream s) (valid : ValidStream stream) : NextValid s := by
  intro packet rest queue
  obtain ⟨origin, n, boundary, complete, rfl⟩ := follows.queued packet (queue ▸ List.mem_cons_self)
  exact valid origin n boundary complete

end Safety

/-- The buffers are drained and the rest of the stream has not been received. -/
structure Clean (s : Intake) (rest : List Byte) : Prop where
  wellFormed : s.conn.readBuffer.WellFormed
  size : s.conn.readBuffer.base.size = 4096
  content : s.conn.readBuffer.content = []
  incoming : s.incoming = rest
  waiting : s.extracting = false
  queue : s.conn.session.packetList = []
  sendBuffer : s.conn.session.sendBuffer.WellFormed
  drained : s.conn.session.sendBuffer.wptr = 0
  large : packetBSize ≤ s.conn.session.sendBuffer.buffer.size

section Reach
variable {int : Int → Int} {stream rest : List Byte} {s : Intake} {n : Nat}

theorem clean_start (fresh : Nat → Byte) : Clean (.start fresh stream) stream where
  wellFormed := CircularBuffer.wellFormed_init 4096 fresh
  size := rfl
  content := rfl
  incoming := rfl
  waiting := rfl
  queue := rfl
  sendBuffer := CSyncBuffer.wellFormed_init 4096
  drained := rfl
  large := show packetBSize ≤ 4096 by decide

/-- The next complete packet is received in one piece, and a short one with the rest
of its header. -/
theorem Clean.frame (clean : Clean s rest) (complete : front (rest.take 4096) = .ok (some n)) :
    ∃ readBuffer : CircularBuffer, Runs.run (intake int) s [.recv (max n headerSize), .extract] =
        some ⟨{ s.conn with
          readBuffer, session := { s.conn.session with packetList := [rest.take n] } }, true,
          rest.drop (max n headerSize)⟩ ∧
      readBuffer.WellFormed ∧ readBuffer.base.size = 4096 ∧
      readBuffer.content = (rest.take (max n headerSize)).drop n := by
  obtain ⟨header, size, inside⟩ := front_eq_some.mp complete
  rw [List.length_take] at header inside
  have window : s.conn.readWindow = 4096 := by
    rw [Connection.readWindow, CircularBuffer.getFreeSpaceSize_eq clean.wellFormed, clean.size,
      clean.content]
    rfl
  have length : (rest.take (max n headerSize)).length = max n headerSize := by
    rw [List.length_take]
    omega
  have enabled : s.extracting = false ∧ 0 < max n headerSize ∧
      max n headerSize ≤ s.conn.readWindow ∧ max n headerSize ≤ s.incoming.length := by
    refine ⟨clean.waiting, ?_, ?_, ?_⟩
    · simp only [headerSize]
      omega
    · omega
    · rw [clean.incoming]
      omega
  have fits : (rest.take (max n headerSize)).length ≤ s.conn.readBuffer.getFreeSpaceSize := by
    rw [CircularBuffer.getFreeSpaceSize_eq clean.wellFormed, clean.size, clean.content, length]
    simp only [List.length_nil]
    omega
  obtain ⟨stored, written, wf, content, size'⟩ :=
    CircularBuffer.write_content clean.wellFormed fits
  rw [clean.content, List.nil_append] at content
  have taken : front stored.content = .ok (some n) := by
    rw [content]
    apply front_eq_some.mpr
    refine ⟨by omega, ?_, by omega⟩
    rw [packetSize_take _ _ (Nat.le_max_right n headerSize), ← size, packetSize_take _ _ (by decide)]
  obtain ⟨readBuffer, got, wf', left, size''⟩ := getPacket_some wf taken
  have packet : stored.content.take n = rest.take n := by
    rw [content, List.take_take, Nat.min_eq_left (Nat.le_max_left n headerSize)]
  rw [clean.incoming] at enabled
  refine ⟨readBuffer, ?_, wf', ?_, by rw [left, content]⟩
  · simp only [Runs.run_cons, Runs.run_nil, intake, if_pos enabled, clean.incoming, written,
      Option.bind_some, if_true, got, Session.pushPacket, clean.queue, List.nil_append, packet]
  · rw [size'', size', clean.size]

theorem dispatch_valid (int : Int → Int) {session : Session} {packet : List Byte}
    (valid : ValidRequest packet)
    (wf : session.sendBuffer.WellFormed) (drained : session.sendBuffer.wptr = 0)
    (large : packetBSize ≤ session.sendBuffer.buffer.size) (junk : Nat → Byte) :
    ∃ sendBuffer : CSyncBuffer, session.dispatch int junk packet =
        .ok { session with sendBuffer, pushSend := true } ∧ sendBuffer.WellFormed ∧
      0 < sendBuffer.getUsedSize ∧ sendBuffer.getUsedSize ≤ packetBSize ∧
      packetBSize ≤ sendBuffer.buffer.size := by
  obtain ⟨handler, found, long⟩ := valid.registered
  have four : ¬ packet.length < 4 := by
    have header : 4 ≤ handler.packetSize := by cases handler <;> decide
    omega
  have response := handler.response_length junk
  have bounds : 0 < handler.packetSize ∧ handler.packetSize ≤ packetBSize := by
    cases handler <;> decide
  have order := wf.order
  have fits : (handler.response junk).length ≤ session.sendBuffer.getFreeSize := by
    simp only [CSyncBuffer.getFreeSize]
    omega
  have written := @CSyncBuffer.write_fits _ wf int _ fits
  have pushed : session.pushSendPacket int (handler.response junk) = .ok { session with
      sendBuffer := { session.sendBuffer with
        buffer := session.sendBuffer.buffer.put session.sendBuffer.wptr (handler.response junk)
        wptr := session.sendBuffer.wptr + (handler.response junk).length }
      pushSend := true } := by
    rw [Session.pushSendPacket, written, ok_bind]
    simp
  refine ⟨_, ?_, (CSyncBuffer.write_content wf written).1, ?_, ?_, large⟩
  · rw [Session.dispatch, if_neg four, found]
    exact pushed
  · simp only [CSyncBuffer.getUsedSize]
    omega
  · simp only [CSyncBuffer.getUsedSize]
    omega

theorem write_all {c : Connection} (wf : c.session.sendBuffer.WellFormed)
    (unread : 0 < c.session.getRemainSendDataSize)
    (enough : c.session.getRemainSendDataSize ≤ n + 1) :
    ∃ sendBuffer sent writeLock, c.write [.accepted n] =
        .ok ({ c with session := { c.session with sendBuffer }, sent, writeLock }, true) ∧
      sendBuffer.WellFormed ∧ sendBuffer.wptr = 0 ∧
      sendBuffer.buffer.size = c.session.sendBuffer.buffer.size := by
  have whole : min (n + 1) c.session.getRemainSendDataSize = c.session.getRemainSendDataSize :=
    Nat.min_eq_right enough
  obtain ⟨sendBuffer, removed, wf', content, -, size, rptr⟩ :=
    Session.removeSendData_spec wf (Nat.le_refl c.session.getRemainSendDataSize)
  have empty : sendBuffer.getUsedSize = 0 := by
    have length := congrArg List.length content
    rw [List.length_drop, CSyncBuffer.content_length, CSyncBuffer.content_length] at length
    exact length.trans (Nat.sub_self _)
  have body : c.writeBody (.accepted n) = .ok ({ c with
      session := { c.session with sendBuffer }
      sent := c.sent ++ c.session.sendBuffer.content.take c.session.getRemainSendDataSize },
      none) := by
    simp only [Connection.writeBody, if_neg (Nat.ne_of_gt unread), whole, removed, ok_bind,
      if_neg (Nat.lt_irrefl _)]
  refine ⟨sendBuffer, c.sent ++ c.session.sendBuffer.content.take c.session.getRemainSendDataSize,
    c.releaseWriteLock.writeLock, ?_, wf', ?_, size⟩
  · rw [Connection.write, body, ok_bind]
    exact Connection.write_empty [] empty
  · have order := wf'.order
    simp only [CSyncBuffer.getUsedSize] at empty
    omega

theorem Clean.next (clean : Clean s rest) (complete : front (rest.take 4096) = .ok (some n))
    (valid : ValidRequest (rest.take n)) :
    ∃ events t, Runs.run (intake int) s events = some t ∧ Clean t (rest.drop n) := by
  obtain ⟨readBuffer, ran, wf, size, content⟩ := clean.frame complete
  have long : headerSize ≤ n := by
    obtain ⟨handler, -, inside⟩ := valid.registered
    have header : headerSize ≤ handler.packetSize := by cases handler <;> decide
    rw [List.length_take] at inside
    omega
  rw [Nat.max_eq_left long] at ran content
  have empty : readBuffer.content = [] := by
    rw [content, List.drop_eq_nil_iff, List.length_take]
    exact Nat.min_le_left _ _
  have null : getPacketFromReadBuffer readBuffer = .ok none := by
    apply getPacket_null wf
    rw [empty]
    rfl
  obtain ⟨sendBuffer, dispatched, wf', positive, few, large⟩ :=
    @dispatch_valid int { s.conn.session with packetList := [rest.take n] } _ valid clean.sendBuffer
      clean.drained clean.large (fun _ => 0)
  obtain ⟨sendBuffer', sent, writeLock, wrote, wf'', drained, size'⟩ :=
    write_all (n := 39) (c := { s.conn with
      readBuffer, session := { s.conn.session with sendBuffer, pushSend := true, packetList := [] } })
      wf' positive few
  refine ⟨[.recv n, .extract] ++ [.extract, .dispatch fun _ => 0, .write [.accepted 39]], ?_⟩
  rw [Runs.run_append, ran]
  simp only [Option.bind_some, Runs.run_cons, intake, if_true, null, dispatched, wrote, Runs.run_nil]
  refine ⟨_, rfl, wf, size, empty, rfl, rfl, rfl, wf'', drained, ?_⟩
  exact Nat.le_trans large (Nat.le_of_eq size'.symm)

theorem Clean.valid (clean : Clean s rest) (complete : front (rest.take 4096) = .ok (some n))
    {start : Intake} {events : List IntakeEvent}
    (reached : Runs.run (intake int) start events = some s)
    (holds : ∀ events, Runs.Throughout (intake int) NextValid start events) :
    ValidRequest (rest.take n) := by
  obtain ⟨readBuffer, ran, -⟩ := clean.frame complete
  have longer : Runs.run (intake int) start (events ++ [.recv (max n headerSize), .extract]) = _ :=
    Runs.run_append ..
  rw [reached, Option.bind_some, ran] at longer
  exact (holds _).last longer (rest.take n) [] rfl

/-- Every packet that `update` dispatches is valid, in every run over the stream,
exactly when every complete packet of the stream is. -/
theorem dispatches_valid_iff (int : Int → Int) (fresh : Nat → Byte) (stream : List Byte) :
    (∀ events, Runs.Throughout (intake int) NextValid (.start fresh stream) events) ↔
      ValidStream stream := by
  constructor
  · intro holds
    have reachable : ∀ rest, Boundary stream rest →
        ∃ events s, Runs.run (intake int) (.start fresh stream) events = some s ∧ Clean s rest := by
      intro rest boundary
      induction boundary with
      | start => exact ⟨[], _, rfl, clean_start fresh⟩
      | next boundary complete ih =>
        obtain ⟨events, s, reached, clean⟩ := ih
        obtain ⟨more, t, ran, clean'⟩ := clean.next complete (clean.valid complete reached holds)
        exact ⟨events ++ more, t, by rw [Runs.run_append, reached]; exact ran, clean'⟩
    intro rest n boundary complete
    obtain ⟨events, s, reached, clean⟩ := reachable rest boundary
    exact clean.valid complete reached holds
  · intro valid events
    have always : Runs.Throughout (intake int) (Follows stream) (.start fresh stream) events :=
      Runs.invariant (fun s e s' follows stepped => follows.step stepped) (follows_start fresh) events
    exact fun pre s inside reached => (always pre s inside reached).nextValid valid

/-- A header of 8 bytes whose opcode has no entry in `handler_` is dispatched. -/
theorem unset_handler_dispatched :
    ¬ Runs.Throughout (intake id) NextValid
      (.start (fun _ => 0) (packetHeader .SMSG_A headerSize)) [.recv 8, .extract] := by
  intro holds
  have ran : (Runs.run (intake id) (.start (fun _ => 0) (packetHeader .SMSG_A headerSize))
      [.recv 8, .extract]).map (·.conn.session.packetList) =
        some [packetHeader .SMSG_A headerSize] := by decide +kernel
  obtain ⟨s, reached, queue⟩ := Option.map_eq_some_iff.mp ran
  obtain ⟨handler, -, long⟩ := (holds.last reached _ [] queue).registered
  cases handler <;> exact absurd long (by decide)

end Reach
end Sometest.Epoll
