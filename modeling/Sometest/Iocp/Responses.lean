import Mathlib.Data.List.Forall2
import Sometest.Epoll.Responses
import Sometest.Iocp.Reading
import Sometest.Iocp.Writing

/-! Both sides of one connection of the IOCP port: the requests that completions deliver, and the
responses that completions report as sent. -/
namespace Sometest.Iocp
open Sometest.Net
open Session (Answers)

/-- `received`, `handled` and `transmitted` as in `Reader` and `Writer`. -/
structure Server where
  conn : Connection
  received : List Byte
  handled : List (List Byte)
  transmitted : List Byte

def Server.start (fresh : Nat → Byte) : Server := ⟨(Reader.start fresh).conn, [], [], []⟩

def Server.reader (s : Server) : Reader := ⟨s.conn, s.received, s.handled⟩

def Server.writer (s : Server) (pushed : List (List Byte)) : Writer := ⟨s.conn, s.transmitted, pushed⟩

def Server.read (s : Server) (r : Reader) : Server :=
  { s with conn := r.conn, received := r.received, handled := r.handled }

def Server.wrote (s : Server) (w : Writer) : Server :=
  { s with conn := w.conn, transmitted := w.transmitted }

/-- `sent i n` is a completion with `n` bytes of the `i`-th `WSASend` under way. -/
inductive Event where
  | read (event : ReadEvent)
  | doPushSend
  | sent (i n : Nat)

def Event.bytes : Event → List Byte
  | .read event => event.bytes
  | _ => []

def step (bound : Nat) (int : Int → Int) (s : Server) : Event → Option Server
  | .read event => (readStep bound int s.reader event).map s.read
  | .doPushSend => (writeStep int (s.writer []) .doPushSend).map s.wrote
  | .sent i n => (writeStep int (s.writer []) (.completed i n)).map s.wrote

/-- A completion of an operation that is under way. -/
def Enabled (s : Server) : Event → Prop
  | .read event => Completes s.reader event
  | .doPushSend => True
  | .sent i n => Completed (s.writer []) (.completed i n)

/-- What the read side leaves alone. -/
structure WasRead (c c' : Connection) : Prop where
  sendBuffer : c'.session.sendBuffer = c.session.sendBuffer
  writeLock : c'.writeLock = c.writeLock
  sends : c'.sends = c.sends

/-- What the write side leaves alone. -/
structure WasWritten (c c' : Connection) : Prop where
  readBuffer : c'.readBuffer = c.readBuffer
  recvs : c'.recvs = c.recvs
  active : c'.session.active = c.session.active
  packetList : c'.session.packetList = c.session.packetList

section Frames
variable {c c' : Connection} {ok : Bool}

theorem startNextRead_frame {bound : Nat} {bytes : List Byte}
    (ran : c.startNextRead bound true bytes = .ok (c', ok)) : WasRead c c' := by
  obtain ⟨next, stored, same⟩ := bind_eq_ok.mp ran
  cases same
  rw [Connection.storeReceived] at stored
  split at stored
  · obtain ⟨readBuffer, -, extracted⟩ := bind_eq_ok.mp stored
    rw [Connection.onRead] at extracted
    split at extracted
    · obtain ⟨out, -, same⟩ := bind_eq_ok.mp extracted
      cases same
      exact ⟨rfl, rfl, rfl⟩
    · cases extracted
      exact ⟨rfl, rfl, rfl⟩
  · cases stored
    exact ⟨rfl, rfl, rfl⟩

theorem startNextWrite_zero_frame (ran : c.startNextWrite true 0 = .ok (c', ok)) :
    WasWritten c c' := by
  simp only [Connection.startNextWrite, ne_eq, not_true_eq_false, if_false, ok_bind, if_true] at ran
  split at ran
  · cases ran
    exact ⟨rfl, rfl, rfl, rfl⟩
  · cases ran
    exact ⟨rfl, rfl, rfl, rfl⟩

theorem startNextWrite_frame {n : Nat} (ran : c.startNextWrite true n = .ok (c', ok)) :
    WasWritten c c' := by
  by_cases zero : n = 0
  · subst zero
    exact startNextWrite_zero_frame ran
  · cases removed : c.session.removeSendData n with
    | error fault =>
      simp only [Connection.startNextWrite, ne_eq, eq_comm, zero, not_false_eq_true, if_true, removed,
        error_bind] at ran
      cases ran
    | ok session =>
      rw [Connection.startNextWrite_removed (Ne.symm zero) removed] at ran
      have frame := startNextWrite_zero_frame ran
      obtain ⟨sendBuffer, -, same⟩ := bind_eq_ok.mp removed
      cases same
      exact ⟨frame.readBuffer, frame.recvs, frame.active, frame.packetList⟩

theorem doPushSend_frame (ran : c.doPushSend true = .ok (c', ok)) : WasWritten c c' := by
  rw [Connection.doPushSend] at ran
  split at ran
  · split at ran
    · rename_i next acquired
      obtain ⟨rfl, -⟩ := Prod.mk.inj acquired
      have frame := startNextWrite_frame ran
      exact ⟨frame.readBuffer, frame.recvs, frame.active, frame.packetList⟩
    · rename_i next acquired
      obtain ⟨rfl, -⟩ := Prod.mk.inj acquired
      cases ran
      exact ⟨rfl, rfl, rfl, rfl⟩
  · cases ran
    exact ⟨rfl, rfl, rfl, rfl⟩

theorem writeStep_frame {int : Int → Int} {w w' : Writer} {e : WriteEvent}
    (stepped : writeStep int w e = some w') (sending : ∀ packet, e ≠ .pushSendPacket packet) :
    WasWritten w.conn w'.conn := by
  cases e with
  | pushSendPacket packet => exact absurd rfl (sending packet)
  | doPushSend =>
    simp only [writeStep] at stepped
    split at stepped
    · rename_i conn ok ran
      cases stepped
      exact doPushSend_frame ran
    · cases stepped
  | completed i n =>
    simp only [writeStep] at stepped
    split at stepped
    · split at stepped
      · split at stepped
        · rename_i conn ok ran
          cases stepped
          have frame := startNextWrite_frame ran
          exact ⟨frame.readBuffer, frame.recvs, frame.active, frame.packetList⟩
        · cases stepped
      · cases stepped
    · cases stepped

/-- The packets pushed so far have no part in sending. -/
theorem writeStep_pushed {int : Int → Int} {w w' : Writer} {e : WriteEvent}
    (stepped : writeStep int w e = some w') (sending : ∀ packet, e ≠ .pushSendPacket packet)
    (pushed : List (List Byte)) :
    writeStep int { w with pushed } e = some { w' with pushed } := by
  cases e with
  | pushSendPacket packet => exact absurd rfl (sending packet)
  | doPushSend =>
    simp only [writeStep] at stepped ⊢
    split at stepped
    · cases stepped
      rfl
    · cases stepped
  | completed i n =>
    simp only [writeStep] at stepped ⊢
    split at stepped
    · split at stepped
      · rename_i enabled
        split at stepped
        · cases stepped
          simp only [if_pos enabled]
        · cases stepped
      · cases stepped
    · cases stepped

theorem readStep_completed {bound : Nat} {int : Int → Int} {r r' : Reader} {bytes : List Byte}
    (stepped : readStep bound int r (.completed bytes) = some r') :
    r'.handled = r.handled ∧ WasRead r.conn r'.conn := by
  simp only [readStep] at stepped
  split at stepped
  · split at stepped
    · split at stepped
      · rename_i conn ok ran
        cases stepped
        have frame := startNextRead_frame ran
        exact ⟨rfl, frame.sendBuffer, frame.writeLock, frame.sends⟩
      · cases stepped
    · cases stepped
  · cases stepped

end Frames

/-- Both sides at once: `responses` are the packets pushed. -/
structure Answering (requests : List (List Byte)) (s : Server) : Prop where
  reading : s.reader.Delivering requests
  sending : ∃ responses, List.Forall₂ Answers s.handled responses ∧ Serial (s.writer responses)

theorem Answering.delivering {requests : List (List Byte)} {s : Server}
    (answering : Answering requests s) :
    Delivering requests s.conn.session s.conn.readBuffer s.received s.handled :=
  answering.reading.delivering

theorem answering_start {requests : List (List Byte)} (framed : ∀ r ∈ requests, Framed r)
    (fresh : Nat → Byte) : Answering requests (.start fresh) where
  reading := ⟨delivering_init framed fresh, rfl⟩
  sending := ⟨[], .nil, ⟨CSyncBuffer.wellFormed_init 4096, rfl, show packetBSize ≤ 4096 by decide,
    .idle rfl rfl, rfl⟩⟩

section Steps
variable {requests : List (List Byte)} {s s' : Server} {bound : Nat} {int : Int → Int}

/-- Reading does not interfere with sending. -/
theorem Serial.read {w : Writer} (serial : Serial w) {c' : Connection} (frame : WasRead w.conn c') :
    Serial { w with conn := c' } where
  wellFormed := frame.sendBuffer ▸ serial.wellFormed
  start := frame.sendBuffer ▸ serial.start
  large := frame.sendBuffer ▸ serial.large
  sending := by
    cases serial.sending with
    | idle free quiet => exact .idle (frame.writeLock.trans free) (frame.sends.trans quiet)
    | busy op held one front =>
      exact .busy op (frame.writeLock.trans held) (frame.sends.trans one) (frame.sendBuffer ▸ front)
  bytes := frame.sendBuffer ▸ serial.bytes

/-- Nor sending with reading. -/
theorem Reader.Delivering.written {r : Reader} (reading : r.Delivering requests) {c' : Connection}
    (frame : WasWritten r.conn c') (wf : c'.session.sendBuffer.WellFormed) :
    Reader.Delivering requests { r with conn := c' } where
  delivering := by
    simp only [frame.readBuffer]
    exact reading.delivering.send frame.active frame.packetList wf
  posted := by
    simp only [frame.recvs, reading.posted, Connection.readWindow, frame.readBuffer]

theorem Serial.update {w : Writer} (serial : Serial w) {junk : Nat → Nat → Byte} {session : Session}
    (done : Session.dispatchAll int junk 0 w.conn.session.packetList w.conn.session = .ok session) :
    ∃ responses, List.Forall₂ Answers w.conn.session.packetList responses ∧
      Serial ⟨{ w.conn with session }, w.transmitted, w.pushed ++ responses⟩ := by
  obtain ⟨responses, answered, wf, content, -, -, size, start⟩ :=
    Session.dispatchAll_spec serial.wellFormed rfl done
  refine ⟨responses, answered, wf, start serial.start, Nat.le_trans serial.large size, ?_, ?_⟩
  · cases serial.sending with
    | idle free quiet => exact .idle free quiet
    | busy op held one front =>
      refine .busy op held one ?_
      simp only [content]
      exact front.trans (List.prefix_append _ _)
  · simp only [content, ← List.append_assoc, serial.bytes, List.flatten_append]

theorem step_received {e : Event} (stepped : step bound int s e = some s') :
    s'.received = s.received ++ e.bytes := by
  have nothing := (List.append_nil s.received).symm
  cases e with
  | read event =>
    obtain ⟨r, read, rfl⟩ := Option.map_eq_some_iff.mp stepped
    exact (readStep_received read).2
  | doPushSend =>
    obtain ⟨w, written, rfl⟩ := Option.map_eq_some_iff.mp stepped
    exact nothing
  | sent i n =>
    obtain ⟨w, written, rfl⟩ := Option.map_eq_some_iff.mp stepped
    exact nothing

theorem Answering.wrote (answering : Answering requests s) {w : Writer} {e : WriteEvent}
    (written : writeStep int (s.writer []) e = some w)
    (sending : ∀ packet, e ≠ .pushSendPacket packet) : Answering requests (s.wrote w) := by
  obtain ⟨responses, answered, serial⟩ := answering.sending
  have serial' := serial.step (writeStep_pushed written sending responses)
  exact ⟨answering.reading.written (writeStep_frame written sending) serial'.wellFormed,
    responses, answered, serial'⟩

theorem Answering.step (answering : Answering requests s) (framed : ∀ r ∈ requests, Framed r)
    (enough : 4096 < bound) (stream : s'.received <+: requests.flatten) {e : Event}
    (stepped : step bound int s e = some s') : Answering requests s' := by
  cases e with
  | read event =>
    obtain ⟨r, read, rfl⟩ := Option.map_eq_some_iff.mp stepped
    obtain ⟨responses, answered, serial⟩ := answering.sending
    refine ⟨step_delivering answering.reading framed enough stream read, ?_⟩
    cases event with
    | completed bytes =>
      obtain ⟨handled, frame⟩ := readStep_completed read
      have same : (s.read r).handled = s.handled := handled
      exact ⟨responses, same ▸ answered, serial.read frame⟩
    | update junk =>
      have active := answering.reading.delivering.active
      simp only [readStep, Session.update, if_pos active] at read
      split at read
      · rename_i session done
        cases read
        obtain ⟨more, answered', serial'⟩ := serial.update done
        exact ⟨responses ++ more, List.rel_append answered answered', serial'⟩
      · cases read
  | doPushSend =>
    obtain ⟨w, written, rfl⟩ := Option.map_eq_some_iff.mp stepped
    exact answering.wrote written (by simp)
  | sent i n =>
    obtain ⟨w, written, rfl⟩ := Option.map_eq_some_iff.mp stepped
    exact answering.wrote written (by simp)

/-- Along every run of completions that deliver a beginning of the requests. -/
theorem run_answering (framed : ∀ r ∈ requests, Framed r) (enough : 4096 < bound)
    (fresh : Nat → Byte) {events : List Event}
    (reached : Runs.run (step bound int) (.start fresh) events = some s)
    (stream : s.received <+: requests.flatten) : Answering requests s := by
  have preserved : ∀ s e s', (s.received <+: requests.flatten → Answering requests s) →
      step bound int s e = some s' → s'.received <+: requests.flatten → Answering requests s' := by
    intro s e s' before stepped stream
    have start : s.received <+: s'.received := step_received stepped ▸ List.prefix_append _ _
    exact (before (start.trans stream)).step framed enough stream stepped
  have initial : Answering requests (.start fresh) := answering_start framed fresh
  exact (Runs.invariant preserved (fun _ => initial) events).last reached stream

/-- `int` is exact up to twice what the send buffer has to hold after an `update`. -/
def Server.Room (int : Int → Int) (s : Server) : Prop :=
  ∀ n : Nat, n < 2 * (s.conn.session.getRemainSendDataSize +
    packetBSize * s.conn.session.packetList.length) → int n = n

theorem Answering.total (answering : Answering requests s)
    (requested : ∀ r ∈ requests, Epoll.Request r) (enough : 4096 < bound) (room : s.Room int)
    {e : Event} (enabled : Enabled s e) (stream : s.received ++ e.bytes <+: requests.flatten) :
    ∃ s', Iocp.step bound int s e = some s' := by
  have framed : ∀ r ∈ requests, Framed r := fun r member => (requested r member).framed
  obtain ⟨responses, -, serial⟩ := answering.sending
  cases e with
  | read event =>
    have outcome : ∃ r, readStep bound int s.reader event = some r := by
      cases event with
      | completed bytes =>
        obtain ⟨r, read, -⟩ : ∃ r, readStep bound int s.reader (.completed bytes) = some r ∧
            r.Delivering requests :=
          completed_delivering answering.reading framed enough enabled stream
        exact ⟨r, read⟩
      | update junk =>
        have active := answering.delivering.active
        have handled : ∀ p ∈ s.conn.session.packetList, Session.Handled p := by
          intro packet member
          exact (requested packet (answering.delivering.mem_of_waiting member)).handled
        obtain ⟨session, done⟩ := Session.dispatchAll_total (s := s.conn.session) room
          serial.wellFormed serial.start serial.large (Nat.le_refl _) handled
        have updated : s.conn.session.update int junk = .ok session := by
          rw [Session.update, if_pos active, done]
        simp only [readStep, Server.reader, updated]
        exact ⟨_, rfl⟩
    obtain ⟨r, read⟩ := outcome
    exact ⟨s.read r, by rw [Iocp.step, read, Option.map_some]⟩
  | doPushSend =>
    obtain ⟨w, written, -⟩ := serial.doPushSend int
    have outcome := writeStep_pushed written (by simp) []
    exact ⟨_, by rw [Iocp.step]; exact congrArg (Option.map s.wrote) outcome⟩
  | sent i n =>
    obtain ⟨w, written, -⟩ := serial.completed int enabled
    have outcome := writeStep_pushed written (by simp) []
    exact ⟨_, by rw [Iocp.step]; exact congrArg (Option.map s.wrote) outcome⟩

/-- While a `WSASend` is under way, the responses of an `update`, each as long as its request, fit
behind the unread bytes. -/
def FitsUpdate (s : Server) : Event → Prop
  | .read (.update _) => s.conn.sends ≠ [] →
      s.conn.session.packetList.flatten.length ≤ s.conn.session.sendBuffer.getFreeSize
  | _ => True

theorem dispatchAll_alloc {junk : Nat → Nat → Byte} {k : Nat} {packets : List (List Byte)}
    {session session' : Session} (wf : session.sendBuffer.WellFormed)
    (requested : ∀ p ∈ packets, Epoll.Request p)
    (done : Session.dispatchAll int junk k packets session = .ok session') :
    session.sendBuffer.alloc ≤ session'.sendBuffer.alloc ∧
      (packets.flatten.length ≤ session.sendBuffer.getFreeSize →
        session'.sendBuffer.alloc = session.sendBuffer.alloc) := by
  induction packets generalizing k session with
  | nil =>
    cases done
    exact ⟨Nat.le_refl _, fun _ => rfl⟩
  | cons packet rest ih =>
    obtain ⟨next, dispatched, more⟩ := bind_eq_ok.mp done
    obtain ⟨handler, found, long⟩ := (requested packet List.mem_cons_self).handler
    have length : (handler.response (junk k)).length = packet.length := by
      rw [Handler.response_length, long]
    simp only [Session.dispatch, found] at dispatched
    split at dispatched
    · cases dispatched
    obtain ⟨sendBuffer, rfl, written, wf', -, -⟩ := Session.pushSendPacket_spec wf dispatched
    obtain ⟨later, kept⟩ := ih (k := k + 1) wf'
      (fun p member => requested p (List.mem_cons_of_mem _ member)) more
    by_cases room : (handler.response (junk k)).length ≤ session.sendBuffer.getFreeSize
    · rw [CSyncBuffer.write_fits wf room] at written
      cases written
      refine ⟨later, fun fits => kept ?_⟩
      simp only [List.flatten_cons, List.length_append, CSyncBuffer.getFreeSize,
        Memory.Block.put_size] at fits ⊢
      omega
    · have grown := (CSyncBuffer.write_grows wf room written).1
      simp only at grown later
      refine ⟨by omega, fun fits => absurd ?_ room⟩
      simp only [List.flatten_cons, List.length_append] at fits
      omega

/-- What is under way stays where it was posted. -/
theorem Answering.inPlace (answering : Answering requests s)
    (requested : ∀ r ∈ requests, Epoll.Request r) (enough : 4096 < bound)
    (stream : s'.received <+: requests.flatten) {e : Event}
    (stepped : Iocp.step bound int s e = some s') (inPlace : InPlace s.conn)
    (fits : FitsUpdate s e) :
    InPlace s'.conn := by
  have framed : ∀ r ∈ requests, Framed r := fun r member => (requested r member).framed
  obtain ⟨responses, -, serial⟩ := answering.sending
  obtain ⟨-, responses', -, serial'⟩ := answering.step framed enough stream stepped
  cases e with
  | read event =>
    obtain ⟨r, read, rfl⟩ := Option.map_eq_some_iff.mp stepped
    cases event with
    | completed bytes =>
      obtain ⟨-, frame⟩ := readStep_completed read
      intro op member
      obtain ⟨alloc, off⟩ := inPlace op (frame.sends ▸ member)
      exact ⟨frame.sendBuffer ▸ alloc, frame.sendBuffer ▸ off⟩
    | update junk =>
      have waiting : ∀ p ∈ s.conn.session.packetList, Epoll.Request p := fun p member =>
        requested p (answering.delivering.mem_of_waiting member)
      simp only [readStep, Session.update, if_pos answering.reading.delivering.active] at read
      split at read
      · rename_i session done
        cases read
        intro op member
        obtain ⟨alloc, off⟩ := inPlace op member
        obtain ⟨-, kept⟩ := dispatchAll_alloc serial.wellFormed waiting done
        exact ⟨alloc.trans (kept (fits (List.ne_nil_of_mem member))).symm,
          off.trans (serial.start.trans serial'.start.symm)⟩
      · cases read
  | doPushSend =>
    obtain ⟨w, written, rfl⟩ := Option.map_eq_some_iff.mp stepped
    obtain ⟨t, same, -, kept⟩ := serial.doPushSend int
    cases (writeStep_pushed written (by simp) responses).symm.trans same
    exact kept inPlace
  | sent i n =>
    obtain ⟨w, written, rfl⟩ := Option.map_eq_some_iff.mp stepped
    have written' := writeStep_pushed written (by simp) responses
    obtain ⟨t, same, -, posted⟩ := serial.completed int (completed_of_step written')
    cases written'.symm.trans same
    exact posted

theorem run_inPlace (requested : ∀ r ∈ requests, Epoll.Request r) (enough : 4096 < bound)
    (fresh : Nat → Byte) {events : List Event}
    (reached : Runs.run (step bound int) (.start fresh) events = some s)
    (stream : s.received <+: requests.flatten)
    (fits : Runs.Guarded (step bound int) FitsUpdate (.start fresh) events) : InPlace s.conn := by
  have framed : ∀ r ∈ requests, Framed r := fun r member => (requested r member).framed
  induction events using List.reverseRecOn generalizing s with
  | nil =>
    cases reached
    exact fun op member => absurd member List.not_mem_nil
  | append_singleton before e ih =>
    obtain ⟨t, earlier, stepped⟩ := Runs.run_concat.mp reached
    have sofar : t.received <+: requests.flatten := by
      rw [step_received stepped] at stream
      exact (List.prefix_append _ _).trans stream
    have inPlace := ih earlier sofar (fits.mono (List.prefix_append _ _))
    exact (run_answering framed enough fresh earlier sofar).inPlace requested enough stream stepped
      inPlace (fits before e t s (List.prefix_refl _) earlier stepped)

end Steps

/-- After every run over a beginning of the requests, with each `WSASend` taking its bytes when it is
posted: one response for each request handled so far has been reported as sent or is, behind that, in
the send buffer, in order and without a byte lost; at most one `WSASend` and exactly one `WSARecv` is
under way; the memory given to a `WSASend` still holds its bytes, as long as no `update` has made the
buffer grow meanwhile; and the next step has an outcome. -/
theorem answered_in_order (requests : List (List Byte)) (requested : ∀ r ∈ requests, Epoll.Request r)
    (bound : Nat) (enough : 4096 < bound) (int : Int → Int) (fresh : Nat → Byte)
    (events : List Event) (s : Server)
    (reached : Runs.run (step bound int) (.start fresh) events = some s)
    (stream : s.received <+: requests.flatten) :
    s.handled <+: requests ∧
    (∃ responses, s.transmitted ++ s.conn.session.sendBuffer.content = responses.flatten ∧
      List.Forall₂ Epoll.Responds s.handled responses) ∧
    s.conn.sends.length ≤ 1 ∧ s.conn.recvs = [s.conn.readWindow] ∧
    (Runs.Guarded (step bound int) FitsUpdate (.start fresh) events → Intact (s.writer [])) ∧
    (s.Room int → ∀ e, Enabled s e → s.received ++ e.bytes <+: requests.flatten →
      ∃ s', step bound int s e = some s') := by
  have framed : ∀ r ∈ requests, Framed r := fun r member => (requested r member).framed
  have answering := run_answering framed enough fresh reached stream
  have order : s.handled <+: requests := answering.delivering.handled_prefix
  obtain ⟨responses, answered, serial⟩ := answering.sending
  refine ⟨order, ⟨responses, serial.bytes, ?_⟩, ?_, answering.reading.posted, fun fits => ?_, ?_⟩
  · exact Epoll.responds_all (fun r member => requested r (order.subset member)) answered
  · cases serial.sending with
    | idle free quiet => rw [show s.conn.sends = [] from quiet]; exact Nat.zero_le 1
    | busy op held one front => rw [show s.conn.sends = [op] from one]; exact Nat.le_refl 1
  · have inPlace : InPlace (s.writer responses).conn :=
      run_inPlace requested enough fresh reached stream fits
    have intact : Intact (s.writer responses) := intact_of_inPlace serial inPlace
    exact intact
  · exact fun room e enabled continues => answering.total requested enough room enabled continues

/-- A request in two completions, its response sent in two. -/
theorem answered_in_order_partial_sends :
    let request := packetHeader .CMSG_A packetASize ++ List.replicate 16 0
    ∃ s, Runs.run (step 4097 id) (.start fun _ => 0)
        [.read (.completed (request.take 10)), .read (.completed (request.drop 10)),
          .read (.update fun _ _ => 0), .doPushSend, .sent 0 9, .sent 0 15] = some s ∧
      s.transmitted.length = 24 ∧ s.handled <+: [request] ∧ s.conn.sends.length ≤ 1 ∧
      ∃ responses, s.transmitted ++ s.conn.session.sendBuffer.content = responses.flatten ∧
        List.Forall₂ Epoll.Responds s.handled responses := by
  intro request
  have requested : ∀ r ∈ [request], Epoll.Request r := by
    intro r member
    obtain rfl := List.mem_singleton.mp member
    exact ⟨.inl ⟨by decide +kernel, by decide⟩, by decide +kernel⟩
  have ran : (Runs.run (step 4097 id) (.start fun _ => 0)
      [.read (.completed (request.take 10)), .read (.completed (request.drop 10)),
        .read (.update fun _ _ => 0), .doPushSend, .sent 0 9, .sent 0 15]).map
      (fun s => (s.received, s.transmitted.length)) = some (request, 24) := by decide +kernel
  obtain ⟨s, reached, same⟩ := Option.map_eq_some_iff.mp ran
  obtain ⟨received, sent⟩ := Prod.mk.inj same
  obtain ⟨order, responses, single, -⟩ := answered_in_order [request] requested 4097 (by decide) id
    (fun _ => 0) _ s reached (by rw [received]; decide)
  exact ⟨s, reached, sent, order, single, responses⟩

end Sometest.Iocp
