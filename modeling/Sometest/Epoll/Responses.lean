import Mathlib.Data.List.Forall2
import Sometest.Epoll.Reading

/-! The responses of the epoll server: what the socket has accepted, followed by the
unread bytes of the send buffer, is one response for each request in order. -/
namespace Sometest.Epoll
open Sometest.Net
open Session (Answers Handled)

/-- A `CNetPacketA` or a `CNetPacketB`. -/
structure Request (packet : List Byte) : Prop where
  kind : packetOpcode packet = Opcode.CMSG_A.toNat ∧ packet.length = packetASize ∨
    packetOpcode packet = Opcode.CMSG_B.toNat ∧ packet.length = packetBSize
  size : packetSize packet = packet.length

theorem Request.framed (request : Request packet) : Framed packet := by
  refine ⟨?_, ?_, request.size⟩
  · rcases request.kind with ⟨-, length⟩ | ⟨-, length⟩ <;> rw [length] <;> decide
  · rcases request.kind with ⟨-, length⟩ | ⟨-, length⟩ <;> rw [length] <;> decide

theorem Request.handler (request : Request packet) :
    ∃ handler, handlerOf (packetOpcode packet) = some handler ∧
      handler.packetSize = packet.length := by
  rcases request.kind with ⟨opcode, length⟩ | ⟨opcode, length⟩
  · exact ⟨.processCAMsg, by rw [opcode]; rfl, length.symm⟩
  · exact ⟨.processCBMsg, by rw [opcode]; rfl, length.symm⟩

theorem Request.handled (request : Request packet) : Handled packet := by
  obtain ⟨handler, found, -⟩ := request.handler
  have header := request.framed.header
  simp only [headerSize] at header
  exact ⟨by omega, handler, found⟩

/-- What the handler of the request sends: `SMSG_A` for `CMSG_A` and `SMSG_B` for `CMSG_B`, as long
as the request, with that length in `size_`. -/
structure Responds (request response : List Byte) : Prop where
  answers : Answers request response
  opcode :
    packetOpcode request = Opcode.CMSG_A.toNat ∧ packetOpcode response = Opcode.SMSG_A.toNat ∨
    packetOpcode request = Opcode.CMSG_B.toNat ∧ packetOpcode response = Opcode.SMSG_B.toNat
  size : packetSize response = response.length
  length : response.length = request.length

theorem Request.responds (request : Request packet) (answers : Answers packet response) :
    Responds packet response := by
  obtain ⟨handler, found, long⟩ := request.handler
  obtain ⟨handler', junk, found', rfl⟩ := id answers
  cases found.symm.trans found'
  have length : (handler.response junk).length = packet.length := by
    rw [Handler.response_length, long]
  have size : packetSize (handler.response junk) = (handler.response junk).length := by
    rw [Handler.response_size, Handler.response_length]
  refine ⟨answers, ?_, size, length⟩
  rcases request.kind with ⟨opcode, -⟩ | ⟨opcode, -⟩ <;> rw [opcode] at found <;> cases found
  · refine .inl ⟨opcode, ?_⟩
    rw [Handler.response, packetOpcode_serverPacket]
    decide +kernel
  · refine .inr ⟨opcode, ?_⟩
    rw [Handler.response, packetOpcode_serverPacket]
    decide +kernel

theorem responds_all {handled responses : List (List Byte)} (requested : ∀ r ∈ handled, Request r)
    (answered : List.Forall₂ Answers handled responses) :
    List.Forall₂ Responds handled responses := by
  induction answered with
  | nil => exact .nil
  | cons answer rest ih =>
    have request := requested _ List.mem_cons_self
    exact .cons (request.responds answer)
      (ih fun r member => requested r (List.mem_cons_of_mem _ member))

/-- Every byte of the responses is on the wire or in the send buffer. -/
structure Ordered (s : Server) : Prop where
  wellFormed : s.conn.session.sendBuffer.WellFormed
  start : s.conn.session.sendBuffer.rptr = 0
  large : packetBSize ≤ s.conn.session.sendBuffer.buffer.size
  bytes : ∃ responses, List.Forall₂ Answers s.handled responses ∧
    s.conn.sent ++ s.conn.session.sendBuffer.content = responses.flatten

section Run
variable {s s' : Server} {bound : Nat} {int : Int → Int}

theorem ordered_start (fresh : Nat → Byte) : Ordered (.start fresh) where
  wellFormed := CSyncBuffer.wellFormed_init 4096
  start := rfl
  large := show packetBSize ≤ 4096 by decide
  bytes := ⟨[], .nil, rfl⟩

/-- A step that leaves the buffer, the wire and the handled packets alone. -/
theorem Ordered.same (ordered : Ordered s)
    (sendBuffer : s'.conn.session.sendBuffer = s.conn.session.sendBuffer)
    (sent : s'.conn.sent = s.conn.sent) (handled : s'.handled = s.handled) : Ordered s' where
  wellFormed := sendBuffer ▸ ordered.wellFormed
  start := sendBuffer ▸ ordered.start
  large := sendBuffer ▸ ordered.large
  bytes := by
    rw [sendBuffer, sent, handled]
    exact ordered.bytes

theorem Ordered.update (ordered : Ordered s) {junk : Nat → Nat → Byte}
    (updated : step bound int s (.update junk) = .ok s') : Ordered s' := by
  obtain ⟨session, done, same⟩ := bind_eq_ok.mp updated
  cases same
  rw [Session.update] at done
  split at done
  · rename_i active
    obtain ⟨more, answered, wf, content, -, -, size, start⟩ :=
      Session.dispatchAll_spec ordered.wellFormed rfl done
    obtain ⟨responses, before, bytes⟩ := ordered.bytes
    refine ⟨wf, start ordered.start, Nat.le_trans ordered.large size, responses ++ more, ?_, ?_⟩
    · simp only [if_pos active]
      exact List.rel_append before answered
    · rw [content, ← List.append_assoc, bytes, List.flatten_append]
  · rename_i inactive
    cases done
    refine ordered.same rfl rfl ?_
    simp only [if_neg inactive, List.append_nil]

theorem Ordered.step (ordered : Ordered s) {e : Event}
    (stepped : transition bound int s e = some s') : Ordered s' := by
  obtain ⟨-, stepped⟩ := transition_eq_some.mp stepped
  cases e with
  | enterRead =>
    simp only [Epoll.step] at stepped
    split at stepped
    · rename_i conn acquired
      cases stepped
      obtain ⟨rfl, -⟩ := Prod.mk.inj acquired
      exact ordered.same rfl rfl rfl
    · rename_i conn acquired
      cases stepped
      obtain ⟨rfl, -⟩ := Prod.mk.inj acquired
      exact ordered.same rfl rfl rfl
  | recv result =>
    obtain ⟨⟨conn, returned⟩, body, same⟩ := bind_eq_ok.mp stepped
    cases same
    have frame := Connection.readBody_frame body
    exact ordered.same frame.sendBuffer frame.sent rfl
  | update junk => exact ordered.update stepped
  | doPushSend ctl =>
    cases stepped
    have frame := Connection.doPushSend_frame ctl s.conn
    exact ordered.same frame.sendBuffer frame.sent rfl
  | write results =>
    obtain ⟨⟨conn, ok⟩, written, same⟩ := bind_eq_ok.mp stepped
    cases same
    obtain ⟨conn', ok', same, wrote⟩ := @Connection.write_spec results s.conn ordered.wellFormed
    cases same.symm.trans written
    refine ⟨wrote.wellFormed, wrote.rptr ordered.start, wrote.size ▸ ordered.large, ?_⟩
    rw [wrote.bytes]
    exact ordered.bytes

/-- On every run, whatever the stream is. -/
theorem ordered_run (fresh : Nat → Byte) {events : List Event}
    (reached : Runs.run (transition bound int) (.start fresh) events = some s) : Ordered s := by
  have always : Runs.Throughout (transition bound int) Ordered (.start fresh) events :=
    Runs.invariant (fun s e s' ordered stepped => ordered.step stepped) (ordered_start fresh) events
  exact always.last reached

/-- `int` is exact up to twice what the send buffer has to hold after an `update`,
as every value of the unbounded `int` is. -/
def Room (int : Int → Int) (s : Server) : Prop :=
  ∀ n : Nat, n < 2 * (s.conn.session.getRemainSendDataSize +
    packetBSize * s.conn.session.packetList.length) → int n = n

theorem Ordered.update_total (ordered : Ordered s) (room : Room int s)
    (handled : ∀ p ∈ s.conn.session.packetList, Handled p) (junk : Nat → Nat → Byte) :
    ∃ s', Epoll.step bound int s (.update junk) = .ok s' := by
  have done : ∃ session, s.conn.session.update int junk = .ok session := by
    rw [Session.update]
    split
    · exact Session.dispatchAll_total room ordered.wellFormed ordered.start ordered.large
        (Nat.le_refl _) handled
    · exact ⟨_, rfl⟩
  obtain ⟨session, done⟩ := done
  simp only [Epoll.step, done, ok_bind]
  exact ⟨_, rfl⟩

def Event.bytes : Event → List Byte
  | .recv result => result.bytes
  | _ => []

theorem step_total {requests : List (List Byte)} (requested : ∀ r ∈ requests, Request r)
    (enough : 4096 < bound) (delivering : s.Delivering requests) (ordered : Ordered s) (room : Room int s)
    {e : Event} (enabled : Enabled s e)
    (stream : s.received ++ e.bytes <+: requests.flatten) :
    ∃ s', transition bound int s e = some s' := by
  have framed : ∀ r ∈ requests, Framed r := fun r member => (requested r member).framed
  have total : ∃ s', step bound int s e = .ok s' := by
    cases e with
    | enterRead =>
      simp only [step]
      split <;> exact ⟨_, rfl⟩
    | recv result =>
      have outcome : ∃ s', step bound int s (.recv result) = .ok s' ∧ s'.Delivering requests :=
        recv_delivering delivering framed enough enabled stream
      obtain ⟨s', ran, -⟩ := outcome
      exact ⟨s', ran⟩
    | update junk =>
      apply ordered.update_total room
      intro packet member
      exact (requested packet (delivering.mem_of_waiting member)).handled
    | doPushSend ctl => exact ⟨_, rfl⟩
    | write results =>
      obtain ⟨conn, ok, written, -⟩ := @Connection.write_spec results s.conn ordered.wellFormed
      simp only [step, written, ok_bind]
      exact ⟨_, rfl⟩
  obtain ⟨s', ran⟩ := total
  exact ⟨s', transition_eq_some.mpr ⟨enabled, ran⟩⟩

end Run

/-- After every run over a beginning of the requests: one response for each request
handled so far is on the wire or, behind it, in the send buffer, in order and
without a byte lost, and the next step has an outcome. -/
theorem responses_in_order (requests : List (List Byte)) (requested : ∀ r ∈ requests, Request r)
    (bound : Nat) (enough : 4096 < bound) (int : Int → Int) (fresh : Nat → Byte)
    (events : List Event) (s : Server)
    (reached : Runs.run (transition bound int) (.start fresh) events = some s)
    (stream : s.received <+: requests.flatten) :
    s.handled <+: requests ∧
    (∃ responses, s.conn.sent ++ s.conn.session.sendBuffer.content = responses.flatten ∧
      List.Forall₂ Responds s.handled responses) ∧
    (Room int s → ∀ e, Enabled s e → s.received ++ e.bytes <+: requests.flatten →
      ∃ s', transition bound int s e = some s') := by
  have framed : ∀ r ∈ requests, Framed r := fun r member => (requested r member).framed
  have delivering := run_delivering framed enough fresh reached stream
  have ordered := ordered_run fresh reached
  have order : s.handled <+: requests := delivering.handled_prefix
  refine ⟨order, ?_, ?_⟩
  · obtain ⟨responses, answered, bytes⟩ := ordered.bytes
    exact ⟨responses, bytes, responds_all (fun r member => requested r (order.subset member)) answered⟩
  · intro room e enabled continues
    exact step_total requested enough delivering ordered room enabled continues

/-- A request in two pieces, and 10 of the 24 bytes of its response sent. -/
theorem responses_in_order_partial_send :
    let request := packetHeader .CMSG_A packetASize ++ List.replicate 16 0
    ∃ s, Runs.run (transition 4097 id) (.start fun _ => 0)
        [.enterRead, .recv (.data (request.take 10)), .enterRead, .recv (.data (request.drop 10)),
          .update fun _ _ => 0, .doPushSend true, .write [.accepted 9]] = some s ∧
      s.conn.sent.length = 10 ∧ s.handled <+: [request] ∧
      ∃ responses, s.conn.sent ++ s.conn.session.sendBuffer.content = responses.flatten ∧
        List.Forall₂ Responds s.handled responses := by
  intro request
  have requested : ∀ r ∈ [request], Request r := by
    intro r member
    obtain rfl := List.mem_singleton.mp member
    exact ⟨.inl ⟨by decide +kernel, by decide⟩, by decide +kernel⟩
  have ran : (Runs.run (transition 4097 id) (.start fun _ => 0)
      [.enterRead, .recv (.data (request.take 10)), .enterRead, .recv (.data (request.drop 10)),
        .update fun _ _ => 0, .doPushSend true, .write [.accepted 9]]).map
      (fun s => (s.received, s.conn.sent.length)) = some (request, 10) := by decide +kernel
  obtain ⟨s, reached, same⟩ := Option.map_eq_some_iff.mp ran
  obtain ⟨received, sent⟩ := Prod.mk.inj same
  obtain ⟨order, responses, -⟩ := responses_in_order [request] requested 4097 (by decide) id
    (fun _ => 0) _ s reached (by rw [received]; decide)
  exact ⟨s, reached, sent, order, responses⟩

end Sometest.Epoll
