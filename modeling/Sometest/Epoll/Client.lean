import Sometest.TcpClient

/-! The client of tcpclient.cpp against the epoll server. -/
namespace Sometest.Epoll
open Sometest.Net
open TcpClient (Client Exchange ExchangeEvent exchangeStep packetA server_run linked_start)

section Runs
variable {s s' : Server} {bound : Nat} {int : Int → Int} {fresh : Nat → Byte}

theorem transition_sent {e : Event} (stepped : transition bound int s e = some s') :
    s.conn.sent <+: s'.conn.sent := by
  obtain ⟨-, stepped⟩ := transition_eq_some.mp stepped
  cases e with
  | enterRead =>
    simp only [Epoll.step] at stepped
    split at stepped
    · rename_i conn acquired
      cases stepped
      obtain ⟨rfl, -⟩ := Prod.mk.inj acquired
      exact List.prefix_refl _
    · rename_i conn acquired
      cases stepped
      obtain ⟨rfl, -⟩ := Prod.mk.inj acquired
      exact List.prefix_refl _
  | recv result =>
    obtain ⟨⟨conn, returned⟩, body, same⟩ := bind_eq_ok.mp stepped
    cases same
    exact (Connection.readBody_frame body).sent ▸ List.prefix_refl _
  | update junk =>
    obtain ⟨session, -, same⟩ := bind_eq_ok.mp stepped
    cases same
    exact List.prefix_refl _
  | doPushSend ctl =>
    cases stepped
    exact (Connection.doPushSend_frame ctl s.conn).sent ▸ List.prefix_refl _
  | write results =>
    obtain ⟨⟨conn, ok⟩, written, same⟩ := bind_eq_ok.mp stepped
    cases same
    exact Connection.write_sent written

theorem transition_received {e : Event}
    (stepped : transition bound int s e = some s') : s'.received = s.received ++ e.bytes := by
  obtain ⟨-, stepped⟩ := transition_eq_some.mp stepped
  have nothing := (List.append_nil s.received).symm
  cases e with
  | enterRead =>
    simp only [Epoll.step] at stepped
    split at stepped <;> cases stepped <;> exact nothing
  | recv result =>
    obtain ⟨next, -, same⟩ := bind_eq_ok.mp stepped
    cases same
    rfl
  | update junk =>
    obtain ⟨session, -, same⟩ := bind_eq_ok.mp stepped
    cases same
    exact nothing
  | doPushSend ctl =>
    cases stepped
    exact nothing
  | write results =>
    obtain ⟨next, -, same⟩ := bind_eq_ok.mp stepped
    cases same
    exact nothing

def peer (bound : Nat) (int : Int → Int) : TcpClient.Peer Server Event where
  step := transition bound int
  received := Server.received
  sent s := s.conn.sent
  bytes := Event.bytes
  receives := transition_received
  sends := transition_sent

variable {x : Exchange Server}

/-- What the client has been sent so far. -/
structure Answered (x : Exchange Server) : Prop where
  order : x.server.handled <+: x.client.requests
  responses : ∃ responses, List.Forall₂ Responds x.server.handled responses ∧
    x.server.conn.sent ++ x.server.conn.session.sendBuffer.content = responses.flatten

theorem serving_run (enough : 4096 < bound) {events : List (ExchangeEvent Event)}
    (reached : Runs.run (exchangeStep (peer bound int)) ⟨.start, .start fresh⟩ events = some x) :
    x.server.Delivering x.client.requests ∧ Ordered x.server := by
  have linked := (linked_start rfl).run reached
  have ran : Runs.run (transition bound int) (.start fresh) (events.filterMap ExchangeEvent.server?) =
      some x.server := server_run reached
  exact ⟨run_delivering linked.framed enough fresh ran linked.arrived, ordered_run fresh ran⟩

theorem answered_run (enough : 4096 < bound) {events : List (ExchangeEvent Event)}
    (reached : Runs.run (exchangeStep (peer bound int)) ⟨.start, .start fresh⟩ events = some x) :
    Answered x := by
  have linked := (linked_start rfl).run reached
  obtain ⟨delivering, ordered⟩ := serving_run enough reached
  have order : x.server.handled <+: x.client.requests := delivering.handled_prefix
  obtain ⟨responses, answered, bytes⟩ := ordered.bytes
  exact ⟨order, responses, responds_all (fun r member =>
    linked.requested r (order.subset member)) answered, bytes⟩

theorem flatten_length {handled responses : List (List Byte)}
    (pairs : List.Forall₂ Responds handled responses) :
    responses.flatten.length = handled.flatten.length := by
  induction pairs with
  | nil => rfl
  | cons pair _ ih => simp only [List.flatten_cons, List.length_append, pair.length, ih]

theorem Answered.sent_le (answered : Answered x) :
    x.server.conn.sent.length ≤ x.client.requests.flatten.length := by
  obtain ⟨responses, pairs, bytes⟩ := answered.responses
  have sent := congrArg List.length bytes
  rw [List.length_append, flatten_length pairs] at sent
  have inside := (List.IsPrefix.flatten answered.order).length_le
  omega

/-- By induction on the run from its end: the state before the last step has its answers. -/
theorem owed_run (enough : 4096 < bound) {events : List (ExchangeEvent Event)}
    (reached : Runs.run (exchangeStep (peer bound int)) ⟨.start, .start fresh⟩ events = some x) :
    x.client.Owed := by
  induction events using List.reverseRecOn generalizing x with
  | nil =>
    cases reached
    trivial
  | append_singleton before event ih =>
    obtain ⟨y, earlier, stepped⟩ := Runs.run_concat.mp reached
    have owed := ih earlier
    cases event with
    | client event =>
      obtain ⟨client, called, rfl⟩ := Option.map_eq_some_iff.mp stepped
      have received := ((linked_start rfl).run earlier).received.length_le
      exact owed.step (received.trans (answered_run enough earlier).sent_le) called
    | server event =>
      rw [exchangeStep] at stepped
      split at stepped
      · obtain ⟨server, -, rfl⟩ := Option.map_eq_some_iff.mp stepped
        exact owed
      · cases stepped

end Runs

/-- In every run of the client and the server: the client has received a beginning of one response for
each request that the server has handled, in order; it waits for no byte that the server does not owe
it; and the server can take every step that is open to it. -/
theorem client_answered (bound : Nat) (enough : 4096 < bound) (int : Int → Int) (fresh : Nat → Byte)
    (events : List (ExchangeEvent Event)) (x : Exchange Server)
    (reached : Runs.run (exchangeStep (peer bound int)) ⟨.start, .start fresh⟩ events = some x) :
    x.server.handled <+: x.client.requests ∧
    (∃ responses, List.Forall₂ Responds x.server.handled responses ∧
      x.client.received <+: responses.flatten) ∧
    (x.client.stage = .recv →
      x.client.received.length + 64 ≤ x.client.requests.flatten.length) ∧
    (Room int x.server → ∀ e, Enabled x.server e →
      x.server.received ++ e.bytes <+: x.client.requests.flatten →
      ∃ x', exchangeStep (peer bound int) x (.server e) = some x') := by
  have linked := (linked_start rfl).run reached
  have answered := answered_run enough reached
  obtain ⟨responses, pairs, bytes⟩ := answered.responses
  refine ⟨answered.order, ⟨responses, pairs, ?_⟩, ?_, ?_⟩
  · rw [← bytes]
    exact linked.received.trans (List.prefix_append _ _)
  · intro waiting
    have owed := owed_run enough reached
    simp only [Client.Owed, waiting, packetASize, packetBSize, headerSize] at owed
    omega
  · intro room e enabled stream
    obtain ⟨delivering, ordered⟩ := serving_run enough reached
    obtain ⟨server, stepped⟩ :=
      step_total linked.requested enough delivering ordered room enabled stream
    refine ⟨{ x with server }, ?_⟩
    rw [exchangeStep]
    exact (if_pos stream).trans (congrArg (Option.map _) stepped)

/-- A first round: the client gets 20 bytes of the first response while its second request is on
the way. -/
theorem client_answered_round :
    let first := packetA fun _ => 0
    ∃ x, Runs.run (exchangeStep (peer 4097 id)) ⟨.start, .start fun _ => 0⟩
        [.client (.sendA fun _ => 0), .server .enterRead, .server (.recv (.data first)),
          .client (.sendB fun _ => 0), .server (.update fun _ _ => 0), .server (.doPushSend true),
          .server (.write [.accepted 19]), .client (.recv 20), .client (.sendA fun _ => 0),
          .client (.sendB fun _ => 0)] = some x ∧
      x.client.received.length = 20 ∧ x.server.handled <+: x.client.requests ∧
      x.client.received.length + 64 ≤ x.client.requests.flatten.length := by
  intro first
  have ran : (Runs.run (exchangeStep (peer 4097 id)) ⟨.start, .start fun _ => 0⟩
      [.client (.sendA fun _ => 0), .server .enterRead, .server (.recv (.data first)),
        .client (.sendB fun _ => 0), .server (.update fun _ _ => 0), .server (.doPushSend true),
        .server (.write [.accepted 19]), .client (.recv 20), .client (.sendA fun _ => 0),
        .client (.sendB fun _ => 0)]).map (fun x => (x.client.stage, x.client.received.length)) =
      some (.recv, 20) := by decide +kernel
  obtain ⟨x, reached, same⟩ := Option.map_eq_some_iff.mp ran
  obtain ⟨waiting, received⟩ := Prod.mk.inj same
  obtain ⟨order, -, owed, -⟩ := client_answered 4097 (by decide) id (fun _ => 0) _ x reached
  exact ⟨x, reached, received, order, owed waiting⟩

end Sometest.Epoll
