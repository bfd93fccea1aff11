import Sometest.TcpClient
import Sometest.SingleThread.Server

/-! The client of tcpclient.cpp against the single-threaded server. -/
namespace Sometest.SingleThread
open Sometest.Net
open Epoll (Connection RecvResult SendResult)
open TcpClient (Exchange ExchangeEvent exchangeStep packetA packetB server_run linked_start)

section Sent
variable {c : Connection} {bound : Nat} {int : Int → Int}

theorem write_sent {results : List SendResult} {out : Connection × Bool}
    (ran : write results c = .ok out) : c.sent <+: out.1.sent := by
  obtain ⟨lock, locked⟩ := write_unlocked ran
  have sent := Connection.write_sent locked
  exact sent

theorem dispatch_sent {junk : Nat → Byte} {results : List SendResult} {packet : List Byte}
    {out : Connection × Bool} (ran : dispatch int junk results c packet = .ok out) :
    c.sent <+: out.1.sent := by
  rw [dispatch] at ran
  split at ran
  · cases ran
  · split at ran
    · cases ran
    · rw [pushSendPacket] at ran
      split at ran
      · cases ran
        exact List.prefix_refl _
      · obtain ⟨⟨sendBuffer, len⟩, -, rest⟩ := bind_eq_ok.mp ran
        simp only [ne_eq, ite_not] at rest
        split at rest
        · obtain ⟨⟨next, ok⟩, wrote, same⟩ := bind_eq_ok.mp rest
          cases same
          have kept := write_sent wrote
          exact kept
        · cases rest

theorem dispatchAll_sent {junk : Nat → Nat → Byte} {results : Nat → List SendResult} {k : Nat}
    {packets : List (List Byte)} {out : Connection × Bool}
    (ran : dispatchAll int junk results k packets c = .ok out) : c.sent <+: out.1.sent := by
  induction packets generalizing c k with
  | nil =>
    cases ran
    exact List.prefix_refl _
  | cons packet rest ih =>
    obtain ⟨⟨next, ok⟩, first, more⟩ := bind_eq_ok.mp ran
    cases ok with
    | false =>
      cases more
      exact dispatch_sent first
    | true =>
      have later := ih (c := { next with session := { next.session with packetList := rest } }) more
      exact (dispatch_sent first).trans later

theorem readBody_sent {result : RecvResult} {out : Connection × Option Bool}
    (ran : readBody bound c result = .ok out) : out.1.sent = c.sent := by
  unfold readBody at ran
  split at ran
  · cases ran
  · cases result with
    | again =>
      cases ran
      rfl
    | failed =>
      cases ran
      rfl
    | data bytes =>
      obtain ⟨next, stored, rest⟩ := bind_eq_ok.mp ran
      have frame := Connection.storeReceived_frame stored
      split at rest <;> cases rest <;> exact frame.sent

theorem transition_sent {s s' : Server} {e : Event} (stepped : transition bound int s e = some s') :
    s.conn.sent <+: s'.conn.sent := by
  obtain ⟨-, -, stepped⟩ := transition_eq_some.mp stepped
  cases e with
  | wait event =>
    cases stepped
    exact List.prefix_refl _
  | hangUp =>
    cases stepped
    exact List.prefix_refl _
  | recv result =>
    obtain ⟨⟨conn, returned⟩, body, same⟩ := bind_eq_ok.mp stepped
    have frame := readBody_sent body
    cases returned with
    | none =>
      cases same
      exact frame ▸ List.prefix_refl _
    | some ok =>
      cases same
      rw [(Server.afterRead_still _ ok).sent]
      exact frame ▸ List.prefix_refl _
  | write results =>
    obtain ⟨⟨conn, ok⟩, written, same⟩ := bind_eq_ok.mp stepped
    cases same
    rw [Server.processed]
    split <;> exact write_sent written
  | modifyRegistInfo ctl =>
    cases stepped
    exact (Connection.modifyRegistInfo_frame ctl false s.conn).sent ▸ List.prefix_refl _
  | update junk results =>
    obtain ⟨⟨conn, ok⟩, updated, same⟩ := bind_eq_ok.mp stepped
    cases same
    rw [update] at updated
    split at updated
    · exact dispatchAll_sent updated
    · cases updated
      exact List.prefix_refl _

/-- The server as the client sees it. -/
def peer (bound : Nat) (int : Int → Int) : TcpClient.Peer Server Event where
  step := transition bound int
  received := Server.received
  sent s := s.conn.sent
  bytes := Event.bytes
  receives := step_received
  sends := transition_sent

end Sent
section Runs
variable {x y : Exchange Server} {bound : Nat} {int : Int → Int} {fresh : Nat → Byte}

theorem sound_run (enough : 4096 < bound) {events : List (ExchangeEvent Event)}
    (reached : Runs.run (exchangeStep (peer bound int)) ⟨.start, .start fresh⟩ events = some x) :
    Sound x.client.requests x.server := by
  have linked := (linked_start rfl).run reached
  have ran : Runs.run (transition bound int) (.start fresh) (events.filterMap ExchangeEvent.server?) =
      some x.server := server_run reached
  exact ((sound_start linked.framed fresh).run linked.requested enough ran linked.arrived).1

/-- The client waits for bytes that the server does not send. -/
structure Starved (x : Exchange Server) : Prop where
  waiting : x.client.stage = .recv
  handled : x.server.handled = x.client.requests
  empty : x.server.conn.sent.length ≤ x.client.received.length

/-- No step of either side changes that. -/
theorem Starved.step (starved : Starved x) (sound : Sound x.client.requests x.server)
    (requested : ∀ r ∈ x.client.requests, Epoll.Request r) (enough : 4096 < bound)
    {event : ExchangeEvent Event} (stepped : exchangeStep (peer bound int) x event = some y) :
    Starved y ∧ y.client = x.client := by
  obtain ⟨waiting, handled, empty⟩ := starved
  cases event with
  | client event =>
    obtain ⟨client, called, rfl⟩ := Option.map_eq_some_iff.mp stepped
    cases event with
    | sendA junk => simp [TcpClient.clientStep, waiting] at called
    | sendB junk => simp [TcpClient.clientStep, waiting] at called
    | recv n =>
      rw [TcpClient.clientStep] at called
      split at called
      · rename_i enabled
        obtain ⟨-, fired, -, fits⟩ := enabled
        change _ ≤ x.server.conn.sent.length at fits
        omega
      · cases called
  | server event =>
    rw [exchangeStep] at stepped
    split at stepped
    · rename_i stream
      obtain ⟨server, step, rfl⟩ := Option.map_eq_some_iff.mp stepped
      have received := step_received step
      have steps := sound.transition requested enough step (received ▸ stream)
      have same : server.handled = x.server.handled := by
        rw [handled]
        exact steps.sound.delivering.handled_prefix.eq_of_length_le (handled ▸ steps.handled.length_le)
      exact ⟨⟨waiting, same.trans handled, (steps.still same).sent ▸ empty⟩, rfl⟩
    · cases stepped

theorem Starved.run (starved : Starved x) (enough : 4096 < bound)
    {events later : List (ExchangeEvent Event)}
    (reached : Runs.run (exchangeStep (peer bound int)) ⟨.start, .start fresh⟩ events = some x)
    (continued : Runs.run (exchangeStep (peer bound int)) x later = some y) :
    Starved y ∧ y.client = x.client := by
  induction later using List.reverseRecOn generalizing y with
  | nil =>
    cases continued
    exact ⟨starved, rfl⟩
  | append_singleton before event ih =>
    obtain ⟨z, earlier, stepped⟩ := Runs.run_concat.mp continued
    obtain ⟨starved', same⟩ := ih earlier
    have ran : Runs.run (exchangeStep (peer bound int)) ⟨.start, .start fresh⟩ (events ++ before) =
        some z := by
      rw [Runs.run_append, reached, Option.bind_some, earlier]
    have requested := ((linked_start rfl).run ran).requested
    obtain ⟨starved'', kept⟩ := starved'.step (sound_run enough ran) requested enough stepped
    exact ⟨starved'', kept.trans same⟩

end Runs

/-- A client that waits in `recv`, with all of its requests handled, gets another byte in some
continuation of the run only if one is on its way already: else client and server wait forever. -/
theorem client_gets_more_iff (bound : Nat) (enough : 4096 < bound) (int : Int → Int)
    (fresh : Nat → Byte) (events : List (ExchangeEvent Event)) (x : Exchange Server)
    (reached : Runs.run (exchangeStep (peer bound int)) ⟨.start, .start fresh⟩ events = some x)
    (waiting : x.client.stage = .recv) (handled : x.server.handled = x.client.requests) :
    (∃ later y, Runs.run (exchangeStep (peer bound int)) x later = some y ∧
      y.client.received ≠ x.client.received) ↔
      x.client.received.length < x.server.conn.sent.length := by
  constructor
  · rintro ⟨later, y, continued, more⟩
    by_contra empty
    have starved : Starved x := ⟨waiting, handled, Nat.le_of_not_lt empty⟩
    obtain ⟨-, same⟩ := starved.run enough reached continued
    exact more (by rw [same])
  · intro more
    have enabled : x.client.stage = .recv ∧ 0 < 1 ∧ 1 ≤ 1024 ∧
        x.client.received.length + 1 ≤ x.server.conn.sent.length :=
      ⟨waiting, by decide, by decide, more⟩
    refine ⟨[.client (.recv 1)], ⟨{ x.client with
      stage := .sendA
      received := x.server.conn.sent.take (x.client.received.length + 1) }, x.server⟩, ?_, ?_⟩
    · rw [Runs.run_cons, exchangeStep, TcpClient.clientStep]
      exact congrArg (fun o => (Option.map _ o).bind _) (if_pos enabled)
    · intro same
      have length := congrArg List.length same
      simp only [List.length_take] at length
      omega

/-- A first round in which the socket refuses both responses. -/
theorem client_gets_more_refused :
    let first := packetA fun _ => 0
    let second := packetB fun _ => 0
    ∃ x, Runs.run (exchangeStep (peer 4097 id)) ⟨.start, .start fun _ => 0⟩
        [.client (.sendA fun _ => 0), .client (.sendB fun _ => 0), .server (.wait ⟨true, false⟩),
          .server (.recv (.data (first ++ second))), .server (.modifyRegistInfo true),
          .server (.update (fun _ _ => 0) fun _ => [])] = some x ∧
      ¬ ∃ later y, Runs.run (exchangeStep (peer 4097 id)) x later = some y ∧
        y.client.received ≠ x.client.received := by
  intro first second
  have ran : (Runs.run (exchangeStep (peer 4097 id)) ⟨.start, .start fun _ => 0⟩
      [.client (.sendA fun _ => 0), .client (.sendB fun _ => 0), .server (.wait ⟨true, false⟩),
        .server (.recv (.data (first ++ second))), .server (.modifyRegistInfo true),
        .server (.update (fun _ _ => 0) fun _ => [])]).map (fun x =>
      ((x.client.stage, x.client.received), x.server.conn.sent,
        decide (x.server.handled = x.client.requests))) = some ((.recv, []), [], true) := by
    decide +kernel
  obtain ⟨x, reached, same⟩ := Option.map_eq_some_iff.mp ran
  simp only [Prod.mk.injEq, decide_eq_true_eq] at same
  obtain ⟨⟨waiting, received⟩, sent, handled⟩ := same
  refine ⟨x, reached, fun more => ?_⟩
  have left :=
    (client_gets_more_iff 4097 (by decide) id (fun _ => 0) _ x reached waiting handled).mp more
  rw [received, sent] at left
  exact absurd left (Nat.lt_irrefl _)

end Sometest.SingleThread
