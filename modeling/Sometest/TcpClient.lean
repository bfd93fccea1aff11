import Sometest.Epoll.Responses

/-! The client of tcpclient.cpp and one connection of a server, with the bytes between them. The
client's blocking `send` takes a whole packet; a failed call and the end of the connection are left
out. -/
namespace Sometest.TcpClient
open Sometest.Net
open Epoll (Request)

/-- The call that the loop of `_tmain` makes next. -/
inductive Stage where
  | sendA
  | sendB
  | recv
  deriving DecidableEq

/-- `requests` are the packets sent, `received` is what `recv` has returned so far. -/
structure Client where
  stage : Stage
  requests : List (List Byte)
  received : List Byte

def Client.start : Client := ⟨.sendA, [], []⟩

/-- `junk` is what the local packet struct holds behind its text. -/
inductive ClientEvent where
  | sendA (junk : Nat → Byte)
  | sendB (junk : Nat → Byte)
  | recv (n : Nat)

def packetA (junk : Nat → Byte) : List Byte := serverPacket .CMSG_A packetASize "I am an a!" junk

def packetB (junk : Nat → Byte) : List Byte := serverPacket .CMSG_B packetBSize "I am a b!" junk

/-- `recv` takes at most 1024 of the bytes that the server's socket has accepted. -/
def clientStep (sent : List Byte) (c : Client) : ClientEvent → Option Client
  | .sendA junk =>
    if c.stage = .sendA then some { c with stage := .sendB, requests := c.requests ++ [packetA junk] }
    else none
  | .sendB junk =>
    if c.stage = .sendB then some { c with stage := .recv, requests := c.requests ++ [packetB junk] }
    else none
  | .recv n =>
    if c.stage = .recv ∧ 0 < n ∧ n ≤ 1024 ∧ c.received.length + n ≤ sent.length then
      some { c with stage := .sendA, received := sent.take (c.received.length + n) }
    else none

/-- The server's side of the connection: what it has received, what its socket has accepted, and the
bytes that a step receives. -/
structure Peer (Server Event : Type*) where
  step : Server → Event → Option Server
  received : Server → List Byte
  sent : Server → List Byte
  bytes : Event → List Byte
  receives : ∀ {s e s'}, step s e = some s' → received s' = received s ++ bytes e
  sends : ∀ {s e s'}, step s e = some s' → sent s <+: sent s'

structure Exchange (Server : Type*) where
  client : Client
  server : Server

inductive ExchangeEvent (Event : Type*) where
  | client (event : ClientEvent)
  | server (event : Event)

def ExchangeEvent.server? {Event : Type*} : ExchangeEvent Event → Option Event
  | .client _ => none
  | .server event => some event

/-- The server receives what the client has sent. -/
def exchangeStep {Server Event : Type*} (peer : Peer Server Event) (x : Exchange Server) :
    ExchangeEvent Event → Option (Exchange Server)
  | .client event =>
    (clientStep (peer.sent x.server) x.client event).map fun client => { x with client }
  | .server event =>
    if peer.received x.server ++ peer.bytes event <+: x.client.requests.flatten then
      (peer.step x.server event).map fun server => { x with server }
    else none

theorem packetA_length (junk : Nat → Byte) : (packetA junk).length = packetASize :=
  serverPacket_length _ junk (by decide)

theorem packetB_length (junk : Nat → Byte) : (packetB junk).length = packetBSize :=
  serverPacket_length _ junk (by decide)

theorem packetA_request (junk : Nat → Byte) : Request (packetA junk) := by
  refine ⟨.inl ⟨?_, packetA_length junk⟩, ?_⟩
  · rw [packetA, packetOpcode_serverPacket]
    decide +kernel
  · rw [packetA_length, packetA, packetSize_serverPacket]
    decide +kernel

theorem packetB_request (junk : Nat → Byte) : Request (packetB junk) := by
  refine ⟨.inr ⟨?_, packetB_length junk⟩, ?_⟩
  · rw [packetB, packetOpcode_serverPacket]
    decide +kernel
  · rw [packetB_length, packetB, packetSize_serverPacket]
    decide +kernel

section Runs
variable {Server Event : Type*} {peer : Peer Server Event} {x x' : Exchange Server}

/-- The server's part of a run is a run of the server. -/
theorem server_run {events : List (ExchangeEvent Event)}
    (reached : Runs.run (exchangeStep peer) x events = some x') :
    Runs.run peer.step x.server (events.filterMap ExchangeEvent.server?) = some x'.server := by
  have own : ∀ x event x' e, exchangeStep peer x event = some x' → event.server? = some e →
      peer.step x.server e = some x'.server := by
    intro x event x' e stepped same
    cases event with
    | client event => cases same
    | server event =>
      cases same
      rw [exchangeStep] at stepped
      split at stepped
      · obtain ⟨server, step, rfl⟩ := Option.map_eq_some_iff.mp stepped
        exact step
      · cases stepped
  have other : ∀ x event x', exchangeStep peer x event = some x' → event.server? = none →
      x'.server = x.server := by
    intro x event x' stepped same
    cases event with
    | client event =>
      obtain ⟨client, -, rfl⟩ := Option.map_eq_some_iff.mp stepped
      rfl
    | server event => cases same
  exact Runs.project own other reached

/-- The bytes are on their way from one side to the other. -/
structure Linked (peer : Peer Server Event) (x : Exchange Server) : Prop where
  requested : ∀ r ∈ x.client.requests, Request r
  arrived : peer.received x.server <+: x.client.requests.flatten
  received : x.client.received <+: peer.sent x.server

theorem linked_start {s : Server} (silent : peer.received s = []) :
    Linked peer ⟨.start, s⟩ where
  requested := fun _ member => absurd member List.not_mem_nil
  arrived := silent ▸ List.nil_prefix
  received := List.nil_prefix

theorem Linked.step (linked : Linked peer x) {event : ExchangeEvent Event}
    (stepped : exchangeStep peer x event = some x') : Linked peer x' := by
  have more : ∀ packet, Request packet → ∀ r ∈ x.client.requests ++ [packet], Request r :=
    fun packet request => List.forall_mem_append.mpr
      ⟨linked.requested, List.forall_mem_singleton.mpr request⟩
  have still : ∀ packet, peer.received x.server <+: (x.client.requests ++ [packet]).flatten := by
    intro packet
    rw [List.flatten_append]
    exact linked.arrived.trans (List.prefix_append _ _)
  cases event with
  | client event =>
    obtain ⟨client, called, rfl⟩ := Option.map_eq_some_iff.mp stepped
    cases event with
    | sendA junk =>
      rw [clientStep] at called
      split at called <;> cases called
      exact ⟨more _ (packetA_request junk), still _, linked.received⟩
    | sendB junk =>
      rw [clientStep] at called
      split at called <;> cases called
      exact ⟨more _ (packetB_request junk), still _, linked.received⟩
    | recv n =>
      rw [clientStep] at called
      split at called <;> cases called
      exact ⟨linked.requested, linked.arrived, List.take_prefix _ _⟩
  | server event =>
    rw [exchangeStep] at stepped
    split at stepped
    · rename_i stream
      obtain ⟨server, step, rfl⟩ := Option.map_eq_some_iff.mp stepped
      exact ⟨linked.requested, peer.receives step ▸ stream, linked.received.trans (peer.sends step)⟩
    · cases stepped

theorem Linked.run (linked : Linked peer x) {events : List (ExchangeEvent Event)}
    (reached : Runs.run (exchangeStep peer) x events = some x') : Linked peer x' :=
  (Runs.invariant (fun _ _ _ linked stepped => Linked.step linked stepped) linked events).last reached

theorem Linked.framed (linked : Linked peer x) : ∀ r ∈ x.client.requests, Framed r :=
  fun r member => (linked.requested r member).framed

/-- The bytes of the rounds: a client that waits has sent 64 more than it had received. -/
def Client.Owed (c : Client) : Prop :=
  match c.stage with
  | .sendA => True
  | .sendB => c.received.length + packetASize ≤ c.requests.flatten.length
  | .recv => c.received.length + packetASize + packetBSize ≤ c.requests.flatten.length

/-- A client that has received no more bytes than it has sent. -/
theorem Client.Owed.step {c c' : Client} (owed : c.Owed) {sent : List Byte}
    (owes : c.received.length ≤ c.requests.flatten.length) {event : ClientEvent}
    (stepped : clientStep sent c event = some c') : c'.Owed := by
  cases event with
  | sendA junk =>
    rw [clientStep] at stepped
    split at stepped <;> cases stepped
    simp only [Client.Owed, List.flatten_append, List.flatten_singleton, List.length_append,
      packetA_length]
    omega
  | sendB junk =>
    rw [clientStep] at stepped
    split at stepped <;> cases stepped
    rename_i here
    simp only [Client.Owed, here] at owed
    simp only [Client.Owed, List.flatten_append, List.flatten_singleton, List.length_append,
      packetB_length]
    omega
  | recv n =>
    rw [clientStep] at stepped
    split at stepped <;> cases stepped
    trivial

end Runs
end Sometest.TcpClient
