import Sometest.Net.Receiver
import Sometest.Epoll.Server

/-! The read side of the epoll server on a stream of well-formed packets: after
every step the packets that have arrived were pushed, and nothing else was. -/
namespace Sometest.Epoll
open Sometest.Net
open Connection (readBody readWindow storeReceived onRead)

def Server.Delivering (packets : List (List Byte)) (s : Server) : Prop :=
  Net.Delivering packets s.conn.session s.conn.readBuffer s.received s.handled

section Reading
variable {packets : List (List Byte)} {s s' : Server} {bound : Nat} {int : Int → Int}

/-- Every result of `recv` on the stream of the packets has an outcome. -/
theorem recv_delivering (delivering : s.Delivering packets) (framed : ∀ p ∈ packets, Framed p)
    (enough : 4096 < bound) {result : RecvResult} (enabled : Enabled s (.recv result))
    (stream : s.received ++ result.bytes <+: packets.flatten) :
    ∃ s', step bound int s (.recv result) = .ok s' ∧ s'.Delivering packets := by
  have window : 0 < s.conn.readWindow := delivering.window framed
  cases result with
  | data bytes =>
    obtain ⟨-, -, fits⟩ := enabled
    have room : bytes.length ≤ s.conn.readBuffer.getFreeSpaceSize :=
      Nat.le_trans fits (Nat.min_le_right _ _)
    obtain ⟨stored, readBuffer, packetList, written, extracted, delivering'⟩ :=
      delivering.receive framed room stream enough
    simp only [step, readBody, if_neg (Nat.ne_of_gt window), storeReceived, if_pos delivering.active,
      written, ok_bind, onRead, extracted]
    split
    · exact ⟨_, rfl, delivering'⟩
    · exact ⟨_, rfl, delivering'⟩
  | again =>
    simp only [step, readBody, if_neg (Nat.ne_of_gt window), ok_bind, RecvResult.bytes,
      List.append_nil]
    exact ⟨_, rfl, delivering⟩
  | failed =>
    simp only [step, readBody, if_neg (Nat.ne_of_gt window), ok_bind, RecvResult.bytes,
      List.append_nil]
    exact ⟨_, rfl, delivering⟩

theorem step_received (stepped : transition bound int s e = some s') : s.received <+: s'.received := by
  obtain ⟨-, stepped⟩ := transition_eq_some.mp stepped
  cases e with
  | enterRead =>
    simp only [step] at stepped
    split at stepped <;> cases stepped <;> exact List.prefix_refl _
  | recv result =>
    obtain ⟨next, -, same⟩ := bind_eq_ok.mp stepped
    cases same
    exact List.prefix_append _ _
  | update junk =>
    obtain ⟨session, -, same⟩ := bind_eq_ok.mp stepped
    cases same
    exact List.prefix_refl _
  | doPushSend ctl =>
    cases stepped
    exact List.prefix_refl _
  | write results =>
    obtain ⟨next, -, same⟩ := bind_eq_ok.mp stepped
    cases same
    exact List.prefix_refl _

theorem step_delivering (delivering : s.Delivering packets) (framed : ∀ p ∈ packets, Framed p)
    (enough : 4096 < bound) (stream : s'.received <+: packets.flatten) {e : Event}
    (stepped : transition bound int s e = some s') : s'.Delivering packets := by
  obtain ⟨enabled, stepped⟩ := transition_eq_some.mp stepped
  cases e with
  | enterRead =>
    simp only [step] at stepped
    split at stepped
    · rename_i conn acquired
      cases stepped
      obtain ⟨rfl, -⟩ := Prod.mk.inj acquired
      exact delivering
    · rename_i conn acquired
      cases stepped
      obtain ⟨rfl, -⟩ := Prod.mk.inj acquired
      exact delivering
  | recv result =>
    have received : s'.received = s.received ++ result.bytes := by
      obtain ⟨next, -, same⟩ := bind_eq_ok.mp stepped
      cases same
      rfl
    obtain ⟨next, same, delivering'⟩ :=
      recv_delivering delivering framed enough enabled (received ▸ stream)
    cases same.symm.trans stepped
    exact delivering'
  | update junk =>
    obtain ⟨session, done, same⟩ := bind_eq_ok.mp stepped
    cases same
    exact delivering.update done
  | doPushSend ctl =>
    cases stepped
    have frame := Connection.doPushSend_frame ctl s.conn
    simp only [Server.Delivering, frame.readBuffer]
    exact delivering.send frame.active frame.packetList (frame.sendBuffer ▸ delivering.sendBuffer)
  | write results =>
    obtain ⟨⟨conn, ok⟩, written, same⟩ := bind_eq_ok.mp stepped
    cases same
    obtain ⟨conn', ok', same, wrote⟩ := @Connection.write_spec results s.conn delivering.sendBuffer
    cases same.symm.trans written
    simp only [Server.Delivering, wrote.readBuffer]
    exact delivering.send wrote.active wrote.packetList wrote.wellFormed

/-- Along every run whose received bytes are a beginning of the packets. -/
theorem run_delivering (framed : ∀ p ∈ packets, Framed p) (enough : 4096 < bound)
    (fresh : Nat → Byte) {events : List Event}
    (reached : Runs.run (transition bound int) (.start fresh) events = some s)
    (stream : s.received <+: packets.flatten) : s.Delivering packets := by
  have preserved : ∀ s e s', (s.received <+: packets.flatten → s.Delivering packets) →
      transition bound int s e = some s' → s'.received <+: packets.flatten →
      s'.Delivering packets := by
    intro s e s' before stepped stream
    have delivering := before ((step_received stepped).trans stream)
    exact step_delivering delivering framed enough stream stepped
  have initial : (Server.start fresh).Delivering packets := delivering_init framed fresh
  exact (Runs.invariant preserved (fun _ => initial) events).last reached stream

end Reading
end Sometest.Epoll
