import Sometest.Epoll.Reading
import Sometest.Iocp.Reading

/-! Both ports deliver the packets of a well-formed stream exactly, however the
stream is cut into receive results. -/
namespace Sometest
open Net

/-- In both ports, after every run over a beginning of the stream: the complete
packets were pushed, the window of the next receive is not empty, and whatever
the socket delivers next has an outcome. -/
theorem packets_delivered (packets : List (List Byte)) (framed : ∀ p ∈ packets, Framed p)
    (bound : Nat) (enough : 4096 < bound) (int : Int → Int) (fresh : Nat → Byte) :
    (∀ events s, Runs.run (Epoll.transition bound int) (.start fresh) events = some s →
      s.received <+: packets.flatten →
      Delivered packets s.received (s.handled ++ s.conn.session.packetList) s.conn.readBuffer ∧
      0 < s.conn.readWindow ∧
      ∀ result, Epoll.Enabled s (.recv result) → s.received ++ result.bytes <+: packets.flatten →
        ∃ s', Epoll.transition bound int s (.recv result) = some s') ∧
    (∀ events s, Runs.run (Iocp.readStep bound int) (.start fresh) events = some s →
      s.received <+: packets.flatten →
      Delivered packets s.received (s.handled ++ s.conn.session.packetList) s.conn.readBuffer ∧
      (∃ window, s.conn.recvs = [window] ∧ 0 < window) ∧
      ∀ bytes, Iocp.Completes s (.completed bytes) → s.received ++ bytes <+: packets.flatten →
        ∃ s', Iocp.readStep bound int s (.completed bytes) = some s') := by
  constructor
  · intro events s reached stream
    have delivering := Epoll.run_delivering framed enough fresh reached stream
    refine ⟨delivering.delivered stream, delivering.window framed, ?_⟩
    intro result enabled continues
    obtain ⟨s', ran, -⟩ := Epoll.recv_delivering delivering framed enough enabled continues
    exact ⟨s', Epoll.transition_eq_some.mpr ⟨enabled, ran⟩⟩
  · intro events s reached stream
    have reading := Iocp.run_delivering framed enough fresh reached stream
    refine ⟨reading.delivering.delivered stream, ⟨_, reading.posted, reading.delivering.window framed⟩,
      ?_⟩
    intro bytes completes continues
    obtain ⟨s', ran, -⟩ := Iocp.completed_delivering reading framed enough completes continues
    exact ⟨s', ran⟩

/-- Two packets in three pieces, cut inside the first and inside the second. -/
theorem packets_delivered_two :
    let packets := [packetHeader .CMSG_A 9 ++ [7], packetHeader .CMSG_B 8]
    let first := (packetHeader .CMSG_A 9).take 3
    let second := (packetHeader .CMSG_A 9).drop 3 ++ [7] ++ (packetHeader .CMSG_B 8).take 5
    (∃ s, Runs.run (Epoll.transition 4097 id) (.start fun _ => 0)
        [.enterRead, .recv (.data first), .enterRead, .recv (.data second)] = some s ∧
      Delivered packets s.received (s.handled ++ s.conn.session.packetList) s.conn.readBuffer) ∧
    (∃ s, Runs.run (Iocp.readStep 4097 id) (.start fun _ => 0)
        [.completed first, .completed second] = some s ∧
      Delivered packets s.received (s.handled ++ s.conn.session.packetList) s.conn.readBuffer) := by
  intro packets first second
  have framed : ∀ p ∈ packets, Framed p := by
    intro p member
    simp only [packets, List.mem_cons, List.not_mem_nil, or_false] at member
    rcases member with rfl | rfl
    · exact ⟨by decide, by decide, by decide +kernel⟩
    · exact ⟨by decide, by decide, by decide +kernel⟩
  have both := packets_delivered packets framed 4097 (by decide) id (fun _ => 0)
  constructor
  · have ran : ((Runs.run (Epoll.transition 4097 id) (.start fun _ => 0)
        [.enterRead, .recv (.data first), .enterRead, .recv (.data second)]).map
          (·.received)) = some (first ++ second) := by decide +kernel
    obtain ⟨s, reached, received⟩ := Option.map_eq_some_iff.mp ran
    exact ⟨s, reached, (both.1 _ s reached (by rw [received]; decide)).1⟩
  · have ran : ((Runs.run (Iocp.readStep 4097 id) (.start fun _ => 0)
        [.completed first, .completed second]).map (·.received)) = some (first ++ second) := by
      decide +kernel
    obtain ⟨s, reached, received⟩ := Option.map_eq_some_iff.mp ran
    exact ⟨s, reached, (both.2 _ s reached (by rw [received]; decide)).1⟩

end Sometest
