import Sometest.Net.Session

/-! The read side that both ports share, on a stream of well-formed packets. -/
namespace Sometest.Net

/-- `received` has arrived of the packets, and `update` has dispatched `handled`. -/
structure Delivering (packets : List (List Byte)) (session : Session) (readBuffer : CircularBuffer)
    (received : List Byte) (handled : List (List Byte)) : Prop where
  active : session.active = true
  sendBuffer : session.sendBuffer.WellFormed
  receiving : Receiving packets received.length readBuffer
  pushed : handled ++ session.packetList = Framing.arrived packets received.length

theorem delivering_init (framed : ∀ p ∈ packets, Framed p) (fresh : Nat → Byte) :
    Delivering packets .init (.init 4096 fresh) [] [] where
  active := rfl
  sendBuffer := CSyncBuffer.wellFormed_init 4096
  receiving := receiving_init fresh
  pushed := by
    refine (Framing.arrived_zero fun p member => ?_).symm
    have header := (framed p member).header
    rintro rfl
    simp [headerSize] at header

section Delivering
variable {packets : List (List Byte)} {session session' : Session} {readBuffer : CircularBuffer}
  {received : List Byte} {handled : List (List Byte)}

theorem Delivering.window (delivering : Delivering packets session readBuffer received handled)
    (framed : ∀ p ∈ packets, Framed p) : 0 < min 4096 readBuffer.getFreeSpaceSize := by
  have free := delivering.receiving.free framed
  omega

theorem Delivering.handled_prefix
    (delivering : Delivering packets session readBuffer received handled) : handled <+: packets := by
  apply List.IsPrefix.trans _ (Framing.arrived_prefix packets received.length)
  rw [← delivering.pushed]
  exact List.prefix_append _ _

theorem Delivering.mem_of_waiting
    (delivering : Delivering packets session readBuffer received handled) {p : List Byte}
    (waiting : p ∈ session.packetList) : p ∈ packets := by
  have arrived := Framing.arrived_prefix packets received.length
  rw [← delivering.pushed] at arrived
  exact arrived.subset (List.mem_append_right _ waiting)

/-- The next bytes of the stream are stored, and the packets they complete are pushed. -/
theorem Delivering.receive (delivering : Delivering packets session readBuffer received handled)
    (framed : ∀ p ∈ packets, Framed p) {bytes : List Byte}
    (fits : bytes.length ≤ readBuffer.getFreeSpaceSize)
    (stream : received ++ bytes <+: packets.flatten) {bound : Nat} (enough : 4096 < bound) :
    ∃ stored readBuffer' packetList, readBuffer.write bytes = .ok stored ∧
      extractPackets bound stored session.packetList = .ok (readBuffer', packetList) ∧
      Delivering packets { session with packetList } readBuffer' (received ++ bytes) handled := by
  have start : received <+: packets.flatten := (List.prefix_append _ _).trans stream
  have taken : packets.flatten.take received.length = received :=
    (List.prefix_iff_eq_take.mp start).symm
  obtain ⟨stored, readBuffer', new, written, extracted, more, receiving⟩ :=
    delivering.receiving.receive framed fits (by rwa [taken]) start.length_le enough session.packetList
  rw [← List.length_append] at more receiving
  refine ⟨stored, readBuffer', _, written, extracted, delivering.active, delivering.sendBuffer,
    receiving, ?_⟩
  simp only [more, ← delivering.pushed, List.append_assoc]

theorem Delivering.update (delivering : Delivering packets session readBuffer received handled)
    {int : Int → Int} {junk : Nat → Nat → Byte} (done : session.update int junk = .ok session') :
    Delivering packets session' readBuffer received
      (handled ++ if session.active then session.packetList else []) := by
  rw [Session.update, if_pos delivering.active] at done
  obtain ⟨-, -, wf, -, empty, active, -⟩ := Session.dispatchAll_spec delivering.sendBuffer rfl done
  refine ⟨active.trans delivering.active, wf, delivering.receiving, ?_⟩
  simp only [delivering.active, if_true, empty, List.append_nil]
  exact delivering.pushed

/-- Sending does not interfere. -/
theorem Delivering.send (delivering : Delivering packets session readBuffer received handled)
    (active : session'.active = session.active) (packetList : session'.packetList = session.packetList)
    (sendBuffer : session'.sendBuffer.WellFormed) :
    Delivering packets session' readBuffer received handled where
  active := active.trans delivering.active
  sendBuffer := sendBuffer
  receiving := delivering.receiving
  pushed := packetList ▸ delivering.pushed

end Delivering

/-- What the server has made of the received bytes: `pushed` are the packets that
are complete among them, and the receive buffer holds the bytes after these. -/
structure Delivered (packets : List (List Byte)) (received : List Byte) (pushed : List (List Byte))
    (readBuffer : CircularBuffer) : Prop where
  order : pushed <+: packets
  complete : ∀ k ≤ packets.length,
    k ≤ pushed.length ↔ (packets.take k).flatten.length ≤ received.length
  rest : pushed.flatten ++ readBuffer.content = received

theorem Delivering.delivered (delivering : Delivering packets session readBuffer received handled)
    (stream : received <+: packets.flatten) :
    Delivered packets received (handled ++ session.packetList) readBuffer where
  order := delivering.pushed ▸ Framing.arrived_prefix packets received.length
  complete := by
    intro k inside
    rw [delivering.pushed, Framing.le_arrived_length]
    constructor
    · intro both
      exact both.2
    · intro fits
      exact ⟨inside, fits⟩
  rest := by
    rw [delivering.pushed, delivering.receiving.content, Framing.arrived_append_pending]
    exact (List.prefix_iff_eq_take.mp stream).symm

end Sometest.Net
