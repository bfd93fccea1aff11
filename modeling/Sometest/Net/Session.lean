import Sometest.Net.Framer
import Sometest.Net.CSyncBuffer

/-! Session.h and Session.cpp, alike in both ports. `pushSend` is the flag
`pushSend_` of the session's connection, which `pushSendPacket` sets. -/
namespace Sometest.Net

structure Session where
  active : Bool
  packetList : List (List Byte)
  sendBuffer : CSyncBuffer
  pushSend : Bool

inductive Handler where
  | processCAMsg
  | processCBMsg
  deriving DecidableEq, Repr

/-- `none` for an opcode outside of the table and for an entry that is not set. -/
def handlerOf (opcode : Int) : Option Handler :=
  if opcode = Opcode.CMSG_A.toNat then some .processCAMsg
  else if opcode = Opcode.CMSG_B.toNat then some .processCBMsg
  else none

/-- The packet struct that the handler casts its argument to. -/
def Handler.packetSize : Handler → Nat
  | .processCAMsg => packetASize
  | .processCBMsg => packetBSize

/-- A local packet struct into whose `buffer` a text has been copied with its
terminator. The rest of `buffer` is uninitialised: it holds `junk`. -/
def serverPacket (opcode : Opcode) (size : Nat) (text : String) (junk : Nat → Byte) : List Byte :=
  let bytes := text.toList.map (fun c => UInt8.ofNat c.toNat) ++ [0]
  packetHeader opcode size ++ (bytes ++ (List.range (size - headerSize - bytes.length)).map junk)

theorem serverPacket_length {size : Nat} {text : String} (opcode : Opcode) (junk : Nat → Byte)
    (fits : headerSize + (text.toList.length + 1) ≤ size) :
    (serverPacket opcode size text junk).length = size := by
  simp only [serverPacket, List.length_append, packetHeader_length, List.length_map,
    List.length_range, List.length_singleton]
  omega

section Header
variable (opcode : Opcode) (size : Nat) (text : String) (junk : Nat → Byte)

theorem packetOpcode_serverPacket :
    packetOpcode (serverPacket opcode size text junk) = packetOpcode (packetHeader opcode size) := by
  rw [packetOpcode, packetOpcode, serverPacket, List.take_append_of_le_length (by
    rw [packetHeader_length]; decide)]

theorem packetSize_serverPacket :
    packetSize (serverPacket opcode size text junk) = packetSize (packetHeader opcode size) := by
  rw [serverPacket, packetSize_append (Nat.le_of_eq (packetHeader_length opcode size).symm)]

end Header

/-- The packet that the handler sends. The text that it prints is left out. -/
def Handler.response (junk : Nat → Byte) : Handler → List Byte
  | .processCAMsg => serverPacket .SMSG_A packetASize "I am an a!" junk
  | .processCBMsg => serverPacket .SMSG_B packetBSize "I am a b!" junk

theorem Handler.response_length (h : Handler) (junk : Nat → Byte) :
    (h.response junk).length = h.packetSize := by
  cases h <;> exact serverPacket_length _ junk (by decide)

theorem Handler.response_size (h : Handler) (junk : Nat → Byte) :
    Net.packetSize (h.response junk) = h.packetSize := by
  cases h <;> rw [response, packetSize_serverPacket] <;> decide +kernel

namespace Session

def init : Session := ⟨true, [], .init 4096, false⟩

def kill (s : Session) : Session := { s with active := false }

def pushPacket (s : Session) (packet : List Byte) : Session :=
  { s with packetList := s.packetList ++ [packet] }

def getRemainSendDataSize (s : Session) : Nat := s.sendBuffer.getUsedSize

/-- `packet` is the `size_` bytes at the pointer. -/
def pushSendPacket (int : Int → Int) (s : Session) (packet : List Byte) : Except Fault Session := do
  let (sendBuffer, len) ← s.sendBuffer.write int packet
  if packet.length ≠ len then .error .assertion
  else .ok { s with sendBuffer, pushSend := true }

def removeSendData (s : Session) (len : Nat) : Except Fault Session := do
  let sendBuffer ← (s.sendBuffer.remove len).1.restoration
  .ok { s with sendBuffer }

/-- `(this->*handler_[packet->opcode_])(packet)`. -/
def dispatch (int : Int → Int) (junk : Nat → Byte) (s : Session) (packet : List Byte) :
    Except Fault Session :=
  if packet.length < 4 then .error .outOfBounds
  else
    match handlerOf (packetOpcode packet) with
    | none => .error .outOfBounds
    | some handler => s.pushSendPacket int (handler.response junk)

/-- The loop of `update`. `junk k` is what the stack holds at its `k`-th dispatch. -/
def dispatchAll (int : Int → Int) (junk : Nat → Nat → Byte) :
    Nat → List (List Byte) → Session → Except Fault Session
  | _, [], s => .ok s
  | k, packet :: rest, s => do
    let s ← s.dispatch int (junk k) packet
    dispatchAll int junk (k + 1) rest { s with packetList := rest }

def update (int : Int → Int) (junk : Nat → Nat → Byte) (s : Session) : Except Fault Session :=
  if s.active then dispatchAll int junk 0 s.packetList s else .ok s

section Operations
variable {int : Int → Int} {s s' : Session} (wf : s.sendBuffer.WellFormed)
include wf

theorem pushSendPacket_spec {packet : List Byte} (pushed : s.pushSendPacket int packet = .ok s') :
    ∃ sendBuffer : CSyncBuffer, s' = { s with sendBuffer, pushSend := true } ∧
      s.sendBuffer.write int packet = .ok (sendBuffer, packet.length) ∧ sendBuffer.WellFormed ∧
      sendBuffer.content = s.sendBuffer.content ++ packet ∧
      s.sendBuffer.buffer.size ≤ sendBuffer.buffer.size := by
  obtain ⟨⟨sendBuffer, len⟩, written, rest⟩ := bind_eq_ok.mp pushed
  obtain ⟨wf', content, length, size⟩ := CSyncBuffer.write_content wf written
  simp only at wf' content length size rest
  subst length
  rw [if_neg (by simp)] at rest
  cases rest
  exact ⟨sendBuffer, rfl, written, wf', content, size⟩

theorem pushSendPacket_rptr {packet : List Byte} (start : s.sendBuffer.rptr = 0)
    (pushed : s.pushSendPacket int packet = .ok s') : s'.sendBuffer.rptr = 0 := by
  obtain ⟨sendBuffer, rfl, written, -, -, -⟩ := pushSendPacket_spec wf pushed
  exact CSyncBuffer.write_rptr wf start written

theorem pushSendPacket_total {limit : Nat} (exact : ∀ n : Nat, n < limit → int n = n)
    (start : s.sendBuffer.rptr = 0) (packet : List Byte)
    (short : packet.length ≤ s.sendBuffer.buffer.size)
    (room : 2 * (s.getRemainSendDataSize + packet.length) ≤ limit) :
    ∃ s', s.pushSendPacket int packet = .ok s' := by
  obtain ⟨⟨sendBuffer, len⟩, written⟩ := CSyncBuffer.write_total wf exact start short room
  obtain ⟨-, -, length, -⟩ := CSyncBuffer.write_content wf written
  simp only at length
  subst length
  refine ⟨{ s with sendBuffer, pushSend := true }, ?_⟩
  rw [pushSendPacket, written, ok_bind]
  simp

/-- Everything `removeSendData` does with a length the buffer holds. -/
theorem removeSendData_spec {len : Nat} (used : len ≤ s.getRemainSendDataSize) :
    ∃ sendBuffer : CSyncBuffer, s.removeSendData len = .ok { s with sendBuffer } ∧
      sendBuffer.WellFormed ∧ sendBuffer.content = s.sendBuffer.content.drop len ∧
      sendBuffer.alloc = s.sendBuffer.alloc ∧
      sendBuffer.buffer.size = s.sendBuffer.buffer.size ∧ sendBuffer.rptr = 0 := by
  obtain ⟨removed, wf', rest⟩ := CSyncBuffer.remove_content wf used
  obtain ⟨b, restored, wf'', same, alloc, size, rptr⟩ := CSyncBuffer.restoration_content wf'
  refine ⟨b, ?_, wf'', same.trans rest, alloc, size, rptr⟩
  rw [removeSendData, removed, restored, ok_bind]

/-- A length that the buffer does not hold removes nothing. -/
theorem removeSendData_size (len : Nat) : ∃ sendBuffer : CSyncBuffer,
    s.removeSendData len = .ok { s with sendBuffer } ∧ sendBuffer.WellFormed ∧
      sendBuffer.getUsedSize = if len ≤ s.getRemainSendDataSize then s.getRemainSendDataSize - len
        else s.getRemainSendDataSize := by
  split
  · rename_i used
    obtain ⟨sendBuffer, removed, wf', content, -, -, -⟩ := removeSendData_spec wf used
    have length := congrArg List.length content
    rw [List.length_drop, CSyncBuffer.content_length, CSyncBuffer.content_length] at length
    exact ⟨sendBuffer, removed, wf', length⟩
  · rename_i more
    obtain ⟨b, restored, wf', same, -, -, -⟩ := CSyncBuffer.restoration_content wf
    have length := congrArg List.length same
    rw [CSyncBuffer.content_length, CSyncBuffer.content_length] at length
    refine ⟨b, ?_, wf', length⟩
    simp only [getRemainSendDataSize] at more
    rw [removeSendData, CSyncBuffer.remove, if_neg more, restored, ok_bind]

end Operations

/-- The response is the packet that the request's handler sends, on some stack. -/
def Answers (request response : List Byte) : Prop :=
  ∃ handler junk, handlerOf (packetOpcode request) = some handler ∧
    response = handler.response junk

theorem dispatchAll_spec {int : Int → Int} {junk : Nat → Nat → Byte} {k : Nat}
    {packets : List (List Byte)} {s s' : Session} (wf : s.sendBuffer.WellFormed)
    (queued : s.packetList = packets) (done : dispatchAll int junk k packets s = .ok s') :
    ∃ responses, List.Forall₂ Answers packets responses ∧ s'.sendBuffer.WellFormed ∧
      s'.sendBuffer.content = s.sendBuffer.content ++ responses.flatten ∧ s'.packetList = [] ∧
      s'.active = s.active ∧ s.sendBuffer.buffer.size ≤ s'.sendBuffer.buffer.size ∧
      (s.sendBuffer.rptr = 0 → s'.sendBuffer.rptr = 0) := by
  induction packets generalizing k s with
  | nil =>
    cases done
    exact ⟨[], .nil, wf, by simp, queued, rfl, Nat.le_refl _, id⟩
  | cons packet rest ih =>
    obtain ⟨next, dispatched, more⟩ := bind_eq_ok.mp done
    rw [dispatch] at dispatched
    split at dispatched
    · cases dispatched
    · split at dispatched
      · cases dispatched
      · rename_i handler found
        have rptr := fun start => pushSendPacket_rptr wf start dispatched
        obtain ⟨sendBuffer, rfl, -, wf', content, size⟩ := pushSendPacket_spec wf dispatched
        obtain ⟨responses, answered, wf'', whole, empty, active, size', rptr'⟩ := ih wf' rfl more
        refine ⟨_ :: responses, .cons ⟨handler, junk k, found, rfl⟩ answered, wf'', ?_, empty,
          active, Nat.le_trans size size', fun start => rptr' (rptr start)⟩
        rw [whole, List.flatten_cons]
        simp only [content, List.append_assoc]

def Handled (packet : List Byte) : Prop :=
  4 ≤ packet.length ∧ ∃ handler, handlerOf (packetOpcode packet) = some handler

/-- The loop of `update` faults on no packets with a handler, as long as `int` is
exact up to twice the bytes that the send buffer has to hold. -/
theorem dispatchAll_total {int : Int → Int} {limit : Nat}
    (exact : ∀ n : Nat, n < limit → int n = n) {junk : Nat → Nat → Byte} {k : Nat}
    {packets : List (List Byte)} {s : Session} (wf : s.sendBuffer.WellFormed)
    (start : s.sendBuffer.rptr = 0) (large : packetBSize ≤ s.sendBuffer.buffer.size)
    (room : 2 * (s.getRemainSendDataSize + packetBSize * packets.length) ≤ limit)
    (handled : ∀ p ∈ packets, Handled p) : ∃ s', dispatchAll int junk k packets s = .ok s' := by
  induction packets generalizing k s with
  | nil => exact ⟨s, rfl⟩
  | cons packet rest ih =>
    obtain ⟨long, handler, found⟩ := handled packet (by simp)
    have short : (handler.response (junk k)).length ≤ packetBSize := by
      rw [Handler.response_length]
      cases handler <;> decide
    rw [List.length_cons, Nat.mul_succ] at room
    obtain ⟨next, pushed⟩ := pushSendPacket_total wf exact start (handler.response (junk k))
      (Nat.le_trans short large) (by omega)
    have start' := pushSendPacket_rptr wf start pushed
    obtain ⟨sendBuffer, rfl, -, wf', content, size⟩ := pushSendPacket_spec wf pushed
    have used : sendBuffer.getUsedSize =
        s.getRemainSendDataSize + (handler.response (junk k)).length := by
      rw [← CSyncBuffer.content_length, content, List.length_append, CSyncBuffer.content_length]
      rfl
    obtain ⟨s', done⟩ := ih (k := k + 1)
      (s := { s with packetList := rest, sendBuffer := sendBuffer, pushSend := true }) wf' start'
      (Nat.le_trans large size) (by simp only [getRemainSendDataSize, used] at room ⊢; omega)
      fun p member => handled p (List.mem_cons_of_mem _ member)
    refine ⟨s', ?_⟩
    rw [dispatchAll, dispatch, if_neg (Nat.not_lt.mpr long), found]
    simp only [pushed, ok_bind]
    exact done

end Session
end Sometest.Net
