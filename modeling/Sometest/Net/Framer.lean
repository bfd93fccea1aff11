import Sometest.Lib.Framing
import Sometest.Net.CircularBuffer

/-! `getPacketFromReadBuffer` and the loop of `onRead`, which both ports share. -/
namespace Sometest.Net
open CircularBuffer (WellFormed content)

/-- The packet at the front of the buffer, with the buffer after it; `none` is `NULL`. -/
def getPacketFromReadBuffer (r : CircularBuffer) :
    Except Fault (Option (List Byte × CircularBuffer)) :=
  if r.getUsedSpaceSize < headerSize then .ok none
  else do
    let packet ← r.read headerSize
    if (r.getUsedSpaceSize : Int) < packetSize packet then .ok none
    else if packetSize packet < 0 then .error .badAlloc
    else do
      let buffer ← r.read (packetSize packet).toNat
      let r ← r.remove (packetSize packet).toNat
      .ok (some (buffer, r))

/-- The loop of `onRead`: packets are pushed until `getPacketFromReadBuffer`
returns `NULL`. -/
def extractPackets : Nat → CircularBuffer → List (List Byte) →
    Except Fault (CircularBuffer × List (List Byte))
  | 0, _, _ => .error .bound
  | n + 1, r, packetList => do
    match ← getPacketFromReadBuffer r with
    | none => .ok (r, packetList)
    | some (packet, r) => extractPackets n r (packetList ++ [packet])

/-- What the framer makes of the bytes in the buffer: the length of the packet it
takes off the front, or `none`. -/
def front (bytes : List Byte) : Except Fault (Option Nat) :=
  if bytes.length < headerSize then .ok none
  else if (bytes.length : Int) < packetSize bytes then .ok none
  else if packetSize bytes < 0 then .error .badAlloc
  else .ok (some (packetSize bytes).toNat)

theorem front_eq_some {bytes : List Byte} {n : Nat} :
    front bytes = .ok (some n) ↔
      headerSize ≤ bytes.length ∧ packetSize bytes = n ∧ n ≤ bytes.length := by
  rw [front]
  generalize packetSize bytes = size
  split
  · simp only [Except.ok.injEq, reduceCtorEq, false_iff]
    omega
  · split
    · simp only [Except.ok.injEq, reduceCtorEq, false_iff]
      omega
    · split
      · simp only [reduceCtorEq, false_iff]
        omega
      · simp only [Except.ok.injEq, Option.some.injEq]
        omega

theorem front_eq_none {bytes : List Byte} :
    front bytes = .ok none ↔
      bytes.length < headerSize ∨ (bytes.length : Int) < packetSize bytes := by
  rw [front]
  generalize packetSize bytes = size
  split
  · rename_i short
    simp only [short, true_or]
  · rename_i long
    split
    · rename_i incomplete
      simp only [incomplete, or_true]
    · rename_i complete
      split <;> simp only [reduceCtorEq, Except.ok.injEq, long, complete, or_self]

theorem front_eq_error {bytes : List Byte} {fault : Fault} (refused : front bytes = .error fault) :
    headerSize ≤ bytes.length ∧ packetSize bytes < 0 := by
  rw [front] at refused
  split at refused
  · cases refused
  · rename_i long
    split at refused
    · cases refused
    · split at refused
      · rename_i negative
        exact ⟨Nat.not_lt.mp long, negative⟩
      · cases refused

section Front
variable {r : CircularBuffer} (wf : r.WellFormed)
include wf

theorem packetSize_read (long : ¬ r.getUsedSpaceSize < headerSize) :
    ∃ packet, r.read headerSize = .ok packet ∧ packetSize packet = packetSize r.content := by
  refine ⟨_, CircularBuffer.read_content wf (Nat.not_lt.mp long), ?_⟩
  exact packetSize_take r.content headerSize (Nat.le_refl _)

theorem getPacket_null (null : front r.content = .ok none) :
    getPacketFromReadBuffer r = .ok none := by
  rw [front, CircularBuffer.content_length wf] at null
  rw [getPacketFromReadBuffer]
  split at null
  · rw [if_pos ‹_›]
  · rename_i long
    obtain ⟨packet, header, field⟩ := packetSize_read wf long
    rw [if_neg long, header, ok_bind, field]
    split at null
    · rw [if_pos ‹_›]
    · split at null <;> cases null

theorem getPacket_error {fault : Fault} (refused : front r.content = .error fault) :
    getPacketFromReadBuffer r = .error fault := by
  rw [front, CircularBuffer.content_length wf] at refused
  rw [getPacketFromReadBuffer]
  split at refused
  · cases refused
  · rename_i long
    obtain ⟨packet, header, field⟩ := packetSize_read wf long
    rw [if_neg long, header, ok_bind, field]
    split at refused
    · cases refused
    · rename_i complete
      rw [if_neg complete]
      split at refused
      · rw [if_pos ‹_›]
        exact congrArg _ (Except.error.inj refused)
      · cases refused

theorem getPacket_some {n : Nat} (taken : front r.content = .ok (some n)) :
    ∃ r', getPacketFromReadBuffer r = .ok (some (r.content.take n, r')) ∧ r'.WellFormed ∧
      r'.content = r.content.drop n ∧ r'.base.size = r.base.size := by
  rw [front, CircularBuffer.content_length wf] at taken
  rw [getPacketFromReadBuffer]
  split at taken
  · cases taken
  · rename_i long
    obtain ⟨packet, header, field⟩ := packetSize_read wf long
    rw [if_neg long, header, ok_bind, field]
    split at taken
    · cases taken
    · rename_i complete
      rw [if_neg complete]
      split at taken
      · cases taken
      · rename_i nonneg
        obtain rfl : (packetSize r.content).toNat = n := Option.some.inj (Except.ok.inj taken)
        have inside : (packetSize r.content).toNat ≤ r.getUsedSpaceSize := by omega
        obtain ⟨r', removed, wf', rest, size⟩ := CircularBuffer.remove_content wf inside
        refine ⟨r', ?_, wf', rest, size⟩
        rw [if_neg nonneg, CircularBuffer.read_content wf inside, ok_bind, removed, ok_bind]

end Front

/-- A packet whose `size_` is its length, and that fits into the receive buffer. -/
structure Framed (packet : List Byte) : Prop where
  header : headerSize ≤ packet.length
  fits : packet.length ≤ 4096
  size : packetSize packet = packet.length

theorem packetSize_append {packet : List Byte} (long : headerSize ≤ packet.length)
    (rest : List Byte) : packetSize (packet ++ rest) = packetSize packet := by
  rw [← packetSize_take (packet ++ rest) headerSize (Nat.le_refl _),
    ← packetSize_take packet headerSize (Nat.le_refl _), List.take_append_of_le_length long]

theorem front_framed {packet : List Byte} (framed : Framed packet) (rest : List Byte) :
    front (packet ++ rest) = .ok (some packet.length) := by
  have header := framed.header
  have long : ¬ (packet ++ rest).length < headerSize := by
    simp only [List.length_append]
    omega
  have size : packetSize (packet ++ rest) = packet.length := by
    rw [packetSize_append header, framed.size]
  have complete : ¬ (((packet ++ rest).length : Int) < packet.length) := by
    simp only [List.length_append]
    omega
  have nonneg : ¬ ((packet.length : Int) < 0) := by omega
  rw [front, if_neg long, size, if_neg complete, if_neg nonneg, Int.toNat_natCast]

theorem front_incomplete {packet : List Byte} (framed : Framed packet) {n : Nat}
    (short : n < packet.length) : front (packet.take n) = .ok none := by
  rw [front]
  split
  · rfl
  · rename_i long
    have length : (packet.take n).length = n := by
      rw [List.length_take, Nat.min_eq_left (Nat.le_of_lt short)]
    rw [packetSize_take packet n (by omega), framed.size, length, if_pos (by omega)]

/-- The loop of `onRead` pushes the packets that have arrived and leaves the
pending bytes in the buffer. -/
theorem extractPackets_arrived {packets : List (List Byte)} (framed : ∀ p ∈ packets, Framed p)
    {r : CircularBuffer} {n : Nat} (wf : r.WellFormed) (holds : r.content = packets.flatten.take n)
    {bound : Nat} (enough : n < bound) (packetList : List (List Byte)) :
    ∃ r', extractPackets bound r packetList = .ok (r', packetList ++ Framing.arrived packets n) ∧
      r'.WellFormed ∧ r'.content = Framing.pending packets n ∧ r'.base.size = r.base.size := by
  induction packets generalizing r n bound packetList with
  | nil =>
    obtain ⟨bound, rfl⟩ : ∃ b, bound = b + 1 := ⟨bound - 1, by omega⟩
    have empty : r.content = [] := by simpa using holds
    have step := getPacket_null wf (by rw [empty]; rfl)
    refine ⟨r, ?_, wf, empty, rfl⟩
    simp only [extractPackets, step, ok_bind, Framing.arrived_nil, List.append_nil]
  | cons packet rest ih =>
    obtain ⟨bound, rfl⟩ : ∃ b, bound = b + 1 := ⟨bound - 1, by omega⟩
    have first := framed packet (by simp)
    by_cases complete : packet.length ≤ n
    · have split : r.content = packet ++ rest.flatten.take (n - packet.length) := by
        rw [holds, List.flatten_cons, List.take_append, List.take_of_length_le complete]
      obtain ⟨r', taken, wf', content, size⟩ := getPacket_some wf (split ▸ front_framed first _)
      rw [split, List.drop_left] at content
      rw [split, List.take_left] at taken
      have header := first.header
      have shorter : n - packet.length < bound := by
        simp only [headerSize] at header
        omega
      obtain ⟨r'', ran, wf'', left, size'⟩ :=
        ih (fun p member => framed p (List.mem_cons_of_mem _ member)) wf' content shorter
          (packetList ++ [packet])
      refine ⟨r'', ?_, wf'', ?_, size'.trans size⟩
      · simp only [extractPackets, taken, ok_bind, ran, Framing.arrived_complete complete,
          List.append_assoc, List.singleton_append]
      · rw [left, Framing.pending_complete complete]
    · have short := Nat.not_le.mp complete
      have waiting : r.content = packet.take n := by
        rw [holds, List.flatten_cons, List.take_append_of_le_length (Nat.le_of_lt short)]
      have step := getPacket_null wf (waiting ▸ front_incomplete first short)
      refine ⟨r, ?_, wf, ?_, rfl⟩
      · simp only [extractPackets, step, ok_bind, Framing.arrived_short short,
          List.append_nil]
      · rw [waiting, Framing.pending_short short]

/-- The receive buffer after the first `n` bytes of the packets. -/
structure Receiving (packets : List (List Byte)) (n : Nat) (r : CircularBuffer) : Prop where
  wellFormed : r.WellFormed
  size : r.base.size = 4096
  content : r.content = Framing.pending packets n

section Stream
variable {packets : List (List Byte)} {n : Nat} {r : CircularBuffer}

theorem receiving_init (fresh : Nat → Byte) : Receiving packets 0 (.init 4096 fresh) :=
  ⟨CircularBuffer.wellFormed_init _ _, rfl, (Framing.pending_zero packets).symm⟩

/-- There is room for at least one more byte. -/
theorem Receiving.free (receiving : Receiving packets n r) (framed : ∀ p ∈ packets, Framed p) :
    0 < r.getFreeSpaceSize := by
  have short := Framing.pending_lt (n := n) (Nat.zero_lt_succ 4095) fun p member =>
    (framed p member).fits
  rw [CircularBuffer.getFreeSpaceSize_eq receiving.wellFormed, receiving.size, receiving.content]
  omega

/-- The bytes of one `recv` are stored and the packets they complete are pushed. -/
theorem Receiving.receive (receiving : Receiving packets n r) (framed : ∀ p ∈ packets, Framed p)
    {bytes : List Byte} (fits : bytes.length ≤ r.getFreeSpaceSize)
    (stream : packets.flatten.take n ++ bytes <+: packets.flatten) (inside : n ≤ packets.flatten.length)
    {bound : Nat} (enough : 4096 < bound) (packetList : List (List Byte)) :
    ∃ stored r' new, r.write bytes = .ok stored ∧
      extractPackets bound stored packetList = .ok (r', packetList ++ new) ∧
      Framing.arrived packets (n + bytes.length) = Framing.arrived packets n ++ new ∧
      Receiving packets (n + bytes.length) r' := by
  obtain ⟨stored, written, wf, content, size⟩ :=
    CircularBuffer.write_content receiving.wellFormed fits
  have continues : packets.flatten.drop n = bytes ++ (packets.flatten.drop n).drop bytes.length := by
    obtain ⟨rest, whole⟩ := stream
    have tail : packets.flatten.drop n = bytes ++ rest := by
      conv_lhs => rw [← whole]
      rw [List.append_assoc, List.drop_append, List.length_take, Nat.min_eq_left inside]
      simp
    rw [tail, List.drop_left]
  have holds : stored.content = (Framing.remaining packets n).flatten.take
      ((Framing.pending packets n).length + bytes.length) := by
    rw [content, receiving.content, ← Framing.pending_append_drop packets n, continues,
      ← List.append_assoc, ← List.length_append, List.take_left]
  have small : (Framing.pending packets n).length + bytes.length < bound := by
    have room := CircularBuffer.content_le wf
    rw [content, receiving.content, List.length_append, size, receiving.size] at room
    omega
  have later : ∀ p ∈ Framing.remaining packets n, Framed p := fun p member =>
    framed p (List.mem_of_mem_drop member)
  obtain ⟨r', ran, wf', rest, size'⟩ := extractPackets_arrived later wf holds small packetList
  refine ⟨stored, r', _, written, ran, Framing.arrived_add packets n _ inside, wf', ?_, ?_⟩
  · rw [size', size, receiving.size]
  · rw [rest, Framing.pending_add packets n _ inside]

end Stream
end Sometest.Net
