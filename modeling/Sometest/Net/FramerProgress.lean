import Sometest.Net.Framer

/-! Which buffer contents the framer makes progress on. The size field is the peer's:
nothing compares it with the size of a header. -/
namespace Sometest.Net

/-- A call returns `NULL`, or it takes off the front of the buffer a packet of
exactly `size_` bytes that is no shorter than a header. -/
def Progresses (r : CircularBuffer) : Prop :=
  getPacketFromReadBuffer r = .ok none ∨
    ∃ packet r', getPacketFromReadBuffer r = .ok (some (packet, r')) ∧
      packetSize r.content = packet.length ∧ headerSize ≤ packet.length ∧
      packet.length ≤ r.getUsedSpaceSize ∧ r.content = packet ++ r'.content

/-- The buffers at which the loop of `onRead` calls `getPacketFromReadBuffer`. -/
inductive Extracting (r : CircularBuffer) : CircularBuffer → Prop where
  | start : Extracting r r
  | next : Extracting r r' → getPacketFromReadBuffer r' = .ok (some (packet, r'')) →
      Extracting r r''

/-- Each packet of the bytes, found by walking from their start by `size_`, is no
shorter than a header. An incomplete header or packet ends the walk. -/
inductive Advances : List Byte → Prop where
  | incomplete : bytes.length < headerSize ∨ (bytes.length : Int) < packetSize bytes →
      Advances bytes
  | packet : packetSize bytes = (n : Nat) → headerSize ≤ n → n ≤ bytes.length →
      Advances (bytes.drop n) → Advances bytes

theorem Extracting.trans {r r' r'' : CircularBuffer} (first : Extracting r r')
    (second : Extracting r' r'') : Extracting r r'' := by
  induction second with
  | start => exact first
  | next _ taken ih => exact ih.next taken

section Progress
variable {r : CircularBuffer} (wf : r.WellFormed)
include wf

theorem progresses_iff : Progresses r ↔
    ¬ (headerSize ≤ r.getUsedSpaceSize ∧ packetSize r.content < headerSize) := by
  have used := CircularBuffer.content_length wf
  cases taken : front r.content with
  | error fault =>
    have failed := getPacket_error wf taken
    obtain ⟨header, negative⟩ := front_eq_error taken
    constructor
    · rintro (null | ⟨packet, r', got, -⟩)
      · cases failed.symm.trans null
      · cases failed.symm.trans got
    · intro fine
      exact absurd ⟨used ▸ header, by omega⟩ fine
  | ok length =>
    cases length with
    | none =>
      have null := getPacket_null wf taken
      constructor
      · rintro - ⟨header, small⟩
        have incomplete := front_eq_none.mp taken
        omega
      · exact fun _ => .inl null
    | some n =>
      obtain ⟨r', got, -, content, -⟩ := getPacket_some wf taken
      obtain ⟨header, size, inside⟩ := front_eq_some.mp taken
      have length : (r.content.take n).length = n := by
        rw [List.length_take, Nat.min_eq_left inside]
      constructor
      · rintro (null | ⟨packet, r'', same, field, long, -⟩) ⟨-, small⟩
        · cases got.symm.trans null
        · omega
      · intro fine
        have long : headerSize ≤ n := by
          by_contra short
          exact fine ⟨used ▸ header, by omega⟩
        refine .inr ⟨_, r', got, ?_, ?_, ?_, ?_⟩
        · rw [length, size]
        · rw [length]
          exact long
        · rw [length, ← used]
          exact inside
        · rw [content, List.take_append_drop]

end Progress

theorem Advances.extract {bytes : List Byte} (advances : Advances bytes) {r : CircularBuffer}
    (wf : r.WellFormed) (content : r.content = bytes) {bound : Nat}
    (enough : bytes.length / headerSize < bound) (packetList : List (List Byte)) :
    ∃ out, extractPackets bound r packetList = .ok out := by
  induction advances generalizing r bound packetList with
  | incomplete short =>
    obtain ⟨bound, rfl⟩ := Nat.exists_eq_add_one.mpr (Nat.zero_lt_of_lt enough)
    have null := getPacket_null wf (content ▸ front_eq_none.mpr short)
    rw [extractPackets, null, ok_bind]
    exact ⟨_, rfl⟩
  | packet size long inside _ ih =>
    obtain ⟨bound, rfl⟩ := Nat.exists_eq_add_one.mpr (Nat.zero_lt_of_lt enough)
    have taken := front_eq_some.mpr ⟨Nat.le_trans long inside, size, inside⟩
    obtain ⟨r', got, wf', rest, -⟩ := getPacket_some wf (content ▸ taken)
    rw [extractPackets, got, ok_bind]
    apply ih wf' (by rw [rest, content])
    rw [List.length_drop]
    simp only [headerSize] at long enough ⊢
    omega

theorem Advances.progresses {bytes : List Byte} (advances : Advances bytes) {r : CircularBuffer}
    (wf : r.WellFormed) (content : r.content = bytes) : Progresses r := by
  apply (progresses_iff wf).mpr
  rintro ⟨header, small⟩
  rw [← CircularBuffer.content_length wf, content] at header
  rw [content] at small
  cases advances with
  | incomplete short => omega
  | packet size long inside _ => omega

theorem Advances.extracting {r r' : CircularBuffer} (wf : r.WellFormed)
    (advances : Advances r.content) (extracting : Extracting r r') :
    r'.WellFormed ∧ Advances r'.content := by
  induction extracting with
  | start => exact ⟨wf, advances⟩
  | @next r' packet r'' _ taken ih =>
    obtain ⟨wf', walk⟩ := ih
    cases walk with
    | incomplete short =>
      cases (getPacket_null wf' (front_eq_none.mpr short)).symm.trans taken
    | @packet _ n size long inside walk =>
      have complete := front_eq_some.mpr ⟨Nat.le_trans long inside, size, inside⟩
      obtain ⟨rest, got, wf'', content, -⟩ := getPacket_some wf' complete
      cases got.symm.trans taken
      exact ⟨wf'', content ▸ walk⟩

theorem advances_of_progresses {r : CircularBuffer} (wf : r.WellFormed)
    (progresses : ∀ r', Extracting r r' → Progresses r') : Advances r.content := by
  induction length : r.content.length using Nat.strongRecOn generalizing r with
  | ind k ih =>
    have fine := (progresses_iff wf).mp (progresses r .start)
    rw [← CircularBuffer.content_length wf] at fine
    by_cases short : r.content.length < headerSize ∨ (r.content.length : Int) < packetSize r.content
    · exact .incomplete short
    · obtain ⟨header, complete⟩ := not_or.mp short
      have size : packetSize r.content = ((packetSize r.content).toNat : Nat) := by
        by_contra negative
        exact fine ⟨Nat.not_lt.mp header, by omega⟩
      have long : headerSize ≤ (packetSize r.content).toNat := by
        by_contra small
        exact fine ⟨Nat.not_lt.mp header, by omega⟩
      have inside : (packetSize r.content).toNat ≤ r.content.length := by omega
      have taken := front_eq_some.mpr ⟨Nat.not_lt.mp header, size, inside⟩
      obtain ⟨r', got, wf', content, -⟩ := getPacket_some wf taken
      refine .packet size long inside ?_
      rw [← content]
      apply ih r'.content.length _ wf' _ rfl
      · rw [content, List.length_drop]
        simp only [headerSize] at long
        omega
      · intro r'' extracting
        exact progresses r'' ((Extracting.start.next got).trans extracting)

/-- One call makes progress unless a header with a `size_` below 8 is at the front. All
calls of the loop make progress, and the loop ends after at most one packet for each
8 bytes in the buffer, exactly when no such header comes to the front. -/
theorem framer_progress_iff (r : CircularBuffer) (wf : r.WellFormed) :
    (Progresses r ↔
      ¬ (headerSize ≤ r.getUsedSpaceSize ∧ packetSize r.content < headerSize)) ∧
    ((∀ r', Extracting r r' → Progresses r') ∧ (∀ packetList, ∃ out,
        extractPackets (r.getUsedSpaceSize / headerSize + 1) r packetList = .ok out) ↔
      Advances r.content) := by
  refine ⟨progresses_iff wf, ?_⟩
  constructor
  · rintro ⟨progresses, -⟩
    exact advances_of_progresses wf progresses
  · intro advances
    constructor
    · intro r' extracting
      obtain ⟨wf', walk⟩ := Advances.extracting wf advances extracting
      exact walk.progresses wf' rfl
    · intro packetList
      apply advances.extract wf rfl
      rw [CircularBuffer.content_length wf]
      exact Nat.lt_succ_self _

theorem framer_progress_iff_header :
    ∃ r : CircularBuffer, r.content = packetHeader .CMSG_A 8 ++ [1] ∧
      ∀ r', Extracting r r' → Progresses r' := by
  obtain ⟨r, written, wf, content, -⟩ := @CircularBuffer.write_content _
    (CircularBuffer.wellFormed_init 16 fun _ => 0) (packetHeader .CMSG_A 8 ++ [1]) (by decide)
  have advances : Advances r.content := by
    rw [content]
    refine @Advances.packet _ 8 (by decide) (by decide) (by decide) (.incomplete (.inl (by decide)))
  exact ⟨r, content, ((framer_progress_iff r wf).2.mpr advances).1⟩

theorem extractPackets_stuck {r : CircularBuffer} (wf : r.WellFormed)
    (header : headerSize ≤ r.content.length) (zero : packetSize r.content = 0) (bound : Nat)
    (packetList : List (List Byte)) : extractPackets bound r packetList = .error .bound := by
  induction bound generalizing r packetList with
  | zero => rfl
  | succ bound ih =>
    have taken := front_eq_some.mpr ⟨header, zero, Nat.zero_le _⟩
    obtain ⟨r', got, wf', content, -⟩ := getPacket_some wf taken
    rw [List.drop_zero] at content
    rw [extractPackets, got, ok_bind]
    exact ih wf' (content ▸ header) (content ▸ zero) _

/-- A header alone with `size_` 0: the call takes nothing off, and the loop never ends. -/
theorem framer_stalls :
    ∃ r : CircularBuffer, r.WellFormed ∧ r.content = packetHeader .CMSG_A 0 ∧ ¬ Progresses r ∧
      ∀ bound, extractPackets bound r [] = .error .bound := by
  obtain ⟨r, written, wf, content, -⟩ := @CircularBuffer.write_content _
    (CircularBuffer.wellFormed_init 4096 fun _ => 0) (packetHeader .CMSG_A 0) (by decide)
  have header : headerSize ≤ r.content.length := by
    rw [content]
    decide
  have zero : packetSize r.content = 0 := by
    rw [content]
    decide
  refine ⟨r, wf, content, ?_, fun bound => extractPackets_stuck wf header zero bound []⟩
  rw [progresses_iff wf, not_not, ← CircularBuffer.content_length wf, zero]
  exact ⟨header, by decide⟩

end Sometest.Net
