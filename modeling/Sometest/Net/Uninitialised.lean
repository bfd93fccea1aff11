import Sometest.Net.Session

/-! Two runs of `update` that differ only in what the stack holds where the handlers place
their local packet structs. A response is sent with its whole `buffer`, of which a
handler sets the beginning only. -/
namespace Sometest.Net

/-- The bytes at the end of `buffer` that neither the constructor of the packet nor the
handler sets. -/
def Handler.unset : Handler → Nat
  | .processCAMsg => 5
  | .processCBMsg => 22

theorem map_junk_eq_iff {n : Nat} {junk junk' : Nat → Byte} :
    (List.range n).map junk = (List.range n).map junk' ↔ ∀ i < n, junk i = junk' i := by
  rw [List.map_inj_left]
  exact ⟨fun same i small => same i (List.mem_range.mpr small),
    fun same i member => same i (List.mem_range.mp member)⟩

/-- A response tells all the bytes that are not set. -/
theorem Handler.response_eq_iff (h : Handler) {junk junk' : Nat → Byte} :
    h.response junk = h.response junk' ↔ ∀ i < h.unset, junk i = junk' i := by
  rw [← map_junk_eq_iff]
  cases h <;>
    · rw [Handler.response, Handler.response, serverPacket, serverPacket, List.append_cancel_left_eq,
        List.append_cancel_left_eq]
      exact Iff.rfl

namespace CSyncBuffer
variable {int : Int → Int} {b b' c : CSyncBuffer}

/-- Buffers that differ in their bytes only. -/
structure Alike (b b' : CSyncBuffer) : Prop where
  size : b'.buffer.size = b.buffer.size
  rptr : b'.rptr = b.rptr
  wptr : b'.wptr = b.wptr

theorem Alike.wellFormed (alike : Alike b b') (wf : b.WellFormed) : b'.WellFormed where
  order := by
    rw [alike.rptr, alike.wptr]
    exact wf.order
  inside := by
    rw [alike.size, alike.wptr]
    exact wf.inside

theorem Alike.used (alike : Alike b b') : b'.getUsedSize = b.getUsedSize := by
  rw [getUsedSize, getUsedSize, alike.rptr, alike.wptr]

theorem Alike.resize (alike : Alike b b') (wf : b.WellFormed) {size : Int}
    (resized : b.resize size = .ok c) : ∃ c', b'.resize size = .ok c' ∧ Alike c c' := by
  obtain ⟨d, made, wfd, -, used, grown⟩ := resize_content wf size
  obtain ⟨d', made', wfd', -, used', grown'⟩ := resize_content (alike.wellFormed wf) size
  cases resized.symm.trans made
  refine ⟨d', made', ?_⟩
  rw [alike.size] at grown'
  split at grown
  · rename_i larger
    rw [if_pos larger] at grown'
    have start := wfd.order
    have start' := wfd'.order
    have same := alike.used
    simp only [getUsedSize] at used used' grown grown' same
    exact ⟨by omega, by omega, by omega⟩
  · rename_i enough
    rw [if_neg enough] at grown'
    rw [grown, grown']
    exact alike

theorem Alike.room (alike : Alike b b') (wf : b.WellFormed) {len : Nat}
    (made : b.room int len = .ok c) : ∃ c', b'.room int len = .ok c' ∧ Alike c c' := by
  rw [CSyncBuffer.room] at made
  rw [CSyncBuffer.room, getFreeSize, alike.size, alike.wptr]
  split at made
  · rename_i fits
    cases made
    exact ⟨b', if_pos fits, alike⟩
  · rename_i full
    obtain ⟨c', resized, alike'⟩ := alike.resize wf made
    exact ⟨c', by rw [← resized]; exact if_neg full, alike'⟩

/-- A write asks for nothing but the length. -/
theorem Alike.write (alike : Alike b b') (wf : b.WellFormed) {src src' : List Byte} {n : Nat}
    (length : src'.length = src.length) (written : b.write int src = .ok (c, n)) :
    ∃ c', b'.write int src' = .ok (c', n) ∧ Alike c c' := by
  rw [write_room] at written
  obtain ⟨d, made, written⟩ := bind_eq_ok.mp written
  obtain ⟨buffer, copied, same⟩ := bind_eq_ok.mp written
  obtain ⟨inside, rfl⟩ := copyIn_eq_ok.mp copied
  obtain ⟨d', made', alike⟩ := alike.room wf made
  have inside' : d'.wptr + src'.length ≤ d'.buffer.size := by
    rw [alike.wptr, alike.size, length]
    exact inside
  cases same
  rw [write_room, length, made', ok_bind, copyIn_ok inside', ok_bind]
  exact ⟨_, rfl, alike.size, alike.rptr, by rw [alike.wptr]⟩

end CSyncBuffer

namespace Session
variable {int : Int → Int} {junk junk' : Nat → Nat → Byte} {s t u : Session}

structure Alike (s t : Session) : Prop where
  active : t.active = s.active
  packetList : t.packetList = s.packetList
  sendBuffer : s.sendBuffer.Alike t.sendBuffer

theorem Alike.refl (s : Session) : Alike s s := ⟨rfl, rfl, rfl, rfl, rfl⟩

theorem Alike.pushSendPacket (alike : Alike s t) (wf : s.sendBuffer.WellFormed)
    {packet packet' : List Byte} (length : packet'.length = packet.length)
    (pushed : s.pushSendPacket int packet = .ok u) :
    ∃ v, t.pushSendPacket int packet' = .ok v ∧ Alike u v := by
  obtain ⟨sendBuffer, rfl, written, -⟩ := pushSendPacket_spec wf pushed
  obtain ⟨sendBuffer', written', alike'⟩ := alike.sendBuffer.write wf length written
  refine ⟨{ t with sendBuffer := sendBuffer', pushSend := true }, ?_, alike.active,
    alike.packetList, alike'⟩
  rw [Session.pushSendPacket, written', ok_bind, length]
  exact if_neg (not_not.mpr rfl)

/-- Whether a packet can be dispatched does not depend on the stack. -/
theorem Alike.dispatch (alike : Alike s t) (wf : s.sendBuffer.WellFormed) {packet : List Byte}
    {fresh : Nat → Byte} (done : s.dispatch int fresh packet = .ok u) (fresh' : Nat → Byte) :
    ∃ v, t.dispatch int fresh' packet = .ok v ∧ Alike u v := by
  rw [Session.dispatch] at done
  rw [Session.dispatch]
  split at done
  · cases done
  · rename_i header
    rw [if_neg header]
    split at done
    · cases done
    · rename_i handler found
      refine alike.pushSendPacket wf ?_ done
      rw [Handler.response_length, Handler.response_length]

/-- The response to the `k`-th packet, nothing for a packet without a handler. -/
def answer (junk : Nat → Byte) (packet : List Byte) : List Byte :=
  ((handlerOf (packetOpcode packet)).map (Handler.response junk)).getD []

def answers (junk : Nat → Nat → Byte) : Nat → List (List Byte) → List Byte
  | _, [] => []
  | k, packet :: rest => answer (junk k) packet ++ answers junk (k + 1) rest

theorem dispatch_answer (wf : s.sendBuffer.WellFormed) {packet : List Byte} {fresh : Nat → Byte}
    (done : s.dispatch int fresh packet = .ok u) :
    (∃ handler, handlerOf (packetOpcode packet) = some handler) ∧ u.sendBuffer.WellFormed ∧
      u.sendBuffer.content = s.sendBuffer.content ++ answer fresh packet := by
  rw [Session.dispatch] at done
  split at done
  · cases done
  · split at done
    · cases done
    · rename_i handler found
      obtain ⟨sendBuffer, rfl, -, wf', content, -⟩ := pushSendPacket_spec wf done
      refine ⟨⟨handler, found⟩, wf', ?_⟩
      rw [answer, found]
      exact content

theorem answer_length (fresh fresh' : Nat → Byte) (packet : List Byte) :
    (answer fresh packet).length = (answer fresh' packet).length := by
  rw [answer, answer]
  cases handlerOf (packetOpcode packet) with
  | none => rfl
  | some handler =>
    exact (handler.response_length fresh).trans (handler.response_length fresh').symm

theorem answer_eq_iff {fresh fresh' : Nat → Byte} {packet : List Byte} :
    answer fresh packet = answer fresh' packet ↔
      ∀ handler, handlerOf (packetOpcode packet) = some handler →
        ∀ i < handler.unset, fresh i = fresh' i := by
  rw [answer, answer]
  cases handlerOf (packetOpcode packet) with
  | none => exact iff_of_true rfl fun _ none => by cases none
  | some handler =>
    rw [Option.map_some, Option.map_some, Option.getD_some, Option.getD_some,
      Handler.response_eq_iff]
    exact ⟨fun same _ found => Option.some.inj found ▸ same, fun same => same handler rfl⟩

theorem Alike.dispatchAll {packets : List (List Byte)} {k : Nat} (alike : Alike s t)
    (wf : s.sendBuffer.WellFormed) (done : dispatchAll int junk k packets s = .ok u) :
    ∃ v, Session.dispatchAll int junk' k packets t = .ok v := by
  induction packets generalizing k s t with
  | nil => exact ⟨t, rfl⟩
  | cons packet rest ih =>
    obtain ⟨next, dispatched, more⟩ := bind_eq_ok.mp done
    obtain ⟨next', dispatched', alike'⟩ := alike.dispatch wf dispatched (junk' k)
    have popped : Alike { next with packetList := rest } { next' with packetList := rest } :=
      ⟨alike'.active, rfl, alike'.sendBuffer⟩
    rw [Session.dispatchAll, dispatched', ok_bind]
    exact ih popped (dispatch_answer wf dispatched).2.1 more

theorem dispatchAll_answers {packets : List (List Byte)} {k : Nat} (wf : s.sendBuffer.WellFormed)
    (done : dispatchAll int junk k packets s = .ok u) :
    u.sendBuffer.content = s.sendBuffer.content ++ answers junk k packets := by
  induction packets generalizing k s with
  | nil =>
    cases done
    exact (List.append_nil _).symm
  | cons packet rest ih =>
    obtain ⟨next, dispatched, more⟩ := bind_eq_ok.mp done
    obtain ⟨-, wf', content⟩ := dispatch_answer wf dispatched
    have whole := ih (s := { next with packetList := rest }) wf' more
    rw [whole, content, List.append_assoc]
    rfl

/-- The stacks agree on the bytes that the handlers leave unset. -/
def Agree (junk junk' : Nat → Nat → Byte) (k : Nat) (packets : List (List Byte)) : Prop :=
  ∀ j packet handler, packets[j]? = some packet → handlerOf (packetOpcode packet) = some handler →
    ∀ i < handler.unset, junk (k + j) i = junk' (k + j) i

theorem agree_cons {k : Nat} {packet : List Byte} {rest : List (List Byte)} :
    Agree junk junk' k (packet :: rest) ↔
      answer (junk k) packet = answer (junk' k) packet ∧ Agree junk junk' (k + 1) rest := by
  rw [answer_eq_iff]
  constructor
  · intro agree
    refine ⟨fun handler found => agree 0 packet handler rfl found, fun j q handler queued found => ?_⟩
    rw [Nat.add_assoc, Nat.add_comm 1 j]
    exact agree (j + 1) q handler queued found
  · rintro ⟨first, others⟩ j q handler queued found
    cases j with
    | zero =>
      cases queued
      exact first handler found
    | succ j =>
      have later := others j q handler queued found
      rwa [Nat.add_assoc, Nat.add_comm 1 j] at later

theorem answers_eq_iff {packets : List (List Byte)} {k : Nat} :
    answers junk k packets = answers junk' k packets ↔ Agree junk junk' k packets := by
  induction packets generalizing k with
  | nil => exact iff_of_true rfl fun _ _ _ none => by cases none
  | cons packet rest ih =>
    rw [agree_cons, ← ih]
    constructor
    · intro same
      exact List.append_inj same (answer_length _ _ packet)
    · rintro ⟨first, others⟩
      rw [answers, answers, first, others]

/-- What `update` appends to the send buffer. -/
def sends (junk : Nat → Nat → Byte) (s : Session) : List Byte :=
  if s.active then answers junk 0 s.packetList else []

theorem update_active (active : s.active = true) :
    s.update int junk = dispatchAll int junk 0 s.packetList s := if_pos active

theorem update_inactive (inactive : ¬ s.active = true) : s.update int junk = .ok s :=
  if_neg inactive

theorem update_sends (wf : s.sendBuffer.WellFormed) (done : s.update int junk = .ok u) :
    u.sendBuffer.content = s.sendBuffer.content ++ s.sends junk := by
  by_cases active : s.active = true
  · rw [update_active active] at done
    rw [sends, if_pos active]
    exact dispatchAll_answers wf done
  · rw [update_inactive active] at done
    cases done
    rw [sends, if_neg active, List.append_nil]

/-- Whether `update` has an outcome does not depend on the stack. -/
theorem update_any (wf : s.sendBuffer.WellFormed) (done : s.update int junk = .ok u)
    (junk' : Nat → Nat → Byte) : ∃ v, s.update int junk' = .ok v := by
  by_cases active : s.active = true
  · rw [update_active active] at done
    rw [update_active active]
    exact (Alike.refl s).dispatchAll wf done
  · exact ⟨s, update_inactive active⟩

theorem sends_eq_iff : s.sends junk = s.sends junk' ↔
    (s.active = true → Agree junk junk' 0 s.packetList) := by
  rw [sends, sends]
  by_cases active : s.active = true
  · rw [if_pos active, if_pos active, answers_eq_iff]
    exact ⟨fun agree _ => agree, fun agree => agree active⟩
  · rw [if_neg active, if_neg active]
    exact iff_of_true rfl fun still => absurd still active

theorem agree_all_iff {packets : List (List Byte)}
    (handled : ∀ packet ∈ packets, ∃ handler, handlerOf (packetOpcode packet) = some handler) :
    (∀ junk junk', Agree junk junk' 0 packets) ↔ packets = [] := by
  constructor
  · intro agree
    cases packets with
    | nil => rfl
    | cons packet rest =>
      obtain ⟨handler, found⟩ := handled packet (List.mem_cons_self ..)
      have unset : 0 < handler.unset := by cases handler <;> decide
      have same := agree (fun _ _ => 0) (fun _ _ => 1) 0 packet handler rfl found 0 unset
      exact absurd same (by decide)
  · rintro rfl junk junk' j packet handler none
    cases none

theorem dispatchAll_handled {packets : List (List Byte)} {k : Nat} (wf : s.sendBuffer.WellFormed)
    (done : dispatchAll int junk k packets s = .ok u) :
    ∀ packet ∈ packets, ∃ handler, handlerOf (packetOpcode packet) = some handler := by
  induction packets generalizing k s with
  | nil =>
    intro packet member
    cases member
  | cons packet rest ih =>
    obtain ⟨next, dispatched, more⟩ := bind_eq_ok.mp done
    obtain ⟨handled, wf', -⟩ := dispatch_answer wf dispatched
    exact List.forall_mem_cons.mpr ⟨handled, ih (s := { next with packetList := rest }) wf' more⟩

/-- Two runs of `update` append the same bytes exactly when the stack agrees on all the bytes
that the responses leave unset; so what is sent never depends on the stack only when
nothing is dispatched. -/
theorem responses_reveal_iff {int : Int → Int} {s s₀ : Session} {junk₀ : Nat → Nat → Byte}
    (wf : s.sendBuffer.WellFormed) (ran : s.update int junk₀ = .ok s₀) :
    (∀ junk junk', ∃ u u' sent sent', s.update int junk = .ok u ∧ s.update int junk' = .ok u' ∧
      u.sendBuffer.content = s.sendBuffer.content ++ sent ∧
      u'.sendBuffer.content = s.sendBuffer.content ++ sent' ∧
      (sent = sent' ↔ (s.active = true → Agree junk junk' 0 s.packetList))) ∧
    ((∀ junk junk' u u', s.update int junk = .ok u → s.update int junk' = .ok u' →
        u.sendBuffer.content = u'.sendBuffer.content) ↔
      s.active = false ∨ s.packetList = []) := by
  constructor
  · intro junk junk'
    obtain ⟨u, done⟩ := update_any wf ran junk
    obtain ⟨u', done'⟩ := update_any wf ran junk'
    exact ⟨u, u', s.sends junk, s.sends junk', done, done', update_sends wf done,
      update_sends wf done', sends_eq_iff⟩
  · have same_iff : (∀ junk junk' u u', s.update int junk = .ok u → s.update int junk' = .ok u' →
        u.sendBuffer.content = u'.sendBuffer.content) ↔
        ∀ junk junk', s.sends junk = s.sends junk' := by
      constructor
      · intro same junk junk'
        obtain ⟨u, done⟩ := update_any wf ran junk
        obtain ⟨u', done'⟩ := update_any wf ran junk'
        have equal := same junk junk' u u' done done'
        rwa [update_sends wf done, update_sends wf done', List.append_cancel_left_eq] at equal
      · intro same junk junk' u u' done done'
        rw [update_sends wf done, update_sends wf done', same junk junk']
    rw [same_iff]
    by_cases active : s.active = true
    · rw [update_active active] at ran
      have handled := dispatchAll_handled wf ran
      have agree_iff := agree_all_iff handled
      constructor
      · intro same
        exact .inr (agree_iff.mp fun junk junk' => sends_eq_iff.mp (same junk junk') active)
      · rintro (inactive | none) junk junk'
        · rw [active] at inactive
          cases inactive
        · exact sends_eq_iff.mpr fun _ => agree_iff.mpr none junk junk'
    · exact iff_of_true (fun junk junk' => sends_eq_iff.mpr fun still => absurd still active)
        (.inl (eq_false_of_ne_true active))

/-- A new session that has received one `CMSG_A` packet. -/
def asked : Session := init.pushPacket (packetHeader .CMSG_A packetASize ++ List.replicate 16 65)

theorem asked_wellFormed : asked.sendBuffer.WellFormed := CSyncBuffer.wellFormed_init 4096

theorem asked_handled : ∀ packet ∈ asked.packetList, Handled packet := by
  intro packet member
  cases List.mem_singleton.mp member
  exact ⟨by decide, .processCAMsg, by decide⟩

theorem asked_update (junk : Nat → Nat → Byte) : ∃ u, asked.update id junk = .ok u := by
  rw [update_active rfl]
  have room : 2 * (asked.getRemainSendDataSize + packetBSize * asked.packetList.length) ≤ 1000 := by
    decide
  exact dispatchAll_total (fun _ _ => rfl) asked_wellFormed rfl (by decide) room asked_handled

/-- The responses to it on two stacks, one full of zeros and one of ones. -/
theorem responses_reveal_iff_asked :
    ∃ u u' sent sent', asked.update id (fun _ _ => 0) = .ok u ∧
      asked.update id (fun _ _ => 1) = .ok u' ∧
      u.sendBuffer.content = asked.sendBuffer.content ++ sent ∧
      u'.sendBuffer.content = asked.sendBuffer.content ++ sent' ∧
      (sent = sent' ↔
        (asked.active = true → Agree (fun _ _ => 0) (fun _ _ => 1) 0 asked.packetList)) := by
  obtain ⟨u, ran⟩ := asked_update fun _ _ => 0
  exact (responses_reveal_iff asked_wellFormed ran).1 _ _

/-- The response to it ends with bytes of the stack. -/
theorem responses_reveal_stack :
    ¬ ∀ (s u u' : Session) (junk junk' : Nat → Nat → Byte), s.sendBuffer.WellFormed →
      (∀ packet ∈ s.packetList, Handled packet) →
      s.update id junk = .ok u → s.update id junk' = .ok u' →
      u.sendBuffer.content = u'.sendBuffer.content := by
  intro same
  obtain ⟨u, ran⟩ := asked_update fun _ _ => 0
  obtain ⟨u', ran'⟩ := asked_update fun _ _ => 1
  have equal := same asked u u' _ _ asked_wellFormed asked_handled ran ran'
  rw [update_sends asked_wellFormed ran, update_sends asked_wellFormed ran',
    List.append_cancel_left_eq] at equal
  exact absurd equal (by decide)

end Session
end Sometest.Net
