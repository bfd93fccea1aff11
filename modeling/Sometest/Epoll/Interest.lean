import Sometest.Epoll.Server

/-! The send side of one live connection of the epoll server: the flag, the lock,
the buffer and the one-shot registration under the steps of three threads. -/
namespace Sometest.Epoll
open Sometest.Net

/-- `event` is what the registration reports to a worker. -/
inductive Action where
  | pushSendPacket (packet : List Byte)
  | doPushSend
  | work (event : Interest) (recvs : List RecvResult) (sends : List SendResult)

def Armed (interest event : Interest) : Prop :=
  (event.epollIn = true ∨ event.epollOut = true) ∧
    (event.epollIn = true → interest.epollIn = true) ∧
    (event.epollOut = true → interest.epollOut = true)

instance (interest event : Interest) : Decidable (Armed interest event) :=
  inferInstanceAs (Decidable (_ ∧ _ ∧ _))

/-- A report disarms the one-shot registration. No outcome for an event that is
not armed, after a fault, and when the connection is closed. -/
def act (bound : Nat) (int : Int → Int) (c : Connection) : Action → Option Connection
  | .pushSendPacket packet =>
    match c.session.pushSendPacket int packet with
    | .ok session => some { c with session }
    | .error _ => none
  | .doPushSend => some (c.doPushSend true).1
  | .work event recvs sends =>
    if Armed c.interest event then
      match { c with interest := ⟨false, false⟩ }.kernel bound event recvs sends true with
      | .ok (c, true) => some c
      | _ => none
    else none

/-- Somebody will send the unread bytes, and whoever holds the lock will be woken. -/
structure Served (c : Connection) : Prop where
  buffer : 0 < c.session.getRemainSendDataSize →
    c.session.pushSend = true ∨ c.interest.epollOut = true
  lock : c.writeLock = 1 → c.interest.epollOut = true

namespace Connection

/-- The sends of one `Write` empty the buffer. -/
def Drains (c : Connection) (sends : List SendResult) : Prop :=
  c.session.getRemainSendDataSize = 0 ∨
    ∃ n rest, sends = .accepted n :: rest ∧ c.session.getRemainSendDataSize ≤ n + 1

theorem releaseWriteLock_lock {c : Connection} (lock : c.writeLock ≤ 1) :
    c.releaseWriteLock.writeLock = 0 := by
  simp only [releaseWriteLock, compareAndSwap]
  split
  · rfl
  · simp only
    omega

/-- The two ways in which one `send` on unread bytes ends without an error: the
loop goes on with an empty buffer, or it ends with the lock released. -/
theorem writeBody_lock {result : SendResult} {c next : Connection} {returned : Option Bool}
    (wf : c.session.sendBuffer.WellFormed) (lock : c.writeLock ≤ 1)
    (unread : c.session.getRemainSendDataSize ≠ 0)
    (body : c.writeBody result = .ok (next, returned)) :
    match returned with
    | none => next.session.getRemainSendDataSize = 0 ∧ next.writeLock = c.writeLock ∧
        ∃ n, result = .accepted n ∧ c.session.getRemainSendDataSize ≤ n + 1
    | some true => next.session.getRemainSendDataSize ≠ 0 ∧ next.writeLock = 0 ∧
        ∀ n, result = .accepted n → ¬ c.session.getRemainSendDataSize ≤ n + 1
    | some false => True := by
  have released := releaseWriteLock_lock lock
  unfold writeBody at body
  rw [if_neg unread] at body
  cases result with
  | again =>
    cases body
    refine ⟨unread, releaseWriteLock_lock (by rw [released]; exact Nat.zero_le 1), ?_⟩
    intro n same
    cases same
  | failed =>
    cases body
    trivial
  | accepted n =>
    obtain ⟨sendBuffer, removed, -, left⟩ :=
      Session.removeSendData_size wf (min (n + 1) c.session.getRemainSendDataSize)
    rw [if_pos (Nat.min_le_right _ _)] at left
    simp only [removed, ok_bind] at body
    split at body
    · rename_i part
      cases body
      refine ⟨?_, released, ?_⟩
      · show sendBuffer.getUsedSize ≠ 0
        omega
      · intro m same
        cases same
        omega
    · rename_i whole
      cases body
      refine ⟨?_, rfl, n, rfl, ?_⟩
      · show sendBuffer.getUsedSize = 0
        omega
      · omega

theorem write_empty (sends : List SendResult) {c : Connection}
    (empty : c.session.getRemainSendDataSize = 0) :
    c.write sends = .ok (c.releaseWriteLock, true) := by
  cases sends <;> simp only [write, writeBody, if_pos empty, ok_bind, Option.getD]

theorem write_lock {sends : List SendResult} {c c' : Connection}
    (wf : c.session.sendBuffer.WellFormed) (lock : c.writeLock ≤ 1)
    (written : c.write sends = .ok (c', true)) :
    c'.writeLock = 0 ∧ (c'.session.getRemainSendDataSize = 0 ↔ Drains c sends) := by
  by_cases unread : c.session.getRemainSendDataSize = 0
  · rw [write_empty sends unread] at written
    cases written
    exact ⟨releaseWriteLock_lock lock, fun _ => .inl unread, fun _ => unread⟩
  · cases sends with
    | nil =>
      obtain ⟨⟨next, returned⟩, body, same⟩ := bind_eq_ok.mp written
      have ended := writeBody_lock wf lock unread body
      simp only [writeBody, if_neg unread] at body
      cases body
      cases same
      refine ⟨ended.2.1, fun zero => absurd zero ended.1, ?_⟩
      rintro (zero | ⟨n, rest, same, -⟩)
      · exact absurd zero unread
      · cases same
    | cons result rest =>
      obtain ⟨⟨next, returned⟩, body, more⟩ := bind_eq_ok.mp written
      have ended := writeBody_lock wf lock unread body
      cases returned with
      | none =>
        obtain ⟨empty, kept, n, rfl, whole⟩ := ended
        simp only [write_empty rest empty] at more
        cases more
        refine ⟨releaseWriteLock_lock (by rw [kept]; exact lock), fun _ => ?_, fun _ => empty⟩
        exact .inr ⟨n, rest, rfl, whole⟩
      | some ok =>
        cases more
        obtain ⟨left, free, part⟩ := ended
        refine ⟨free, fun zero => absurd zero left, ?_⟩
        rintro (zero | ⟨n, rest, same, whole⟩)
        · exact absurd zero unread
        · cases same
          exact absurd whole (part n rfl)

end Connection

section Steps
variable {bound : Nat} {int : Int → Int} {c c' : Connection}

/-- The lock is taken whether or not there is anything to send. -/
theorem doPushSend_acquired (set : c.session.pushSend = true) (free : c.writeLock = 0) :
    (c.doPushSend true).1 = { c with
      session := { c.session with pushSend := false }
      writeLock := 1
      interest := ⟨true, decide (0 < c.session.getRemainSendDataSize)⟩ } := by
  rw [Connection.doPushSend_free true set free]
  simp only [Connection.modifyRegistInfo, Connection.tryAcquireWriteLock, compareAndSwap, true_and]
  split
  · rename_i unread
    have unread : 0 < c.session.getRemainSendDataSize := unread
    simp [unread]
  · rename_i empty
    have empty : ¬ 0 < c.session.getRemainSendDataSize := empty
    simp [empty]

structure Worked (c c' : Connection) (event : Interest) (sends : List SendResult) : Prop where
  armed : Armed c.interest event
  interest : c'.interest = ⟨true, false⟩
  pushSend : c'.session.pushSend = c.session.pushSend
  wellFormed : c'.session.sendBuffer.WellFormed
  silent : event.epollOut = false →
    c'.writeLock = c.writeLock ∧ c'.session.sendBuffer = c.session.sendBuffer
  wrote : event.epollOut = true →
    c'.writeLock = 0 ∧ (c'.session.getRemainSendDataSize = 0 ↔ c.Drains sends)

theorem act_work {event : Interest} {recvs : List RecvResult} {sends : List SendResult}
    (wf : c.session.sendBuffer.WellFormed) (lock : c.writeLock ≤ 1)
    (stepped : act bound int c (.work event recvs sends) = some c') :
    Worked c c' event sends := by
  simp only [act] at stepped
  split at stepped
  · rename_i armed
    split at stepped
    · rename_i next ran
      cases stepped
      obtain ⟨⟨afterRead, readOk⟩, reading, ran⟩ := bind_eq_ok.mp ran
      obtain ⟨⟨afterWrite, writeOk⟩, writing, ran⟩ := bind_eq_ok.mp ran
      have frame : Connection.WasRead { c with interest := ⟨false, false⟩ } afterRead := by
        split at reading
        · exact Connection.read_frame reading
        · cases reading
          exact .refl _
      simp only at ran
      split at ran
      · rename_i both
        cases ran
        have okay : writeOk = true := by
          rw [Bool.and_eq_true] at both
          exact both.2
        subst okay
        have wf' : afterRead.session.sendBuffer.WellFormed := frame.sendBuffer ▸ wf
        have lock' : afterRead.writeLock ≤ 1 := frame.writeLock ▸ lock
        have rearmed : (afterWrite.modifyRegistInfo true false).1 =
            { afterWrite with interest := ⟨true, false⟩ } := by
          simp [Connection.modifyRegistInfo]
        rw [rearmed]
        cases out : event.epollOut with
        | false =>
          rw [out] at writing
          cases writing
          refine ⟨armed, rfl, frame.pushSend, wf', fun _ => ⟨frame.writeLock, frame.sendBuffer⟩, ?_⟩
          intro contra
          cases out.symm.trans contra
        | true =>
          rw [out] at writing
          obtain ⟨same, ok, ran, wrote⟩ := @Connection.write_spec sends afterRead wf'
          cases ran.symm.trans writing
          obtain ⟨released, drained⟩ := Connection.write_lock wf' lock' writing
          refine ⟨armed, rfl, wrote.pushSend.trans frame.pushSend, wrote.wellFormed, ?_, fun _ => ?_⟩
          · intro contra
            cases out.symm.trans contra
          · refine ⟨released, drained.trans ?_⟩
            simp only [Connection.Drains, Session.getRemainSendDataSize, frame.sendBuffer]
      · cases ran
    · cases stepped
  · cases stepped

end Steps

/-- The steps that leave the connection served: `doPushSend` does not take the
lock for an empty buffer, and a report does not disarm the write event unless
`Write` runs, which empties the buffer or has the flag set. -/
def Safe (c : Connection) : Action → Prop
  | .pushSendPacket _ => True
  | .doPushSend => ¬ (c.session.pushSend = true ∧ c.writeLock = 0 ∧
      c.session.getRemainSendDataSize = 0)
  | .work event _ sends =>
    (c.interest.epollOut = true → event.epollOut = true) ∧
      (event.epollOut = true → c.session.pushSend = true ∨ c.Drains sends)

structure Inv (c : Connection) : Prop where
  wellFormed : c.session.sendBuffer.WellFormed
  lock : c.writeLock ≤ 1
  served : Served c
  held : c.interest.epollOut = true → c.writeLock = 1

theorem inv_init (fresh : Nat → Byte) : Inv (.init fresh) where
  wellFormed := CSyncBuffer.wellFormed_init 4096
  lock := Nat.zero_le 1
  served := ⟨fun unread => absurd unread (Nat.lt_irrefl 0), fun locked => by cases locked⟩
  held := fun armed => by cases armed

section Exact
variable {bound : Nat} {int : Int → Int} {c c' : Connection}

theorem Inv.push (inv : Inv c) {packet : List Byte}
    (stepped : act bound int c (.pushSendPacket packet) = some c') : Inv c' := by
  simp only [act] at stepped
  split at stepped
  · rename_i session pushed
    cases stepped
    obtain ⟨sendBuffer, rfl, -, wf, -, -⟩ := Session.pushSendPacket_spec inv.wellFormed pushed
    exact ⟨wf, inv.lock, ⟨fun _ => .inl rfl, inv.served.lock⟩, inv.held⟩
  · cases stepped

theorem Inv.doPushSend (inv : Inv c) (safe : Safe c .doPushSend)
    (stepped : act bound int c .doPushSend = some c') : Inv c' := by
  cases stepped
  cases set : c.session.pushSend with
  | false =>
    rw [Connection.doPushSend_unset true set]
    exact inv
  | true =>
    by_cases free : c.writeLock = 0
    · have unread : 0 < c.session.getRemainSendDataSize := by
        apply Nat.pos_of_ne_zero
        intro empty
        exact safe ⟨set, free, empty⟩
      rw [doPushSend_acquired set free]
      have armed : decide (0 < c.session.getRemainSendDataSize) = true := decide_eq_true unread
      exact ⟨inv.wellFormed, Nat.le_refl 1, ⟨fun _ => .inr armed, fun _ => armed⟩, fun _ => rfl⟩
    · have lock := inv.lock
      have locked : c.writeLock = 1 := by omega
      rw [Connection.doPushSend_held true set free]
      exact ⟨inv.wellFormed, inv.lock, ⟨fun _ => .inr (inv.served.lock locked), inv.served.lock⟩,
        inv.held⟩

theorem Inv.work (inv : Inv c) {event : Interest} {recvs : List RecvResult}
    {sends : List SendResult} (safe : Safe c (.work event recvs sends))
    (stepped : act bound int c (.work event recvs sends) = some c') : Inv c' := by
  have worked := act_work inv.wellFormed inv.lock stepped
  have disarmed : c'.interest.epollOut ≠ true := by
    rw [worked.interest]
    exact Bool.false_ne_true
  cases out : event.epollOut with
  | false =>
    obtain ⟨lock, sendBuffer⟩ := worked.silent out
    have unarmed : c.interest.epollOut ≠ true := fun armed => by
      cases out.symm.trans (safe.1 armed)
    have served : Served c' := by
      constructor
      · intro unread
        left
        simp only [Session.getRemainSendDataSize, sendBuffer] at unread
        rw [worked.pushSend]
        exact (inv.served.buffer unread).resolve_right unarmed
      · intro locked
        exact absurd (inv.served.lock (lock ▸ locked)) unarmed
    exact ⟨worked.wellFormed, lock ▸ inv.lock, served, fun armed => absurd armed disarmed⟩
  | true =>
    obtain ⟨free, drained⟩ := worked.wrote out
    have served : Served c' := by
      constructor
      · intro unread
        left
        rw [worked.pushSend]
        apply (safe.2 out).resolve_right
        intro drains
        exact Nat.ne_of_gt unread (drained.mpr drains)
      · intro locked
        omega
    exact ⟨worked.wellFormed, by omega, served, fun armed => absurd armed disarmed⟩

theorem safe_of_served (inv : Inv c) {a : Action} (stepped : act bound int c a = some c')
    (served : Served c') : Safe c a := by
  cases a with
  | pushSendPacket packet => trivial
  | doPushSend =>
    cases stepped
    rintro ⟨set, free, empty⟩
    rw [doPushSend_acquired set free] at served
    have armed := served.lock rfl
    simp only [decide_eq_true_eq] at armed
    omega
  | work event recvs sends =>
    have worked := act_work inv.wellFormed inv.lock stepped
    have disarmed : c'.interest.epollOut ≠ true := by
      rw [worked.interest]
      exact Bool.false_ne_true
    constructor
    · intro armed
      by_contra silent
      have lock := (worked.silent (Bool.eq_false_iff.mpr silent)).1
      exact disarmed (served.lock (lock.trans (inv.held armed)))
    · intro out
      by_contra neither
      obtain ⟨unset, left⟩ := not_or.mp neither
      have drained := (worked.wrote out).2
      have unread : 0 < c'.session.getRemainSendDataSize :=
        Nat.pos_of_ne_zero fun empty => left (drained.mp empty)
      rcases served.buffer unread with set | armed
      · exact unset (worked.pushSend ▸ set)
      · exact disarmed armed

/-- A run leaves no response stranded and no lock held unarmed exactly when all
its steps are safe. -/
theorem served_iff_safe (bound : Nat) (int : Int → Int) (fresh : Nat → Byte)
    (actions : List Action) :
    Runs.Throughout (act bound int) Served (.init fresh) actions ↔
      Runs.Guarded (act bound int) Safe (.init fresh) actions := by
  apply Runs.throughout_iff_guarded (I := Inv)
  · exact fun c inv => inv.served
  · intro c a c' inv safe stepped
    cases a with
    | pushSendPacket packet => exact inv.push stepped
    | doPushSend => exact inv.doPushSend safe stepped
    | work event recvs sends => exact inv.work safe stepped
  · exact fun c a c' inv stepped served => safe_of_served inv stepped served
  · exact inv_init fresh

/-- A send of 10 of 24 bytes strands the rest, and a read event that comes between
the push and the write event leaves the lock held with nobody to wake. -/
theorem response_stranded :
    let response := packetHeader .SMSG_A packetASize ++ List.replicate 16 0
    (∃ c, Runs.run (act 4097 id) (.init fun _ => 0) [.pushSendPacket response, .doPushSend,
      .work ⟨false, true⟩ [] [.accepted 9]] = some c ∧ ¬ Served c) ∧
    (∃ c, Runs.run (act 4097 id) (.init fun _ => 0) [.pushSendPacket response, .doPushSend,
      .work ⟨true, false⟩ [.again] []] = some c ∧ ¬ Served c) := by
  intro response
  constructor
  · have ran : (Runs.run (act 4097 id) (.init fun _ => 0) [.pushSendPacket response, .doPushSend,
        .work ⟨false, true⟩ [] [.accepted 9]]).map (fun c =>
          (c.session.getRemainSendDataSize, c.session.pushSend, c.interest.epollOut)) =
        some (14, false, false) := by decide +kernel
    obtain ⟨c, reached, left⟩ := Option.map_eq_some_iff.mp ran
    simp only [Prod.mk.injEq] at left
    refine ⟨c, reached, fun served => ?_⟩
    simpa only [left, Bool.false_eq_true, or_self, Nat.succ_pos, true_implies] using served.buffer
  · have ran : (Runs.run (act 4097 id) (.init fun _ => 0) [.pushSendPacket response, .doPushSend,
        .work ⟨true, false⟩ [.again] []]).map (fun c => (c.writeLock, c.interest.epollOut)) =
        some (1, false) := by decide +kernel
    obtain ⟨c, reached, left⟩ := Option.map_eq_some_iff.mp ran
    simp only [Prod.mk.injEq] at left
    refine ⟨c, reached, fun served => ?_⟩
    simpa only [left, Bool.false_eq_true, true_implies] using served.lock

end Exact
end Sometest.Epoll
