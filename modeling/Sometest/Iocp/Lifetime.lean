import Sometest.Lib.Run
import Sometest.Iocp.Connection

/-! The lifetime of one connection of the IOCP port: completions in flight, `close`
from either side, and the deletion of the session by `checkSession`. -/
namespace Sometest.Iocp
open Sometest.Net

/-- `late` counts the completions that were dispatched to the deleted connection. -/
structure Port where
  conn : Connection
  deleted : Bool
  late : Nat

/-- After `addConnection`, which posts the first `WSARecv`. -/
def Port.start (fresh : Nat → Byte) : Port :=
  ⟨{ Connection.init fresh with recvs := [(Connection.init fresh).readWindow] }, false, 0⟩

/-- `accepts` says whether the overlapped call that the step makes is accepted. -/
inductive PortEvent where
  | pushSendPacket (packet : List Byte)
  | doPushSend (accepts : Bool)
  | readCompleted (result : Option (List Byte)) (accepts : Bool)
  | writeCompleted (result : Option Nat) (accepts : Bool)
  | checkSession

namespace Port

/-- A call on a closed socket fails. -/
def accepted (s : Port) (accepts : Bool) : Bool := accepts && decide (s.conn.closes = 0)

/-- A dispatch to the deleted connection is counted and does nothing else. -/
def dispatch (s : Port) (dequeued : Connection) (handle : Connection → Except Fault Connection) :
    Option Port :=
  if s.deleted then some { s with conn := dequeued, late := s.late + 1 }
  else
    match handle dequeued with
    | .ok conn => some { s with conn }
    | .error _ => none

/-- `update` runs on an active session, and `close` removes the connection from the
map of `PushSendThread`. No outcome for an event that cannot occur, and after a fault. -/
def step (bound : Nat) (int : Int → Int) (s : Port) : PortEvent → Option Port
  | .pushSendPacket packet =>
    if s.conn.session.active = true ∧ s.deleted = false then
      match s.conn.session.pushSendPacket int packet with
      | .ok session => some { s with conn := { s.conn with session } }
      | .error _ => none
    else none
  | .doPushSend accepts =>
    if s.conn.closes = 0 then
      match s.conn.doPushSend accepts with
      | .ok (conn, _) => some { s with conn }
      | .error _ => none
    else none
  | .readCompleted result accepts =>
    match s.conn.recvs with
    | window :: rest =>
      if (result.getD []).length ≤ window then
        s.dispatch { s.conn with recvs := rest }
          (Connection.readCompleted bound (s.accepted accepts) result)
      else none
    | [] => none
  | .writeCompleted result accepts =>
    match s.conn.sends with
    | posted :: rest =>
      if result.getD 0 ≤ posted.bytes.length then
        s.dispatch { s.conn with sends := rest }
          (Connection.writeCompleted (s.accepted accepts) result)
      else none
    | [] => none
  | .checkSession =>
    if s.conn.session.active = false ∧ s.deleted = false then some { s with deleted := true }
    else some s

end Port

def Kept (c c' : Connection) : Prop :=
  c'.closes = c.closes ∧ c'.session.active = c.session.active

def Closed (c c' : Connection) : Prop :=
  c'.closes = c.closes + 1 ∧ c'.session.active = false

/-- A successful completion after which nothing is left to send. -/
def Covers (c : Connection) (result : Option Nat) : Prop :=
  ∃ n, result = some n ∧
    (c.session.getRemainSendDataSize = 0 ∨ c.session.getRemainSendDataSize = n)

section Outcomes
variable {c c' : Connection} {accepts : Bool}

theorem Closed.not_kept (closed : Closed c c') : ¬ Kept c c' := by
  rintro ⟨kept, -⟩
  have more := closed.1
  omega

theorem onRead_frame {bound : Nat} (ran : c.onRead bound = .ok c') :
    Kept c c' ∧ c'.session.sendBuffer = c.session.sendBuffer := by
  rw [Connection.onRead] at ran
  split at ran
  · obtain ⟨⟨readBuffer, packetList⟩, -, same⟩ := bind_eq_ok.mp ran
    cases same
    exact ⟨⟨rfl, rfl⟩, rfl⟩
  · cases ran
    exact ⟨⟨rfl, rfl⟩, rfl⟩

theorem storeReceived_frame {bound : Nat} {bytes : List Byte}
    (ran : c.storeReceived bound bytes = .ok c') :
    Kept c c' ∧ c'.session.sendBuffer = c.session.sendBuffer := by
  rw [Connection.storeReceived] at ran
  split at ran
  · obtain ⟨readBuffer, -, extracted⟩ := bind_eq_ok.mp ran
    obtain ⟨kept, sendBuffer⟩ := onRead_frame (c := { c with readBuffer }) extracted
    exact ⟨⟨kept.1, kept.2⟩, sendBuffer⟩
  · cases ran
    exact ⟨⟨rfl, rfl⟩, rfl⟩

/-- Every completion of a read on a closed socket closes it again. -/
theorem readCompleted_outcome {bound : Nat} {result : Option (List Byte)}
    (ran : c.readCompleted bound accepts result = .ok c') :
    (Kept c c' ∨ Closed c c') ∧ (accepts = false → Closed c c') ∧
      c'.session.sendBuffer = c.session.sendBuffer := by
  cases result with
  | none =>
    cases ran
    exact ⟨.inr ⟨rfl, rfl⟩, fun _ => ⟨rfl, rfl⟩, rfl⟩
  | some bytes =>
    simp only [Connection.readCompleted] at ran
    split at ran
    · obtain ⟨⟨next, ok⟩, reads, same⟩ := bind_eq_ok.mp ran
      cases same
      obtain ⟨stored, stores, ran⟩ := bind_eq_ok.mp reads
      obtain ⟨kept, sendBuffer⟩ := storeReceived_frame stores
      split at ran
      · rename_i taken
        cases ran
        refine ⟨.inl kept, fun refused => ?_, sendBuffer⟩
        exact absurd (taken.symm.trans refused) (by decide)
      · cases ran
        have closed : Closed c stored.close := ⟨congrArg (· + 1) kept.1, rfl⟩
        exact ⟨.inr closed, fun _ => closed, sendBuffer⟩
    · cases ran
      exact ⟨.inr ⟨rfl, rfl⟩, fun _ => ⟨rfl, rfl⟩, rfl⟩

theorem startNextWrite_outcome_zero {ok : Bool} (ran : c.startNextWrite accepts 0 = .ok (c', ok)) :
    c'.session.sendBuffer = c.session.sendBuffer ∧ (Kept c c' ∨ Closed c c') ∧
      (accepts = false → (Kept c c' ↔ c.session.getRemainSendDataSize = 0)) := by
  simp only [Connection.startNextWrite, ne_eq, not_true_eq_false, if_false, ok_bind] at ran
  split at ran
  · rename_i empty
    cases ran
    refine ⟨rfl, .inl ⟨rfl, rfl⟩, fun _ => ?_⟩
    constructor
    · intro _
      exact empty.symm
    · intro _
      exact ⟨rfl, rfl⟩
  · rename_i unread
    split at ran
    · rename_i taken
      cases ran
      refine ⟨rfl, .inl ⟨rfl, rfl⟩, fun refused => ?_⟩
      exact absurd (taken.symm.trans refused) (by decide)
    · cases ran
      have closed : Closed c c.close := ⟨rfl, rfl⟩
      refine ⟨rfl, .inr closed, fun _ => ?_⟩
      constructor
      · intro kept
        exact absurd kept closed.not_kept
      · intro empty
        exact absurd empty.symm unread

theorem startNextWrite_outcome {n : Nat} {ok : Bool} (wf : c.session.sendBuffer.WellFormed)
    (ran : c.startNextWrite accepts n = .ok (c', ok)) :
    c'.session.sendBuffer.WellFormed ∧ (Kept c c' ∨ Closed c c') ∧
      (accepts = false → (Kept c c' ↔
        c.session.getRemainSendDataSize = 0 ∨ c.session.getRemainSendDataSize = n)) := by
  by_cases zero : 0 = n
  · subst zero
    obtain ⟨sendBuffer, outcome, refused⟩ := startNextWrite_outcome_zero ran
    exact ⟨sendBuffer ▸ wf, outcome, by simpa only [or_self] using refused⟩
  · obtain ⟨sendBuffer, removed, wf', left⟩ := Session.removeSendData_size wf n
    rw [Connection.startNextWrite_removed zero removed] at ran
    obtain ⟨same, outcome, refused⟩ := startNextWrite_outcome_zero ran
    refine ⟨same ▸ wf', outcome, fun closed => (refused closed).trans ?_⟩
    show sendBuffer.getUsedSize = 0 ↔ _
    rw [left]
    split <;> omega

/-- A completion of a write on a closed socket closes it again, unless it covers all
that is left to send. -/
theorem writeCompleted_outcome {result : Option Nat} (wf : c.session.sendBuffer.WellFormed)
    (ran : c.writeCompleted accepts result = .ok c') :
    c'.session.sendBuffer.WellFormed ∧ (Kept c c' ∨ Closed c c') ∧
      (accepts = false → (Kept c c' ↔ Covers c result)) := by
  cases result with
  | none =>
    cases ran
    have closed : Closed c c.close := ⟨rfl, rfl⟩
    refine ⟨wf, .inr closed, fun _ => ⟨fun kept => absurd kept closed.not_kept, ?_⟩⟩
    rintro ⟨n, same, -⟩
    cases same
  | some n =>
    obtain ⟨⟨next, ok⟩, writes, same⟩ := bind_eq_ok.mp ran
    cases same
    obtain ⟨wf', outcome, refused⟩ := startNextWrite_outcome wf writes
    refine ⟨wf', outcome, fun closed => (refused closed).trans ?_⟩
    simp only [Covers, Option.some.injEq, exists_eq_left']

theorem doPushSend_outcome {ok : Bool} (wf : c.session.sendBuffer.WellFormed)
    (ran : c.doPushSend accepts = .ok (c', ok)) :
    c'.session.sendBuffer.WellFormed ∧ (Kept c c' ∨ Closed c c') := by
  rw [Connection.doPushSend] at ran
  split at ran
  · split at ran
    · rename_i next acquired
      obtain ⟨rfl, -⟩ := Prod.mk.inj acquired
      obtain ⟨sendBuffer, outcome, -⟩ := startNextWrite_outcome_zero ran
      exact ⟨sendBuffer ▸ wf, outcome⟩
    · rename_i next acquired
      obtain ⟨rfl, -⟩ := Prod.mk.inj acquired
      cases ran
      exact ⟨wf, .inl ⟨rfl, rfl⟩⟩
  · cases ran
    exact ⟨wf, .inl ⟨rfl, rfl⟩⟩

end Outcomes

structure Safe (s : Port) : Prop where
  late : s.late = 0
  once : s.conn.closes ≤ 1

/-- No operation is under way. -/
def Settled (s : Port) : Prop := s.conn.recvs = [] ∧ s.conn.sends = []

/-- After `close` the only completion that comes is that of a write that covers all
that is left to send, and `checkSession` finds an inactive session only when no
operation is under way. -/
def Orderly (s : Port) : PortEvent → Prop
  | .readCompleted _ _ => s.conn.closes = 0
  | .writeCompleted result _ => s.conn.closes = 0 ∨ Covers s.conn result
  | .checkSession => s.conn.session.active = false → s.deleted = false → Settled s
  | _ => True

instance (c : Connection) : (result : Option Nat) → Decidable (Covers c result)
  | none => .isFalse (by simp [Covers])
  | some n => decidable_of_iff
      (c.session.getRemainSendDataSize = 0 ∨ c.session.getRemainSendDataSize = n) (by simp [Covers])

instance (s : Port) : Decidable (Settled s) := inferInstanceAs (Decidable (_ ∧ _))

instance (s : Port) : (e : PortEvent) → Decidable (Orderly s e)
  | .pushSendPacket _ => .isTrue trivial
  | .doPushSend _ => .isTrue trivial
  | .readCompleted _ _ => inferInstanceAs (Decidable (_ = _))
  | .writeCompleted _ _ => inferInstanceAs (Decidable (_ ∨ _))
  | .checkSession => inferInstanceAs (Decidable (_ → _))

structure Alive (s : Port) : Prop where
  wellFormed : s.conn.session.sendBuffer.WellFormed
  safe : Safe s
  active : s.conn.session.active = true ↔ s.conn.closes = 0
  gone : s.deleted = true → s.conn.closes = 1 ∧ Settled s

theorem alive_start (fresh : Nat → Byte) : Alive (.start fresh) where
  wellFormed := CSyncBuffer.wellFormed_init 4096
  safe := ⟨rfl, Nat.zero_le 1⟩
  active := ⟨fun _ => rfl, fun _ => rfl⟩
  gone := fun deleted => by cases deleted

section Steps
variable {bound : Nat} {int : Int → Int} {s s' : Port}

/-- A step of the connection that does not close it twice keeps it alive. -/
theorem Alive.conn (alive : Alive s) (present : s.deleted = false) {conn : Connection}
    (wf : conn.session.sendBuffer.WellFormed)
    (outcome : Kept s.conn conn ∨ (s.conn.closes = 0 ∧ Closed s.conn conn)) :
    Alive { s with conn } := by
  have once := alive.safe.once
  rcases outcome with ⟨closes, active⟩ | ⟨opened, closes, active⟩
  · refine ⟨wf, ⟨alive.safe.late, ?_⟩, ?_, ?_⟩
    · simp only
      omega
    · simp only [closes, active, alive.active]
    · intro deleted
      cases present.symm.trans deleted
  · refine ⟨wf, ⟨alive.safe.late, ?_⟩, ?_, ?_⟩
    · simp only
      omega
    · simp only [closes, active, Bool.false_eq_true, Nat.succ_ne_zero]
    · intro deleted
      cases present.symm.trans deleted

theorem Alive.push (alive : Alive s) {packet : List Byte}
    (stepped : s.step bound int (.pushSendPacket packet) = some s') : Alive s' := by
  simp only [Port.step] at stepped
  split at stepped
  · rename_i enabled
    split at stepped
    · rename_i session pushed
      cases stepped
      obtain ⟨sendBuffer, rfl, -, wf, -, -⟩ := Session.pushSendPacket_spec alive.wellFormed pushed
      exact alive.conn enabled.2 wf (.inl ⟨rfl, rfl⟩)
    · cases stepped
  · cases stepped

theorem Alive.doPushSend (alive : Alive s) {accepts : Bool}
    (stepped : s.step bound int (.doPushSend accepts) = some s') : Alive s' := by
  simp only [Port.step] at stepped
  split at stepped
  · rename_i opened
    have present : s.deleted = false := by
      apply Bool.eq_false_iff.mpr
      intro deleted
      have closed := (alive.gone deleted).1
      omega
    split at stepped
    · rename_i conn ok ran
      cases stepped
      obtain ⟨wf, outcome⟩ := doPushSend_outcome alive.wellFormed ran
      exact alive.conn present wf (outcome.imp_right fun closed => ⟨opened, closed⟩)
    · cases stepped
  · cases stepped

theorem Alive.present_of_recv (alive : Alive s) (posted : s.conn.recvs = window :: rest) :
    s.deleted = false := by
  apply Bool.eq_false_iff.mpr
  intro deleted
  cases posted.symm.trans (alive.gone deleted).2.1

theorem Alive.present_of_send (alive : Alive s) (posted : s.conn.sends = op :: rest) :
    s.deleted = false := by
  apply Bool.eq_false_iff.mpr
  intro deleted
  cases posted.symm.trans (alive.gone deleted).2.2

theorem accepted_closed (closed : s.conn.closes ≠ 0) (accepts : Bool) : s.accepted accepts = false := by
  simp only [Port.accepted, closed, decide_false, Bool.and_false]

/-- A dispatch to a connection that is not deleted handles the completion. -/
theorem dispatch_present {dequeued : Connection} {handle : Connection → Except Fault Connection}
    (present : s.deleted = false) (stepped : s.dispatch dequeued handle = some s') :
    ∃ conn, handle dequeued = .ok conn ∧ s' = { s with conn } := by
  rw [Port.dispatch, if_neg (Bool.eq_false_iff.mp present)] at stepped
  split at stepped
  · rename_i conn ran
    cases stepped
    exact ⟨conn, ran, rfl⟩
  · cases stepped

/-- A dispatch to a deleted connection is counted. -/
theorem dispatch_deleted {dequeued : Connection} {handle : Connection → Except Fault Connection}
    (deleted : s.deleted = true) (stepped : s.dispatch dequeued handle = some s') :
    s.late < s'.late := by
  rw [Port.dispatch, if_pos deleted] at stepped
  cases stepped
  exact Nat.lt_succ_self _

/-- A read completion is orderly exactly when its outcome is safe. -/
theorem Alive.readCompleted (alive : Alive s) {result : Option (List Byte)} {accepts : Bool}
    (stepped : s.step bound int (.readCompleted result accepts) = some s') :
    (s.conn.closes = 0 → Alive s') ∧ (Safe s' → s.conn.closes = 0) := by
  simp only [Port.step] at stepped
  split at stepped
  · rename_i window rest posted
    have present := alive.present_of_recv posted
    split at stepped
    · obtain ⟨conn, ran, rfl⟩ := dispatch_present present stepped
      obtain ⟨outcome, refused, sendBuffer⟩ := readCompleted_outcome ran
      have wf : conn.session.sendBuffer.WellFormed := sendBuffer ▸ alive.wellFormed
      constructor
      · intro opened
        exact alive.conn present wf (outcome.imp_right fun closed => ⟨opened, closed⟩)
      · intro safe
        by_contra closed
        have twice := (refused (accepted_closed closed accepts)).1
        have once := safe.once
        simp only at twice once
        omega
    · cases stepped
  · cases stepped

theorem Alive.writeCompleted (alive : Alive s) {result : Option Nat} {accepts : Bool}
    (stepped : s.step bound int (.writeCompleted result accepts) = some s') :
    (s.conn.closes = 0 ∨ Covers s.conn result → Alive s') ∧
      (Safe s' → s.conn.closes = 0 ∨ Covers s.conn result) := by
  simp only [Port.step] at stepped
  split at stepped
  · rename_i posted rest under
    have present := alive.present_of_send under
    split at stepped
    · obtain ⟨conn, ran, rfl⟩ := dispatch_present present stepped
      obtain ⟨wf, outcome, refused⟩ :=
        writeCompleted_outcome (c := { s.conn with sends := rest }) alive.wellFormed ran
      constructor
      · intro orderly
        apply alive.conn present wf
        by_cases opened : s.conn.closes = 0
        · exact outcome.imp_right fun closed => ⟨opened, closed⟩
        · exact .inl ((refused (accepted_closed opened accepts)).mpr (orderly.resolve_left opened))
      · intro safe
        by_contra neither
        obtain ⟨closed, uncovered⟩ := not_or.mp neither
        have again := outcome.resolve_left fun kept =>
          uncovered ((refused (accepted_closed closed accepts)).mp kept)
        have twice := again.1
        have once := safe.once
        simp only at twice once
        omega
    · cases stepped
  · cases stepped

theorem Alive.checkSession (alive : Alive s)
    (orderly : Orderly s .checkSession) (stepped : s.step bound int .checkSession = some s') :
    Alive s' := by
  simp only [Port.step] at stepped
  split at stepped
  · rename_i enabled
    cases stepped
    refine ⟨alive.wellFormed, ⟨alive.safe.late, alive.safe.once⟩, alive.active, fun _ => ⟨?_, ?_⟩⟩
    · have once := alive.safe.once
      have closed : s.conn.closes ≠ 0 := fun opened => by
        cases enabled.1.symm.trans (alive.active.mpr opened)
      simp only
      omega
    · exact orderly enabled.1 enabled.2
  · cases stepped
    exact alive

theorem Alive.step (alive : Alive s) {e : PortEvent} (orderly : Orderly s e)
    (stepped : s.step bound int e = some s') : Alive s' := by
  cases e with
  | pushSendPacket packet => exact alive.push stepped
  | doPushSend accepts => exact alive.doPushSend stepped
  | readCompleted result accepts => exact (alive.readCompleted stepped).1 orderly
  | writeCompleted result accepts => exact (alive.writeCompleted stepped).1 orderly
  | checkSession => exact alive.checkSession orderly stepped

/-- Deleted with operations under way. -/
def Doomed (s : Port) : Prop := s.deleted = true ∧ s.conn.closes ≠ 0 ∧ ¬ Settled s

/-- The operations stay under way until a completion is dispatched late. -/
theorem Doomed.step (doomed : Doomed s) {e : PortEvent} (stepped : s.step bound int e = some s') :
    s.late < s'.late ∨ Doomed s' := by
  obtain ⟨deleted, closed, unsettled⟩ := doomed
  cases e with
  | pushSendPacket packet =>
    simp only [Port.step, deleted, Bool.true_eq_false, and_false, if_false] at stepped
    cases stepped
  | doPushSend accepts =>
    simp only [Port.step, if_neg closed] at stepped
    cases stepped
  | readCompleted result accepts =>
    simp only [Port.step] at stepped
    split at stepped
    · split at stepped
      · exact .inl (dispatch_deleted deleted stepped)
      · cases stepped
    · cases stepped
  | writeCompleted result accepts =>
    simp only [Port.step] at stepped
    split at stepped
    · split at stepped
      · exact .inl (dispatch_deleted deleted stepped)
      · cases stepped
    · cases stepped
  | checkSession =>
    simp only [Port.step, deleted, Bool.true_eq_false, and_false, if_false] at stepped
    cases stepped
    exact .inr ⟨deleted, closed, unsettled⟩

theorem doomed_run {events : List PortEvent} (doomed : Doomed s)
    (safe : Runs.Throughout (Port.step bound int) Safe s events)
    (reached : Runs.run (Port.step bound int) s events = some s') : ¬ Settled s' := by
  induction events generalizing s with
  | nil =>
    cases reached
    exact doomed.2.2
  | cons e rest ih =>
    obtain ⟨t, stepped, reached⟩ := Option.bind_eq_some_iff.mp reached
    rcases doomed.step stepped with late | doomed'
    · have counted := (safe.tail stepped).here.late
      omega
    · exact ih doomed' (safe.tail stepped) reached

/-- In a safe run that ends with no operation under way, every step was orderly. -/
theorem orderly_of_safe {events : List PortEvent} (alive : Alive s)
    (safe : Runs.Throughout (Port.step bound int) Safe s events)
    (reached : Runs.run (Port.step bound int) s events = some s') (settled : Settled s') :
    Runs.Guarded (Port.step bound int) Orderly s events := by
  induction events generalizing s with
  | nil => exact .nil
  | cons e rest ih =>
    obtain ⟨t, stepped, reached⟩ := Option.bind_eq_some_iff.mp reached
    have after := safe.tail stepped
    have orderly : Orderly s e := by
      cases e with
      | pushSendPacket packet => trivial
      | doPushSend accepts => trivial
      | readCompleted result accepts => exact (alive.readCompleted stepped).2 after.here
      | writeCompleted result accepts => exact (alive.writeCompleted stepped).2 after.here
      | checkSession =>
        intro inactive present
        by_contra unsettled
        have closed : s.conn.closes ≠ 0 := fun opened => by
          cases inactive.symm.trans (alive.active.mpr opened)
        simp only [Port.step, if_pos (And.intro inactive present)] at stepped
        cases stepped
        exact doomed_run (s := { s with deleted := true }) ⟨rfl, closed, unsettled⟩ after reached
          settled
    refine .cons (fun _ _ => orderly) fun u same => ?_
    cases stepped.symm.trans same
    exact ih (alive.step orderly stepped) after reached

/-- No completion is dispatched to a deleted connection, and its socket is closed at
most once, in every orderly run; and in no other run that ends with all its
completions delivered. -/
theorem lifetime_safe_iff (bound : Nat) (int : Int → Int) (fresh : Nat → Byte)
    (events : List PortEvent) :
    (Runs.Guarded (Port.step bound int) Orderly (.start fresh) events →
      Runs.Throughout (Port.step bound int) Safe (.start fresh) events) ∧
    (∀ s, Runs.run (Port.step bound int) (.start fresh) events = some s → Settled s →
      Runs.Throughout (Port.step bound int) Safe (.start fresh) events →
      Runs.Guarded (Port.step bound int) Orderly (.start fresh) events) := by
  constructor
  · intro guarded pre t inside reached
    have always := Runs.guarded_invariant (I := Alive)
      (fun s e s' alive orderly stepped => alive.step orderly stepped) (alive_start fresh) guarded
    exact (always pre t inside reached).safe
  · exact fun s reached settled safe => orderly_of_safe (alive_start fresh) safe reached settled

/-- The peer disconnects while a response is under way, whose completion comes before `checkSession`
and covers all that was to be sent. -/
theorem lifetime_safe_disconnect :
    let packet := packetHeader .SMSG_A packetASize ++ List.replicate 16 0
    let events : List PortEvent := [.pushSendPacket packet, .doPushSend true,
      .readCompleted (some []) true, .writeCompleted (some 24) true, .checkSession]
    Runs.Throughout (Port.step 4097 id) Safe (.start fun _ => 0) events ∧
      ∃ s, Runs.run (Port.step 4097 id) (.start fun _ => 0) events = some s ∧ s.deleted = true := by
  intro packet events
  constructor
  · exact (lifetime_safe_iff 4097 id (fun _ => 0) events).1 (.of_checked (by decide +kernel))
  · exact Option.map_eq_some_iff.mp
      (show (Runs.run _ _ _).map Port.deleted = some true by decide +kernel)

/-- The peer disconnects while a response is under way: its completion finds the
connection deleted, or the socket is closed a second time. -/
theorem lifetime_unsafe :
    let packet := packetHeader .SMSG_A packetASize ++ List.replicate 16 0
    (∃ s, Runs.run (Port.step 4097 id) (.start fun _ => 0) [.pushSendPacket packet, .doPushSend true,
      .readCompleted (some []) true, .checkSession, .writeCompleted (some 24) true] = some s ∧
      s.late = 1) ∧
    (∃ s, Runs.run (Port.step 4097 id) (.start fun _ => 0) [.pushSendPacket packet, .doPushSend true,
      .readCompleted (some []) true, .writeCompleted none true] = some s ∧ s.conn.closes = 2) := by
  intro packet
  constructor
  · exact Option.map_eq_some_iff.mp (show (Runs.run _ _ _).map Port.late = some 1 by decide +kernel)
  · exact Option.map_eq_some_iff.mp
      (show (Runs.run _ _ _).map (fun s : Port => s.conn.closes) = some 2 by decide +kernel)

end Steps
end Sometest.Iocp
