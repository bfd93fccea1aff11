import Sometest.Epoll.Connection
import Sometest.Lib.Run

/-! `Write` of the epoll server while the session thread pushes packets. `Write` holds no mutex of the
session or of the send buffer: each call that it makes is a step of its own. -/
namespace Sometest.Epoll
open Sometest.Net

/-- The next call of `Write`, with `size`, `buf` (its allocation and its offset) and `len` as far as
they have values. -/
inductive WriteStage where
  | outside
  | getRemainSendDataSize
  | getSendData (size : Nat)
  | send (size alloc off : Nat)
  | remove (size len : Nat)
  | restoration (size len : Nat)
  deriving DecidableEq

/-- `sent` is what the socket has accepted, `pushed` the packets given to `pushSendPacket`. -/
structure Sender where
  session : Session
  stage : WriteStage
  sent : List Byte
  pushed : List (List Byte)

def Sender.start : Sender := ⟨.init, .outside, [], []⟩

/-- `write` is the next step of the worker, which begins with a call of `Write`. -/
inductive SenderEvent where
  | pushSendPacket (packet : List Byte)
  | write (result : SendResult)

def Sender.write (s : Sender) (result : SendResult) : Option Sender :=
  match s.stage with
  | .outside => some { s with stage := .getRemainSendDataSize }
  | .getRemainSendDataSize =>
    let size := s.session.getRemainSendDataSize
    some { s with stage := if size = 0 then .outside else .getSendData size }
  | .getSendData size =>
    some { s with stage := .send size s.session.sendBuffer.alloc s.session.sendBuffer.rptr }
  | .send size alloc off =>
    match result with
    | .again => some { s with stage := .outside }
    | .failed => some { s with stage := .outside }
    | .accepted n =>
      let len := min (n + 1) size
      if alloc = s.session.sendBuffer.alloc then
        (s.session.sendBuffer.buffer.load? off len).map fun bytes =>
          { s with stage := .remove size len, sent := s.sent ++ bytes }
      else none
  | .remove size len =>
    let session := { s.session with sendBuffer := (s.session.sendBuffer.remove len).1 }
    some { s with session, stage := .restoration size len }
  | .restoration size len =>
    match s.session.sendBuffer.restoration with
    | .ok sendBuffer => some { s with
        session := { s.session with sendBuffer }
        stage := if len < size then .outside else .getRemainSendDataSize }
    | .error _ => none

/-- No outcome after a fault, such as a `send` from an allocation that has been freed. -/
def senderStep (int : Int → Int) (s : Sender) : SenderEvent → Option Sender
  | .pushSendPacket packet =>
    match s.session.pushSendPacket int packet with
    | .ok session => some { s with session, pushed := s.pushed ++ [packet] }
    | .error _ => none
  | .write result => s.write result

def Sender.unsent (s : Sender) : List Byte :=
  match s.stage with
  | .remove _ len => s.session.sendBuffer.content.drop len
  | _ => s.session.sendBuffer.content

/-- The region that is about to be sent holds the first unsent bytes. -/
def Intact (s : Sender) : Prop :=
  ∀ size alloc off, s.stage = .send size alloc off → alloc = s.session.sendBuffer.alloc ∧
    s.session.sendBuffer.buffer.load? off size = some (s.session.sendBuffer.content.take size)

/-- Between `getSendData` and `send`, only packets are pushed that fit behind the unread bytes. -/
def FitsBehind (s : Sender) : SenderEvent → Prop
  | .pushSendPacket packet => ∀ size alloc off, s.stage = .send size alloc off →
      packet.length ≤ s.session.sendBuffer.getFreeSize
  | .write _ => True

def WriteStage.Agrees (b : CSyncBuffer) : WriteStage → Prop
  | .outside => True
  | .getRemainSendDataSize => True
  | .getSendData size => size ≤ b.getUsedSize
  | .send size alloc off => size ≤ b.getUsedSize ∧ alloc = b.alloc ∧ off = b.rptr
  | .remove _ len => len ≤ b.getUsedSize
  | .restoration _ _ => True

structure Sending (s : Sender) : Prop where
  wellFormed : s.session.sendBuffer.WellFormed
  agrees : s.stage.Agrees s.session.sendBuffer
  bytes : s.sent ++ s.unsent = s.pushed.flatten

section Steps
variable {s t : Sender} {int : Int → Int}

theorem sending_start : Sending .start where
  wellFormed := CSyncBuffer.wellFormed_init 4096
  agrees := trivial
  bytes := rfl

theorem Sending.intact (sending : Sending s) : Intact s := by
  intro size alloc off stands
  have agrees := sending.agrees
  have order := sending.wellFormed.order
  have inside := sending.wellFormed.inside
  rw [stands] at agrees
  obtain ⟨fits, same, rfl⟩ := agrees
  simp only [CSyncBuffer.getUsedSize] at fits
  refine ⟨same, (Memory.Block.load?_eq_some _).mpr ⟨by omega, ?_⟩⟩
  rw [CSyncBuffer.content, Memory.Block.view_take, CSyncBuffer.getUsedSize, Nat.min_eq_left fits]

theorem Sending.write (sending : Sending s) (result : SendResult) :
    ∃ t, s.write result = some t ∧ Sending t := by
  obtain ⟨wf, agrees, bytes⟩ := id sending
  rw [Sender.write]
  cases stands : s.stage with
  | outside =>
    rw [Sender.unsent, stands] at bytes
    exact ⟨_, rfl, wf, trivial, bytes⟩
  | getRemainSendDataSize =>
    rw [Sender.unsent, stands] at bytes
    refine ⟨_, rfl, ?_⟩
    split
    · exact ⟨wf, trivial, bytes⟩
    · exact ⟨wf, Nat.le_refl _, bytes⟩
  | getSendData size =>
    rw [Sender.unsent, stands] at bytes
    rw [stands] at agrees
    exact ⟨_, rfl, wf, ⟨agrees, rfl, rfl⟩, bytes⟩
  | send size alloc off =>
    obtain ⟨same, loaded⟩ := sending.intact size alloc off stands
    rw [Sender.unsent, stands] at bytes
    rw [stands] at agrees
    cases result with
    | again => exact ⟨_, rfl, wf, trivial, bytes⟩
    | failed => exact ⟨_, rfl, wf, trivial, bytes⟩
    | accepted n =>
      obtain ⟨inside, content⟩ := (Memory.Block.load?_eq_some _).mp loaded
      have fits : min (n + 1) size ≤ size := Nat.min_le_right ..
      have sent : s.session.sendBuffer.buffer.load? off (min (n + 1) size) =
          some (s.session.sendBuffer.content.take (min (n + 1) size)) := by
        refine (Memory.Block.load?_eq_some _).mpr ⟨by omega, ?_⟩
        rw [← Nat.min_eq_left fits, ← List.take_take, content, Memory.Block.view_take]
      simp only [same, if_true, sent, Option.map_some]
      refine ⟨_, rfl, wf, fits.trans agrees.1, ?_⟩
      simp only [Sender.unsent, List.append_assoc, List.take_append_drop]
      exact bytes
  | remove size len =>
    rw [Sender.unsent, stands] at bytes
    rw [stands] at agrees
    obtain ⟨removed, wf', rest⟩ := CSyncBuffer.remove_content wf agrees
    refine ⟨_, rfl, ?_, trivial, ?_⟩
    · dsimp only
      rw [removed]
      exact wf'
    · simp only [Sender.unsent, removed, rest]
      exact bytes
  | restoration size len =>
    rw [Sender.unsent, stands] at bytes
    obtain ⟨sendBuffer, restored, wf', content, -⟩ := CSyncBuffer.restoration_content wf
    simp only [restored]
    refine ⟨_, rfl, ?_⟩
    split
    · exact ⟨wf', trivial, by rw [Sender.unsent, content]; exact bytes⟩
    · exact ⟨wf', trivial, by rw [Sender.unsent, content]; exact bytes⟩

/-- Left alone, the steps of one round of the loop do what `writeBody` does at once. -/
theorem writeBody_steps {c : Connection} (wf : c.session.sendBuffer.WellFormed) (result : SendResult)
    (pushed : List (List Byte)) {c' : Connection} {returned : Option Bool}
    (ran : c.writeBody result = .ok (c', returned)) :
    ∃ steps, Runs.run (senderStep int) ⟨c.session, .getRemainSendDataSize, c.sent, pushed⟩
        (List.replicate steps (.write result)) =
      some ⟨c'.session, if returned = none then .getRemainSendDataSize else .outside, c'.sent,
        pushed⟩ := by
  have order := wf.order
  have inside := wf.inside
  unfold Connection.writeBody at ran
  split at ran
  · rename_i empty
    cases ran
    exact ⟨1, by simp [Runs.run_cons, senderStep, Sender.write, empty, Connection.releaseWriteLock]⟩
  · rename_i unread
    cases result with
    | again =>
      cases ran
      exact ⟨3, by simp [List.replicate, Runs.run_cons, senderStep, Sender.write, unread,
        Connection.releaseWriteLock]⟩
    | failed =>
      cases ran
      exact ⟨3, by simp [List.replicate, Runs.run_cons, senderStep, Sender.write, unread]⟩
    | accepted n =>
      have fits : min (n + 1) c.session.getRemainSendDataSize ≤ c.session.sendBuffer.getUsedSize :=
        Nat.min_le_right ..
      have loaded : c.session.sendBuffer.buffer.load? c.session.sendBuffer.rptr
          (min (n + 1) c.session.getRemainSendDataSize) =
            some (c.session.sendBuffer.content.take (min (n + 1) c.session.getRemainSendDataSize)) := by
        refine (Memory.Block.load?_eq_some _).mpr ⟨?_, ?_⟩
        · simp only [CSyncBuffer.getUsedSize] at fits
          omega
        · rw [CSyncBuffer.content, Memory.Block.view_take, Nat.min_eq_left fits]
      obtain ⟨session, removed, ran⟩ := bind_eq_ok.mp ran
      obtain ⟨sendBuffer, restored, same⟩ := bind_eq_ok.mp removed
      cases same
      refine ⟨5, ?_⟩
      simp only [List.replicate, Runs.run_cons, Runs.run_nil, senderStep, Sender.write, if_neg unread,
        Option.bind_some, if_true, loaded, Option.map_some, restored]
      split at ran <;> cases ran <;> simp_all [Connection.releaseWriteLock]

theorem Sender.unsent_push (sending : Sending s) {session : Session} {packet : List Byte}
    (content : session.sendBuffer.content = s.session.sendBuffer.content ++ packet)
    (pushed : List (List Byte)) :
    ({ s with session, pushed } : Sender).unsent = s.unsent ++ packet := by
  have agrees := sending.agrees
  rw [Sender.unsent, Sender.unsent]
  dsimp only
  cases stands : s.stage with
  | remove size len =>
    rw [stands] at agrees
    have within : len ≤ s.session.sendBuffer.content.length := by
      rw [CSyncBuffer.content_length]
      exact agrees
    dsimp only
    rw [content, List.drop_append_of_le_length within]
  | _ => exact content

theorem Sending.push (sending : Sending s) {packet : List Byte}
    (stepped : senderStep int s (.pushSendPacket packet) = some t) :
    (FitsBehind s (.pushSendPacket packet) → Sending t) ∧
      (¬ FitsBehind s (.pushSendPacket packet) → ¬ Intact t) := by
  obtain ⟨wf, agrees, bytes⟩ := id sending
  simp only [senderStep] at stepped
  split at stepped
  · rename_i session pushed
    cases stepped
    obtain ⟨sendBuffer, rfl, written, wf', content, -⟩ := Session.pushSendPacket_spec wf pushed
    have more : s.session.sendBuffer.getUsedSize ≤ sendBuffer.getUsedSize := by
      rw [← CSyncBuffer.content_length, ← CSyncBuffer.content_length, content, List.length_append]
      exact Nat.le_add_right ..
    constructor
    · intro fits
      refine ⟨wf', ?_, ?_⟩
      · dsimp only
        cases stands : s.stage <;> rw [stands] at agrees
        case send size alloc off =>
          rw [CSyncBuffer.write_fits wf (fits size alloc off stands)] at written
          cases written
          exact ⟨agrees.1.trans more, agrees.2⟩
        case outside => trivial
        case getRemainSendDataSize => trivial
        case getSendData => exact agrees.trans more
        case remove => exact agrees.trans more
        case restoration => trivial
      · rw [Sender.unsent_push sending content, ← List.append_assoc, bytes, List.flatten_append,
          List.flatten_singleton]
    · intro outside intact
      simp only [FitsBehind, not_forall] at outside
      obtain ⟨size, alloc, off, stands, full⟩ := outside
      have grown := (CSyncBuffer.write_grows wf full written).1
      have now := (intact size alloc off stands).1
      have before := (sending.intact size alloc off stands).1
      simp only at now grown
      omega
  · cases stepped

theorem Sending.step (sending : Sending s) {e : SenderEvent} (fits : FitsBehind s e)
    (stepped : senderStep int s e = some t) : Sending t := by
  cases e with
  | pushSendPacket packet => exact (sending.push stepped).1 fits
  | write result =>
    obtain ⟨u, same, sending'⟩ := sending.write result
    cases same.symm.trans stepped
    exact sending'

end Steps

/-- Along every run, `send` gets the first unsent bytes exactly when no push that it meets between
`getSendData` and `send` makes the buffer grow. -/
theorem sends_intact_iff (int : Int → Int) (events : List SenderEvent) :
    Runs.Throughout (senderStep int) Intact .start events ↔
      Runs.Guarded (senderStep int) FitsBehind .start events := by
  apply Runs.throughout_iff_guarded (I := Sending)
  · exact fun _ sending => sending.intact
  · exact fun _ _ _ sending fits stepped => sending.step fits stepped
  · intro s e t sending stepped intact
    cases e with
    | pushSendPacket packet =>
      by_contra outside
      exact (sending.push stepped).2 outside intact
    | write result => trivial
  · exact sending_start

/-- In every state of such a run, however the pushes fall between the calls of `Write`: no byte of the
packets is lost, sent twice or out of order, and the next call of `Write` has an outcome. -/
theorem sends_in_order (int : Int → Int) (events : List SenderEvent) (s : Sender)
    (fits : Runs.Guarded (senderStep int) FitsBehind .start events)
    (reached : Runs.run (senderStep int) .start events = some s) :
    s.sent ++ s.unsent = s.pushed.flatten ∧
      ∀ result, ∃ t, senderStep int s (.write result) = some t := by
  have always := Runs.guarded_invariant
    (fun _ _ _ sending fits stepped => Sending.step sending fits stepped) sending_start fits
  have sending := always.last reached
  refine ⟨sending.bytes, fun result => ?_⟩
  obtain ⟨t, stepped, -⟩ := sending.write result
  exact ⟨t, stepped⟩

theorem sends_in_order_interrupted :
    ∃ s, Runs.run (senderStep id) .start [.pushSendPacket [7, 8], .write .again, .write .again,
        .write .again, .pushSendPacket [9], .write (.accepted 0)] = some s ∧
      s.sent ++ s.unsent = [7, 8, 9] := by
  have free : Runs.Guarded (senderStep id) FitsBehind .start [.pushSendPacket [7, 8], .write .again,
      .write .again, .write .again, .pushSendPacket [9], .write (.accepted 0)] := by
    refine .cons (fun _ _ _ _ _ outside => by cases outside) fun s₁ pushed => ?_
    cases pushed
    refine .cons (fun _ _ => trivial) fun s₂ entered => ?_
    cases entered
    refine .cons (fun _ _ => trivial) fun s₃ sized => ?_
    cases sized
    refine .cons (fun _ _ => trivial) fun s₄ pointed => ?_
    cases pointed
    refine .cons (fun _ _ size alloc off _ => ?_) fun _ _ =>
      .cons (fun _ _ => trivial) fun _ _ => .nil
    decide
  exact ⟨_, rfl, (sends_in_order id _ _ free rfl).1⟩

end Sometest.Epoll
