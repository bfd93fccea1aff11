import Mathlib.Data.List.Forall2
import Sometest.SingleThread.Connection

/-! One connection of the server in singlethread/ as a state machine. The worker that owns its epoll
instance reads and rearms; `update` is called by every worker. -/
namespace Sometest.SingleThread
open Sometest.Net
open Epoll (Connection Interest RecvResult SendResult)

/-- Where the worker is in its round. `ok` is what `Read` has returned. -/
inductive Stage where
  | idle
  | reading (epollOut : Bool)
  | writing (ok : Bool)
  | rearming
  | closed
  deriving DecidableEq

/-- `received` is what `recv` has returned so far, `handled` the packets that `update` has taken out.
A thread that waits for itself in `update` keeps the mutex of the session: `hung`. -/
structure Server where
  conn : Connection
  stage : Stage
  received : List Byte
  handled : List (List Byte)
  hung : Bool

def Server.start (fresh : Nat → Byte) : Server := ⟨.init fresh, .idle, [], [], false⟩

inductive Event where
  | wait (event : Interest)
  | hangUp
  | recv (result : RecvResult)
  | write (results : List SendResult)
  | modifyRegistInfo (ctl : Bool)
  | update (junk : Nat → Nat → Byte) (results : Nat → List SendResult)

/-- `epoll_wait` returns an event that is armed, and `recv` at most what it was asked for. -/
def Enabled (s : Server) : Event → Prop
  | .wait event => s.stage = .idle ∧ (event.epollIn = true ∨ event.epollOut = true) ∧
      (event.epollIn = true → s.conn.interest.epollIn = true) ∧
      (event.epollOut = true → s.conn.interest.epollOut = true)
  | .hangUp => s.stage = .idle ∧ s.conn.interest.epollIn = true
  | .recv (.data bytes) => (∃ epollOut, s.stage = .reading epollOut) ∧ bytes ≠ [] ∧
      bytes.length ≤ s.conn.readWindow
  | .recv _ => ∃ epollOut, s.stage = .reading epollOut
  | .write _ => ∃ ok, s.stage = .writing ok
  | .modifyRegistInfo _ => s.stage = .rearming
  | .update .. => s.stage ≠ .closed

instance (stage : Stage) : Decidable (∃ epollOut, stage = .reading epollOut) :=
  match stage with
  | .reading epollOut => isTrue ⟨epollOut, rfl⟩
  | .idle | .writing _ | .rearming | .closed => isFalse (by rintro ⟨_, same⟩; cases same)

instance (stage : Stage) : Decidable (∃ ok, stage = .writing ok) :=
  match stage with
  | .writing ok => isTrue ⟨ok, rfl⟩
  | .idle | .reading _ | .rearming | .closed => isFalse (by rintro ⟨_, same⟩; cases same)

instance (s : Server) : (e : Event) → Decidable (Enabled s e)
  | .wait event => inferInstanceAs (Decidable (s.stage = .idle ∧
      (event.epollIn = true ∨ event.epollOut = true) ∧
      (event.epollIn = true → s.conn.interest.epollIn = true) ∧
      (event.epollOut = true → s.conn.interest.epollOut = true)))
  | .hangUp => inferInstanceAs (Decidable (s.stage = .idle ∧ s.conn.interest.epollIn = true))
  | .recv (.data bytes) => inferInstanceAs (Decidable ((∃ epollOut, s.stage = .reading epollOut) ∧
      bytes ≠ [] ∧ bytes.length ≤ s.conn.readWindow))
  | .recv .again => inferInstanceAs (Decidable (∃ epollOut, s.stage = .reading epollOut))
  | .recv .failed => inferInstanceAs (Decidable (∃ epollOut, s.stage = .reading epollOut))
  | .write _ => inferInstanceAs (Decidable (∃ ok, s.stage = .writing ok))
  | .modifyRegistInfo _ => inferInstanceAs (Decidable (s.stage = .rearming))
  | .update .. => inferInstanceAs (Decidable (s.stage ≠ .closed))

/-- `Close`, after which the session manager destroys the session. -/
def Server.close (s : Server) : Server := { s with conn := s.conn.close, stage := .closed }

def Server.processed (s : Server) (ok : Bool) : Server :=
  if ok then { s with stage := .rearming } else s.close

def Server.afterRead (s : Server) (ok : Bool) : Server :=
  match s.stage with
  | .reading true => { s with stage := .writing ok }
  | _ => s.processed ok

section Frame
variable (s : Server) (ok : Bool)

@[simp] theorem Server.afterRead_received : (s.afterRead ok).received = s.received := by
  rw [afterRead, processed]
  split <;> cases ok <;> rfl

@[simp] theorem Server.afterRead_handled : (s.afterRead ok).handled = s.handled := by
  rw [afterRead, processed]
  split <;> cases ok <;> rfl

@[simp] theorem Server.afterRead_hung : (s.afterRead ok).hung = s.hung := by
  rw [afterRead, processed]
  split <;> cases ok <;> rfl

theorem Server.afterRead_still : Still s.conn (s.afterRead ok).conn := by
  rw [afterRead, processed]
  split <;> cases ok <;> exact ⟨rfl, rfl⟩

end Frame

def step (bound : Nat) (int : Int → Int) (s : Server) : Event → Except Fault Server
  | .wait event => .ok { s with
      conn := { s.conn with interest := ⟨false, false⟩ }
      stage := if event.epollIn then .reading event.epollOut else .writing true }
  | .hangUp => .ok s.close
  | .recv result => do
    let (conn, returned) ← readBody bound s.conn result
    let next := { s with conn, received := s.received ++ result.bytes }
    match returned with
    | none => .ok next
    | some ok => .ok (next.afterRead ok)
  | .write results => do
    let (conn, ok) ← write results s.conn
    .ok ({ s with conn }.processed (ok && decide (s.stage = Stage.writing true)))
  | .modifyRegistInfo ctl =>
    .ok { s with conn := (s.conn.modifyRegistInfo ctl false).1, stage := .idle }
  | .update junk results => do
    let (conn, ok) ← update int junk results s.conn
    let taken := s.conn.session.packetList.length - conn.session.packetList.length
    .ok { s with
      conn
      handled := s.handled ++ s.conn.session.packetList.take taken
      hung := !ok }

/-- No outcome for an event that cannot occur, after a fault, and once a thread hangs. -/
def transition (bound : Nat) (int : Int → Int) (s : Server) (e : Event) : Option Server :=
  if s.hung = false ∧ Enabled s e then (step bound int s e).toOption else none

theorem transition_eq_some {bound : Nat} {int : Int → Int} {s s' : Server} {e : Event} :
    transition bound int s e = some s' ↔
      s.hung = false ∧ Enabled s e ∧ step bound int s e = .ok s' := by
  rw [transition]
  split
  · rename_i both
    cases step bound int s e <;> simp [Except.toOption, both.1, both.2]
  · rename_i neither
    simp only [reduceCtorEq, false_iff, ← and_assoc, not_and]
    exact fun both => absurd both neither

def Event.bytes : Event → List Byte
  | .recv result => result.bytes
  | _ => []

/-- The session as it was before a `Close`. -/
def Server.session (s : Server) : Session := { s.conn.session with active := true }

structure Sound (requests : List (List Byte)) (s : Server) : Prop where
  fixed : Fixed s.conn
  delivering : Delivering requests s.session s.conn.readBuffer s.received s.handled
  bytes : ∃ responses, List.Forall₂ Session.Answers s.handled responses ∧
    s.conn.sent ++ s.conn.session.sendBuffer.content = responses.flatten
  unarmed : s.conn.interest.epollOut = false
  stage : s.stage ≠ .reading true ∧ ∀ ok, s.stage ≠ .writing ok
  active : s.stage ≠ .closed → s.conn.session.active = true

/-- Every `send` of this `update` leaves room for the response after it. -/
def Fits (s : Server) : Event → Prop
  | .update _ results => (backlog results 0 s.conn.session.getRemainSendDataSize
      s.conn.session.packetList).isSome = true
  | _ => True

/-- What a step on the stream of the requests does. -/
structure Steps (requests : List (List Byte)) (s : Server) (e : Event) (s' : Server) : Prop where
  sound : Sound requests s'
  received : s'.received = s.received ++ e.bytes
  hung : s'.hung = false ↔ Fits s e
  handled : s.handled <+: s'.handled
  still : s'.handled = s.handled → Still s.conn s'.conn

section Steps
variable {requests : List (List Byte)} {s s' : Server} {bound : Nat} {int : Int → Int}

theorem sound_start (framed : ∀ r ∈ requests, Framed r) (fresh : Nat → Byte) :
    Sound requests (.start fresh) where
  fixed := ⟨CSyncBuffer.wellFormed_init 4096, rfl, rfl⟩
  delivering := delivering_init framed fresh
  bytes := ⟨[], .nil, rfl⟩
  unarmed := rfl
  stage := ⟨nofun, nofun⟩
  active := fun _ => rfl

theorem Sound.close (sound : Sound requests s) : Sound requests s.close where
  fixed := ⟨sound.fixed.wellFormed, sound.fixed.start, sound.fixed.size⟩
  delivering := sound.delivering
  bytes := sound.bytes
  unarmed := sound.unarmed
  stage := ⟨nofun, nofun⟩
  active := fun still => absurd rfl still

theorem Sound.processed (sound : Sound requests s) (opened : s.stage ≠ .closed) (ok : Bool) :
    Sound requests (s.processed ok) := by
  rw [Server.processed]
  split
  · exact ⟨sound.fixed, sound.delivering, sound.bytes, sound.unarmed, ⟨nofun, nofun⟩,
      fun _ => sound.active opened⟩
  · exact sound.close

theorem Sound.afterRead (sound : Sound requests s) (reading : s.stage = .reading epollOut)
    (ok : Bool) : Sound requests (s.afterRead ok) := by
  have never := sound.stage.1
  have step : s.afterRead ok = s.processed ok := by
    cases epollOut with
    | true => exact absurd reading never
    | false => rw [Server.afterRead, reading]
  rw [step]
  exact sound.processed (by rw [reading]; nofun) ok

/-- What is received on the stream is stored and cut into packets. -/
theorem Sound.readBody (sound : Sound requests s) (framed : ∀ r ∈ requests, Framed r)
    (enough : 4096 < bound) {result : RecvResult} (enabled : Enabled s (.recv result))
    (stream : s.received ++ result.bytes <+: requests.flatten) :
    ∃ conn returned, readBody bound s.conn result = .ok (conn, returned) ∧
      Sound requests { s with conn, received := s.received ++ result.bytes } ∧
      Still s.conn conn := by
  have window : 0 < s.conn.readWindow := sound.delivering.window framed
  have reading : ∃ epollOut, s.stage = .reading epollOut := by
    cases result with
    | data bytes => exact enabled.1
    | again => exact enabled
    | failed => exact enabled
  have opened : s.stage ≠ .closed := by
    obtain ⟨epollOut, reading⟩ := reading
    rw [reading]
    nofun
  have fixed := sound.fixed
  cases result with
  | data bytes =>
    obtain ⟨-, -, fits⟩ := enabled
    have room : bytes.length ≤ s.conn.readBuffer.getFreeSpaceSize :=
      Nat.le_trans fits (Nat.min_le_right _ _)
    have active := sound.active opened
    obtain ⟨stored, readBuffer, packetList, written, extracted, delivering⟩ :=
      sound.delivering.receive framed room stream enough
    simp only [Server.session] at extracted delivering
    simp only [SingleThread.readBody, if_neg (Nat.ne_of_gt window), Connection.storeReceived,
      if_pos active, written, ok_bind, Connection.onRead, extracted]
    have kept : ∀ readLock, Sound requests { s with
        conn := { s.conn with readLock, readBuffer, session := { s.conn.session with packetList } }
        received := s.received ++ bytes } := fun readLock =>
      ⟨⟨fixed.wellFormed, fixed.start, fixed.size⟩, delivering, sound.bytes, sound.unarmed,
        sound.stage, fun _ => active⟩
    split
    · exact ⟨_, _, rfl, kept _, rfl, rfl⟩
    · exact ⟨_, _, rfl, kept _, rfl, rfl⟩
  | again =>
    simp only [SingleThread.readBody, if_neg (Nat.ne_of_gt window), RecvResult.bytes,
      List.append_nil]
    exact ⟨_, _, rfl, ⟨⟨fixed.wellFormed, fixed.start, fixed.size⟩, sound.delivering, sound.bytes,
      sound.unarmed, sound.stage, sound.active⟩, rfl, rfl⟩
  | failed =>
    simp only [SingleThread.readBody, if_neg (Nat.ne_of_gt window), RecvResult.bytes,
      List.append_nil]
    exact ⟨_, _, rfl, sound, .refl _⟩

/-- The packets that wait are the requests that have arrived and are not handled. -/
theorem Sound.waiting (sound : Sound requests s) (requested : ∀ r ∈ requests, Epoll.Request r) :
    ∀ p ∈ s.conn.session.packetList, Epoll.Request p := by
  intro packet member
  exact requested packet (sound.delivering.mem_of_waiting member)

theorem Sound.update (sound : Sound requests s) (requested : ∀ r ∈ requests, Epoll.Request r)
    (opened : s.stage ≠ .closed) (junk : Nat → Nat → Byte) (results : Nat → List SendResult) :
    ∃ s', step bound int s (.update junk results) = .ok s' ∧
      Steps requests s (.update junk results) s' := by
  obtain ⟨conn, ok, done, updates⟩ := @dispatchAll_updates int junk results 0 _ s.conn
    (sound.waiting requested) sound.fixed rfl
  obtain ⟨handled, responses, parts, answered, bytes, idle⟩ := updates.answered
  obtain ⟨before, answers, whole⟩ := sound.bytes
  have taken : s.conn.session.packetList.take
      (s.conn.session.packetList.length - conn.session.packetList.length) = handled := by
    rw [parts, List.length_append, Nat.add_sub_cancel, List.take_left]
  have active := sound.active opened
  simp only [step, SingleThread.update, if_pos active, done, ok_bind, taken]
  refine ⟨_, rfl, ⟨?_, (List.append_nil _).symm, ?_, List.prefix_append _ _, ?_⟩⟩
  · refine ⟨updates.fixed, ⟨rfl, updates.fixed.wellFormed, ?_, ?_⟩, ?_,
      updates.interest ▸ sound.unarmed, sound.stage, fun _ => updates.active.trans active⟩
    · simp only [updates.readBuffer]
      exact sound.delivering.receiving
    · rw [← sound.delivering.pushed]
      simp only [Server.session, List.append_assoc, ← parts]
    · refine ⟨before ++ responses, List.rel_append answers answered, ?_⟩
      rw [bytes, whole, List.flatten_append]
  · simp only [Fits, updates.returned, Bool.not_eq_eq_eq_not, Bool.not_false]
  · intro same
    exact idle (List.append_right_eq_self.mp same)

theorem Sound.recv (sound : Sound requests s) (framed : ∀ r ∈ requests, Framed r)
    (enough : 4096 < bound) (running : s.hung = false) {result : RecvResult}
    (enabled : Enabled s (.recv result)) (stream : s.received ++ result.bytes <+: requests.flatten) :
    ∃ s', step bound int s (.recv result) = .ok s' ∧ Steps requests s (.recv result) s' := by
  obtain ⟨conn, returned, ran, sound', still⟩ := sound.readBody framed enough enabled stream
  simp only [step, ran, ok_bind]
  cases returned with
  | none =>
    exact ⟨_, rfl, ⟨sound', rfl, iff_of_true running trivial, List.prefix_refl _, fun _ => still⟩⟩
  | some ok =>
    have reading : ∃ epollOut, s.stage = .reading epollOut := by
      cases result with
      | data bytes => exact enabled.1
      | again => exact enabled
      | failed => exact enabled
    obtain ⟨epollOut, reading⟩ := reading
    refine ⟨_, rfl, ⟨sound'.afterRead reading ok, ?_, ?_, ?_,
      fun _ => still.trans (Server.afterRead_still { s with
        conn, received := s.received ++ result.bytes } ok)⟩⟩
    all_goals simp only [Server.afterRead_received, Server.afterRead_hung,
      Server.afterRead_handled, Event.bytes]
    · exact iff_of_true running trivial
    · exact List.prefix_refl _

/-- Every event that can occur has an outcome. -/
theorem Sound.step (sound : Sound requests s) (requested : ∀ r ∈ requests, Epoll.Request r)
    (enough : 4096 < bound) (running : s.hung = false) {e : Event} (enabled : Enabled s e)
    (stream : s.received ++ e.bytes <+: requests.flatten) :
    ∃ s', SingleThread.step bound int s e = .ok s' ∧ Steps requests s e s' := by
  have framed : ∀ r ∈ requests, Framed r := fun r member => (requested r member).framed
  have nothing := (List.append_nil s.received).symm
  cases e with
  | wait event =>
    obtain ⟨idle, fired, -, out⟩ := enabled
    have unarmed : event.epollOut = false := by
      by_contra armed
      rw [Bool.not_eq_false] at armed
      exact absurd (sound.unarmed.symm.trans (out armed)) Bool.false_ne_true
    have epollIn : event.epollIn = true := by simpa [unarmed] using fired
    refine ⟨_, rfl, ⟨⟨⟨sound.fixed.wellFormed, sound.fixed.start, sound.fixed.size⟩,
      sound.delivering, sound.bytes, rfl, ?_, fun _ => sound.active (by simp [idle])⟩, nothing,
      iff_of_true running trivial, List.prefix_refl _, fun _ => ⟨rfl, rfl⟩⟩⟩
    simp only [epollIn, unarmed, if_true]
    exact ⟨by simp, by simp⟩
  | hangUp =>
    exact ⟨_, rfl, ⟨sound.close, nothing, iff_of_true running trivial, List.prefix_refl _,
      fun _ => ⟨rfl, rfl⟩⟩⟩
  | recv result => exact sound.recv framed enough running enabled stream
  | write results =>
    obtain ⟨ok, writing⟩ := enabled
    exact absurd writing (sound.stage.2 ok)
  | modifyRegistInfo ctl =>
    obtain ⟨interest, session, same⟩ : ∃ interest : Interest, interest.epollOut = false ∧
        (s.conn.modifyRegistInfo ctl false).1 = { s.conn with interest } := by
      rw [Connection.modifyRegistInfo, if_neg (by simp)]
      cases ctl with
      | true => exact ⟨_, rfl, rfl⟩
      | false => exact ⟨_, sound.unarmed, rfl⟩
    simp only [SingleThread.step, same]
    exact ⟨_, rfl, ⟨⟨⟨sound.fixed.wellFormed, sound.fixed.start, sound.fixed.size⟩,
      sound.delivering, sound.bytes, session, ⟨by simp, by simp⟩,
      fun _ => sound.active (by rw [enabled]; simp)⟩, nothing, iff_of_true running trivial,
      List.prefix_refl _, fun _ => ⟨rfl, rfl⟩⟩⟩
  | update junk results => exact sound.update requested enabled junk results

theorem step_received {e : Event} (stepped : transition bound int s e = some s') :
    s'.received = s.received ++ e.bytes := by
  obtain ⟨-, -, stepped⟩ := transition_eq_some.mp stepped
  have nothing := (List.append_nil s.received).symm
  cases e with
  | wait event =>
    cases stepped
    exact nothing
  | hangUp =>
    cases stepped
    exact nothing
  | recv result =>
    obtain ⟨⟨conn, returned⟩, -, same⟩ := bind_eq_ok.mp stepped
    cases returned with
    | none =>
      cases same
      rfl
    | some ok =>
      cases same
      rw [Server.afterRead_received]
      rfl
  | write results =>
    obtain ⟨⟨conn, ok⟩, -, same⟩ := bind_eq_ok.mp stepped
    cases same
    rw [Server.processed]
    split <;> exact nothing
  | modifyRegistInfo ctl =>
    cases stepped
    exact nothing
  | update junk results =>
    obtain ⟨⟨conn, ok⟩, -, same⟩ := bind_eq_ok.mp stepped
    cases same
    exact nothing

theorem Sound.transition (sound : Sound requests s) (requested : ∀ r ∈ requests, Epoll.Request r)
    (enough : 4096 < bound) {e : Event} (stepped : transition bound int s e = some s')
    (stream : s'.received <+: requests.flatten) : Steps requests s e s' := by
  have received := step_received stepped
  obtain ⟨running, enabled, stepped⟩ := transition_eq_some.mp stepped
  obtain ⟨t, same, steps⟩ : ∃ t, SingleThread.step bound int s e = .ok t ∧ Steps requests s e t :=
    sound.step requested enough running enabled (received ▸ stream)
  cases same.symm.trans stepped
  exact steps

theorem received_run {events : List Event}
    (reached : Runs.run (transition bound int) s events = some s') : s.received <+: s'.received := by
  have preserved : ∀ t e u, s.received <+: t.received → transition bound int t e = some u →
      s.received <+: u.received := by
    intro t e u before stepped
    rw [step_received stepped]
    exact before.trans (List.prefix_append _ _)
  exact (Runs.invariant preserved (List.prefix_refl _) events).last reached

/-- Along every run whose received bytes are a beginning of the requests. -/
theorem Sound.run (sound : Sound requests s) (requested : ∀ r ∈ requests, Epoll.Request r)
    (enough : 4096 < bound) {events : List Event}
    (reached : Runs.run (SingleThread.transition bound int) s events = some s')
    (stream : s'.received <+: requests.flatten) :
    Sound requests s' ∧ s.handled <+: s'.handled ∧
      (s'.handled = s.handled → Still s.conn s'.conn) := by
  induction events generalizing s with
  | nil =>
    cases reached
    exact ⟨sound, List.prefix_refl _, fun _ => .refl _⟩
  | cons e rest ih =>
    obtain ⟨t, stepped, reached⟩ := Option.bind_eq_some_iff.mp reached
    have steps := sound.transition requested enough stepped ((received_run reached).trans stream)
    obtain ⟨sound', handled, moved⟩ := ih steps.sound reached
    refine ⟨sound', steps.handled.trans handled, fun same => ?_⟩
    -- What only grows and is the same at the end is the same in between.
    have between : t.handled = s.handled :=
      (steps.handled.eq_of_length_le (same ▸ handled.length_le)).symm
    exact (steps.still between).trans (moved (same.trans between.symm))

end Steps

section Results
variable (requests : List (List Byte)) (requested : ∀ r ∈ requests, Epoll.Request r)
  (bound : Nat) (enough : 4096 < bound) (int : Int → Int) (fresh : Nat → Byte)
include requested enough

/-- After every run over a beginning of the requests: one response for each request handled so far
is on the wire or, behind it, in the send buffer, in order; `EPOLLOUT` is not armed; and while no
thread hangs the next step has an outcome, whatever the arithmetic of `int` is. -/
theorem answers_in_order (events : List Event) (s : Server)
    (reached : Runs.run (transition bound int) (.start fresh) events = some s)
    (stream : s.received <+: requests.flatten) :
    s.handled <+: requests ∧
    (∃ responses, s.conn.sent ++ s.conn.session.sendBuffer.content = responses.flatten ∧
      List.Forall₂ Epoll.Responds s.handled responses) ∧
    s.conn.interest.epollOut = false ∧
    (s.hung = false → ∀ e, Enabled s e → s.received ++ e.bytes <+: requests.flatten →
      ∃ s', transition bound int s e = some s') := by
  have framed : ∀ r ∈ requests, Framed r := fun r member => (requested r member).framed
  obtain ⟨sound, -, -⟩ := (sound_start framed fresh).run requested enough reached stream
  have order : s.handled <+: requests := sound.delivering.handled_prefix
  obtain ⟨responses, answered, bytes⟩ := sound.bytes
  refine ⟨order, ⟨responses, bytes, ?_⟩, sound.unarmed, ?_⟩
  · exact Epoll.responds_all (fun r member => requested r (order.subset member)) answered
  · intro running e enabled continues
    obtain ⟨s', ran, -⟩ : ∃ t, SingleThread.step bound int s e = .ok t ∧ Steps requests s e t :=
      sound.step requested enough running enabled continues
    exact ⟨s', transition_eq_some.mpr ⟨running, enabled, ran⟩⟩

end Results

/-- A request of 24 bytes whose response is refused. -/
def refused : List Event :=
  [.wait ⟨true, false⟩,
    .recv (.data (packetHeader .CMSG_A packetASize ++ List.replicate 16 0)),
    .modifyRegistInfo true, .update (fun _ _ => 0) (fun _ => [])]

theorem request_refused :
    ∀ r ∈ [packetHeader .CMSG_A packetASize ++ List.replicate 16 0], Epoll.Request r := by
  intro r member
  obtain rfl := List.mem_singleton.mp member
  exact ⟨.inl ⟨by decide +kernel, by decide⟩, by decide +kernel⟩

theorem answers_in_order_refused :
    ∃ s, Runs.run (transition 4097 id) (.start fun _ => 0) refused = some s ∧
      s.handled.length = 1 ∧ s.conn.sent = [] ∧ s.conn.interest.epollOut = false ∧
      ∃ responses, s.conn.session.sendBuffer.content = responses.flatten ∧
        List.Forall₂ Epoll.Responds s.handled responses := by
  have ran : (Runs.run (transition 4097 id) (.start fun _ => 0) refused).map
      (fun s => (s.received, s.handled.length, s.conn.sent)) =
        some (packetHeader .CMSG_A packetASize ++ List.replicate 16 0, 1, []) := by decide +kernel
  obtain ⟨s, reached, same⟩ := Option.map_eq_some_iff.mp ran
  simp only [Prod.mk.injEq] at same
  obtain ⟨received, handled, sent⟩ := same
  obtain ⟨-, ⟨responses, bytes, answered⟩, unarmed, -⟩ := answers_in_order _ request_refused 4097
    (by decide) id (fun _ => 0) refused s reached (by rw [received]; decide)
  rw [sent, List.nil_append] at bytes
  exact ⟨s, reached, handled, sent, unarmed, responses, bytes, answered⟩

section Results
variable (requests : List (List Byte)) (requested : ∀ r ∈ requests, Epoll.Request r)
  (bound : Nat) (enough : 4096 < bound) (int : Int → Int) (fresh : Nat → Byte)
include requested enough

/-- What a `send` has left over stays in the buffer until another request is handled. -/
theorem unsent_until_next_request (before later : List Event) (s s' : Server)
    (reached : Runs.run (transition bound int) (.start fresh) before = some s)
    (continued : Runs.run (transition bound int) s later = some s')
    (stream : s'.received <+: requests.flatten) (same : s'.handled = s.handled) :
    s'.conn.sent = s.conn.sent ∧
      s'.conn.session.sendBuffer.content = s.conn.session.sendBuffer.content := by
  have framed : ∀ r ∈ requests, Framed r := fun r member => (requested r member).framed
  obtain ⟨sound, -, -⟩ := (sound_start framed fresh).run requested enough reached
    ((received_run continued).trans stream)
  obtain ⟨-, -, still⟩ := sound.run requested enough continued stream
  exact ⟨(still same).sent, by rw [(still same).sendBuffer]⟩

end Results

/-- Later rounds in which nothing arrives do not send the response, though the socket would take it. -/
theorem unsent_until_next_request_refused :
    ∃ s s', Runs.run (transition 4097 id) (.start fun _ => 0) refused = some s ∧
      Runs.run (transition 4097 id) s [.wait ⟨true, false⟩, .recv .again, .modifyRegistInfo true,
        .update (fun _ _ => 0) (fun _ => [.accepted 99])] = some s' ∧
      s.conn.session.getRemainSendDataSize = 24 ∧
      s'.conn.sent = s.conn.sent ∧
      s'.conn.session.sendBuffer.content = s.conn.session.sendBuffer.content := by
  have ran : ((Runs.run (transition 4097 id) (.start fun _ => 0) refused).bind fun s =>
      (Runs.run (transition 4097 id) s [.wait ⟨true, false⟩, .recv .again, .modifyRegistInfo true,
        .update (fun _ _ => 0) (fun _ => [.accepted 99])]).map fun s' =>
          (s'.received, s.conn.session.getRemainSendDataSize, s.handled, s'.handled)) =
        some (packetHeader .CMSG_A packetASize ++ List.replicate 16 0, 24,
          [packetHeader .CMSG_A packetASize ++ List.replicate 16 0],
          [packetHeader .CMSG_A packetASize ++ List.replicate 16 0]) := by decide +kernel
  obtain ⟨s, reached, later⟩ := Option.bind_eq_some_iff.mp ran
  obtain ⟨s', continued, same⟩ := Option.map_eq_some_iff.mp later
  simp only [Prod.mk.injEq] at same
  obtain ⟨received, unread, handled, handled'⟩ := same
  exact ⟨s, s', reached, continued, unread, unsent_until_next_request _ request_refused 4097
    (by decide) id (fun _ => 0) refused _ s s' reached continued (by rw [received]; decide)
    (handled'.trans handled.symm)⟩

section Results
variable (requests : List (List Byte)) (requested : ∀ r ∈ requests, Epoll.Request r)
  (bound : Nat) (enough : 4096 < bound) (int : Int → Int) (fresh : Nat → Byte)
include requested enough

/-- Every step that is open to the server has an outcome, and the thread hangs in it exactly when it
is an `update` that finds too little room for a response. -/
theorem hangs_iff (events : List Event) (s : Server)
    (reached : Runs.run (transition bound int) (.start fresh) events = some s)
    (running : s.hung = false) (e : Event) (enabled : Enabled s e)
    (stream : s.received ++ e.bytes <+: requests.flatten) :
    ∃ t, transition bound int s e = some t ∧
      (t.hung = true ↔ ∃ junk results, e = .update junk results ∧
        backlog results 0 s.conn.session.getRemainSendDataSize s.conn.session.packetList = none) := by
  have framed : ∀ r ∈ requests, Framed r := fun r member => (requested r member).framed
  obtain ⟨sound, -, -⟩ := (sound_start framed fresh).run requested enough reached
    ((List.prefix_append _ _).trans stream)
  obtain ⟨t, stepped, steps⟩ : ∃ t, SingleThread.step bound int s e = .ok t ∧ Steps requests s e t :=
    sound.step requested enough running enabled stream
  refine ⟨t, transition_eq_some.mpr ⟨running, enabled, stepped⟩, ?_⟩
  have hangs : t.hung = true ↔ ¬ Fits s e := by
    rw [← steps.hung, Bool.not_eq_false]
  rw [hangs]
  constructor
  · intro unfit
    cases e with
    | update junk results => exact ⟨junk, results, rfl, by simpa [Fits] using unfit⟩
    | wait event => exact absurd trivial unfit
    | hangUp => exact absurd trivial unfit
    | recv result => exact absurd trivial unfit
    | write results => exact absurd trivial unfit
    | modifyRegistInfo ctl => exact absurd trivial unfit
  · rintro ⟨junk, results, rfl, full⟩
    simp [Fits, full]

end Results

/-- A response of 24 bytes fits, though the socket refuses it. -/
theorem hangs_iff_refused :
    ∃ s t, Runs.run (transition 4097 id) (.start fun _ => 0) (refused.take 3) = some s ∧
      transition 4097 id s (.update (fun _ _ => 0) fun _ => []) = some t ∧ t.hung = false := by
  have ran : (Runs.run (transition 4097 id) (.start fun _ => 0) (refused.take 3)).map
      (fun s => (s.received, (s.hung, decide (s.stage = .closed)),
        backlog (fun _ => []) 0 s.conn.session.getRemainSendDataSize s.conn.session.packetList)) =
        some (packetHeader .CMSG_A packetASize ++ List.replicate 16 0, (false, false), some 24) := by
    decide +kernel
  obtain ⟨s, reached, same⟩ := Option.map_eq_some_iff.mp ran
  simp only [Prod.mk.injEq, decide_eq_false_iff_not] at same
  obtain ⟨received, ⟨running, opened⟩, left⟩ := same
  obtain ⟨t, stepped, hangs⟩ := hangs_iff _ request_refused 4097 (by decide) id (fun _ => 0) _ s
    reached running (.update (fun _ _ => 0) fun _ => []) opened (by rw [received]; decide)
  refine ⟨s, t, reached, stepped, ?_⟩
  rw [← Bool.not_eq_true, hangs]
  rintro ⟨junk, results, same, full⟩
  cases same
  cases left.symm.trans full

end Sometest.SingleThread
