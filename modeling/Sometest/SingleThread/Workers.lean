import Mathlib.Data.List.Nodup
import Mathlib.Logic.Function.Basic
import Sometest.Lib.Run

/-! The sessions of the single-threaded server: every worker that `init` has made calls
`CSessionMgr::update` at the end of its `Kernel`, on one `sessionList_` without a lock. A round of a
loop is one step: of calls that overlap, only the interleavings by whole rounds are runs here. -/
namespace Sometest.SingleThread

/-- Where a worker is: at its events, in the first loop of `checkSession`, or with the iterator of
one of the other two loops, which is `none` at `end()`. -/
inductive Spot where
  | events
  | drain
  | check (iter : Option Nat)
  | update (iter : Option Nat)
  deriving DecidableEq

def Spot.iter : Spot → Option Nat
  | .events => none
  | .drain => none
  | .check iter => iter
  | .update iter => iter

/-- Sessions are numbered as they come; a session that has left `sessionList_` is deleted. `late`
counts the uses of an iterator at a deleted session. -/
structure Workers where
  next : Nat
  waiting : List Nat
  sessionList : List Nat
  active : Nat → Bool
  spot : Nat → Spot
  late : Nat

def Workers.start : Workers := ⟨0, [], [], fun _ => true, fun _ => .events, 0⟩

/-- `close c` is a `Close` of the connection of the session `c` by the worker of its `epollFd_`. -/
inductive WorkerEvent where
  | accept
  | close (c : Nat)
  | work (w : Nat)

def after (c : Nat) : List Nat → Option Nat
  | [] => none
  | session :: rest => if session = c then rest.head? else after c rest

namespace Workers

def goto (s : Workers) (w : Nat) (spot : Spot) : Workers :=
  { s with spot := Function.update s.spot w spot }

def work (s : Workers) (w : Nat) : Workers :=
  match s.spot w with
  | .events => s.goto w .drain
  | .drain =>
    match s.waiting with
    | [] => s.goto w (.check s.sessionList.head?)
    | c :: rest => { s with waiting := rest, sessionList := s.sessionList ++ [c] }
  | .check none => s.goto w (.update s.sessionList.head?)
  | .check (some c) =>
    if c ∈ s.sessionList then
      if s.active c then s.goto w (.check (after c s.sessionList))
      else { s with sessionList := s.sessionList.erase c }.goto w (.check (after c s.sessionList))
    else { s with late := s.late + 1 }
  | .update none => s.goto w .events
  | .update (some c) =>
    if c ∈ s.sessionList then s.goto w (.update (after c s.sessionList))
    else { s with late := s.late + 1 }

/-- `addConnection` deals the connections out to the workers in turn. -/
def step (workers : Nat) (s : Workers) : WorkerEvent → Option Workers
  | .accept => some { s with next := s.next + 1, waiting := s.waiting ++ [s.next] }
  | .close c =>
    if c < s.next ∧ c % workers < workers ∧ s.spot (c % workers) = .events ∧ s.active c then
      some { s with active := Function.update s.active c false }
    else none
  | .work w => if w < workers then some (s.work w) else none

end Workers

theorem after_mem {c b : Nat} {sessions : List Nat} (next : after c sessions = some b) :
    b ∈ sessions := by
  induction sessions with
  | nil => cases next
  | cons session rest ih =>
    rw [after] at next
    split at next
    · exact List.mem_cons_of_mem _ (List.mem_of_mem_head? next)
    · exact List.mem_cons_of_mem _ (ih next)

theorem after_erase {c b : Nat} {sessions : List Nat} (nodup : sessions.Nodup)
    (next : after c sessions = some b) : b ∈ sessions.erase c := by
  refine nodup.mem_erase_iff.mpr ⟨?_, after_mem next⟩
  rintro rfl
  induction sessions with
  | nil => cases next
  | cons session rest ih =>
    obtain ⟨outside, nodup⟩ := List.nodup_cons.mp nodup
    rw [after] at next
    split at next
    · rename_i same
      exact outside (same ▸ List.mem_of_mem_head? next)
    · exact ih nodup next

def Valid (s : Workers) : Prop := ∀ w c, (s.spot w).iter = some c → c ∈ s.sessionList

/-- No worker deletes a session that the iterator of another one is at. -/
def Apart (s : Workers) : WorkerEvent → Prop
  | .work w => ∀ c, s.spot w = .check (some c) → s.active c = false →
      ∀ v, v ≠ w → (s.spot v).iter ≠ some c
  | _ => True

/-- A worker enters `update` while no other one is in it. -/
def Alone (s : Workers) : WorkerEvent → Prop
  | .work w => s.spot w = .events → ∀ v, s.spot v = .events
  | _ => True

structure Tidy (workers : Nat) (s : Workers) : Prop where
  nodup : (s.sessionList ++ s.waiting).Nodup
  known : ∀ c ∈ s.sessionList ++ s.waiting, c < s.next
  valid : Valid s
  never : s.late = 0
  idle : ∀ w, workers ≤ w → s.spot w = .events

section Steps
variable {workers : Nat} {s t : Workers}

@[simp] theorem goto_self (s : Workers) (w : Nat) (spot : Spot) : (s.goto w spot).spot w = spot :=
  Function.update_self ..

theorem goto_other (s : Workers) {v w : Nat} (other : v ≠ w) (spot : Spot) :
    (s.goto w spot).spot v = s.spot v := Function.update_of_ne other ..

theorem Tidy.goto (tidy : Tidy workers s) {w : Nat} (own : w < workers) {spot : Spot}
    (valid : ∀ c, spot.iter = some c → c ∈ s.sessionList) : Tidy workers (s.goto w spot) := by
  refine ⟨tidy.nodup, tidy.known, fun v c here => ?_, tidy.never, fun v high => ?_⟩
  · by_cases same : v = w
    · subst same
      rw [goto_self] at here
      exact valid c here
    · rw [goto_other s same] at here
      exact tidy.valid v c here
  · have other : v ≠ w := by omega
    rw [goto_other s other]
    exact tidy.idle v high

/-- A session leaves the list, and the iterator that was at it goes on. -/
theorem Tidy.erase (tidy : Tidy workers s) {w c : Nat} (own : w < workers)
    (others : ∀ v, v ≠ w → (s.spot v).iter ≠ some c) :
    Tidy workers ({ s with sessionList := s.sessionList.erase c }.goto w
      (.check (after c s.sessionList))) := by
  have listed : s.sessionList.Nodup := (List.nodup_append.mp tidy.nodup).1
  have fewer : (s.sessionList.erase c ++ s.waiting).Sublist (s.sessionList ++ s.waiting) :=
    List.erase_sublist.append_right _
  refine ⟨tidy.nodup.sublist fewer, fun b member => tidy.known b (fewer.subset member), ?_,
    tidy.never, fun v high => ?_⟩
  · intro v b here
    by_cases same : v = w
    · subst same
      rw [goto_self] at here
      exact after_erase listed here
    · rw [goto_other _ same] at here
      refine listed.mem_erase_iff.mpr ⟨?_, tidy.valid v b here⟩
      rintro rfl
      exact others v same here
  · have other : v ≠ w := by omega
    rw [goto_other _ other]
    exact tidy.idle v high

theorem tidy_start : Tidy workers .start where
  nodup := List.nodup_nil
  known := fun _ member => absurd member List.not_mem_nil
  valid := fun _ _ here => by cases here
  never := rfl
  idle := fun _ _ => rfl

theorem Tidy.work (tidy : Tidy workers s) {w : Nat} (own : w < workers)
    (apart : Apart s (.work w)) : Tidy workers (s.work w) := by
  rw [Workers.work]
  split
  · exact tidy.goto own fun c here => by cases here
  · split
    · exact tidy.goto own fun c here => List.mem_of_mem_head? here
    · rename_i c rest waiting
      have same : s.sessionList ++ [c] ++ rest = s.sessionList ++ s.waiting := by
        rw [waiting, List.append_assoc, List.singleton_append]
      exact ⟨same ▸ tidy.nodup, same ▸ tidy.known,
        fun v b here => List.mem_append_left _ (tidy.valid v b here), tidy.never, tidy.idle⟩
  · exact tidy.goto own fun c here => List.mem_of_mem_head? here
  · rename_i c here
    rw [if_pos (tidy.valid w c (by rw [here]; rfl))]
    split
    · exact tidy.goto own fun b next => after_mem next
    · rename_i inactive
      exact tidy.erase own (apart c here (by simpa using inactive))
  · exact tidy.goto own fun c here => by cases here
  · rename_i c here
    rw [if_pos (tidy.valid w c (by rw [here]; rfl))]
    exact tidy.goto own fun b next => after_mem next

theorem Tidy.step (tidy : Tidy workers s) {e : WorkerEvent} (apart : Apart s e)
    (stepped : Workers.step workers s e = some t) : Tidy workers t := by
  cases e with
  | accept =>
    cases stepped
    have new : s.next ∉ s.sessionList ++ s.waiting := fun member =>
      absurd (tidy.known _ member) (Nat.lt_irrefl _)
    refine ⟨?_, ?_, tidy.valid, tidy.never, tidy.idle⟩
    · rw [← List.append_assoc]
      refine List.nodup_append.mpr ⟨tidy.nodup, List.nodup_singleton _, fun c member b last => ?_⟩
      rw [List.mem_singleton.mp last]
      exact fun same => new (same ▸ member)
    · intro c member
      rw [← List.append_assoc, List.mem_append, List.mem_singleton] at member
      rcases member with old | rfl
      · exact Nat.lt_succ_of_lt (tidy.known c old)
      · exact Nat.lt_succ_self _
  | close c =>
    rw [Workers.step] at stepped
    split at stepped <;> cases stepped
    exact ⟨tidy.nodup, tidy.known, tidy.valid, tidy.never, tidy.idle⟩
  | work w =>
    rw [Workers.step] at stepped
    split at stepped <;> cases stepped
    exact tidy.work ‹_› apart

end Steps

/-- What is left of the sessions when the calls of `update` do not overlap. -/
structure Managed (workers : Nat) (s : Workers) : Prop where
  tidy : Tidy workers s
  sorted : (s.sessionList ++ s.waiting).Pairwise (· < ·)
  kept : ∀ c, c < s.next → s.active c = true → c ∈ s.sessionList ++ s.waiting
  closed : ∀ c, s.active c = false → c < s.next
  single : ∀ v w, s.spot v ≠ .events → s.spot w ≠ .events → v = w

def Spot.checking : Spot → Bool
  | .drain => true
  | .check _ => true
  | _ => false

/-- How far a worker in `checkSession` has come towards a session that is closed. -/
def Passing (w c : Nat) (s : Workers) : Prop :=
  match s.spot w with
  | .drain => True
  | .check iter => c ∉ s.waiting ∧ (c ∈ s.sessionList → ∃ b, iter = some b ∧ b ≤ c)
  | _ => c ∉ s.sessionList ++ s.waiting

section Passes
variable {workers : Nat} {s t : Workers} {w c : Nat}

theorem managed_start : Managed workers .start where
  tidy := tidy_start
  sorted := .nil
  kept := fun _ low => absurd low (Nat.not_lt_zero _)
  closed := fun _ never => by cases never
  single := fun _ _ inside => absurd rfl inside

theorem work_cases (s : Workers) (w : Nat) :
    (∃ spot, s.work w = s.goto w spot) ∨
    (∃ c rest, s.waiting = c :: rest ∧
      s.work w = { s with waiting := rest, sessionList := s.sessionList ++ [c] }) ∨
    (∃ c spot, s.active c = false ∧
      s.work w = { s with sessionList := s.sessionList.erase c }.goto w spot) ∨
    s.work w = { s with late := s.late + 1 } := by
  rw [Workers.work]
  split
  · exact .inl ⟨_, rfl⟩
  · split
    · exact .inl ⟨_, rfl⟩
    · exact .inr (.inl ⟨_, _, ‹_›, rfl⟩)
  · exact .inl ⟨_, rfl⟩
  · split
    · split
      · exact .inl ⟨_, rfl⟩
      · rename_i inactive
        exact .inr (.inr (.inl ⟨_, _, by simpa using inactive, rfl⟩))
    · exact .inr (.inr (.inr rfl))
  · exact .inl ⟨_, rfl⟩
  · split
    · exact .inl ⟨_, rfl⟩
    · exact .inr (.inr (.inr rfl))

/-- A round takes out sessions that are closed, and adds none. -/
theorem work_sublist (s : Workers) (w : Nat) :
    ((s.work w).sessionList ++ (s.work w).waiting).Sublist (s.sessionList ++ s.waiting) ∧
      (s.work w).next = s.next ∧ (s.work w).active = s.active ∧
      ∀ c ∈ s.sessionList ++ s.waiting, s.active c = true →
        c ∈ (s.work w).sessionList ++ (s.work w).waiting := by
  rcases work_cases s w with ⟨spot, done⟩ | ⟨b, rest, waiting, done⟩ | ⟨b, spot, closed, done⟩ | done
    <;> rw [done]
  · exact ⟨List.Sublist.refl _, rfl, rfl, fun _ member _ => member⟩
  · have same : s.sessionList ++ [b] ++ rest = s.sessionList ++ s.waiting := by
      rw [waiting, List.append_assoc, List.singleton_append]
    exact ⟨same ▸ List.Sublist.refl _, rfl, rfl, fun _ member _ => same ▸ member⟩
  · refine ⟨List.erase_sublist.append_right _, rfl, rfl, fun c member active => ?_⟩
    have other : c ≠ b := by
      rintro rfl
      cases closed.symm.trans active
    rcases List.mem_append.mp member with listed | waits
    · exact List.mem_append_left _ ((List.mem_erase_of_ne other).mpr listed)
    · exact List.mem_append_right _ waits
  · exact ⟨List.Sublist.refl _, rfl, rfl, fun _ member _ => member⟩

theorem work_other (s : Workers) {v : Nat} (other : v ≠ w) : (s.work w).spot v = s.spot v := by
  rcases work_cases s w with ⟨spot, done⟩ | ⟨b, rest, -, done⟩ | ⟨b, spot, -, done⟩ | done
    <;> rw [done]
  · exact goto_other s other spot
  · exact goto_other _ other spot

/-- The worker in `update` is the only one, or is about to be. -/
theorem Managed.others (managed : Managed workers s) (alone : Alone s (.work w)) {v : Nat}
    (other : v ≠ w) : s.spot v = .events := by
  by_cases outside : s.spot w = .events
  · exact alone outside v
  · by_contra inside
    exact other (managed.single v w inside outside)

theorem Managed.apart (managed : Managed workers s) {e : WorkerEvent} (alone : Alone s e) :
    Apart s e := by
  cases e with
  | accept => trivial
  | close c => trivial
  | work w =>
    intro c _ _ v other
    rw [managed.others alone other]
    exact Option.some_ne_none c ∘ Eq.symm

theorem Managed.work (managed : Managed workers s) (own : w < workers)
    (alone : Alone s (.work w)) : Managed workers (s.work w) := by
  obtain ⟨fewer, next, active, stays⟩ := work_sublist s w
  refine ⟨managed.tidy.work own (managed.apart alone), managed.sorted.sublist fewer, ?_, ?_, ?_⟩
  · rw [next, active]
    exact fun c low opened => stays c (managed.kept c low opened) opened
  · rw [next, active]
    exact managed.closed
  · have only : ∀ v, (s.work w).spot v ≠ .events → v = w := by
      intro v inside
      by_contra other
      exact inside ((work_other s other).trans (managed.others alone other))
    exact fun u v first second => (only u first).trans (only v second).symm

theorem Managed.step (managed : Managed workers s) {e : WorkerEvent} (alone : Alone s e)
    (stepped : Workers.step workers s e = some t) : Managed workers t := by
  have tidy := managed.tidy.step (managed.apart alone) stepped
  cases e with
  | accept =>
    cases stepped
    refine ⟨tidy, ?_, ?_, fun c never => Nat.lt_succ_of_lt (managed.closed c never), managed.single⟩
    · rw [← List.append_assoc]
      refine List.pairwise_append.mpr ⟨managed.sorted, List.pairwise_singleton _ _, ?_⟩
      intro b member c last
      rw [List.mem_singleton.mp last]
      exact managed.tidy.known b member
    · intro c low active
      rw [← List.append_assoc, List.mem_append, List.mem_singleton]
      rcases Nat.lt_succ_iff_lt_or_eq.mp low with old | rfl
      · exact .inl (managed.kept c old active)
      · exact .inr rfl
  | close b =>
    rw [Workers.step] at stepped
    split at stepped <;> cases stepped
    rename_i enabled
    refine ⟨tidy, managed.sorted, fun c low active => ?_, fun c never => ?_, managed.single⟩
    · by_cases same : c = b
      · subst same
        simp at active
      · exact managed.kept c low (by simpa [Function.update_of_ne same] using active)
    · by_cases same : c = b
      · subst same
        exact enabled.1
      · exact managed.closed c (by simpa [Function.update_of_ne same] using never)
  | work w =>
    rw [Workers.step] at stepped
    split at stepped <;> cases stepped
    exact managed.work ‹_› alone

theorem head_le {sessions : List Nat} (sorted : sessions.Pairwise (· < ·)) (member : c ∈ sessions) :
    ∃ b, sessions.head? = some b ∧ b ≤ c := by
  cases sessions with
  | nil => cases member
  | cons b rest =>
    refine ⟨b, rfl, ?_⟩
    rcases List.mem_cons.mp member with rfl | later
    · exact Nat.le_refl _
    · exact Nat.le_of_lt ((List.pairwise_cons.mp sorted).1 c later)

/-- The iterator does not step over a session. -/
theorem after_le {b : Nat} {sessions : List Nat} (sorted : sessions.Pairwise (· < ·))
    (here : b ∈ sessions) (member : c ∈ sessions) (less : b < c) :
    ∃ d, after b sessions = some d ∧ d ≤ c := by
  induction sessions with
  | nil => cases member
  | cons session rest ih =>
    obtain ⟨above, sorted⟩ := List.pairwise_cons.mp sorted
    rw [after]
    split
    · rename_i same
      subst same
      rcases List.mem_cons.mp member with rfl | later
      · exact absurd less (Nat.lt_irrefl _)
      · exact head_le sorted later
    · rename_i other
      have inside : b ∈ rest := (List.mem_cons.mp here).resolve_left (Ne.symm other)
      rcases List.mem_cons.mp member with rfl | later
      · exact absurd (above b inside) (Nat.lt_asymm less)
      · exact ih sorted inside later

/-- The worker itself: what it has passed is not the closed session. -/
theorem Passing.own (passing : Passing w c s) (managed : Managed workers s)
    (closed : s.active c = false) : Passing w c (s.work w) := by
  have sorted := (List.pairwise_append.mp managed.sorted).1
  rw [Passing] at passing
  rw [Workers.work]
  cases stands : s.spot w with
  | events =>
    rw [Passing, goto_self]
    trivial
  | drain =>
    cases waits : s.waiting with
    | nil =>
      rw [Passing, goto_self]
      exact ⟨by simp [Workers.goto, waits], head_le sorted⟩
    | cons b rest =>
      simp only [Passing, stands]
  | check iter =>
    rw [stands] at passing
    obtain ⟨fetched, reached⟩ := passing
    cases iter with
    | none =>
      rw [Passing, goto_self]
      have gone : c ∉ s.sessionList := by
        intro listed
        obtain ⟨b, none, -⟩ := reached listed
        cases none
      exact fun member => (List.mem_append.mp member).elim gone fetched
    | some b =>
      have here : b ∈ s.sessionList := managed.tidy.valid w b (by rw [stands]; rfl)
      have further : c ≠ b → c ∈ s.sessionList → ∃ d, after b s.sessionList = some d ∧ d ≤ c := by
        intro other listed
        obtain ⟨b', same, least⟩ := reached listed
        cases same
        exact after_le sorted here listed (Nat.lt_of_le_of_ne least (Ne.symm other))
      simp only [if_pos here]
      split
      · rename_i active
        rw [Passing, goto_self]
        refine ⟨fetched, further ?_⟩
        rintro rfl
        cases closed.symm.trans active
      · rw [Passing, goto_self]
        refine ⟨fetched, fun listed => ?_⟩
        obtain ⟨other, listed⟩ := sorted.nodup.mem_erase_iff.mp listed
        exact further other listed
  | update iter =>
    rw [stands] at passing
    cases iter with
    | none =>
      rw [Passing, goto_self]
      exact passing
    | some b =>
      have here : b ∈ s.sessionList := managed.tidy.valid w b (by rw [stands]; rfl)
      simp only [if_pos here]
      rw [Passing, goto_self]
      exact passing

theorem Passing.step (passing : Passing w c s) (managed : Managed workers s)
    (closed : s.active c = false) {e : WorkerEvent} (alone : Alone s e)
    (stepped : Workers.step workers s e = some t) : Passing w c t ∧ t.active c = false := by
  cases e with
  | accept =>
    cases stepped
    have new : c ≠ s.next := Nat.ne_of_lt (managed.closed c closed)
    refine ⟨?_, closed⟩
    simp only [Passing] at passing ⊢
    split <;> simp_all
  | close b =>
    rw [Workers.step] at stepped
    split at stepped <;> cases stepped
    refine ⟨passing, ?_⟩
    by_cases same : c = b
    · simp [same]
    · simpa [Function.update_of_ne same] using closed
  | work v =>
    rw [Workers.step] at stepped
    split at stepped <;> cases stepped
    obtain ⟨fewer, -, active, -⟩ := work_sublist s v
    refine ⟨?_, active ▸ closed⟩
    by_cases same : w = v
    · subst same
      exact passing.own managed closed
    · have outside := managed.others alone same
      simp only [Passing, work_other s same, outside] at passing ⊢
      exact fun member => passing (fewer.subset member)

end Passes

/-- Along every run of any number of workers whose calls of `update` do not overlap: no deleted
session is used, the list has the sessions in the order in which they came, only closed ones are
missing, and a session that is closed when a worker begins `checkSession` is deleted when it is
through with it, whatever comes and closes meanwhile. -/
theorem serial_updates (workers : Nat) (events : List WorkerEvent) (s : Workers)
    (alone : Runs.Guarded (Workers.step workers) Alone .start events)
    (reached : Runs.run (Workers.step workers) .start events = some s) :
    s.late = 0 ∧ (s.sessionList ++ s.waiting).Pairwise (· < ·) ∧
    (∀ c, c < s.next → c ∉ s.sessionList ++ s.waiting → s.active c = false) ∧
    ∀ w c later t, s.spot w = .drain → s.active c = false →
      Runs.Guarded (Workers.step workers) Alone s later →
      Runs.run (Workers.step workers) s later = some t → (t.spot w).checking = false →
      c ∉ t.sessionList ++ t.waiting := by
  have managed : Managed workers s := (Runs.guarded_invariant
    (fun _ _ _ managed alone stepped => managed.step alone stepped) managed_start alone).last reached
  refine ⟨managed.tidy.never, managed.sorted, fun c low gone => ?_, ?_⟩
  · by_contra active
    exact gone (managed.kept c low (Bool.not_eq_false _ ▸ active))
  · intro w c later t begun closed alone' continued through
    have invariant : ∀ s e t, Managed workers s ∧ Passing w c s ∧ s.active c = false → Alone s e →
        Workers.step workers s e = some t →
        Managed workers t ∧ Passing w c t ∧ t.active c = false := by
      rintro s e t ⟨managed, passing, closed⟩ alone stepped
      exact ⟨managed.step alone stepped, passing.step managed closed alone stepped⟩
    have initial : Managed workers s ∧ Passing w c s ∧ s.active c = false := by
      refine ⟨managed, ?_, closed⟩
      rw [Passing, begun]
      trivial
    obtain ⟨-, passing, -⟩ := (Runs.guarded_invariant invariant initial alone').last continued
    rw [Passing] at passing
    cases here : t.spot w with
    | events => rwa [here] at passing
    | update iter => rwa [here] at passing
    | drain =>
      rw [here] at through
      cases through
    | check iter =>
      rw [here] at through
      cases through

/-- Calls of one worker do not overlap. -/
theorem alone_of_one {workers w : Nat} {s : Workers} (outside : ∀ v, v ≠ w → s.spot v = .events)
    {events : List WorkerEvent} (own : ∀ v, WorkerEvent.work v ∈ events → v = w) :
    Runs.Guarded (Workers.step workers) Alone s events := by
  induction events generalizing s with
  | nil => exact .nil
  | cons e rest ih =>
    have later : ∀ v, WorkerEvent.work v ∈ rest → v = w := fun v member =>
      own v (List.mem_cons_of_mem _ member)
    cases e with
    | accept =>
      refine .cons (fun _ _ => trivial) fun t stepped => ih ?_ later
      cases stepped
      exact outside
    | close c =>
      refine .cons (fun _ _ => trivial) fun t stepped => ih ?_ later
      rw [Workers.step] at stepped
      split at stepped <;> cases stepped
      exact outside
    | work v =>
      obtain rfl := own v List.mem_cons_self
      refine .cons (fun _ _ begins u => ?_) fun t stepped => ih (fun u other => ?_) later
      · by_cases same : u = v
        · exact same ▸ begins
        · exact outside u same
      · rw [Workers.step] at stepped
        split at stepped <;> cases stepped
        rw [work_other s other]
        exact outside u other

/-- Of two workers the second one deletes the session that the first one has closed, while a third
connection comes and is closed. -/
theorem serial_updates_pass :
    ∃ s t, Runs.run (Workers.step 2) .start [.accept, .accept, .close 0, .work 1] = some s ∧
      Runs.run (Workers.step 2) s [.work 1, .work 1, .work 1, .accept, .close 2, .work 1, .work 1,
        .work 1] = some t ∧
      s.late = 0 ∧ 0 ∉ t.sessionList ++ t.waiting ∧ 2 ∈ t.waiting := by
  have ran : ((Runs.run (Workers.step 2) .start [.accept, .accept, .close 0, .work 1]).bind fun s =>
      (Runs.run (Workers.step 2) s [.work 1, .work 1, .work 1, .accept, .close 2, .work 1, .work 1,
        .work 1]).map fun t => (s.spot 1, s.active 0, t.spot 1, t.waiting)) =
      some (.drain, false, .update (some 1), [2]) := by decide
  obtain ⟨s, reached, later⟩ := Option.bind_eq_some_iff.mp ran
  obtain ⟨t, continued, same⟩ := Option.map_eq_some_iff.mp later
  simp only [Prod.mk.injEq] at same
  obtain ⟨begun, closed, through, waiting⟩ := same
  have alone : Runs.Guarded (Workers.step 2) Alone .start ([.accept, .accept, .close 0, .work 1] ++
      [.work 1, .work 1, .work 1, .accept, .close 2, .work 1, .work 1, .work 1]) :=
    alone_of_one (w := 1) (fun _ _ => rfl) (by simp)
  obtain ⟨never, -, -, gone⟩ := serial_updates 2 _ s (alone.mono (List.prefix_append _ _)) reached
  refine ⟨s, t, reached, continued, never, ?_, by simp [waiting]⟩
  exact gone 1 0 _ t begun closed (alone.later reached) continued (by rw [through]; rfl)

/-- One worker never uses a session that has been deleted; of several workers, as `init` makes two
for each processor, one can. -/
theorem sessions_safe_iff (workers : Nat) :
    (∀ events, Runs.Throughout (Workers.step workers) (fun s => s.late = 0) .start events) ↔
      workers ≤ 1 := by
  constructor
  · intro safe
    by_contra several
    have first : 0 < workers := by omega
    have second : 1 < workers := by omega
    -- The first worker deletes the session that the second one has its iterator at.
    have ran : (Runs.run (Workers.step workers) .start [.accept, .work 1, .work 1, .work 1, .close 0,
        .work 0, .work 0, .work 0, .work 1]).map (·.late) = some 1 := by
      simp [Runs.run_cons, Workers.step, Workers.work, Workers.goto, Workers.start, first, second, after]
    obtain ⟨s, reached, late⟩ := Option.map_eq_some_iff.mp ran
    cases ((safe _).last reached).symm.trans late
  · intro one events
    have preserved : ∀ s e t, Tidy workers s → Workers.step workers s e = some t → Tidy workers t := by
      intro s e t tidy stepped
      refine tidy.step ?_ stepped
      cases e with
      | accept => trivial
      | close c => trivial
      | work w =>
        intro c _ _ v other stands
        rw [Workers.step] at stepped
        split at stepped <;> cases stepped
        rw [tidy.idle v (by omega)] at stands
        cases stands
    intro pre s inside reached
    exact (Runs.invariant preserved tidy_start events pre s inside reached).never

end Sometest.SingleThread
