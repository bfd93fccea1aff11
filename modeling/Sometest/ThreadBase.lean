import Sometest.Lib.Run

/-! threadBase.h and threadBase.cpp, the same in the three servers, and what CListener.cpp makes of
them. Each read and each write of `thradState_` is one step. -/
namespace Sometest.ThreadBase

inductive ThreadState where
  | init
  | start
  | run
  | pending
  | end_
  deriving DecidableEq

/-- What the thread is about to do in `Run`: one of the four comparisons, or what follows one. -/
inductive Place where
  | uncreated
  | isRun
  | isStart
  | setRun
  | preRunKernel
  | kernel
  | isPending
  | sleep
  | isEnd
  | ended
  deriving DecidableEq

/-- The virtual functions of a derived class, with the results of the calls they make to the system.
`preRunKernel` returns whether it returned `0`, `kernel` whether it set `enumThreadEnd`. -/
structure Derived (Own Outcome : Type*) where
  preRunKernel : Own → Outcome → Own × Bool
  kernel : Own → Outcome → Own × Bool

inductive Action where
  | create
  | set (state : ThreadState)
  | join
  deriving DecidableEq

inductive Method where
  | start
  | pause
  | resume
  | stop
  deriving DecidableEq

def Method.actions : Method → List Action
  | .start => [.create, .set .start]
  | .pause => [.set .pending]
  | .resume => [.set .run]
  | .stop => [.set .end_, .join]

/-- `todo` is what the owner of the thread has still to do. -/
structure Thread (Own : Type*) where
  thradState : ThreadState
  place : Place
  own : Own
  todo : List Action

def Thread.init {Own : Type*} (own : Own) (calls : List Method) : Thread Own :=
  ⟨.init, .uncreated, own, calls.flatMap Method.actions⟩

inductive Event (Outcome : Type*) where
  | owner
  | thread (outcome : Outcome)

section Steps
variable {Own Outcome : Type*} (d : Derived Own Outcome)

def run (s : Thread Own) (outcome : Outcome) : Option (Thread Own) :=
  match s.place with
  | .isRun => some { s with place := if s.thradState = .run then .kernel else .isStart }
  | .isStart => some { s with place := if s.thradState = .start then .setRun else .isPending }
  | .setRun => some { s with thradState := .run, place := .preRunKernel }
  | .preRunKernel =>
    let (own, ok) := d.preRunKernel s.own outcome
    some { s with own, place := if ok then .kernel else .ended }
  | .kernel =>
    let (own, ends) := d.kernel s.own outcome
    some { s with own, thradState := if ends then .end_ else s.thradState, place := .isRun }
  | .isPending => some { s with place := if s.thradState = .pending then .sleep else .isEnd }
  | .sleep => some { s with place := .isRun }
  | .isEnd => some { s with place := if s.thradState = .end_ then .ended else .isRun }
  | .uncreated => none
  | .ended => none

/-- `pthread_create` succeeds, and `pthread_join` waits for the end of `Run`. -/
def act (s : Thread Own) : Option (Thread Own) :=
  match s.todo with
  | [] => none
  | .create :: todo => if s.place = .uncreated then some { s with place := .isRun, todo } else none
  | .set state :: todo => some { s with thradState := state, todo }
  | .join :: todo => if s.place = .ended then some { s with todo } else none

def step (s : Thread Own) : Event Outcome → Option (Thread Own)
  | .owner => act s
  | .thread outcome => run d s outcome

end Steps

section Stopping
variable {Own Outcome : Type*} {d : Derived Own Outcome} {s : Thread Own}

/-- The number of steps to the end from a place, with `enumThreadEnd` set. -/
def Place.distance : Place → Nat
  | .isRun => 4
  | .isStart => 3
  | .isPending => 2
  | .isEnd => 1
  | .kernel => 5
  | .sleep => 5
  | .preRunKernel => 6
  | _ => 0

structure Ending (s : Thread Own) : Prop where
  set : s.thradState = .end_
  created : s.place ≠ .uncreated
  kept : s.place ≠ .setRun

theorem Ending.advance (ending : Ending s) (going : s.place ≠ .ended) (outcome : Outcome) :
    ∃ t, run d s outcome = some t ∧ Ending t ∧ t.place.distance < s.place.distance := by
  obtain ⟨set, created, kept⟩ := ending
  rw [run]
  cases stands : s.place with
  | uncreated => exact absurd stands created
  | setRun => exact absurd stands kept
  | ended => exact absurd stands going
  | preRunKernel =>
    cases ok : (d.preRunKernel s.own outcome).2 <;>
      exact ⟨_, rfl, ⟨set, by simp [ok], by simp [ok]⟩, by simp [ok, Place.distance]⟩
  | kernel => exact ⟨_, rfl, ⟨by simp [set], by simp, by simp⟩, by simp [Place.distance]⟩
  | _ => exact ⟨_, rfl, ⟨set, by simp [set], by simp [set]⟩, by simp [set, Place.distance]⟩

theorem Ending.ends (ending : Ending s) (outcomes : List Outcome)
    (enough : s.place.distance ≤ outcomes.length) :
    ∃ used t, used <+: outcomes ∧ Runs.run (step d) s (used.map .thread) = some t ∧
      t.place = .ended := by
  induction outcomes generalizing s with
  | nil =>
    refine ⟨[], s, List.prefix_refl _, rfl, ?_⟩
    by_contra going
    obtain ⟨created, kept⟩ := And.intro ending.created ending.kept
    cases stands : s.place <;> simp_all [Place.distance]
  | cons outcome rest ih =>
    by_cases finished : s.place = .ended
    · exact ⟨[], s, List.nil_prefix, rfl, finished⟩
    · obtain ⟨u, first, ending', less⟩ := ending.advance (d := d) finished outcome
      rw [List.length_cons] at enough
      obtain ⟨used, t, inside, ran, ended⟩ := ih ending' (by omega)
      refine ⟨outcome :: used, t, List.cons_prefix_cons.mpr ⟨rfl, inside⟩, ?_, ended⟩
      rw [List.map_cons, Runs.run_cons, step, first, Option.bind_some, ran]

structure Running (s : Thread Own) : Prop where
  set : s.place ≠ .setRun → s.thradState = .run
  cycle : s.place = .isRun ∨ s.place = .kernel ∨ s.place = .preRunKernel ∨ s.place = .setRun

theorem Running.advance (running : Running s) {outcome : Outcome}
    (ok : (d.preRunKernel s.own outcome).2 = true) (on : (d.kernel s.own outcome).2 = false) :
    ∃ t, run d s outcome = some t ∧ Running t := by
  obtain ⟨set, cycle⟩ := running
  rw [run]
  rcases cycle with stands | stands | stands | stands <;> simp only [stands] <;>
    refine ⟨_, rfl, ?_, ?_⟩ <;> simp_all

theorem Running.on (running : Running s) (outcomes : List Outcome)
    (fine : ∀ o ∈ outcomes, ∀ own, (d.preRunKernel own o).2 = true ∧ (d.kernel own o).2 = false) :
    ∃ t, Runs.run (step d) s (outcomes.map .thread) = some t ∧ Running t := by
  induction outcomes generalizing s with
  | nil => exact ⟨s, rfl, running⟩
  | cons outcome rest ih =>
    obtain ⟨ok, on⟩ := fine outcome List.mem_cons_self s.own
    obtain ⟨u, first, running'⟩ := running.advance ok on
    obtain ⟨t, ran, still⟩ := ih running' fun o member => fine o (List.mem_cons_of_mem _ member)
    refine ⟨t, ?_, still⟩
    rw [List.map_cons, Runs.run_cons, step, first, Option.bind_some, ran]

theorem run_todo {t : Thread Own} {outcome : Outcome} (ran : run d s outcome = some t) :
    t.todo = s.todo := by
  rw [run] at ran
  split at ran <;> cases ran <;> rfl

theorem threads_todo {outcomes : List Outcome} {t : Thread Own}
    (ran : Runs.run (step d) s (outcomes.map .thread) = some t) : t.todo = s.todo := by
  induction outcomes generalizing s with
  | nil =>
    cases ran
    rfl
  | cons outcome rest ih =>
    obtain ⟨u, first, ran⟩ := Option.bind_eq_some_iff.mp ran
    exact (ih ran).trans (run_todo first)

theorem created_run {own : Own} {calls : List Method} {events : List (Event Outcome)}
    (reached : Runs.run (step d) (.init own (.start :: calls)) events = some s) :
    s.place = .uncreated → s.todo.head? = some .create := by
  have preserved : ∀ (s : Thread Own) e t, (s.place = .uncreated → s.todo.head? = some .create) →
      step d s e = some t → t.place = .uncreated → t.todo.head? = some .create := by
    intro s e t before stepped fresh
    cases e with
    | owner =>
      rw [step, act] at stepped
      split at stepped
      · cases stepped
      · split at stepped <;> cases stepped
        cases fresh
      · rename_i todo
        cases stepped
        rw [todo] at before
        cases before fresh
      · rename_i todo
        split at stepped <;> cases stepped
        rw [todo] at before
        cases before fresh
    | thread outcome =>
      rw [step, run] at stepped
      split at stepped <;> cases stepped <;> revert fresh <;> dsimp only
      all_goals first | (intro fresh; cases fresh) | (split <;> intro fresh <;> cases fresh)
  exact (Runs.invariant preserved (fun _ => rfl) events).last reached

end Stopping

/-- Whenever the owner of a thread is about to stop it: `stop` returns after at most six more steps of
the thread, unless the thread has found `enumThreadStart` and is about to write `enumThreadRun`. Then
`stop` does not return as long as `preRunKernel` succeeds and `Kernel` does not end the thread. -/
theorem stop_returns_unless_overwritten {Own Outcome : Type*} (d : Derived Own Outcome) (own : Own)
    (calls : List Method) (before : List (Event Outcome)) (s : Thread Own) (rest : List Action)
    (reached : Runs.run (step d) (.init own (.start :: calls)) before = some s)
    (stopping : s.todo = Method.stop.actions ++ rest) :
    (s.place ≠ .setRun → ∀ outcomes : List Outcome, 6 ≤ outcomes.length →
      ∃ used t, used <+: outcomes ∧
        Runs.run (step d) s (.owner :: used.map .thread ++ [.owner]) = some t ∧ t.todo = rest) ∧
    (s.place = .setRun → ∀ outcomes : List Outcome,
      (∀ o ∈ outcomes, ∀ own, (d.preRunKernel own o).2 = true ∧ (d.kernel own o).2 = false) →
        Runs.run (step d) s (.owner :: outcomes.map .thread ++ [.owner]) = none) := by
  have set : step d s .owner = some { s with thradState := .end_, todo := .join :: rest } := by
    rw [step, act, stopping]
    rfl
  constructor
  · intro kept outcomes enough
    have ending : Ending { s with thradState := .end_, todo := .join :: rest } := by
      refine ⟨rfl, fun fresh => ?_, kept⟩
      have first := created_run reached fresh
      rw [stopping] at first
      cases first
    have near : s.place.distance ≤ 6 := by cases s.place <;> simp [Place.distance]
    obtain ⟨used, t, inside, ran, ended⟩ := ending.ends (d := d) outcomes (near.trans enough)
    have todo : t.todo = .join :: rest := threads_todo ran
    refine ⟨used, { t with todo := rest }, inside, ?_, rfl⟩
    rw [List.cons_append, Runs.run_cons, set, Option.bind_some, Runs.run_append, ran,
      Option.bind_some, Runs.run_cons, step, act, todo]
    simp only [ended, if_true, Option.bind_some, Runs.run_nil]
  · intro found outcomes fine
    have running : Running { s with thradState := .end_, todo := .join :: rest } :=
      ⟨fun other => absurd found other, .inr (.inr (.inr found))⟩
    obtain ⟨t, ran, running'⟩ := running.on outcomes fine
    have todo : t.todo = .join :: rest := threads_todo ran
    have going : t.place ≠ .ended := by
      intro ended
      simpa [ended] using running'.cycle
    rw [List.cons_append, Runs.run_cons, set, Option.bind_some, Runs.run_append, ran,
      Option.bind_some, Runs.run_cons, step, act, todo]
    simp only [if_neg going, Option.bind_none]

/-- `listening` are the sockets that `bind` and `listen` have succeeded for. -/
structure Listener where
  listenSocket : Int
  listening : List Int

/-- What `socket` returns, whether `bind`, `listen` and `select` succeed. -/
structure Results where
  socket : Int
  bind : Bool
  listen : Bool
  select : Bool

/-- CListener. What `Kernel` accepts is left out. -/
def cListener : Derived Listener Results where
  preRunKernel l r :=
    if 0 < l.listenSocket then (l, true)
    else if r.socket < 0 then ({ l with listenSocket := r.socket }, false)
    else if !r.bind then ({ l with listenSocket := r.socket }, false)
    else if !r.listen then ({ l with listenSocket := r.socket }, false)
    else (⟨r.socket, r.socket :: l.listening⟩, true)
  kernel l r := (l, !r.select)

def Listener.Listens (l : Listener) : Prop := l.listenSocket ∈ l.listening

/-- The thread has run into `stop` where `stop` goes unnoticed. -/
theorem stop_returns_unless_overwritten_listener :
    ∃ s, Runs.run (step cListener) (.init ⟨0, []⟩ [.start, .stop])
        [.owner, .owner, .thread ⟨3, true, true, true⟩, .thread ⟨3, true, true, true⟩] = some s ∧
      Runs.run (step cListener) s
        (.owner :: (List.replicate 9 ⟨3, true, true, true⟩).map .thread ++ [.owner]) = none := by
  refine ⟨_, rfl, ?_⟩
  refine (stop_returns_unless_overwritten cListener ⟨0, []⟩ [.stop]
    [.owner, .owner, .thread ⟨3, true, true, true⟩, .thread ⟨3, true, true, true⟩] _ [] rfl rfl).2
    rfl _ fun o member own => ?_
  rw [List.eq_of_mem_replicate member, cListener]
  dsimp only
  split <;> exact ⟨rfl, rfl⟩

section Listening
variable {s t : Thread Listener} {calls : List Method}

/-- A thread that has not called `preRunKernel`, or is about to. -/
structure Unready (s : Thread Listener) : Prop where
  place : s.place ≠ .kernel
  unset : s.thradState = .run → s.place = .preRunKernel
  socket : s.own.listenSocket = 0
  early : .set .run ∉ s.todo.takeWhile (· ≠ .join)

theorem Unready.owner (unready : Unready s) (going : s.place ≠ .ended) (acted : act s = some t) :
    Unready t := by
  obtain ⟨place, unset, socket, early⟩ := unready
  rw [act] at acted
  split at acted
  · cases acted
  · rename_i todo
    split at acted <;> cases acted
    rename_i fresh
    refine ⟨by simp, fun set => ?_, socket, ?_⟩
    · have := unset set
      rw [fresh] at this
      cases this
    · simpa [todo] using early
  · rename_i state rest todo
    cases acted
    have other : state ≠ .run := by
      rintro rfl
      simp [todo] at early
    refine ⟨place, fun set => absurd set other, socket, ?_⟩
    simp [todo] at early
    exact fun member => early.2 (by simpa using member)
  · split at acted
    · exact absurd ‹_› going
    · cases acted

theorem Unready.thread (unready : Unready s) {r : Results} (ran : run cListener s r = some t) :
    t.own.Listens ∨ t.place = .ended ∨ Unready t := by
  obtain ⟨place, unset, socket, early⟩ := unready
  -- Where the state is compared it is not `enumThreadRun`.
  have moved : s.place ≠ .preRunKernel → ∀ place, place ≠ .kernel → Unready { s with place } :=
    fun elsewhere _ here => ⟨here, fun set => absurd (unset set) elsewhere, socket, early⟩
  rw [run] at ran
  cases stands : s.place <;> rw [stands] at ran moved <;> dsimp only at ran <;> cases ran
  case kernel => exact absurd stands place
  case isRun =>
    have other : s.thradState ≠ .run := fun set => by simp [stands] at unset; exact unset set
    rw [if_neg other]
    exact .inr (.inr (moved (by simp) _ (by simp)))
  case isStart =>
    refine .inr (.inr (moved (by simp) _ ?_))
    split <;> simp
  case setRun => exact .inr (.inr ⟨by simp, fun _ => rfl, socket, early⟩)
  case preRunKernel =>
    simp only [cListener, socket, Int.lt_irrefl, if_false]
    split
    · exact .inr (.inl rfl)
    · split
      · exact .inr (.inl rfl)
      · split
        · exact .inr (.inl rfl)
        · exact .inl List.mem_cons_self
  case isPending =>
    refine .inr (.inr (moved (by simp) _ ?_))
    split <;> simp
  case sleep => exact .inr (.inr (moved (by simp) _ (by simp)))
  case isEnd =>
    split
    · exact .inr (.inl rfl)
    · exact .inr (.inr (moved (by simp) _ (by simp)))

theorem preRunKernel_listens (listens : s.own.Listens) (r : Results) :
    (cListener.preRunKernel s.own r).1.Listens ∨
      (if (cListener.preRunKernel s.own r).2 then Place.kernel else .ended) = .ended := by
  simp only [cListener]
  split
  · exact .inl listens
  · split
    · exact .inr rfl
    · split
      · exact .inr rfl
      · split
        · exact .inr rfl
        · exact .inl List.mem_cons_self

def Ready (s : Thread Listener) : Prop := s.own.Listens ∨ s.place = .ended ∨ Unready s

theorem Ready.step (ready : Ready s) {e : Event Results} (stepped : step cListener s e = some t) :
    Ready t := by
  cases e with
  | owner =>
    rw [ThreadBase.step] at stepped
    have frame : t.own = s.own ∧ (s.place = .ended → t.place = .ended) := by
      rw [act] at stepped
      split at stepped
      · cases stepped
      · split at stepped <;> cases stepped
        rename_i fresh
        exact ⟨rfl, fun ended => by rw [fresh] at ended; cases ended⟩
      · cases stepped
        exact ⟨rfl, id⟩
      · split at stepped <;> cases stepped
        exact ⟨rfl, id⟩
    rcases ready with listens | ended | unready
    · exact .inl (frame.1 ▸ listens)
    · exact .inr (.inl (frame.2 ended))
    · by_cases ended : s.place = .ended
      · exact .inr (.inl (frame.2 ended))
      · exact .inr (.inr (unready.owner ended stepped))
  | thread r =>
    rw [ThreadBase.step] at stepped
    rcases ready with listens | ended | unready
    · rw [run] at stepped
      split at stepped <;> cases stepped <;> try exact .inl listens
      exact (preRunKernel_listens listens r).imp_right .inl
    · rw [run, ended] at stepped
      cases stepped
    · exact unready.thread stepped

theorem early_iff (once : .start ∉ calls) :
    .set .run ∈ (calls.flatMap Method.actions).takeWhile (· ≠ .join) ↔
      .resume ∈ calls.takeWhile (· ≠ .stop) := by
  induction calls with
  | nil => simp
  | cons call rest ih =>
    have other := List.ne_of_not_mem_cons once
    have later := List.not_mem_of_not_mem_cons once
    cases call with
    | start => exact absurd rfl other
    | stop => simp [Method.actions]
    | resume => simp [Method.actions]
    | pause => simpa [Method.actions] using ih later

theorem writes_run (states : List ThreadState) {rest : List Action}
    (todo : s.todo = states.map .set ++ rest) :
    Runs.run (step cListener) s (List.replicate states.length .owner) =
      some { s with thradState := states.getLastD s.thradState, todo := rest } := by
  induction states generalizing s with
  | nil =>
    rw [List.map_nil, List.nil_append] at todo
    subst todo
    rfl
  | cons state states ih =>
    rw [List.length_cons, List.replicate_succ, Runs.run_cons, step, act, todo]
    exact (ih rfl).trans (by cases states <;> rfl)

/-- A `resume` before the first `stop` comes after writes only. -/
theorem resume_writes (once : .start ∉ calls) (resume : .resume ∈ calls.takeWhile (· ≠ .stop)) :
    ∃ (states : List ThreadState) (rest : List Action),
      calls.flatMap Method.actions = (states ++ [ThreadState.run]).map .set ++ rest := by
  induction calls with
  | nil => simp at resume
  | cons call rest ih =>
    have other := List.ne_of_not_mem_cons once
    have later := List.not_mem_of_not_mem_cons once
    cases call with
    | start => exact absurd rfl other
    | stop => simp at resume
    | resume => exact ⟨[], rest.flatMap Method.actions, rfl⟩
    | pause =>
      obtain ⟨states, todo, same⟩ := ih later (by simpa using resume)
      exact ⟨.pending :: states, todo, by rw [List.flatMap_cons, same]; rfl⟩

end Listening

/-- `Kernel` selects on a listening socket only, in every order of the steps of the thread and of its
owner, exactly when the owner does not call `resume` between `start` and the first `stop`. -/
theorem selects_on_listening_iff (calls : List Method) (once : .start ∉ calls) :
    (∀ events, Runs.Throughout (step cListener) (fun s => s.place = .kernel → s.own.Listens)
      (.init ⟨0, []⟩ (.start :: calls)) events) ↔ .resume ∉ calls.takeWhile (· ≠ .stop) := by
  constructor
  · intro always resume
    obtain ⟨states, rest, writes⟩ := resume_writes once resume
    -- The owner gets as far as `resume` before the thread compares anything.
    let s : Thread Listener := ⟨.start, .isRun, ⟨0, []⟩, calls.flatMap Method.actions⟩
    have written := writes_run (s := s) (states ++ [.run]) writes
    rw [List.getLastD_concat] at written
    have wrong := (always ([.owner, .owner] ++
      List.replicate (states ++ [ThreadState.run]).length .owner ++
      [.thread ⟨0, false, false, false⟩])).last (t := ⟨.run, .kernel, ⟨0, []⟩, rest⟩) (by
        rw [Runs.run_append, Runs.run_append]
        show ((Runs.run _ s _).bind _) = _
        rw [written]
        rfl) rfl
    cases wrong
  · intro early events
    have unready : Unready (Thread.init ⟨0, []⟩ (.start :: calls) : Thread Listener) := by
      refine ⟨by simp [Thread.init], by simp [Thread.init], rfl, ?_⟩
      rw [← early_iff once] at early
      simpa [Thread.init, Method.actions] using early
    have always : Runs.Throughout (step cListener) Ready (.init ⟨0, []⟩ (.start :: calls)) events :=
      Runs.invariant (fun _ _ _ ready stepped => ready.step stepped) (.inr (.inr unready)) events
    intro pre s inside reached here
    rcases always pre s inside reached with listens | ended | unready
    · exact listens
    · rw [here] at ended
      cases ended
    · exact absurd here unready.place

theorem selects_on_listening_stop :
    Runs.Throughout (step cListener) (fun s => s.place = .kernel → s.own.Listens)
      (.init ⟨0, []⟩ [.start, .stop])
      (.owner :: .owner :: List.replicate 5 (.thread ⟨3, true, true, true⟩) ++ [.owner]) :=
  (selects_on_listening_iff [.stop] (by decide)).mpr (by decide) _

end Sometest.ThreadBase
