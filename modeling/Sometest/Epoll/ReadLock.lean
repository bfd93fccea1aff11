import Mathlib.Logic.Function.Basic
import Sometest.Lib.Run
import Sometest.Epoll.Connection

/-! Any number of threads in `Read` of one connection, one compare-and-swap or one `recv`
at a time. The release at the end of `Read` is also made by a thread whose attempt on
the lock has failed, and by one that has released it already. -/
namespace Sometest.Epoll
open Sometest.Net

/-- Where a thread stands. `refused`, `released` and `short` are at the release at the end
of `Read`: after an attempt that failed, after the release at `EAGAIN`, and after a short
read. `again` and `failed` are at the releases inside of the loop. -/
inductive Place where
  | outside
  | reading
  | again
  | failed
  | short
  | refused
  | released
  deriving DecidableEq

/-- Between a successful `TryAcquireReadLock` and the thread's own next
`ReleaseReadLock`. -/
def Place.Holding : Place → Prop
  | .reading | .again | .failed | .short => True
  | .outside | .refused | .released => False

structure Readers (I : Type*) where
  conn : Connection
  places : I → Place

inductive ReadAccess (I : Type*) where
  | acquire (t : I)
  | recv (t : I) (result : RecvResult)
  | release (t : I)

section Steps
variable {I : Type*} [DecidableEq I]

def Readers.move (s : Readers I) (conn : Connection) (t : I) (place : Place) : Readers I :=
  ⟨conn, Function.update s.places t place⟩

/-- No outcome for an access that the thread does not make next, and after a fault. With
an empty window the loop goes round without a `recv`. -/
def readAccess (bound : Nat) (s : Readers I) : ReadAccess I → Option (Readers I)
  | .acquire t =>
    match s.places t with
    | .outside =>
      match s.conn.tryAcquireReadLock with
      | (conn, true) => some (s.move conn t .reading)
      | (conn, false) => some (s.move conn t .refused)
    | _ => none
  | .recv t result =>
    match s.places t with
    | .reading =>
      if s.conn.readWindow = 0 then none
      else
        match result with
        | .again => some (s.move s.conn t .again)
        | .failed => some (s.move s.conn t .failed)
        | .data bytes =>
          if bytes = [] then none
          else
            match s.conn.storeReceived bound bytes with
            | .ok conn =>
              some (s.move conn t (if bytes.length < s.conn.readWindow then .short else .reading))
            | .error _ => none
    | _ => none
  | .release t =>
    match s.places t with
    | .again => some (s.move s.conn.releaseReadLock t .released)
    | .failed | .short | .refused | .released => some (s.move s.conn.releaseReadLock t .outside)
    | .outside | .reading => none

end Steps

/-- At most one thread holds the lock, and no release has freed its acquisition. -/
structure Excludes {I : Type*} (s : Readers I) : Prop where
  one : ∀ t t', (s.places t).Holding → (s.places t').Holding → t = t'
  kept : ∀ t, (s.places t).Holding → s.conn.readLock = 1

/-- The condition on a step: a thread that does not hold the lock releases it only when
it is free. -/
def Harmless {I : Type*} (s : Readers I) (a : ReadAccess I) : Prop :=
  ∀ t, a = .release t → s.places t = .refused ∨ s.places t = .released → s.conn.readLock = 0

section Lock
variable {bound : Nat} {bytes : List Byte} {c c' : Connection}

theorem onRead_lock (ran : c.onRead bound = .ok c') : c'.readLock = c.readLock := by
  rw [Connection.onRead] at ran
  split at ran
  · obtain ⟨⟨readBuffer, packetList⟩, -, same⟩ := bind_eq_ok.mp ran
    cases same
    rfl
  · cases ran
    rfl

theorem storeReceived_lock (stored : c.storeReceived bound bytes = .ok c') :
    c'.readLock = c.readLock := by
  rw [Connection.storeReceived] at stored
  split at stored
  · obtain ⟨readBuffer, -, extracted⟩ := bind_eq_ok.mp stored
    have same := onRead_lock extracted
    exact same
  · cases stored
    rfl

theorem releaseReadLock_held (held : c.readLock = 1) : c.releaseReadLock.readLock = 0 := by
  rw [Connection.releaseReadLock, compareAndSwap, if_pos held]

theorem releaseReadLock_free (free : c.readLock = 0) : c.releaseReadLock.readLock = 0 := by
  rw [Connection.releaseReadLock, compareAndSwap, if_neg (by rw [free]; exact Nat.zero_ne_one)]
  exact free

theorem readBody_again {returned : Option Bool}
    (ran : c.readBody bound .again = .ok (c', returned)) : returned = some true := by
  unfold Connection.readBody at ran
  split at ran
  · cases ran
  · cases ran
    rfl

end Lock

section Owner
variable {I : Type*} {s : Readers I}

/-- The lock is taken exactly while one thread holds it. -/
structure Owned (s : Readers I) : Prop where
  excludes : Excludes s
  owner : s.conn.readLock ≠ 0 → ∃ t, (s.places t).Holding

theorem owned_idle (free : s.conn.readLock = 0) (nobody : ∀ t, ¬ (s.places t).Holding) :
    Owned s :=
  ⟨⟨fun t _ holding => absurd holding (nobody t), fun t holding => absurd holding (nobody t)⟩,
    fun taken => absurd free taken⟩

theorem Excludes.free_nobody (excludes : Excludes s) (free : s.conn.readLock = 0) (t : I) :
    ¬ (s.places t).Holding := by
  intro holding
  have taken := excludes.kept t holding
  omega

theorem owned_frame {s' : Readers I} (owned : Owned s)
    (same : s'.conn.readLock = s.conn.readLock)
    (places : ∀ t, (s'.places t).Holding ↔ (s.places t).Holding) : Owned s' := by
  refine ⟨⟨?_, ?_⟩, ?_⟩
  · intro t t' first second
    exact owned.excludes.one t t' ((places t).mp first) ((places t').mp second)
  · intro t holding
    rw [same]
    exact owned.excludes.kept t ((places t).mp holding)
  · intro taken
    obtain ⟨t, holding⟩ := owned.owner (same ▸ taken)
    exact ⟨t, (places t).mpr holding⟩

theorem repeats_not_holding {t : I} (again : s.places t = .refused ∨ s.places t = .released) :
    ¬ (s.places t).Holding := by
  obtain refused | released := again
  · rw [refused]
    exact id
  · rw [released]
    exact id

end Owner

section Accesses
variable {I : Type*} [DecidableEq I] {bound : Nat} {s s' : Readers I} {a : ReadAccess I}

/-- What an access does to the lock and to the place of its thread. -/
inductive Reads (s : Readers I) : ReadAccess I → Readers I → Prop where
  | acquires (t : I) (conn : Connection) (free : s.conn.readLock = 0) (taken : conn.readLock = 1) :
      Reads s (.acquire t) (s.move conn t .reading)
  | refused (t : I) (conn : Connection) (outside : s.places t = .outside)
      (same : conn.readLock = s.conn.readLock) :
      Reads s (.acquire t) (s.move conn t .refused)
  | receives (t : I) (result : RecvResult) (conn : Connection) (place : Place)
      (holds : (s.places t).Holding) (keeps : place.Holding)
      (same : conn.readLock = s.conn.readLock) :
      Reads s (.recv t result) (s.move conn t place)
  | releases (t : I) (place : Place) (holds : (s.places t).Holding) (leaves : ¬ place.Holding) :
      Reads s (.release t) (s.move s.conn.releaseReadLock t place)
  | repeats (t : I) (again : s.places t = .refused ∨ s.places t = .released) :
      Reads s (.release t) (s.move s.conn.releaseReadLock t .outside)

theorem acquire_cases {t : I} (stepped : readAccess bound s (.acquire t) = some s') :
    Reads s (.acquire t) s' := by
  simp only [readAccess] at stepped
  split at stepped
  · rename_i outside
    by_cases free : s.conn.readLock = 0
    · simp only [Connection.tryAcquireReadLock, compareAndSwap, if_pos free] at stepped
      cases stepped
      exact .acquires t _ free rfl
    · simp only [Connection.tryAcquireReadLock, compareAndSwap, if_neg free] at stepped
      cases stepped
      exact .refused t _ outside rfl
  · cases stepped

theorem recv_cases {t : I} {result : RecvResult}
    (stepped : readAccess bound s (.recv t result) = some s') : Reads s (.recv t result) s' := by
  simp only [readAccess] at stepped
  split at stepped
  · rename_i reading
    have holds : (s.places t).Holding := by
      rw [reading]
      trivial
    split at stepped
    · cases stepped
    · cases result with
      | again =>
        cases stepped
        exact .receives t _ _ _ holds trivial rfl
      | failed =>
        cases stepped
        exact .receives t _ _ _ holds trivial rfl
      | data bytes =>
        simp only at stepped
        split at stepped
        · cases stepped
        · split at stepped
          · rename_i conn stored
            cases stepped
            refine .receives t _ conn _ holds ?_ (storeReceived_lock stored)
            split <;> trivial
          · cases stepped
  · cases stepped

theorem release_cases {t : I} (stepped : readAccess bound s (.release t) = some s') :
    Reads s (.release t) s' := by
  have holds : ∀ place : Place, s.places t = place → place.Holding → (s.places t).Holding :=
    fun _ stands holding => stands ▸ holding
  simp only [readAccess] at stepped
  split at stepped
  · rename_i again
    cases stepped
    exact .releases t .released (holds _ again trivial) id
  · rename_i failed
    cases stepped
    exact .releases t .outside (holds _ failed trivial) id
  · rename_i short
    cases stepped
    exact .releases t .outside (holds _ short trivial) id
  · rename_i refused
    cases stepped
    exact .repeats t (.inl refused)
  · rename_i released
    cases stepped
    exact .repeats t (.inr released)
  · cases stepped
  · cases stepped

theorem readAccess_cases (stepped : readAccess bound s a = some s') : Reads s a s' := by
  cases a with
  | acquire t => exact acquire_cases stepped
  | recv t result => exact recv_cases stepped
  | release t => exact release_cases stepped

theorem move_self (conn : Connection) (t : I) (place : Place) :
    (s.move conn t place).places t = place := by
  simp only [Readers.move, Function.update_self]

theorem move_other {t t' : I} (conn : Connection) (place : Place) (other : t' ≠ t) :
    (s.move conn t place).places t' = s.places t' := by
  simp only [Readers.move, Function.update_of_ne other]

theorem owned_move {conn : Connection} {t : I} {place : Place} (owned : Owned s)
    (same : conn.readLock = s.conn.readLock)
    (holding : place.Holding ↔ (s.places t).Holding) : Owned (s.move conn t place) := by
  apply owned_frame owned same
  intro t'
  by_cases moved : t' = t
  · subst moved
    rw [move_self]
    exact holding
  · rw [move_other conn place moved]

theorem owned_acquires {conn : Connection} {t : I} (owned : Owned s)
    (free : s.conn.readLock = 0) (taken : conn.readLock = 1) : Owned (s.move conn t .reading) := by
  have only : ∀ t', ((s.move conn t .reading).places t').Holding → t' = t := by
    intro t' holding
    by_contra other
    rw [move_other conn .reading other] at holding
    exact owned.excludes.free_nobody free t' holding
  refine ⟨⟨?_, fun _ _ => taken⟩, fun _ => ⟨t, ?_⟩⟩
  · intro t' t'' first second
    exact (only t' first).trans (only t'' second).symm
  · rw [move_self]
    trivial

theorem owned_releases {t : I} {place : Place} (owned : Owned s)
    (holds : (s.places t).Holding) (leaves : ¬ place.Holding) :
    Owned (s.move s.conn.releaseReadLock t place) := by
  apply owned_idle (releaseReadLock_held (owned.excludes.kept t holds))
  intro t' holding
  by_cases moved : t' = t
  · subst moved
    rw [move_self] at holding
    exact leaves holding
  · rw [move_other _ _ moved] at holding
    exact moved (owned.excludes.one t' t holding holds)

theorem readAccess_owned (owned : Owned s) (harmless : Harmless s a)
    (stepped : readAccess bound s a = some s') : Owned s' := by
  cases readAccess_cases stepped with
  | acquires t _ free taken => exact owned_acquires owned free taken
  | refused t conn outside same => exact owned_move owned same (by rw [outside]; rfl)
  | receives t result conn place holds keeps same =>
    exact owned_move owned same (iff_of_true keeps holds)
  | releases t place holds leaves => exact owned_releases owned holds leaves
  | repeats t again =>
    have free := harmless t rfl again
    have same : s.conn.releaseReadLock.readLock = s.conn.readLock :=
      (releaseReadLock_free free).trans free.symm
    exact owned_move owned same (iff_of_false id (repeats_not_holding again))

/-- A repeated release of a lock that is taken frees it under its owner. -/
theorem repeats_breaks {t : I} (owned : Owned s)
    (again : s.places t = .refused ∨ s.places t = .released) (taken : s.conn.readLock ≠ 0) :
    ¬ Excludes (s.move s.conn.releaseReadLock t .outside) := by
  intro excludes
  obtain ⟨t', holding⟩ := owned.owner taken
  have other : t' ≠ t := fun same => repeats_not_holding again (same ▸ holding)
  have kept := excludes.kept t' (by rwa [move_other _ _ other])
  have freed := releaseReadLock_held (owned.excludes.kept t' holding)
  exact Nat.zero_ne_one (freed.symm.trans kept)

theorem readAccess_harmless (owned : Owned s) (stepped : readAccess bound s a = some s')
    (excludes : Excludes s') : Harmless s a := by
  rintro t rfl again
  by_contra taken
  cases readAccess_cases stepped with
  | releases _ place holds leaves => exact repeats_not_holding again holds
  | repeats _ _ => exact repeats_breaks owned again taken excludes

theorem move_move (conn conn' : Connection) (t : I) (place place' : Place) :
    (s.move conn t place).move conn' t place' = s.move conn' t place' := by
  simp only [Readers.move, Function.update_idem]

theorem move_outside {t : I} (conn : Connection) (outside : s.places t = .outside) :
    s.move conn t .outside = ⟨conn, s.places⟩ := by
  rw [Readers.move, ← outside, Function.update_eq_self]

theorem release_outside {t : I} {place : Place} (conn : Connection)
    (last : place = .failed ∨ place = .short ∨ place = .refused ∨ place = .released) :
    Runs.run (readAccess bound) (s.move conn t place) [.release t] =
      some (s.move conn.releaseReadLock t .outside) := by
  obtain rfl | rfl | rfl | rfl := last <;>
    simp only [Runs.run_cons, Runs.run_nil, readAccess, move_self, move_move, Option.bind_some] <;>
    rfl

/-- A `recv` is an access of its own, whatever it returns. -/
theorem recv_run {t : I} (reading : s.places t = .reading) (window : ¬ s.conn.readWindow = 0) :
    Runs.run (readAccess bound) s [.recv t .again] = some (s.move s.conn t .again) ∧
      Runs.run (readAccess bound) s [.recv t .failed] = some (s.move s.conn t .failed) ∧
      ∀ bytes c, bytes ≠ [] → s.conn.storeReceived bound bytes = .ok c →
        Runs.run (readAccess bound) s [.recv t (.data bytes)] = some (s.move c t
          (if bytes.length < s.conn.readWindow then .short else .reading)) := by
  refine ⟨?_, ?_, fun bytes c nonempty stored => ?_⟩
  · simp only [Runs.run_cons, Runs.run_nil, readAccess, reading, if_neg window, Option.bind_some]
  · simp only [Runs.run_cons, Runs.run_nil, readAccess, reading, if_neg window, Option.bind_some]
  · simp only [Runs.run_cons, Runs.run_nil, readAccess, reading, if_neg window, if_neg nonempty,
      stored, Option.bind_some]

theorem release_again {t : I} (conn : Connection) :
    Runs.run (readAccess bound) (s.move conn t .again) [.release t] =
      some (s.move conn.releaseReadLock t .released) := by
  simp only [Runs.run_cons, Runs.run_nil, readAccess, move_self, move_move, Option.bind_some]
  rfl

/-- One pass of the loop of `Read`, with the releases that end it. -/
theorem readBody_run {t : I} {result : RecvResult} {c : Connection} {returned : Option Bool}
    (reading : s.places t = .reading) (received : result ≠ .data [])
    (ran : s.conn.readBody bound result = .ok (c, returned)) :
    ∃ accesses, Runs.run (readAccess bound) s accesses =
      some (s.move c t (if returned = none then .reading else .outside)) := by
  unfold Connection.readBody at ran
  split at ran
  · cases ran
  · rename_i window
    obtain ⟨again, failed, data⟩ := @recv_run I _ bound s t reading window
    cases result with
    | again =>
      cases ran
      refine ⟨[.recv t .again] ++ ([.release t] ++ [.release t]), ?_⟩
      rw [Runs.run_append, again, Option.bind_some, Runs.run_append, release_again, Option.bind_some]
      exact release_outside _ (.inr (.inr (.inr rfl)))
    | failed =>
      cases ran
      refine ⟨[.recv t .failed] ++ [.release t], ?_⟩
      rw [Runs.run_append, failed, Option.bind_some]
      exact release_outside _ (.inl rfl)
    | data bytes =>
      obtain ⟨next, stored, rest⟩ := bind_eq_ok.mp ran
      have once := data bytes next (fun none => received (none ▸ rfl)) stored
      split at rest
      · rename_i fewer
        cases rest
        refine ⟨[.recv t (.data bytes)] ++ [.release t], ?_⟩
        rw [Runs.run_append, once, if_pos fewer, Option.bind_some]
        exact release_outside _ (.inr (.inl rfl))
      · rename_i all
        cases rest
        exact ⟨[.recv t (.data bytes)], by rw [once, if_neg all, if_pos rfl]⟩

theorem readLoop_run {t : I} {results : List RecvResult} {c : Connection} {returned : Bool}
    (reading : s.places t = .reading) (received : .data [] ∉ results)
    (ran : s.conn.readLoop bound results = .ok (c, returned)) :
    ∃ accesses, Runs.run (readAccess bound) s accesses = some (s.move c t .outside) := by
  induction results generalizing s with
  | nil =>
    obtain ⟨⟨next, out⟩, body, same⟩ := bind_eq_ok.mp ran
    cases same
    obtain ⟨accesses, made⟩ := readBody_run reading RecvResult.noConfusion body
    rw [readBody_again body] at made
    exact ⟨accesses, made⟩
  | cons result rest ih =>
    obtain ⟨⟨next, out⟩, body, more⟩ := bind_eq_ok.mp ran
    obtain ⟨first, made⟩ := readBody_run reading (fun same => received (by simp [same])) body
    cases out with
    | some out =>
      cases more
      exact ⟨first, made⟩
    | none =>
      obtain ⟨accesses, rest_made⟩ := @ih (s.move next t .reading) (move_self next t .reading)
        (fun member => received (List.mem_cons_of_mem _ member)) more
      refine ⟨first ++ accesses, ?_⟩
      rw [Runs.run_append, made, Option.bind_some, if_pos rfl, rest_made, move_move]

/-- A call of `Read` that nobody interrupts is a run of its thread. -/
theorem read_run {t : I} {results : List RecvResult} {c : Connection} {returned : Bool}
    (outside : s.places t = .outside) (received : .data [] ∉ results)
    (ran : s.conn.read bound results = .ok (c, returned)) :
    ∃ accesses, Runs.run (readAccess bound) s accesses = some ⟨c, s.places⟩ := by
  rw [← move_outside c outside]
  rw [Connection.read] at ran
  have acquire : readAccess bound s (.acquire t) =
      match s.conn.tryAcquireReadLock with
      | (conn, true) => some (s.move conn t .reading)
      | (conn, false) => some (s.move conn t .refused) := by
    rw [readAccess, outside]
  split at ran
  · rename_i next acquired
    obtain ⟨accesses, made⟩ := @readLoop_run _ _ bound (s.move next t .reading) t _ _ _
      (move_self next t .reading) received ran
    refine ⟨.acquire t :: accesses, ?_⟩
    rw [Runs.run_cons, acquire, acquired, Option.bind_some, made, move_move]
  · rename_i next acquired
    cases ran
    refine ⟨.acquire t :: [.release t], ?_⟩
    rw [Runs.run_cons, acquire, acquired, Option.bind_some]
    exact release_outside next (.inr (.inr (.inl rfl)))

end Accesses

def Readers.start (I : Type*) (fresh : Nat → Byte) : Readers I := ⟨.init fresh, fun _ => .outside⟩

theorem start_owned {I : Type*} [DecidableEq I] (fresh : Nat → Byte) :
    Owned (Readers.start I fresh) :=
  owned_idle rfl fun _ => id

/-- The lock excludes throughout exactly the runs in which no thread makes the release at
the end of `Read`, without holding the lock, while the lock is taken. -/
theorem read_lock_excludes_iff {I : Type*} [DecidableEq I] (bound : Nat) (fresh : Nat → Byte)
    (accesses : List (ReadAccess I)) :
    Runs.Throughout (readAccess bound) Excludes (.start I fresh) accesses ↔
      Runs.Guarded (readAccess bound) Harmless (.start I fresh) accesses :=
  Runs.throughout_iff_guarded (fun _ owned => owned.excludes)
    (fun _ _ _ owned harmless stepped => readAccess_owned owned harmless stepped)
    (fun _ _ _ owned stepped excludes => readAccess_harmless owned stepped excludes)
    (start_owned fresh) accesses

/-- The second thread's attempt fails, and its release frees the lock under the first
thread; the third thread then holds it too. -/
theorem read_lock_not_exclusive :
    ¬ ∀ accesses : List (ReadAccess (Fin 3)),
      Runs.Throughout (readAccess 0)
        (fun s => ∀ t t', (s.places t).Holding → (s.places t').Holding → t = t')
        (.start (Fin 3) fun _ => 0) accesses := by
  intro exclusive
  have both := (exclusive [.acquire 0, .acquire 1, .release 1, .acquire 2]).last rfl
  exact absurd (both 0 2 trivial trivial) (by decide)

end Sometest.Epoll
