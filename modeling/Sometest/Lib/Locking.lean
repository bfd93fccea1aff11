import Mathlib.Data.List.Count
import Mathlib.Logic.Function.Basic
import Sometest.Lib.Run

/-! Threads that acquire and release mutexes, with mutexes that the holder may acquire again or
not. Threads that go up a rank never block each other for good. No program is named here. -/
namespace Locking

inductive Op (L : Type*) where
  | acquire (l : L)
  | release (l : L)

/-- What each thread still has to do, and the holder of each mutex with the number of its
acquisitions beyond the first. -/
structure System (T L : Type*) where
  todo : T → List (Op L)
  table : L → Option (T × Nat)

variable {T L : Type*} [DecidableEq T] [DecidableEq L]

def System.start (program : T → List (Op L)) : System T L := ⟨program, fun _ => none⟩

/-- No outcome where the thread has to wait. -/
def acquire (recursive : Bool) (table : L → Option (T × Nat)) (t : T) (l : L) :
    Option (L → Option (T × Nat)) :=
  match table l with
  | none => some (Function.update table l (some (t, 0)))
  | some (u, n) =>
    if u = t ∧ recursive then some (Function.update table l (some (u, n + 1))) else none

def release (table : L → Option (T × Nat)) (l : L) : L → Option (T × Nat) :=
  match table l with
  | some (u, n + 1) => Function.update table l (some (u, n))
  | _ => Function.update table l none

def step (recursive : Bool) (s : System T L) (t : T) : Option (System T L) :=
  match s.todo t with
  | [] => none
  | .acquire l :: rest =>
    (acquire recursive s.table t l).map fun table => ⟨Function.update s.todo t rest, table⟩
  | .release l :: rest => some ⟨Function.update s.todo t rest, release s.table l⟩

/-- Mutexes are released in the reverse order, and each acquisition is `ok` beside the mutexes
that are held. -/
def Bracketed (ok : List L → L → Prop) : List L → List (Op L) → Prop
  | held, [] => held = []
  | held, .acquire l :: rest => ok held l ∧ Bracketed ok (l :: held) rest
  | [], .release _ :: _ => False
  | h :: held, .release l :: rest => h = l ∧ Bracketed ok held rest

/-- A mutex of a higher rank than all that are held or, where that is possible, one of these. -/
def Upward (recursive : Bool) (rank : L → Nat) (held : List L) (l : L) : Prop :=
  (∀ h ∈ held, rank h < rank l) ∨ recursive = true ∧ l ∈ held

/-- A thread that holds `held` will acquire a mutex a second time. -/
def reenters : List L → List (Op L) → Bool
  | _, [] => false
  | held, .acquire l :: rest => l ∈ held || reenters (l :: held) rest
  | held, .release _ :: rest => reenters held.tail rest

/-- `body` inside of a critical section, as a lock guard makes it. -/
def critical (l : L) (body : List (Op L)) : List (Op L) := .acquire l :: (body ++ [.release l])

/-- A thread that does `body` while it holds `held` ends up with `held`. -/
def Within (ok : List L → L → Prop) (held : List L) (body : List (Op L)) : Prop :=
  ∀ rest, Bracketed ok held rest → Bracketed ok held (body ++ rest)

section Programs
variable {ok : List L → L → Prop} {held : List L} {l : L} {body body' : List (Op L)}

omit [DecidableEq L] in
theorem within_nil : Within ok held [] := fun _ => id

omit [DecidableEq L] in
theorem Within.append (first : Within ok held body) (second : Within ok held body') :
    Within ok held (body ++ body') := by
  intro rest after
  rw [List.append_assoc]
  exact first _ (second rest after)

omit [DecidableEq L] in
theorem Within.critical (here : ok held l) (inner : Within ok (l :: held) body) :
    Within ok held (critical l body) := by
  intro rest after
  have released : Bracketed ok (l :: held) (.release l :: rest) := ⟨rfl, after⟩
  refine ⟨here, ?_⟩
  show Bracketed ok (l :: held) (body ++ [.release l] ++ rest)
  rw [List.append_assoc]
  exact inner _ released

omit [DecidableEq L] in
theorem Within.flatMap {α : Type*} {f : α → List (Op L)} {xs : List α}
    (each : ∀ x ∈ xs, Within ok held (f x)) : Within ok held (xs.flatMap f) := by
  induction xs with
  | nil => exact within_nil
  | cons x xs ih =>
    rw [List.flatMap_cons]
    exact (each x (by simp)).append (ih fun y member => each y (List.mem_cons_of_mem _ member))

omit [DecidableEq L] in
theorem Within.bracketed (within : Within ok [] body) : Bracketed ok [] body := by
  have whole := within [] rfl
  rwa [List.append_nil] at whole

omit [DecidableEq L] in
theorem Bracketed.mono {ok' : List L → L → Prop} (bracketed : Bracketed ok held body)
    (weaker : ∀ held l, ok held l → ok' held l) : Bracketed ok' held body := by
  induction body generalizing held with
  | nil => exact bracketed
  | cons op rest ih =>
    cases op with
    | acquire l => exact ⟨weaker held l bracketed.1, ih bracketed.2⟩
    | release l =>
      cases held with
      | nil => exact bracketed
      | cons h lower => exact ⟨bracketed.1, ih bracketed.2⟩

/-- What a thread holds after `body`. -/
def after : List L → List (Op L) → List L
  | held, [] => held
  | held, .acquire l :: rest => after (l :: held) rest
  | held, .release _ :: rest => after held.tail rest

omit [DecidableEq L] in
theorem after_append : after held (body ++ body') = after (after held body) body' := by
  induction body generalizing held with
  | nil => rfl
  | cons op rest ih => cases op <;> exact ih

theorem reenters_append :
    reenters held (body ++ body') = (reenters held body || reenters (after held body) body') := by
  induction body generalizing held with
  | nil => rfl
  | cons op rest ih =>
    cases op with
    | acquire l => simp only [List.cons_append, reenters, after, ih, Bool.or_assoc]
    | release l => exact ih

/-- A program that leaves a thread what it held. -/
def Level (body : List (Op L)) : Prop := ∀ held, after held body = held

omit [DecidableEq L] in
theorem Level.append (first : Level body) (second : Level body') : Level (body ++ body') := by
  intro held
  rw [after_append, first, second]

omit [DecidableEq L] in
theorem Level.critical (inner : Level body) : Level (critical l body) := by
  intro held
  rw [Locking.critical, after, after_append, inner]
  rfl

omit [DecidableEq L] in
theorem Level.flatMap {α : Type*} {f : α → List (Op L)} (each : ∀ x, Level (f x)) (xs : List α) :
    Level (xs.flatMap f) := by
  induction xs with
  | nil => exact fun _ => rfl
  | cons x xs ih =>
    rw [List.flatMap_cons]
    exact (each x).append ih

theorem reenters_critical :
    reenters held (critical l body) = (l ∈ held || reenters (l :: held) body) := by
  rw [critical, reenters, reenters_append]
  simp only [reenters, Bool.or_false]

theorem reenters_flatMap {α : Type*} {f : α → List (Op L)} (each : ∀ x, Level (f x)) (xs : List α) :
    reenters held (xs.flatMap f) = xs.any fun x => reenters held (f x) := by
  induction xs with
  | nil => rfl
  | cons x xs ih => rw [List.flatMap_cons, reenters_append, each x, ih, List.any_cons]

end Programs

/-- The table has the mutexes that each thread holds, with their numbers. -/
def Records (table : L → Option (T × Nat)) (held : T → List L) : Prop :=
  ∀ l t n, table l = some (t, n) ↔ (held t).count l = n + 1

section Table
variable {recursive : Bool} {rank : L → Nat} {table table' : L → Option (T × Nat)}
  {held : T → List L} {mine rest : List L} {t : T} {l : L}

omit [DecidableEq T] in
/-- A mutex that is free or taken by one thread is not held by another. -/
theorem Records.alone (records : Records table held)
    (only : ∀ u n, table l = some (u, n) → u = t) {u : T} (other : u ≠ t) : (held u).count l = 0 := by
  by_contra holding
  obtain ⟨n, count⟩ := Nat.exists_eq_succ_of_ne_zero holding
  exact other (only u n ((records l u n).mpr count))

theorem Records.update (records : Records table held) (only : ∀ u n, table l = some (u, n) → u = t)
    (others : ∀ k, k ≠ l → mine.count k = (held t).count k) {entry : Option (T × Nat)}
    (new : ∀ n, entry = some (t, n) ↔ mine.count l = n + 1)
    (own : ∀ u n, entry = some (u, n) → u = t) :
    Records (Function.update table l entry) (Function.update held t mine) := by
  intro k u n
  by_cases mutex : k = l
  · subst mutex
    rw [Function.update_self]
    by_cases same : u = t
    · subst same
      rw [Function.update_self]
      exact new n
    · rw [Function.update_of_ne same, records.alone only same]
      constructor
      · exact fun wrong => absurd (own u n wrong) same
      · exact fun wrong => absurd wrong (Nat.succ_ne_zero n).symm
  · rw [Function.update_of_ne mutex, records k u n]
    by_cases same : u = t
    · subst same
      rw [Function.update_self, others k mutex]
    · rw [Function.update_of_ne same]

theorem Records.acquire (records : Records table held)
    (acquired : acquire recursive table t l = some table') :
    Records table' (Function.update held t (l :: held t)) := by
  have others : ∀ k, k ≠ l → (l :: held t).count k = (held t).count k :=
    fun k other => List.count_cons_of_ne other.symm
  rw [Locking.acquire] at acquired
  split at acquired
  · rename_i free
    cases acquired
    have nobody : (held t).count l = 0 := by
      by_contra holding
      obtain ⟨n, count⟩ := Nat.exists_eq_succ_of_ne_zero holding
      rw [(records l t n).mpr count] at free
      cases free
    refine records.update (by simp [free]) others (fun n => ?_) (by simp)
    rw [List.count_cons_self, nobody]
    simp [eq_comm]
  · rename_i u m taken
    split at acquired
    · rename_i again
      cases acquired
      obtain ⟨rfl, -⟩ := again
      have count := (records l u m).mp taken
      refine records.update (by simp [taken]) others (fun n => ?_) (by simp)
      rw [List.count_cons_self, count]
      simp
    · cases acquired

theorem Records.release (records : Records table held) (top : held t = l :: rest) :
    Records (release table l) (Function.update held t rest) := by
  have mine : (held t).count l = rest.count l + 1 := by rw [top, List.count_cons_self]
  have taken := (records l t _).mpr mine
  have others : ∀ k, k ≠ l → rest.count k = (held t).count k :=
    fun k other => by rw [top, List.count_cons_of_ne other.symm]
  rw [Locking.release, taken]
  cases left : rest.count l with
  | zero => exact records.update (by simp [taken]) others (by simp [left]) (by simp)
  | succ m => exact records.update (by simp [taken]) others (by simp [left]) (by simp)

/-- A thread has to wait for a mutex only where another one holds it, or where it holds the
mutex itself and may not acquire it again. -/
theorem Records.waits (records : Records table held)
    (waits : Locking.acquire recursive table t l = none) :
    ∃ u, l ∈ held u ∧ (u = t → recursive = false) := by
  rw [Locking.acquire] at waits
  split at waits
  · cases waits
  · rename_i u n taken
    refine ⟨u, ?_, ?_⟩
    · rw [← List.count_pos_iff, (records l u n).mp taken]
      exact Nat.succ_pos n
    · rintro rfl
      by_contra again
      rw [if_pos ⟨rfl, by simpa using again⟩] at waits
      cases waits

end Table

section Run
variable {recursive : Bool} {ok : List L → L → Prop} {rank : L → Nat} {s s' : System T L}
  {program : T → List (Op L)} {held : T → List L} {t : T}

theorem step_cases (records : Records s.table held) (bracketed : ∀ t, Bracketed ok (held t) (s.todo t))
    (stepped : step recursive s t = some s') :
    ∃ mine rest, Records s'.table (Function.update held t mine) ∧
      s'.todo = Function.update s.todo t rest ∧ Bracketed ok mine rest ∧
      ((∃ l, s.todo t = .acquire l :: rest ∧ mine = l :: held t ∧ (recursive = false → l ∉ held t)) ∨
        ∃ l, s.todo t = .release l :: rest ∧ held t = l :: mine) := by
  have mine := bracketed t
  rw [step] at stepped
  split at stepped
  · cases stepped
  · rename_i l rest todo
    obtain ⟨table, acquired, same⟩ := Option.map_eq_some_iff.mp stepped
    cases same
    rw [todo] at mine
    refine ⟨l :: held t, rest, records.acquire acquired, rfl, mine.2, .inl ⟨l, todo, rfl, ?_⟩⟩
    rintro rfl member
    obtain ⟨n, count⟩ := Nat.exists_eq_succ_of_ne_zero (List.count_pos_iff.mpr member).ne'
    rw [acquire, (records l t n).mpr count] at acquired
    simp at acquired
  · rename_i l rest todo
    cases stepped
    rw [todo] at mine
    cases top : held t with
    | nil =>
      rw [top] at mine
      exact mine.elim
    | cons h lower =>
      rw [top] at mine
      obtain ⟨rfl, after⟩ := mine
      exact ⟨lower, rest, records.release top, rfl, after, .inr ⟨h, todo, rfl⟩⟩

/-- Every thread holds what its operations so far have left it. -/
def Orderly (ok : List L → L → Prop) (s : System T L) : Prop :=
  ∃ held, Records s.table held ∧ ∀ t, Bracketed ok (held t) (s.todo t)

omit [DecidableEq T] in
theorem records_start : Records (System.start program).table fun _ => [] := by
  simp [Records, System.start]

omit [DecidableEq L] in
theorem bracketed_update {todo : T → List (Op L)} {mine : List L} {rest : List (Op L)}
    (bracketed : ∀ t, Bracketed ok (held t) (todo t)) (here : Bracketed ok mine rest) (u : T) :
    Bracketed ok (Function.update held t mine u) (Function.update todo t rest u) := by
  by_cases same : u = t
  · subst same
    rwa [Function.update_self, Function.update_self]
  · rw [Function.update_of_ne same, Function.update_of_ne same]
    exact bracketed u

theorem Orderly.step (orderly : Orderly ok s) (stepped : step recursive s t = some s') :
    Orderly ok s' := by
  obtain ⟨held, records, bracketed⟩ := orderly
  obtain ⟨mine, rest, records', todo, after, -⟩ := step_cases records bracketed stepped
  refine ⟨_, records', ?_⟩
  rw [todo]
  exact bracketed_update bracketed after

/-- A thread that cannot go on waits for a mutex of a higher rank than all it holds. -/
theorem waits_above (records : Records s.table held)
    (bracketed : ∀ t, Bracketed (Upward recursive rank) (held t) (s.todo t))
    (unfinished : s.todo t ≠ []) (stuck : step recursive s t = none) :
    ∃ l u, (∀ h ∈ held t, rank h < rank l) ∧ l ∈ held u := by
  have mine := bracketed t
  rw [step] at stuck
  split at stuck
  · rename_i done
    exact absurd done unfinished
  · rename_i l rest todo
    rw [Option.map_eq_none_iff] at stuck
    obtain ⟨u, holder, own⟩ := records.waits stuck
    rw [todo] at mine
    rcases mine.1 with above | ⟨again, member⟩
    · exact ⟨l, u, above, holder⟩
    · -- whoever holds the mutex is the thread itself, which may acquire it again
      obtain ⟨n, count⟩ := Nat.exists_eq_succ_of_ne_zero (List.count_pos_iff.mpr member).ne'
      obtain ⟨m, count'⟩ := Nat.exists_eq_succ_of_ne_zero (List.count_pos_iff.mpr holder).ne'
      have same := ((records l t n).mpr count).symm.trans ((records l u m).mpr count')
      obtain ⟨rfl, -⟩ := Prod.mk.inj (Option.some.inj same)
      cases again.symm.trans (own rfl)
  · cases stuck

/-- As long as one thread is not finished, one can go on. -/
theorem Orderly.progress (orderly : Orderly (Upward recursive rank) s) {bound : Nat}
    (bounded : ∀ l, rank l < bound) (unfinished : s.todo t ≠ []) :
    ∃ u s', Locking.step recursive s u = some s' := by
  obtain ⟨held, records, bracketed⟩ := orderly
  by_contra stuck
  push Not at stuck
  have blocked : ∀ u, Locking.step recursive s u = none := by
    intro u
    rw [Option.eq_none_iff_forall_ne_some]
    exact stuck u
  -- the mutexes that are waited for have no highest rank
  have rises : ∀ n, ∃ l u, l ∈ held u ∧ n ≤ rank l := by
    intro n
    induction n with
    | zero =>
      obtain ⟨l, u, -, holder⟩ := waits_above records bracketed unfinished (blocked t)
      exact ⟨l, u, holder, Nat.zero_le _⟩
    | succ n ih =>
      obtain ⟨l, u, holder, high⟩ := ih
      have busy : s.todo u ≠ [] := by
        intro done
        have empty := bracketed u
        rw [done] at empty
        rw [show held u = [] from empty] at holder
        cases holder
      obtain ⟨k, v, above, holder'⟩ := waits_above records bracketed busy (blocked u)
      exact ⟨k, v, holder', Nat.lt_of_le_of_lt high (above l holder)⟩
  obtain ⟨l, u, -, high⟩ := rises bound
  exact absurd (bounded l) (Nat.not_lt.mpr high)

/-- Threads that acquire upwards never block each other for good. -/
theorem never_stuck {bound : Nat} (bounded : ∀ l, rank l < bound)
    (upward : ∀ t, Bracketed (Upward recursive rank) [] (program t)) (schedule : List T) :
    Runs.Throughout (step recursive)
      (fun s => ∀ t, s.todo t ≠ [] → ∃ u s', step recursive s u = some s')
      (.start program) schedule := by
  have always : Runs.Throughout (step recursive) (Orderly (Upward recursive rank))
      (.start program) schedule :=
    Runs.invariant (fun _ _ _ orderly stepped => orderly.step stepped)
      ⟨fun _ => [], records_start, upward⟩ schedule
  intro pre s inside reached t unfinished
  exact (always pre s inside reached).progress bounded unfinished

def Reentering (t : T) (s : System T L) : Prop :=
  ∃ held, Records s.table held ∧ (∀ t, Bracketed (fun _ _ => True) (held t) (s.todo t)) ∧
    reenters (held t) (s.todo t) = true

theorem Reentering.step (again : Reentering t s) {u : T} (stepped : step false s u = some s') :
    Reentering t s' := by
  obtain ⟨held, records, bracketed, again⟩ := again
  obtain ⟨mine, rest, records', todo, after, which⟩ := step_cases records bracketed stepped
  refine ⟨_, records', ?_, ?_⟩
  · rw [todo]
    exact bracketed_update bracketed after
  · rw [todo]
    by_cases same : t = u
    · subst same
      rw [Function.update_self, Function.update_self]
      rcases which with ⟨l, now, rfl, new⟩ | ⟨l, now, top⟩
      · rw [now, reenters, Bool.or_eq_true] at again
        rcases again with second | later
        · exact absurd (of_decide_eq_true second) (new rfl)
        · exact later
      · rwa [now, reenters, top] at again
    · rwa [Function.update_of_ne same, Function.update_of_ne same]

/-- Where no mutex may be acquired a second time, a thread that does so never finishes. -/
theorem never_finishes (bracketed : ∀ t, Bracketed (fun _ _ => True) [] (program t))
    (again : reenters [] (program t) = true) (schedule : List T) :
    Runs.Throughout (step false) (fun s => s.todo t ≠ []) (.start program) schedule := by
  have always : Runs.Throughout (step false) (Reentering t) (.start program) schedule :=
    Runs.invariant (fun _ _ _ again stepped => again.step stepped)
      ⟨fun _ => [], records_start, bracketed, again⟩ schedule
  intro pre s inside reached done
  obtain ⟨held, -, -, still⟩ := always pre s inside reached
  rw [done] at still
  cases still

/-- A thread that is alone finishes unless it acquires a mutex again where it may not. -/
theorem finishes_alone {held : List L} {s : System T L} {ops : List (Op L)} (todo : s.todo t = ops)
    (records : Records s.table (Function.update (fun _ => []) t held))
    (bracketed : Bracketed ok held ops)
    (free : recursive = true ∨ reenters held ops = false) :
    ∃ s', Runs.run (step recursive) s (List.replicate ops.length t) = some s' ∧ s'.todo t = [] := by
  induction ops generalizing s held with
  | nil => exact ⟨s, rfl, todo⟩
  | cons op rest ih =>
    cases op with
    | acquire l =>
      have got : ∃ table, acquire recursive s.table t l = some table := by
        rw [← Option.isSome_iff_exists, Option.isSome_iff_ne_none]
        intro waits
        obtain ⟨u, holder, own⟩ := records.waits waits
        by_cases same : u = t
        · rw [same, Function.update_self] at holder
          rcases free with again | once
          · cases again.symm.trans (own same)
          · simp [reenters, holder] at once
        · rw [Function.update_of_ne same] at holder
          cases holder
      obtain ⟨table, acquired⟩ := got
      have next := records.acquire acquired
      rw [Function.update_self, Function.update_idem] at next
      have free' : recursive = true ∨ reenters (l :: held) rest = false := by
        rcases free with again | once
        · exact .inl again
        · exact .inr (Bool.or_eq_false_iff.mp once).2
      obtain ⟨s', ran, done⟩ := ih (s := ⟨Function.update s.todo t rest, table⟩)
        (Function.update_self ..) next bracketed.2 free'
      refine ⟨s', ?_, done⟩
      rw [List.length_cons, List.replicate_succ, Runs.run_cons, step, todo]
      simp only [acquired, Option.map_some, Option.bind_some]
      exact ran
    | release l =>
      cases held with
      | nil => exact bracketed.elim
      | cons h lower =>
        obtain ⟨rfl, after⟩ := bracketed
        have next := records.release (Function.update_self ..)
        rw [Function.update_idem] at next
        obtain ⟨s', ran, done⟩ := ih (s := ⟨Function.update s.todo t rest, release s.table h⟩)
          (Function.update_self ..) next after free
        refine ⟨s', ?_, done⟩
        rw [List.length_cons, List.replicate_succ, Runs.run_cons, step, todo]
        exact ran

end Run
end Locking
