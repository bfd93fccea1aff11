import Mathlib.Data.List.Infix

/-! Finite runs of a deterministic step function. `Always` speaks about every
state a run passes through and `Guarded` about every step it takes; a guard is
exact when the two agree on every run. No program is named here. -/
namespace Runs

variable {S A : Type*} {step : S → A → Option S}

/-- Performs the actions in order. `none` when one of them has no outcome. -/
def run (step : S → A → Option S) : S → List A → Option S
  | s, [] => some s
  | s, a :: rest => (step s a).bind (fun t => run step t rest)

@[simp] theorem run_nil (s : S) : run step s [] = some s := rfl

theorem run_cons (s : S) (a : A) (rest : List A) :
    run step s (a :: rest) = (step s a).bind (fun t => run step t rest) := rfl

theorem run_append (s : S) (first second : List A) :
    run step s (first ++ second) = (run step s first).bind (fun t => run step t second) := by
  induction first generalizing s with
  | nil => rfl
  | cons a rest ih =>
    simp only [List.cons_append, run_cons, Option.bind_assoc]
    exact congrArg _ (funext ih)

theorem run_concat {s u : S} {pre : List A} {a : A} :
    run step s (pre ++ [a]) = some u ↔ ∃ t, run step s pre = some t ∧ step t a = some u := by
  simp only [run_append, run_cons, run_nil, Option.bind_eq_some_iff, Option.some.injEq,
    exists_eq_right]

/-- Every state that the run passes through satisfies `P`. -/
def Throughout (step : S → A → Option S) (P : S → Prop) (s : S) (as : List A) : Prop :=
  ∀ pre t, pre <+: as → run step s pre = some t → P t

/-- Every prefix of the actions has an outcome, and it satisfies `P`. -/
def Always (step : S → A → Option S) (P : S → Prop) (s : S) (as : List A) : Prop :=
  ∀ pre, pre <+: as → ∃ t, run step s pre = some t ∧ P t

/-- Every action that has an outcome meets the guard in the state before it. -/
def Guarded (step : S → A → Option S) (G : S → A → Prop) (s : S) (as : List A) : Prop :=
  ∀ pre a t u, pre ++ [a] <+: as → run step s pre = some t → step t a = some u → G t a

theorem Throughout.here (h : Throughout step P s as) : P s := h [] s List.nil_prefix rfl

theorem Throughout.tail (h : Throughout step P s (a :: rest)) (first : step s a = some t) :
    Throughout step P t rest := by
  intro pre u inside reached
  refine h (a :: pre) u (List.cons_prefix_cons.mpr ⟨rfl, inside⟩) ?_
  simpa only [run_cons, first, Option.bind_some] using reached

theorem Throughout.cons (here : P s) (tail : ∀ t, step s a = some t → Throughout step P t rest) :
    Throughout step P s (a :: rest) := by
  intro pre u inside reached
  cases pre with
  | nil => cases reached; exact here
  | cons b pre =>
    obtain ⟨rfl, within⟩ := List.cons_prefix_cons.mp inside
    obtain ⟨t, first, reached⟩ := Option.bind_eq_some_iff.mp reached
    exact tail t first pre u within reached

theorem Throughout.nil (here : P s) : Throughout step P s [] := by
  intro pre u inside reached
  cases List.prefix_nil.mp inside
  cases reached
  exact here

theorem Throughout.last (h : Throughout step P s as) (reached : run step s as = some t) : P t :=
  h as t (List.prefix_refl as) reached

theorem Guarded.here (h : Guarded step G s (a :: rest)) (first : step s a = some t) : G s a :=
  h [] a s t (List.cons_prefix_cons.mpr ⟨rfl, List.nil_prefix⟩) rfl first

theorem Guarded.tail (h : Guarded step G s (a :: rest)) (first : step s a = some t) :
    Guarded step G t rest := by
  intro pre b u v inside reached next
  refine h (a :: pre) b u v (List.cons_prefix_cons.mpr ⟨rfl, inside⟩) ?_ next
  simpa only [run_cons, first, Option.bind_some] using reached

theorem Guarded.mono (h : Guarded step G s as) (shorter : bs <+: as) : Guarded step G s bs :=
  fun pre b t u inside => h pre b t u (inside.trans shorter)

theorem Guarded.later (h : Guarded step G s (as ++ bs)) (reached : run step s as = some t) :
    Guarded step G t bs := by
  intro pre a u v inside continued next
  refine h (as ++ pre) a u v ?_ ?_ next
  · rw [List.append_assoc]
    exact (List.prefix_append_right_inj as).mpr inside
  · rw [run_append, reached, Option.bind_some, continued]

theorem Guarded.nil : Guarded step G s [] := by
  intro pre a t u inside
  simp only [List.prefix_nil, List.append_eq_nil_iff, List.cons_ne_self, and_false] at inside

theorem Guarded.cons (here : ∀ t, step s a = some t → G s a)
    (tail : ∀ t, step s a = some t → Guarded step G t rest) : Guarded step G s (a :: rest) := by
  intro pre b u v inside reached next
  cases pre with
  | nil =>
    obtain ⟨rfl, _⟩ := List.cons_prefix_cons.mp inside
    cases reached
    exact here v next
  | cons c pre =>
    obtain ⟨rfl, within⟩ := List.cons_prefix_cons.mp inside
    obtain ⟨t, first, reached⟩ := Option.bind_eq_some_iff.mp reached
    exact tail t first pre b u v within reached next

/-- A run that stops where the guard fails checks the guard. -/
theorem Guarded.of_checked {G : S → A → Prop} [∀ s a, Decidable (G s a)]
    (ran : (run (fun s a => if G s a then step s a else none) s as).isSome = true) :
    Guarded step G s as := by
  induction as generalizing s with
  | nil => exact .nil
  | cons a rest ih =>
    obtain ⟨u, ran⟩ := Option.isSome_iff_exists.mp ran
    obtain ⟨t, first, ran⟩ := Option.bind_eq_some_iff.mp ran
    simp only at first
    split at first
    · refine .cons (fun _ _ => ‹_›) fun t' same => ih ?_
      cases first.symm.trans same
      rw [ran, Option.isSome_some]
    · cases first

/-- What every step preserves holds throughout every run. -/
theorem invariant {I : S → Prop} (preserved : ∀ s a t, I s → step s a = some t → I t)
    (initial : I s) (as : List A) : Throughout step I s as := by
  induction as generalizing s with
  | nil => exact .nil initial
  | cons a rest ih => exact .cons initial fun t first => ih (preserved s a t initial first)

/-- What every guarded step preserves holds throughout every guarded run. -/
theorem guarded_invariant {I : S → Prop} {G : S → A → Prop}
    (preserved : ∀ s a t, I s → G s a → step s a = some t → I t) (initial : I s)
    (guarded : Guarded step G s as) : Throughout step I s as := by
  induction as generalizing s with
  | nil => exact .nil initial
  | cons a rest ih =>
    refine .cons initial fun t first => ih ?_ (guarded.tail first)
    exact preserved s a t initial (guarded.here first) first

/-- A guard is exact for `P` when guarded steps keep an invariant that implies
`P`, and from the invariant only guarded steps lead to `P` again. -/
theorem throughout_iff_guarded {I P : S → Prop} {G : S → A → Prop} (implies : ∀ s, I s → P s)
    (preserved : ∀ s a t, I s → G s a → step s a = some t → I t)
    (exact : ∀ s a t, I s → step s a = some t → P t → G s a) (initial : I s) (as : List A) :
    Throughout step P s as ↔ Guarded step G s as := by
  constructor
  · induction as generalizing s with
    | nil => exact fun _ => .nil
    | cons a rest ih =>
      intro holds
      have guard : ∀ t, step s a = some t → G s a := fun t first =>
        exact s a t initial first (holds.tail first).here
      exact .cons guard fun t first =>
        ih (preserved s a t initial (guard t first) first) (holds.tail first)
  · intro guarded pre t inside reached
    exact implies t (guarded_invariant preserved initial guarded pre t inside reached)

/-- A step function that follows the steps of a total specification follows its runs. -/
theorem simulates {Q : Type*} {spec : Q → A → Q} {R : S → Q → Prop}
    (simulated : ∀ s q a t, R s q → step s a = some t → R t (spec q a)) {q : Q} (initial : R s q)
    (reached : run step s as = some t) : R t (as.foldl spec q) := by
  induction as generalizing s q with
  | nil =>
    cases reached
    exact initial
  | cons a rest ih =>
    obtain ⟨u, first, reached⟩ := Option.bind_eq_some_iff.mp reached
    exact ih (simulated s q a u initial first) reached

/-- One component's part of a run is a run of the component. -/
theorem project {S' A' : Type*} {step' : S' → A' → Option S'} {view : S → S'} {part : A → Option A'}
    (own : ∀ s a t b, step s a = some t → part a = some b → step' (view s) b = some (view t))
    (other : ∀ s a t, step s a = some t → part a = none → view t = view s)
    (reached : run step s as = some t) : run step' (view s) (as.filterMap part) = some (view t) := by
  induction as generalizing s with
  | nil =>
    cases reached
    rfl
  | cons a rest ih =>
    obtain ⟨u, first, reached⟩ := Option.bind_eq_some_iff.mp reached
    cases mine : part a with
    | none => rw [List.filterMap_cons_none mine, ← other s a u first mine, ih reached]
    | some b =>
      rw [List.filterMap_cons_some mine, run_cons, own s a u b first mine, Option.bind_some, ih reached]

theorem Always.throughout (h : Always step P s as) : Throughout step P s as := by
  intro pre t inside reached
  obtain ⟨u, same, holds⟩ := h pre inside
  cases same.symm.trans reached
  exact holds

/-- Steps that always have an outcome and keep an invariant never get stuck. -/
theorem always_invariant {I : S → Prop} (total : ∀ s a, I s → ∃ t, step s a = some t ∧ I t)
    (initial : I s) (as : List A) : Always step I s as := by
  induction as generalizing s with
  | nil =>
    intro pre inside
    cases List.prefix_nil.mp inside
    exact ⟨s, rfl, initial⟩
  | cons a rest ih =>
    intro pre inside
    cases pre with
    | nil => exact ⟨s, rfl, initial⟩
    | cons b pre =>
      obtain ⟨rfl, within⟩ := List.cons_prefix_cons.mp inside
      obtain ⟨t, first, next⟩ := total s b initial
      obtain ⟨u, reached, holds⟩ := ih next pre within
      exact ⟨u, by simpa only [run_cons, first, Option.bind_some] using reached, holds⟩

/-- An invariant that knows the actions performed so far. -/
theorem always_prefix {I : List A → S → Prop} (initial : I [] s)
    (total : ∀ pre a t, pre ++ [a] <+: as → I pre t → ∃ u, step t a = some u ∧ I (pre ++ [a]) u)
    (pre : List A) (inside : pre <+: as) : ∃ t, run step s pre = some t ∧ I pre t := by
  induction pre using List.reverseRecOn with
  | nil => exact ⟨s, rfl, initial⟩
  | append_singleton pre a ih =>
    obtain ⟨t, reached, holds⟩ := ih ((List.prefix_append pre [a]).trans inside)
    obtain ⟨u, next, kept⟩ := total pre a t inside holds
    exact ⟨u, run_concat.mpr ⟨t, reached, next⟩, kept⟩

/-- The same for a total reading: under the guard no action of the run is stuck. -/
theorem always_iff_guarded {I P : S → Prop} {G : S → A → Prop} (implies : ∀ s, I s → P s)
    (progress : ∀ s a, I s → ∃ t, step s a = some t)
    (preserved : ∀ s a t, I s → G s a → step s a = some t → I t)
    (exact : ∀ s a t, I s → step s a = some t → P t → G s a) (initial : I s) (as : List A) :
    Always step P s as ↔ Guarded step G s as := by
  constructor
  · intro holds
    exact (throughout_iff_guarded implies preserved exact initial as).mp holds.throughout
  · induction as generalizing s with
    | nil =>
      intro _ pre inside
      cases List.prefix_nil.mp inside
      exact ⟨s, rfl, implies s initial⟩
    | cons a rest ih =>
      intro guarded pre inside
      cases pre with
      | nil => exact ⟨s, rfl, implies s initial⟩
      | cons b pre =>
        obtain ⟨rfl, within⟩ := List.cons_prefix_cons.mp inside
        obtain ⟨t, first⟩ := progress s b initial
        have next := preserved s b t initial (guarded.here first) first
        obtain ⟨u, reached, holds⟩ := ih next (guarded.tail first) pre within
        exact ⟨u, by simpa only [run_cons, first, Option.bind_some] using reached, holds⟩

end Runs
