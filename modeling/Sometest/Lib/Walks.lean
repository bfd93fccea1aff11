import Mathlib.Data.List.Basic
import Mathlib.Data.List.Nodup
import Mathlib.Logic.Function.Basic
import Mathlib.Logic.Relation
import Mathlib.Order.WellFounded

/-! Walks of a directed graph by their length, tables of parents that climb along its
edges, and the frontier of a breadth-first search. No program is named here. -/

inductive Walk {V : Type*} (E : V → V → Prop) (u : V) : Nat → V → Prop where
  | here : Walk E u 0 u
  | step : Walk E u k v → E v w → Walk E u (k + 1) w

namespace Walk
variable {V : Type*} {E : V → V → Prop} {u v w : V} {k : Nat}

theorem reachable (walk : Walk E u k v) : Relation.ReflTransGen E u v := by
  induction walk with
  | here => exact .refl
  | step _ edge ih => exact ih.tail edge

/-- A walk that leaves a set does so along one of its edges. -/
theorem leaves {S : V → Prop} (walk : Walk E u k v) (inside : S u) (outside : ¬ S v) :
    ∃ j a b, j < k ∧ Walk E u j a ∧ S a ∧ E a b ∧ ¬ S b := by
  induction walk with
  | here => exact absurd inside outside
  | @step k v w walk edge ih =>
    by_cases still : S v
    · exact ⟨k, v, w, Nat.lt_succ_self k, walk, still, edge, outside⟩
    · obtain ⟨j, a, b, shorter, found⟩ := ih still
      exact ⟨j, a, b, Nat.lt_succ_of_lt shorter, found⟩

end Walk

namespace Parents
variable {V : Type*} {E : V → V → Prop} {parents : V → Option V} {u v w : V} {k : Nat}

/-- The vertex that `k` steps to the parent lead to, or `none` when they end earlier. -/
def climb (parents : V → Option V) : Nat → V → Option V
  | 0, v => some v
  | k + 1, v => (parents v).bind (climb parents k)

structure Forest (E : V → V → Prop) (parents : V → Option V) : Prop where
  edge : ∀ v u, parents v = some u → E u v
  wellFounded : WellFounded fun u v => parents v = some u

theorem forest_none : Forest E (fun _ => none) where
  edge := fun _ _ link => by cases link
  wellFounded := ⟨fun _ => ⟨_, fun _ link => by cases link⟩⟩

theorem Forest.climb_ends (forest : Forest E parents) (v : V) : ∃ k, climb parents k v = none := by
  induction v using forest.wellFounded.induction with
  | _ v ih =>
    cases link : parents v with
    | none => exact ⟨1, by rw [climb, link, Option.bind_none]⟩
    | some u =>
      obtain ⟨k, ends⟩ := ih u link
      exact ⟨k + 1, by rw [climb, link, Option.bind_some, ends]⟩

theorem Forest.climb_walk (forest : Forest E parents) (climbs : climb parents k v = some u) :
    Walk E u k v := by
  induction k generalizing v with
  | zero =>
    cases climbs
    exact .here
  | succ k ih =>
    obtain ⟨w, link, climbs⟩ := Option.bind_eq_some_iff.mp climbs
    exact (ih climbs).step (forest.edge v w link)

theorem climb_transGen (climbs : climb parents (k + 1) v = some u) :
    Relation.TransGen (fun u v => parents v = some u) u v := by
  induction k generalizing v with
  | zero =>
    obtain ⟨w, link, climbs⟩ := Option.bind_eq_some_iff.mp climbs
    cases climbs
    exact .single link
  | succ k ih =>
    obtain ⟨w, link, climbs⟩ := Option.bind_eq_some_iff.mp climbs
    exact (ih climbs).tail link

theorem Forest.irrefl (forest : Forest E parents) : climb parents (k + 1) v ≠ some v :=
  fun climbs => forest.wellFounded.transGen.irrefl.irrefl v (climb_transGen climbs)

/-- An ancestor is met only once. -/
theorem Forest.climb_unique (forest : Forest E parents) {j : Nat}
    (one : climb parents j v = some u) (other : climb parents k v = some u) : k = j := by
  induction j generalizing v k with
  | zero =>
    cases one
    cases k with
    | zero => rfl
    | succ k => exact absurd other forest.irrefl
  | succ j ih =>
    cases k with
    | zero =>
      cases other
      exact absurd one forest.irrefl
    | succ k =>
      obtain ⟨w, link, one⟩ := Option.bind_eq_some_iff.mp one
      rw [climb, link, Option.bind_some] at other
      rw [ih one other]

end Parents

/-- What holds whenever a breadth-first search from `src` goes on with the front of its
queue. `old` are the parents before the search, and `depth` counts the edges of
the walk by which a vertex was found. -/
structure Frontier {V : Type*} (E : V → V → Prop) (src : V) (old parents : V → Option V)
    (seen : V → Prop) (queue : List V) (depth : V → Nat) : Prop where
  source : seen src ∧ depth src = 0
  root : parents src = none
  tree : ∀ v, seen v → v ≠ src →
    ∃ u, parents v = some u ∧ seen u ∧ E u v ∧ depth v = depth u + 1
  stale : ∀ v, ¬ seen v → parents v = old v
  least : ∀ v k, seen v → Walk E src k v → depth v ≤ k
  queued : ∀ v ∈ queue, seen v
  closed : ∀ v, seen v → v ∉ queue → ∀ w, E v w → seen w
  sorted : queue.Pairwise fun v w => depth v ≤ depth w
  level : ∀ v rest, queue = v :: rest → ∀ w ∈ queue, depth w ≤ depth v + 1

namespace Frontier
variable {V : Type*} {E : V → V → Prop} {src v w : V} {old parents : V → Option V}
  {seen : V → Prop} {queue rest : List V} {depth : V → Nat}

theorem start [DecidableEq V] (old : V → Option V) (src : V) :
    Frontier E src old (Function.update old src none) (fun v => v = src) [src] (fun _ => 0) where
  source := ⟨rfl, rfl⟩
  root := Function.update_self ..
  tree := fun _ same ne => absurd same ne
  stale := fun _ ne => Function.update_of_ne ne ..
  least := fun _ _ _ _ => Nat.zero_le _
  queued := fun _ member => List.mem_singleton.mp member
  closed := fun _ same outside => absurd (List.mem_singleton.mpr same) outside
  sorted := List.pairwise_singleton _ _
  level := fun _ _ _ _ _ => Nat.zero_le _

/-- No vertex that is still to be found is nearer than the front of the queue. -/
theorem far (frontier : Frontier E src old parents seen (v :: rest) depth) (new : ¬ seen w)
    {k : Nat} (walk : Walk E src k w) : depth v + 1 ≤ k := by
  obtain ⟨j, a, b, shorter, before, inside, edge, outside⟩ := walk.leaves frontier.source.1 new
  have nearest := frontier.least a j inside before
  have waiting : a ∈ v :: rest := by
    by_contra done
    exact outside (frontier.closed a inside done b edge)
  have front : depth v ≤ depth a := by
    rcases List.mem_cons.mp waiting with rfl | later
    · exact Nat.le_refl _
    · exact (List.pairwise_cons.mp frontier.sorted).1 a later
  omega

theorem find [DecidableEq V] (frontier : Frontier E src old parents seen (v :: rest) depth)
    (edge : E v w) (new : ¬ seen w) :
    Frontier E src old (Function.update parents w (some v)) (fun x => x = w ∨ seen x)
      (v :: (rest ++ [w])) (Function.update depth w (depth v + 1)) := by
  have known : ∀ {x}, seen x → x ≠ w := fun inside same => new (same ▸ inside)
  have front : seen v := frontier.queued v (List.mem_cons_self ..)
  have kept : ∀ {x}, seen x → Function.update depth w (depth v + 1) x = depth x :=
    fun inside => Function.update_of_ne (known inside) ..
  constructor
  · exact ⟨.inr frontier.source.1, (kept frontier.source.1).trans frontier.source.2⟩
  · exact (Function.update_of_ne (known frontier.source.1) ..).trans frontier.root
  · rintro x (rfl | inside) ne
    · refine ⟨v, Function.update_self .., .inr front, edge, ?_⟩
      rw [Function.update_self, kept front]
    · obtain ⟨u, link, before, edge, next⟩ := frontier.tree x inside ne
      refine ⟨u, (Function.update_of_ne (known inside) ..).trans link, .inr before, edge, ?_⟩
      rw [kept inside, kept before, next]
  · intro x outside
    obtain ⟨ne, unseen⟩ := not_or.mp outside
    exact (Function.update_of_ne ne ..).trans (frontier.stale x unseen)
  · rintro x k (rfl | inside) walk
    · rw [Function.update_self]
      exact frontier.far new walk
    · rw [kept inside]
      exact frontier.least x k inside walk
  · intro x member
    rw [← List.cons_append, List.mem_append, List.mem_singleton] at member
    exact member.symm.imp id (frontier.queued x)
  · rintro x inside outside y edge
    rw [← List.cons_append, List.mem_append, List.mem_singleton] at outside
    obtain ⟨done, ne⟩ := not_or.mp outside
    exact .inr (frontier.closed x (inside.resolve_left ne) done y edge)
  · have before : ∀ x ∈ v :: rest, depth x ≤ depth v + 1 := frontier.level v rest rfl
    rw [← List.cons_append, List.pairwise_append]
    refine ⟨?_, List.pairwise_singleton _ _, ?_⟩
    · refine frontier.sorted.imp_of_mem fun {a b} first second le => ?_
      rwa [kept (frontier.queued a first), kept (frontier.queued b second)]
    · intro x member y last
      rw [List.mem_singleton.mp last, Function.update_self, kept (frontier.queued x member)]
      exact before x member
  · rintro x others same y member
    obtain ⟨rfl, -⟩ := List.cons.inj same
    rw [kept front]
    rw [← List.cons_append, List.mem_append, List.mem_singleton] at member
    rcases member with waiting | rfl
    · rw [kept (frontier.queued y waiting)]
      exact frontier.level v rest rfl y waiting
    · rw [Function.update_self]

/-- The front of the queue is done when all its neighbours are found. -/
theorem finish (frontier : Frontier E src old parents seen (v :: rest) depth)
    (all : ∀ w, E v w → seen w) : Frontier E src old parents seen rest depth where
  source := frontier.source
  root := frontier.root
  tree := frontier.tree
  stale := frontier.stale
  least := frontier.least
  queued := fun x member => frontier.queued x (List.mem_cons_of_mem v member)
  closed := by
    intro x inside done y edge
    by_cases same : x = v
    · exact all y (same ▸ edge)
    · exact frontier.closed x inside (List.not_mem_cons_of_ne_of_not_mem same done) y edge
  sorted := (List.pairwise_cons.mp frontier.sorted).2
  level := by
    rintro x others rfl y member
    have front : depth v ≤ depth x :=
      (List.pairwise_cons.mp frontier.sorted).1 x (List.mem_cons_self ..)
    have near := frontier.level v _ rfl y (List.mem_cons_of_mem v member)
    omega

theorem climb_depth (frontier : Frontier E src old parents seen queue depth) (inside : seen v) :
    Parents.climb parents (depth v) v = some src := by
  induction d : depth v generalizing v with
  | zero =>
    by_cases same : v = src
    · rw [same, Parents.climb]
    · obtain ⟨u, -, -, -, next⟩ := frontier.tree v inside same
      omega
  | succ d ih =>
    have ne : v ≠ src := by
      rintro rfl
      rw [frontier.source.2] at d
      cases d
    obtain ⟨u, link, before, -, next⟩ := frontier.tree v inside ne
    rw [Parents.climb, link, Option.bind_some]
    exact ih before (by omega)

theorem complete (frontier : Frontier E src old parents seen [] depth)
    (reachable : Relation.ReflTransGen E src v) : seen v := by
  induction reachable with
  | refl => exact frontier.source.1
  | tail _ edge ih => exact frontier.closed _ ih (List.not_mem_nil) _ edge

theorem forest (frontier : Frontier E src old parents seen queue depth)
    (before : Parents.Forest E old) : Parents.Forest E parents := by
  have found : ∀ d v, seen v → depth v = d → Acc (fun u v => parents v = some u) v := by
    intro d
    induction d with
    | zero =>
      intro v inside zero
      constructor
      intro u link
      by_cases same : v = src
      · rw [same, frontier.root] at link
        cases link
      · obtain ⟨_, -, -, -, next⟩ := frontier.tree v inside same
        omega
    | succ d ih =>
      intro v inside deeper
      constructor
      intro u link
      by_cases same : v = src
      · rw [same, frontier.root] at link
        cases link
      · obtain ⟨_, link', above, -, next⟩ := frontier.tree v inside same
        cases link'.symm.trans link
        exact ih u above (by omega)
  constructor
  · intro v u link
    by_cases inside : seen v
    · by_cases same : v = src
      · rw [same, frontier.root] at link
        cases link
      · obtain ⟨_, link', -, edge, -⟩ := frontier.tree v inside same
        cases link'.symm.trans link
        exact edge
    · rw [frontier.stale v inside] at link
      exact before.edge v u link
  · constructor
    intro v
    induction v using before.wellFounded.induction with
    | _ v ih =>
      by_cases inside : seen v
      · exact found (depth v) v inside rfl
      · constructor
        intro u link
        rw [frontier.stale v inside] at link
        exact ih u link

end Frontier

/-- A search whose `retired` vertices have left the queue with their neighbours found, the last one
first. A vertex without neighbours need not be among them. -/
structure Retiring {V : Type*} (E : V → V → Prop) (src : V) (old parents : V → Option V)
    (seen : V → Prop) (queue : List V) (depth : V → Nat) (retired : List V) : Prop
    extends Frontier E src old parents seen queue depth where
  nodup : (retired ++ queue).Nodup
  known : ∀ v ∈ retired, seen v
  falling : retired.Pairwise fun v w => depth w ≤ depth v
  before : ∀ v ∈ retired, ∀ w ∈ queue, depth v ≤ depth w
  busy : ∀ v ∈ retired, ∃ w, E v w
  kept : ∀ v, seen v → v ∈ queue ∨ v ∈ retired ∨ ∀ w, ¬ E v w

namespace Retiring
variable {V : Type*} {E : V → V → Prop} {src v w : V} {old parents : V → Option V}
  {seen : V → Prop} {queue rest retired : List V} {depth : V → Nat}

theorem start [DecidableEq V] (old : V → Option V) (src : V) :
    Retiring E src old (Function.update old src none) (fun v => v = src) [src] (fun _ => 0) [] where
  toFrontier := Frontier.start old src
  nodup := List.nodup_singleton src
  known := nofun
  falling := .nil
  before := nofun
  busy := nofun
  kept := fun _ same => .inl (List.mem_singleton.mpr same)

theorem find [DecidableEq V] (retiring : Retiring E src old parents seen (v :: rest) depth retired)
    (edge : E v w) (new : ¬ seen w) :
    Retiring E src old (Function.update parents w (some v)) (fun x => x = w ∨ seen x)
      (v :: (rest ++ [w])) (Function.update depth w (depth v + 1)) retired := by
  have frontier := retiring.toFrontier
  have unchanged : ∀ {x}, seen x → Function.update depth w (depth v + 1) x = depth x :=
    fun {x} inside => Function.update_of_ne (fun same : x = w => new (same ▸ inside)) ..
  have front : v ∈ v :: rest := List.mem_cons_self
  refine ⟨frontier.find edge new, ?_, fun x member => .inr (retiring.known x member), ?_, ?_,
    retiring.busy, ?_⟩
  · have outside : w ∉ retired ++ v :: rest := by
      intro member
      rcases List.mem_append.mp member with done | waiting
      · exact new (retiring.known w done)
      · exact new (frontier.queued w waiting)
    rw [← List.cons_append, ← List.append_assoc]
    refine List.nodup_append.mpr ⟨retiring.nodup, List.nodup_singleton w, fun x member y last => ?_⟩
    rintro rfl
    exact outside (List.mem_singleton.mp last ▸ member)
  · refine retiring.falling.imp_of_mem fun {a b} first second le => ?_
    rwa [unchanged (retiring.known a first), unchanged (retiring.known b second)]
  · intro x member y waiting
    rw [unchanged (retiring.known x member)]
    rw [← List.cons_append, List.mem_append, List.mem_singleton] at waiting
    rcases waiting with before | rfl
    · rw [unchanged (frontier.queued y before)]
      exact retiring.before x member y before
    · rw [Function.update_self]
      exact Nat.le_succ_of_le (retiring.before x member v front)
  · rintro x (rfl | inside)
    · exact .inl (by simp)
    · refine (retiring.kept x inside).imp_left fun waiting => ?_
      rw [← List.cons_append]
      exact List.mem_append_left _ waiting

/-- The front of the queue retires. -/
theorem finish (retiring : Retiring E src old parents seen (v :: rest) depth retired)
    (branching : ∃ w, E v w) (all : ∀ w, E v w → seen w) :
    Retiring E src old parents seen rest depth (v :: retired) := by
  have frontier := retiring.toFrontier
  have front : v ∈ v :: rest := List.mem_cons_self
  refine ⟨frontier.finish all, ?_, ?_, ?_, ?_, ?_, ?_⟩
  · exact List.perm_middle.nodup_iff.mp retiring.nodup
  · exact List.forall_mem_cons.mpr ⟨frontier.queued v front, retiring.known⟩
  · exact List.pairwise_cons.mpr ⟨fun x member => retiring.before x member v front, retiring.falling⟩
  · intro x member y waiting
    rcases List.mem_cons.mp member with rfl | done
    · exact (List.pairwise_cons.mp frontier.sorted).1 y waiting
    · exact retiring.before x done y (List.mem_cons_of_mem v waiting)
  · exact List.forall_mem_cons.mpr ⟨branching, retiring.busy⟩
  · intro x inside
    rcases retiring.kept x inside with waiting | done | idle
    · rcases List.mem_cons.mp waiting with rfl | waiting
      · exact .inr (.inl List.mem_cons_self)
      · exact .inl waiting
    · exact .inr (.inl (List.mem_cons_of_mem v done))
    · exact .inr (.inr idle)

theorem skip (retiring : Retiring E src old parents seen (v :: rest) depth retired)
    (idle : ∀ w, ¬ E v w) : Retiring E src old parents seen rest depth retired := by
  refine ⟨retiring.toFrontier.finish fun w edge => absurd edge (idle w), ?_, retiring.known,
    retiring.falling, fun x member y waiting => retiring.before x member y
      (List.mem_cons_of_mem v waiting), retiring.busy, fun x inside => ?_⟩
  · exact retiring.nodup.sublist ((List.sublist_cons_self v rest).append_left retired)
  · rcases retiring.kept x inside with waiting | done
    · rcases List.mem_cons.mp waiting with rfl | waiting
      · exact .inr (.inr idle)
      · exact .inl waiting
    · exact .inr done

end Retiring
