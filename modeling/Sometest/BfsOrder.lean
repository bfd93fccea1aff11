import Sometest.BfsDemo
import Mathlib.Data.List.Chain

/-! What else `bfs_min_dist` leaves: the stack shows the order of the search, and `main` prints the walk
to the parents. -/
namespace Sometest.BfsDemo
open Parents (climb Forest)

variable {n : Nat}

section Loops
variable {graph : Fin n → List (Fin n)} {src dest value : Fin n} {old : Fin n → Option (Fin n)}
  {s : Search n} {retired : List (Fin n)}

/-- `retired` are the vertices that the call has pushed to the stack and is done with. -/
def Visiting (graph : Fin n → List (Fin n)) (src : Fin n) (old : Fin n → Option (Fin n))
    (s : Search n) (queue retired : List (Fin n)) : Prop :=
  ∃ depth, Retiring (Edge graph) src old s.parents s.Seen queue depth retired

theorem Visiting.discover (visiting : Visiting graph src old s (value :: s.nodes) retired)
    {iter : Fin n} (edge : iter ∈ graph value) (white : s.color iter = .white) :
    Visiting graph src old (s.discover value iter) (value :: (s.discover value iter).nodes)
      retired := by
  obtain ⟨depth, retiring⟩ := visiting
  have found := retiring.find edge (not_not.mpr white)
  rw [← Search.seen_update (c := .gray) (by decide)] at found
  exact ⟨_, found⟩

theorem Visiting.blacken (visiting : Visiting graph src old s (value :: s.nodes) retired)
    (branching : graph value ≠ []) (all : ∀ v ∈ graph value, s.Seen v) :
    Visiting graph src old { s with color := Function.update s.color value .black } s.nodes
      (value :: retired) := by
  obtain ⟨depth, retiring⟩ := visiting
  have seen : s.Seen value := retiring.queued value List.mem_cons_self
  have finished := retiring.finish (List.exists_mem_of_ne_nil _ branching) all
  rw [← Search.seen_black seen] at finished
  exact ⟨depth, finished⟩

structure Pushed (graph : Fin n → List (Fin n)) (src dest value : Fin n)
    (old : Fin n → Option (Fin n)) (s next : Search n) (retired : List (Fin n)) (returned : Bool) :
    Prop where
  found : returned = true → Visiting graph src old next (value :: next.nodes) retired ∧
    next.path = dest :: s.path ∧ next.Seen dest ∧ next.parents dest = some value ∧ dest ≠ src
  done : returned = false → Visiting graph src old next next.nodes (value :: retired) ∧
    next.path = s.path ∧ (next.Seen dest → s.Seen dest)

theorem Visiting.scan {neighbours : List (Fin n)}
    (visiting : Visiting graph src old s (value :: s.nodes) retired) (branching : graph value ≠ [])
    (edges : ∀ v ∈ neighbours, v ∈ graph value)
    (others : ∀ v ∈ graph value, v ∈ neighbours ∨ s.Seen v) {next : Search n} {returned : Bool}
    (ran : scan value dest neighbours s = (next, returned)) :
    Pushed graph src dest value old s next retired returned := by
  induction neighbours generalizing s with
  | nil =>
    cases ran
    have all : ∀ v ∈ graph value, s.Seen v := fun v edge =>
      (others v edge).resolve_left List.not_mem_nil
    obtain ⟨depth, retiring⟩ := id visiting
    have black := Search.seen_black (retiring.queued value List.mem_cons_self)
    exact ⟨fun wrong => absurd wrong Bool.false_ne_true, fun _ => ⟨visiting.blacken branching all, rfl,
      fun seen => (iff_of_eq (congrFun black dest)).mp seen⟩⟩
  | cons iter rest ih =>
    have edge := edges iter List.mem_cons_self
    have later : ∀ v ∈ rest, v ∈ graph value := fun v member => edges v (List.mem_cons_of_mem _ member)
    rw [BfsDemo.scan] at ran
    split at ran
    · rename_i seen
      refine ih visiting later (fun v edge => ?_) ran
      rcases others v edge with member | before
      · rcases List.mem_cons.mp member with rfl | member
        · exact .inr seen
        · exact .inl member
      · exact .inr before
    · rename_i notSeen
      have white : s.color iter = .white := not_not.mp notSeen
      have discovered := visiting.discover edge white
      have seen : ∀ v, (s.discover value iter).Seen v ↔ v = iter ∨ s.Seen v := fun v =>
        iff_of_eq (congrFun (Search.seen_update (c := .gray) (by decide)) v)
      split at ran
      · rename_i goal
        cases ran
        subst goal
        obtain ⟨depth, retiring⟩ := visiting
        have new : iter ≠ src := fun same => notSeen (same ▸ retiring.source.1)
        exact ⟨fun _ => ⟨discovered, rfl, (seen iter).mpr (.inl rfl), Function.update_self .., new⟩,
          fun wrong => absurd wrong.symm Bool.false_ne_true⟩
      · rename_i notGoal
        have scanned := ih discovered later (fun v edge => ?_) ran
        · refine ⟨scanned.found, fun goes => ?_⟩
          obtain ⟨after, path, before⟩ := scanned.done goes
          exact ⟨after, path, fun inside =>
            ((seen dest).mp (before inside)).resolve_left (Ne.symm notGoal)⟩
        · rcases others v edge with member | before
          · rcases List.mem_cons.mp member with rfl | member
            · exact .inr ((seen v).mpr (.inl rfl))
            · exact .inl member
          · exact .inr ((seen v).mpr (.inr before))

/-- How a call ends: on discovering `dest` from the front of the queue, or with the queue used up. -/
inductive Visited (graph : Fin n → List (Fin n)) (src dest : Fin n) (old : Fin n → Option (Fin n))
    (path : List (Fin n)) (s : Search n) : Prop where
  | found (value : Fin n) (queue retired : List (Fin n))
    (visiting : Visiting graph src old s (value :: queue) retired) (seen : s.Seen dest)
    (link : s.parents dest = some value) (new : dest ≠ src)
    (pushed : s.path = dest :: value :: retired ++ path)
  | exhausted (retired : List (Fin n)) (visiting : Visiting graph src old s [] retired)
    (missed : s.Seen dest → dest = src) (pushed : s.path = retired ++ path)

/-- By induction on the rounds: what has retired is on the stack. -/
theorem Visiting.loop {bound : Nat} {path : List (Fin n)} {out : Search n}
    (visiting : Visiting graph src old s s.nodes retired) (pushed : s.path = retired ++ path)
    (missed : s.Seen dest → dest = src) (ran : loop graph dest bound s = some out) :
    Visited graph src dest old path out := by
  induction bound generalizing s retired with
  | zero => cases ran
  | succ bound ih =>
    rw [BfsDemo.loop] at ran
    split at ran
    · rename_i empty
      cases ran
      rw [empty] at visiting
      exact .exhausted retired visiting missed pushed
    · rename_i value nodes waiting
      rw [waiting] at visiting
      split at ran
      · rename_i empty
        obtain ⟨depth, retiring⟩ := visiting
        refine ih (s := { s with nodes }) ⟨depth, retiring.skip fun w edge => ?_⟩ pushed missed ran
        rw [Edge, empty] at edge
        cases edge
      · rename_i branching
        rcases scanning : BfsDemo.scan value dest (graph value)
          { s with nodes, path := value :: s.path } with ⟨next, returned⟩
        have scanned := Visiting.scan (s := { s with nodes, path := value :: s.path }) visiting
          branching (fun v edge => edge) (fun v edge => .inl edge) scanning
        rw [scanning] at ran
        cases returned with
        | true =>
          cases ran
          obtain ⟨after, top, seen, link, new⟩ := scanned.found rfl
          refine .found value _ retired after seen link new ?_
          rw [top, pushed]
          rfl
        | false =>
          obtain ⟨after, top, before⟩ := scanned.done rfl
          refine ih after ?_ (fun seen => missed (before seen)) ran
          rw [top, pushed]
          rfl

end Loops

section Order
variable {graph : Fin n → List (Fin n)} {src dest : Fin n} {old : Fin n → Option (Fin n)}
  {path : List (Fin n)} {s : Search n}

/-- Every walk to the vertex above is at least as long as some walk to the one below. -/
def NoNearer (graph : Fin n → List (Fin n)) (src above below : Fin n) : Prop :=
  ∀ k, Walk (Edge graph) src k above → ∃ j ≤ k, Walk (Edge graph) src j below

/-- The vertices that a call pushes, the last one first. -/
structure Order (graph : Fin n → List (Fin n)) (src dest : Fin n) (order : List (Fin n)) : Prop where
  nodup : order.Nodup
  reachable : ∀ v ∈ order, Relation.ReflTransGen (Edge graph) src v
  nearest : order.Pairwise (NoNearer graph src)
  found : dest ≠ src → Relation.ReflTransGen (Edge graph) src dest →
    ∃ value rest, order = dest :: value :: rest ∧ dest ∈ graph value ∧
      ∀ v k, graph v ≠ [] → Walk (Edge graph) src k v →
        (∀ m, Walk (Edge graph) src m dest → k + 1 < m) → v ∈ order
  exhausted : dest = src ∨ ¬ Relation.ReflTransGen (Edge graph) src dest →
    ∀ v, v ∈ order ↔ Relation.ReflTransGen (Edge graph) src v ∧ graph v ≠ []

theorem idle_iff {v : Fin n} : (∀ w, ¬ Edge graph v w) ↔ graph v = [] := by
  rw [List.eq_nil_iff_forall_not_mem]
  rfl

theorem nearest_of_depth {seen : Fin n → Prop} {parents : Fin n → Option (Fin n)}
    {queue : List (Fin n)} {depth : Fin n → Nat} {v w : Fin n}
    (frontier : Frontier (Edge graph) src old parents seen queue depth)
    (before : Forest (Edge graph) old) (above : seen v) (below : seen w) (le : depth w ≤ depth v) :
    NoNearer graph src v w := fun k walk =>
  ⟨depth w, le.trans (frontier.least v k above walk),
    (frontier.forest before).climb_walk (frontier.climb_depth below)⟩

theorem Visited.root (visited : Visited graph src dest old path s) : s.parents src = none := by
  cases visited with
  | found _ _ _ visiting =>
    obtain ⟨depth, retiring⟩ := visiting
    exact retiring.root
  | exhausted _ visiting =>
    obtain ⟨depth, retiring⟩ := visiting
    exact retiring.root

theorem Visited.order (visited : Visited graph src dest old path s)
    (before : Forest (Edge graph) old) :
    ∃ order, s.path = order ++ path ∧ Order graph src dest order := by
  cases visited with
  | found value queue retired visiting seen link new pushed =>
    obtain ⟨depth, retiring⟩ := visiting
    have frontier := retiring.toFrontier
    have front : value ∈ value :: queue := List.mem_cons_self
    obtain ⟨_, same, -, edge, next⟩ := frontier.tree dest seen new
    cases link.symm.trans same
    have walks : ∀ v, s.Seen v → Walk (Edge graph) src (depth v) v := fun v seen =>
      (frontier.forest before).climb_walk (frontier.climb_depth seen)
    have nearer : ∀ v ∈ value :: retired, depth v ≤ depth value := List.forall_mem_cons.mpr
      ⟨Nat.le_refl _, fun v member => retiring.before v member value front⟩
    have known : ∀ v ∈ dest :: value :: retired, s.Seen v := List.forall_mem_cons.mpr
      ⟨seen, List.forall_mem_cons.mpr ⟨frontier.queued value front, retiring.known⟩⟩
    have falling : (dest :: value :: retired).Pairwise fun v w => depth w ≤ depth v := by
      refine List.pairwise_cons.mpr ⟨fun v member => ?_, List.pairwise_cons.mpr
        ⟨fun v member => nearer v (List.mem_cons_of_mem _ member), retiring.falling⟩⟩
      have := nearer v member
      omega
    refine ⟨dest :: value :: retired, pushed, ?_, fun v member => (walks v (known v member)).reachable,
      ?_, fun _ _ => ⟨value, retired, rfl, edge, fun v k branching walk far => ?_⟩, fun wrong => ?_⟩
    · refine List.nodup_cons.mpr ⟨fun member => ?_, List.nodup_cons.mpr ⟨fun member => ?_, ?_⟩⟩
      · have := nearer dest member
        omega
      · exact List.disjoint_of_nodup_append retiring.nodup member front
      · exact retiring.nodup.sublist (List.sublist_append_left ..)
    · exact falling.imp_of_mem fun first second le =>
        nearest_of_depth frontier before (known _ first) (known _ second) le
    · have short := far _ (walks dest seen)
      by_cases inside : s.Seen v
      · have least := frontier.least v k inside walk
        rcases retiring.kept v inside with waiting | done | idle
        · rcases List.mem_cons.mp waiting with rfl | waiting
          · exact List.mem_cons_of_mem _ List.mem_cons_self
          · have := (List.pairwise_cons.mp frontier.sorted).1 v waiting
            omega
        · exact List.mem_cons_of_mem _ (List.mem_cons_of_mem _ done)
        · exact absurd (idle_iff.mp idle) branching
      · have := frontier.far inside walk
        omega
    · exact (wrong.resolve_left new (walks dest seen).reachable).elim
  | exhausted retired visiting missed pushed =>
    obtain ⟨depth, retiring⟩ := visiting
    have frontier := retiring.toFrontier
    have walks : ∀ v, s.Seen v → Walk (Edge graph) src (depth v) v := fun v seen =>
      (frontier.forest before).climb_walk (frontier.climb_depth seen)
    refine ⟨retired, pushed, ?_, fun v member => (walks v (retiring.known v member)).reachable, ?_,
      fun new reachable => absurd (missed (frontier.complete reachable)) new, fun _ v => ?_⟩
    · simpa using retiring.nodup
    · exact retiring.falling.imp_of_mem fun first second le =>
        nearest_of_depth frontier before (retiring.known _ first) (retiring.known _ second) le
    · constructor
      · intro member
        obtain ⟨w, edge⟩ := retiring.busy v member
        exact ⟨(walks v (retiring.known v member)).reachable, List.ne_nil_of_mem edge⟩
      · rintro ⟨reachable, branching⟩
        rcases retiring.kept v (frontier.complete reachable) with waiting | done | idle
        · cases waiting
        · exact done
        · exact absurd (idle_iff.mp idle) branching

end Order

section Calls
variable {graph : Fin n → List (Fin n)} {bound : Nat} {t : Tables n}

theorem seen_start (t : Tables n) (src v : Fin n) : (Search.start t src).Seen v ↔ v = src := by
  by_cases same : v = src
  · simp only [Search.Seen, Search.start, same, Function.update_self, ne_eq, reduceCtorEq,
      not_false_eq_true]
  · simp only [Search.Seen, Search.start, Function.update_of_ne same, ne_eq, not_true_eq_false, same]

theorem Visiting.start (t : Tables n) (src : Fin n) :
    Visiting graph src t.parents (.start t src) [src] [] := by
  have seen : (Search.start t src).Seen = fun v => v = src := by
    funext v
    exact propext (seen_start t src v)
  refine ⟨fun _ => 0, ?_⟩
  rw [seen]
  exact Retiring.start t.parents src

theorem bfsMinDist_visited (enough : n < bound) (before : Forest (Edge graph) t.parents)
    (src dest : Fin n) :
    ∃ s, bfsMinDist bound graph t (src, dest) = some ⟨s.parents, s.path⟩ ∧
      Visited graph src dest t.parents t.path s := by
  obtain ⟨t', called, -⟩ := bfsMinDist_answers enough before src dest
  obtain ⟨s, looped, rfl⟩ := Option.map_eq_some_iff.mp called
  exact ⟨s, called, (Visiting.start t src).loop rfl (seen_start t src dest).mp looped⟩

end Calls

/-- After any calls, a call to `bfs_min_dist` pushes each vertex at most once, the nearer ones below
the farther ones: every reachable vertex that has neighbours, or, when it finds `dest`, those that
are nearer than the one it finds `dest` from, that one, and `dest` on top. -/
theorem visits_in_order (bound : Nat) (enough : n < bound) (graph : Fin n → List (Fin n))
    (calls : List (Fin n × Fin n)) (src dest : Fin n) :
    ∃ t t' order, Runs.run (bfsMinDist bound graph) (.start n) calls = some t ∧
      bfsMinDist bound graph t (src, dest) = some t' ∧ t'.path = order ++ t.path ∧
      Order graph src dest order := by
  obtain ⟨t, ran, forest⟩ := run_forest (t := .start n) enough calls Parents.forest_none
  obtain ⟨s, called, visited⟩ := bfsMinDist_visited enough forest src dest
  obtain ⟨order, pushed, ordered⟩ := visited.order forest
  exact ⟨t, ⟨s.parents, s.path⟩, order, ran, called, pushed, ordered⟩

/-- The call of `main`, after one that leaves its own vertices on the stack. -/
theorem visits_in_order_demo :
    ∃ t t' order, Runs.run (bfsMinDist 9 demoGraph) (.start 8) [(5, 2)] = some t ∧
      bfsMinDist 9 demoGraph t (1, 7) = some t' ∧ t'.path = order ++ t.path ∧
      Order demoGraph 1 7 order :=
  visits_in_order 9 (by decide) demoGraph [(5, 2)] 1 7

example : (Runs.run (bfsMinDist 9 demoGraph) (.start 8) [(1, 7)]).map (·.path) =
    some [7, 3, 5, 4, 2, 1] := by decide

/-- What `main` prints before `src`; the loop ends at a vertex whose parent is `0` or `-1`. -/
def printed (parents : Fin n → Option (Fin n)) : Nat → Fin n → Option (List (Fin n))
  | 0, _ => none
  | bound + 1, index =>
    match parents index with
    | none => some []
    | some parent => if 0 < parent.val then (printed parents bound parent).map (index :: ·) else some []

section Printed
variable {graph : Fin n → List (Fin n)} {parents : Fin n → Option (Fin n)} {src v w : Fin n}

theorem printed_climbs (forest : Forest (Edge graph) parents)
    (empty : ∀ v : Fin n, v.val = 0 → graph v = []) (v : Fin n) :
    ∃ steps out root, printed parents steps v = some out ∧ parents root = none ∧
      climb parents out.length v = some root ∧ (out ++ [root]).head? = some v ∧
      (out ++ [root]).IsChain fun v u => v ∈ graph u := by
  induction v using forest.wellFounded.induction with
  | _ v ih =>
    cases link : parents v with
    | none =>
      refine ⟨1, [], v, ?_, link, rfl, rfl, .singleton v⟩
      rw [printed, link]
    | some parent =>
      have edge : v ∈ graph parent := forest.edge v parent link
      have positive : 0 < parent.val := by
        refine Nat.pos_of_ne_zero fun zero => ?_
        rw [empty parent zero] at edge
        cases edge
      obtain ⟨steps, out, root, prints, top, climbs, first, chain⟩ := ih parent link
      refine ⟨steps + 1, v :: out, root, ?_, top, ?_, rfl, ?_⟩
      · rw [printed, link]
        simp only [if_pos positive, prints, Option.map_some]
      · rw [List.length_cons, climb, link, Option.bind_some, climbs]
      · rw [List.cons_append]
        refine List.isChain_cons.mpr ⟨fun u next => ?_, chain⟩
        cases first.symm.trans next
        exact edge

theorem climb_root {u : Fin n} {j k : Nat} (one : climb parents j v = some u) (top : parents u = none)
    (other : climb parents k v = some w) (top' : parents w = none) : j = k ∧ u = w := by
  induction j generalizing v k with
  | zero =>
    cases one
    cases k with
    | zero => exact ⟨rfl, Option.some.inj other⟩
    | succ k =>
      rw [climb, top] at other
      cases other
  | succ j ih =>
    obtain ⟨x, link, one⟩ := Option.bind_eq_some_iff.mp one
    cases k with
    | zero =>
      cases other
      cases link.symm.trans top'
    | succ k =>
      rw [climb, link, Option.bind_some] at other
      obtain ⟨rfl, rfl⟩ := ih one other
      exact ⟨rfl, rfl⟩

/-- A printed line that ends with `src` and follows edges is a walk. -/
theorem walk_of_chain {line : List (Fin n)} (first : (line ++ [src]).head? = some v)
    (chain : (line ++ [src]).IsChain fun v u => v ∈ graph u) :
    Walk (Edge graph) src line.length v := by
  induction line generalizing v with
  | nil =>
    cases first
    exact .here
  | cons x rest ih =>
    cases first
    obtain ⟨next, chain⟩ := List.isChain_cons.mp chain
    cases after : (rest ++ [src]).head? with
    | none =>
      have nonempty := List.append_ne_nil_of_right_ne_nil rest (List.cons_ne_nil src [])
      exact absurd (List.head?_eq_none_iff.mp after) nonempty
    | some u => exact (ih after chain).step (next u after)

end Printed

/-- With no edges from the vertex `0`, the loop of `main` ends after any calls. The line it prints is
a walk from `src` to `dest` exactly when there is one, and then it is a shortest one. -/
theorem main_prints_shortest (bound : Nat) (enough : n < bound) (graph : Fin n → List (Fin n))
    (empty : ∀ v : Fin n, v.val = 0 → graph v = []) (calls : List (Fin n × Fin n)) (src dest : Fin n) :
    ∃ t steps out, Runs.run (bfsMinDist bound graph) (.start n) (calls ++ [(src, dest)]) = some t ∧
      printed t.parents steps dest = some out ∧
      (Relation.ReflTransGen (Edge graph) src dest ↔ (out ++ [src]).head? = some dest ∧
        (out ++ [src]).IsChain fun v u => v ∈ graph u) ∧
      (Relation.ReflTransGen (Edge graph) src dest →
        ∀ k, Walk (Edge graph) src k dest → out.length ≤ k) := by
  have none_yet : Forest (Edge graph) (Tables.start n).parents := Parents.forest_none
  obtain ⟨t, ran, before⟩ := run_forest enough calls none_yet
  obtain ⟨s, called, visited⟩ := bfsMinDist_visited enough before src dest
  obtain ⟨t', called', forest, answers⟩ := bfsMinDist_answers enough before src dest
  cases called.symm.trans called'
  have source : s.parents src = none := visited.root
  obtain ⟨steps, out, root, prints, top, climbs, first, chain⟩ := printed_climbs forest empty dest
  have leads : Relation.ReflTransGen (Edge graph) src dest → root = src ∧
      ∀ k, Walk (Edge graph) src k dest → out.length ≤ k := by
    intro reachable
    obtain ⟨d, -, least, climbed⟩ := answers.shortest reachable
    obtain ⟨rfl, rfl⟩ := climb_root climbs top ((climbed d).mpr rfl) source
    exact ⟨rfl, least⟩
  refine ⟨_, steps, out, ?_, prints, ⟨fun reachable => ?_, fun line => ?_⟩, fun reachable =>
    (leads reachable).2⟩
  · rw [Runs.run_append, ran, Option.bind_some, Runs.run_cons, called, Option.bind_some, Runs.run_nil]
  · obtain ⟨rfl, -⟩ := leads reachable
    exact ⟨first, chain⟩
  · exact (walk_of_chain line.1 line.2).reachable

theorem main_prints_shortest_demo :
    ∃ t steps out, Runs.run (bfsMinDist 9 demoGraph) (.start 8) ([] ++ [(1, 7)]) = some t ∧
      printed t.parents steps 7 = some out ∧
      (Relation.ReflTransGen (Edge demoGraph) 1 7 ↔ (out ++ [1]).head? = some 7 ∧
        (out ++ [1]).IsChain fun v u => v ∈ demoGraph u) ∧
      (Relation.ReflTransGen (Edge demoGraph) 1 7 →
        ∀ k, Walk (Edge demoGraph) 1 k 7 → out.length ≤ k) :=
  main_prints_shortest 9 (by decide) demoGraph (by decide) [] 1 7

example : (Runs.run (bfsMinDist 9 demoGraph) (.start 8) [(1, 7)]).bind
    (fun t => printed t.parents 8 7) = some [7, 3, 5, 2] := by decide

end Sometest.BfsDemo
