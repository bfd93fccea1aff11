import Sometest.Lib.Run
import Sometest.Lib.Walks
import Mathlib.Data.Fintype.Basic
import Mathlib.Data.Fintype.Card
import Mathlib.Data.Finset.Card

/-! The breadth-first search of bfsdemo: the table of parents that `bfs_min_dist` leaves
after any sequence of calls. Vertices are the numbers below `n`, the size of the table;
`-1` is `none`. -/
namespace Sometest.BfsDemo
open Parents (climb Forest)

inductive Color where
  | white
  | gray
  | black
  deriving DecidableEq

variable {n : Nat}

/-- The table, the local variables of one call, and the caller's stack. -/
structure Search (n : Nat) where
  parents : Fin n → Option (Fin n)
  color : Fin n → Color
  nodes : List (Fin n)
  path : List (Fin n)

/-- The body of the inner loop for a white `iter`. -/
def Search.discover (s : Search n) (value iter : Fin n) : Search n :=
  { s with
    parents := Function.update s.parents iter (some value)
    nodes := s.nodes ++ [iter]
    color := Function.update s.color iter .gray }

/-- The inner loop over the neighbours of `value`; `true` when the call returns from it. -/
def scan (value dest : Fin n) : List (Fin n) → Search n → Search n × Bool
  | [], s => ({ s with color := Function.update s.color value .black }, false)
  | iter :: rest, s =>
    if s.color iter ≠ .white then scan value dest rest s
    else if iter = dest then
      ({ s.discover value iter with path := iter :: s.path }, true)
    else scan value dest rest (s.discover value iter)

/-- The outer loop. -/
def loop (graph : Fin n → List (Fin n)) (dest : Fin n) : Nat → Search n → Option (Search n)
  | 0, _ => none
  | bound + 1, s =>
    match s.nodes with
    | [] => some s
    | value :: nodes =>
      if graph value = [] then loop graph dest bound { s with nodes }
      else
        match scan value dest (graph value) { s with nodes, path := value :: s.path } with
        | (s, true) => some s
        | (s, false) => loop graph dest bound s

/-- What outlives a call: `nodeinfos`, and the stack that every call pushes to. -/
structure Tables (n : Nat) where
  parents : Fin n → Option (Fin n)
  path : List (Fin n)

def Tables.start (n : Nat) : Tables n := ⟨fun _ => none, []⟩

def Search.start (t : Tables n) (src : Fin n) : Search n where
  parents := Function.update t.parents src none
  color := Function.update (fun _ => .white) src .gray
  nodes := [src]
  path := t.path

def bfsMinDist (bound : Nat) (graph : Fin n → List (Fin n)) (t : Tables n) (call : Fin n × Fin n) :
    Option (Tables n) :=
  (loop graph call.2 bound (.start t call.1)).map fun s => ⟨s.parents, s.path⟩

def Edge (graph : Fin n → List (Fin n)) (u v : Fin n) : Prop := v ∈ graph u

def Search.Seen (s : Search n) (v : Fin n) : Prop := s.color v ≠ .white

/-- The number of vertices that can still be discovered. -/
def Search.whites (s : Search n) : Nat := (Finset.univ.filter fun v => s.color v = .white).card

section Loops
variable {graph : Fin n → List (Fin n)} {src dest value : Fin n} {old : Fin n → Option (Fin n)}
  {s : Search n}

/-- The search when its loop condition is tested, or while the front of the queue, which
is no longer in it, is scanned. -/
def Searching (graph : Fin n → List (Fin n)) (src : Fin n) (old : Fin n → Option (Fin n))
    (s : Search n) (queue : List (Fin n)) : Prop :=
  ∃ depth, Frontier (Edge graph) src old s.parents s.Seen queue depth

theorem Search.seen_update {c : Color} (colored : c ≠ .white) {iter : Fin n} :
    (fun v => Function.update s.color iter c v ≠ .white) = fun v => v = iter ∨ s.Seen v := by
  funext v
  by_cases same : v = iter
  · subst same
    simp only [Function.update_self, ne_eq, colored, not_false_eq_true, true_or]
  · simp only [Function.update_of_ne same, same, false_or, Search.Seen]

theorem Search.seen_black {v : Fin n} (seen : s.Seen v) :
    (fun w => Function.update s.color v .black w ≠ .white) = s.Seen := by
  rw [Search.seen_update (by decide)]
  funext w
  rw [eq_iff_iff]
  exact or_iff_right_of_imp fun same => same ▸ seen

theorem Search.whites_discover {iter : Fin n} (white : s.color iter = .white) :
    (s.discover value iter).whites + 1 = s.whites := by
  have erased : (Finset.univ.filter fun v => (s.discover value iter).color v = .white) =
      (Finset.univ.filter fun v => s.color v = .white).erase iter := by
    ext v
    rw [Finset.mem_erase, Finset.mem_filter, Finset.mem_filter, Search.discover]
    by_cases same : v = iter
    · subst same
      simp only [Function.update_self, reduceCtorEq, and_false, ne_eq, not_true_eq_false, false_and]
    · simp only [Function.update_of_ne same, ne_eq, same, not_false_eq_true, true_and]
  rw [Search.whites, erased]
  exact Finset.card_erase_add_one (Finset.mem_filter.mpr ⟨Finset.mem_univ iter, white⟩)

theorem Search.whites_black {v : Fin n} (seen : s.Seen v) :
    { s with color := Function.update s.color v .black }.whites = s.whites := by
  have same : (Finset.univ.filter fun w => Function.update s.color v .black w = .white) =
      Finset.univ.filter fun w => s.color w = .white := by
    apply Finset.filter_congr
    intro w _
    exact not_iff_not.mp (iff_of_eq (congrFun (Search.seen_black seen) w))
  rw [Search.whites, same, Search.whites]

theorem Searching.discover (searching : Searching graph src old s (value :: s.nodes)) {iter : Fin n}
    (edge : iter ∈ graph value) (white : s.color iter = .white) :
    Searching graph src old (s.discover value iter) (value :: (s.discover value iter).nodes) := by
  obtain ⟨depth, frontier⟩ := searching
  have found := frontier.find edge (not_not.mpr white)
  rw [← Search.seen_update (c := .gray) (by decide)] at found
  exact ⟨_, found⟩

/-- A scan that has discovered all neighbours is done with the vertex. -/
theorem Searching.blacken (searching : Searching graph src old s (value :: s.nodes))
    (all : ∀ v ∈ graph value, s.Seen v) :
    Searching graph src old { s with color := Function.update s.color value .black } s.nodes := by
  obtain ⟨depth, frontier⟩ := searching
  have seen : s.Seen value := frontier.queued value (List.mem_cons_self ..)
  refine ⟨depth, ?_⟩
  have finished := frontier.finish all
  rw [← Search.seen_black seen] at finished
  exact finished

/-- What a scan leaves: it returns on discovering `dest`, or it is done with the vertex. -/
structure Scanned (graph : Fin n → List (Fin n)) (src dest value : Fin n)
    (old : Fin n → Option (Fin n)) (s next : Search n) (returned : Bool) : Prop where
  found : returned = true →
    Searching graph src old next (value :: next.nodes) ∧ next.Seen dest
  done : returned = false → Searching graph src old next next.nodes
  spent : next.whites + next.nodes.length = s.whites + s.nodes.length

theorem Searching.scan {neighbours : List (Fin n)}
    (searching : Searching graph src old s (value :: s.nodes)) (edges : ∀ v ∈ neighbours, v ∈ graph value)
    (others : ∀ v ∈ graph value, v ∈ neighbours ∨ s.Seen v) {next : Search n} {returned : Bool}
    (ran : scan value dest neighbours s = (next, returned)) :
    Scanned graph src dest value old s next returned := by
  induction neighbours generalizing s with
  | nil =>
    cases ran
    have all : ∀ v ∈ graph value, s.Seen v := fun v edge =>
      (others v edge).resolve_left List.not_mem_nil
    have seen : s.Seen value := by
      obtain ⟨depth, frontier⟩ := searching
      exact frontier.queued value (List.mem_cons_self ..)
    constructor
    · intro wrong
      cases wrong
    · exact fun _ => searching.blacken all
    · rw [Search.whites_black seen]
  | cons iter rest ih =>
    have edge := edges iter (List.mem_cons_self ..)
    have later : ∀ v ∈ rest, v ∈ graph value := fun v member => edges v (List.mem_cons_of_mem _ member)
    rw [BfsDemo.scan] at ran
    split at ran
    · rename_i seen
      refine ih searching later (fun v edge => ?_) ran
      rcases others v edge with member | before
      · rcases List.mem_cons.mp member with rfl | member
        · exact .inr seen
        · exact .inl member
      · exact .inr before
    · rename_i notSeen
      have white : s.color iter = .white := not_not.mp notSeen
      have discovered := searching.discover edge white
      have seen : ∀ v, (s.discover value iter).Seen v ↔ v = iter ∨ s.Seen v := fun v =>
        iff_of_eq (congrFun (Search.seen_update (c := .gray) (by decide)) v)
      have whites : (s.discover value iter).whites + 1 = s.whites := Search.whites_discover white
      have pushed : (s.discover value iter).nodes.length = s.nodes.length + 1 := List.length_append
      split at ran
      · rename_i goal
        cases ran
        constructor
        · intro _
          exact ⟨discovered, (seen dest).mpr (.inl goal.symm)⟩
        · intro wrong
          cases wrong
        · show (s.discover value iter).whites + (s.discover value iter).nodes.length = _
          omega
      · have scanned := ih discovered later (fun v edge => ?_) ran
        · refine ⟨scanned.found, scanned.done, ?_⟩
          rw [scanned.spent]
          omega
        · rcases others v edge with member | before
          · rcases List.mem_cons.mp member with rfl | member
            · exact .inr ((seen v).mpr (.inl rfl))
            · exact .inl member
          · exact .inr ((seen v).mpr (.inr before))

/-- What a call leaves: it has discovered `dest`, or everything that is reachable. -/
structure Searched (graph : Fin n → List (Fin n)) (src dest : Fin n) (old : Fin n → Option (Fin n))
    (s : Search n) : Prop where
  searching : ∃ queue, Searching graph src old s queue
  complete : s.Seen dest ∨ ∀ v, Relation.ReflTransGen (Edge graph) src v → s.Seen v

/-- The loop ends: each round takes one vertex off the queue, and no vertex comes to the
queue twice. -/
theorem Searching.loop {bound : Nat} (searching : Searching graph src old s s.nodes)
    (enough : s.whites + s.nodes.length < bound) :
    ∃ out, loop graph dest bound s = some out ∧ Searched graph src dest old out := by
  induction bound generalizing s with
  | zero => omega
  | succ bound ih =>
    rw [BfsDemo.loop]
    cases waiting : s.nodes with
    | nil =>
      refine ⟨s, rfl, ⟨_, searching⟩, .inr fun v reachable => ?_⟩
      rw [waiting] at searching
      obtain ⟨depth, frontier⟩ := searching
      exact frontier.complete reachable
    | cons value nodes =>
      rw [waiting] at searching enough
      simp only [List.length_cons] at enough ⊢
      split
      · rename_i empty
        apply ih
        · obtain ⟨depth, frontier⟩ := searching
          refine ⟨depth, frontier.finish fun w edge => ?_⟩
          rw [Edge, empty] at edge
          cases edge
        · show s.whites + nodes.length < bound
          omega
      · rcases scanning : BfsDemo.scan value dest (graph value)
          { s with nodes, path := value :: s.path } with ⟨next, returned⟩
        have scanned := Searching.scan (s := { s with nodes, path := value :: s.path }) searching
          (fun v edge => edge) (fun v edge => .inl edge) scanning
        cases returned with
        | true =>
          obtain ⟨found, seen⟩ := scanned.found rfl
          exact ⟨next, rfl, ⟨_, found⟩, .inl seen⟩
        | false =>
          apply ih (scanned.done rfl)
          rw [scanned.spent]
          show s.whites + nodes.length < bound
          omega

end Loops

/-- What the table says after the search of a call: how the walk `index :=
nodeinfos[index].parent` goes from each vertex, and from `dest`. -/
structure Answers (graph : Fin n → List (Fin n)) (src dest : Fin n)
    (parents : Fin n → Option (Fin n)) : Prop where
  ends : ∀ v, ∃ k, climb parents k v = none
  edges : ∀ v u, parents v = some u → v ∈ graph u
  passes : (∃ k, climb parents k dest = some src) ↔ Relation.ReflTransGen (Edge graph) src dest
  shortest : Relation.ReflTransGen (Edge graph) src dest →
    ∃ d, Walk (Edge graph) src d dest ∧ (∀ k, Walk (Edge graph) src k dest → d ≤ k) ∧
      ∀ k, climb parents k dest = some src ↔ k = d

section Calls
variable {graph : Fin n → List (Fin n)} {bound : Nat} {t : Tables n}

theorem Searched.answers {src dest : Fin n} {old : Fin n → Option (Fin n)} {s : Search n}
    (searched : Searched graph src dest old s) (before : Forest (Edge graph) old) :
    Forest (Edge graph) s.parents ∧ Answers graph src dest s.parents := by
  obtain ⟨⟨queue, depth, frontier⟩, complete⟩ := searched
  have forest := frontier.forest before
  have found : Relation.ReflTransGen (Edge graph) src dest → s.Seen dest := fun reachable =>
    complete.elim id fun all => all dest reachable
  refine ⟨forest, forest.climb_ends, forest.edge, ?_, fun reachable => ?_⟩
  · constructor
    · rintro ⟨k, climbs⟩
      exact (forest.climb_walk climbs).reachable
    · intro reachable
      exact ⟨depth dest, frontier.climb_depth (found reachable)⟩
  · have climbs := frontier.climb_depth (found reachable)
    refine ⟨depth dest, forest.climb_walk climbs, ?_, fun k => ⟨?_, ?_⟩⟩
    · exact fun k walk => frontier.least dest k (found reachable) walk
    · exact fun other => forest.climb_unique climbs other
    · rintro rfl
      exact climbs

theorem Searching.start (t : Tables n) (src : Fin n) :
    Searching graph src t.parents (.start t src) [src] := by
  have seen : (Search.start t src).Seen = fun v => v = src := by
    funext v
    by_cases same : v = src
    · subst same
      simp only [Search.Seen, Search.start, Function.update_self, ne_eq, reduceCtorEq,
        not_false_eq_true]
    · simp only [Search.Seen, Search.start, Function.update_of_ne same, ne_eq, not_true_eq_false, same]
  refine ⟨fun _ => 0, ?_⟩
  rw [seen]
  exact Frontier.start t.parents src

theorem whites_start (t : Tables n) (src : Fin n) : (Search.start t src).whites < n := by
  have dark : src ∉ Finset.univ.filter fun v => (Search.start t src).color v = .white := by
    have gray : (Search.start t src).color src = .gray := by simp only [Search.start, Function.update_self]
    rw [Finset.mem_filter, gray]
    rintro ⟨-, wrong⟩
    cases wrong
  have fewer := Finset.card_lt_univ_of_notMem dark
  rwa [Fintype.card_fin] at fewer

/-- One call on any table that earlier calls can have left. -/
theorem bfsMinDist_answers (enough : n < bound) (before : Forest (Edge graph) t.parents)
    (src dest : Fin n) :
    ∃ t', bfsMinDist bound graph t (src, dest) = some t' ∧ Forest (Edge graph) t'.parents ∧
      Answers graph src dest t'.parents := by
  have fuel : (Search.start t src).whites + (Search.start t src).nodes.length < bound := by
    have fewer := whites_start t src
    show (Search.start t src).whites + 1 < bound
    omega
  have searching : Searching graph src t.parents (.start t src) [src] := Searching.start t src
  obtain ⟨out, looped, searched⟩ :
      ∃ out, loop graph dest bound (.start t src) = some out ∧
        Searched graph src dest t.parents out := searching.loop fuel
  obtain ⟨forest, answers⟩ := searched.answers before
  refine ⟨⟨out.parents, out.path⟩, ?_, forest, answers⟩
  rw [bfsMinDist, looped, Option.map_some]

theorem run_forest (enough : n < bound) (calls : List (Fin n × Fin n))
    (before : Forest (Edge graph) t.parents) :
    ∃ t', Runs.run (bfsMinDist bound graph) t calls = some t' ∧ Forest (Edge graph) t'.parents := by
  induction calls generalizing t with
  | nil => exact ⟨t, rfl, before⟩
  | cons call rest ih =>
    obtain ⟨next, called, forest, -⟩ := bfsMinDist_answers enough before call.1 call.2
    obtain ⟨t', ran, after⟩ := ih forest
    refine ⟨t', ?_, after⟩
    rw [Runs.run_cons, called, Option.bind_some, ran]

end Calls

/-- After every call of every sequence of calls, the table leads from each vertex to its
end and from `dest` along a shortest path to `src`, if there is a path. -/
theorem bfs_min_dist_shortest (bound : Nat) (enough : n < bound) (graph : Fin n → List (Fin n))
    (calls : List (Fin n × Fin n)) (src dest : Fin n) :
    ∃ t, Runs.run (bfsMinDist bound graph) (.start n) (calls ++ [(src, dest)]) = some t ∧
      Answers graph src dest t.parents := by
  obtain ⟨before, ran, forest⟩ := run_forest (t := .start n) enough calls Parents.forest_none
  obtain ⟨t, called, -, answers⟩ := bfsMinDist_answers enough forest src dest
  refine ⟨t, ?_, answers⟩
  rw [Runs.run_append, ran, Option.bind_some, Runs.run_cons, called, Option.bind_some, Runs.run_nil]

/-- The graph of `construct_graph`. -/
def demoGraph : Fin 8 → List (Fin 8)
  | 1 => [2, 4]
  | 2 => [5]
  | 3 => [6, 7]
  | 4 => [2]
  | 5 => [4, 3]
  | 6 => [7]
  | _ => []

/-- The call of `main` after a call that has left other parents behind. -/
theorem bfs_min_dist_shortest_demo :
    ∃ t, Runs.run (bfsMinDist 9 demoGraph) (.start 8) ([(5, 2)] ++ [(1, 7)]) = some t ∧
      Answers demoGraph 1 7 t.parents :=
  bfs_min_dist_shortest 9 (by decide) demoGraph [(5, 2)] 1 7

example : (Runs.run (bfsMinDist 9 demoGraph) (.start 8) [(5, 2), (1, 7)]).bind
    (fun t => climb t.parents 4 7) = some 1 := by decide

end Sometest.BfsDemo
