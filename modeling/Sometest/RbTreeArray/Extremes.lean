import Sometest.RbTreeArray.Balance
import Sometest.RbTreeArray.FiniteMap

/-! Inserts at either end of the stored keys, as in the workload of main.cpp. The descent keeps to one
side of the tree, so every rotation is straight. -/
open RBTree (RBNode)

namespace Sometest.RbTreeArray
open Zipper (Side Frame)

/-- Each key is the largest or the smallest one so far. -/
def Extreme (ops : List (Key × Value)) : Prop :=
  ∀ i, ∀ inside : i < ops.length,
    (∀ o ∈ ops.take i, o.1 ≤ ops[i].1) ∨ ∀ o ∈ ops.take i, ops[i].1 ≤ o.1

-- The instance that Mathlib finds would enumerate all keys.
instance (ops : List (Key × Value)) : Decidable (Extreme ops) :=
  @Nat.decidableBallLT ops.length _ fun _ _ =>
    @instDecidableOr _ _ (List.decidableBAll _ _) (List.decidableBAll _ _)

/-- A turn in the middle of frames on one side has no other side. -/
theorem turnOf_straight {fs : List (Frame Entry)} {d : Side} (same : ∀ f ∈ fs, f.side = d)
    {r : Turn} (turn : turnOf fs = some r) : r.Straight := by
  induction fs using List.twoStepInduction with
  | nil => contradiction
  | singleton p => contradiction
  | cons_cons p g rest ih _ =>
    have above : ∀ f ∈ rest, f.side = d := fun f member =>
      same f (List.mem_cons_of_mem _ (List.mem_cons_of_mem _ member))
    rw [turnOf] at turn
    split at turn
    · split at turn
      · exact ih above turn
      · cases turn
        have parent : p.side = d := same p List.mem_cons_self
        have grand : g.side = d := same g (List.mem_cons_of_mem _ List.mem_cons_self)
        refine ⟨parent.trans grand.symm, fun s here => ?_⟩
        obtain ⟨gg, first, rfl⟩ := Option.map_eq_some_iff.mp here
        exact (above gg (List.mem_of_mem_head? first)).trans grand.symm
    · contradiction

section Step
variable {capacity bound : Nat} {r : MapRun capacity} {s : Shape}

theorem Agrees.straight (agrees : Agrees r s) (enough : capacity ≤ bound) {key : Key}
    (extreme : (∀ k v, r.map.lookup k = some v → k ≤ key) ∨
      ∀ k v, r.map.lookup k = some v → key ≤ k) : StraightInsert bound r.tree key := by
  intro turn here
  have within : r.tree.capacity ≤ bound := agrees.capacity.symm ▸ enough
  obtain ⟨-, fs, fell, found⟩ := agrees.represents.turn_some within here
  have stored : ∀ e ∈ s.toList, r.map.lookup e.key = some e.value := fun e member =>
    (agrees.lookup e.key e.value).mpr ⟨e, member, rfl, rfl⟩
  rcases extreme with largest | smallest
  · exact turnOf_straight (Zipper.descend_right fell
      (fun e member => largest e.key e.value (stored e member)) nofun) found
  · exact turnOf_straight (Zipper.descend_left fell
      (fun e member => smallest e.key e.value (stored e member)) nofun) found

structure Sound (r : MapRun capacity) : Prop where
  agrees : ∃ s, Agrees r s
  complete : ∃ s, Complete r.tree s

theorem sound_start (pos : 1 ≤ capacity) (fresh : Nat → Key × Value) :
    Sound (MapRun.start capacity fresh) :=
  ⟨⟨.nil, agrees_start pos fresh⟩, .nil, represents_init pos fresh, rfl⟩

theorem insertStep_of_mapStep {u : MapRun capacity} {op : Key × Value}
    (stepped : mapStep bound r op = some u) : insertStep bound r.tree op = some u.tree := by
  obtain ⟨out, inserted, rfl⟩ := Option.map_eq_some_iff.mp stepped
  rw [insertStep, inserted, Option.map_some]

theorem Sound.step (sound : Sound r) (enough : capacity ≤ bound) {op : Key × Value}
    (extreme : (∀ k v, r.map.lookup k = some v → k ≤ op.1) ∨
      ∀ k v, r.map.lookup k = some v → op.1 ≤ k) :
    ∃ u, mapStep bound r op = some u ∧ Sound u ∧ u.map = (r.map.insert op.1 op.2).1 ∧
      u.expected = r.expected ++ [(r.map.insert op.1 op.2).2] := by
  obtain ⟨s, agrees⟩ := sound.agrees
  obtain ⟨s', complete⟩ := sound.complete
  have straight := agrees.straight enough extreme
  obtain ⟨u, after, stepped, agrees'⟩ := agrees.step enough op straight
  obtain ⟨t, shape, same, -, complete'⟩ := complete.step (agrees.capacity.symm ▸ enough) straight
  cases same.symm.trans (insertStep_of_mapStep stepped)
  refine ⟨u, stepped, ⟨⟨after, agrees'⟩, shape, complete'⟩, ?_⟩
  obtain ⟨out, -, rfl⟩ := Option.map_eq_some_iff.mp stepped
  exact ⟨rfl, rfl⟩

/-- The map holds the first `capacity - 1` pairs, and refused the rest. -/
structure Filled (ops : List (Key × Value)) (r : MapRun capacity) : Prop where
  lookup : ∀ k v, r.map.lookup k = some v ↔ (k, v) ∈ ops.take (capacity - 1)
  count : r.map.count = min ops.length (capacity - 1)
  expected : r.expected = (List.range ops.length).map fun i => decide (i < capacity - 1)

theorem filled_start (fresh : Nat → Key × Value) : Filled [] (MapRun.start capacity fresh) where
  lookup k v := by simp [MapRun.start]
  count := by simp [MapRun.start, BoundedMap.count, BoundedMap.empty]
  expected := rfl

theorem Filled.step {ops : List (Key × Value)} {op : Key × Value} {u : MapRun capacity}
    (filled : Filled ops r) (new : ∀ o ∈ ops, o.1 ≠ op.1)
    (map : u.map = (r.map.insert op.1 op.2).1)
    (expected : u.expected = r.expected ++ [(r.map.insert op.1 op.2).2]) :
    Filled (ops ++ [op]) u := by
  have count := filled.count
  by_cases room : ops.length < capacity - 1
  · have below : r.map.count < capacity - 1 := by omega
    have before : ops.take (capacity - 1) = ops := List.take_of_length_le (Nat.le_of_lt room)
    have after : (ops ++ [op]).take (capacity - 1) = ops ++ [op] :=
      List.take_of_length_le (by rw [List.length_append, List.length_singleton]; exact room)
    have absent : r.map.lookup op.1 = none := by
      apply Option.eq_none_iff_forall_ne_some.mpr
      intro v present
      rw [filled.lookup, before] at present
      exact new _ present rfl
    refine ⟨fun k v => ?_, ?_, ?_⟩
    · rw [map, after, List.mem_append, List.mem_singleton]
      by_cases same : k = op.1
      · subst same
        rw [BoundedMap.lookup_insert absent below]
        constructor
        · intro value
          exact .inr (Prod.ext rfl (Option.some.inj value).symm)
        · rintro (old | value)
          · exact absurd rfl (new (op.1, v) old)
          · rw [← value]
      · rw [BoundedMap.lookup_insert_ne absent below same, filled.lookup, before]
        constructor
        · exact .inl
        · rintro (old | value)
          · exact old
          · exact absurd (congrArg Prod.fst value) same
    · rw [map, BoundedMap.count_insert absent below, List.length_append, List.length_singleton]
      omega
    · rw [expected, filled.expected, BoundedMap.insert_accepted absent below, List.length_append,
        List.length_singleton, List.range_succ, List.map_append, List.map_singleton,
        decide_eq_true room]
  · have full : ¬ r.map.count < capacity - 1 := by omega
    have same : (ops ++ [op]).take (capacity - 1) = ops.take (capacity - 1) :=
      List.take_append_of_le_length (Nat.le_of_not_lt room)
    rw [BoundedMap.insert_full full] at map expected
    refine ⟨fun k v => ?_, ?_, ?_⟩
    · rw [map, same, filled.lookup]
    · rw [map, count, List.length_append, List.length_singleton]
      omega
    · rw [expected, filled.expected, List.length_append, List.length_singleton, List.range_succ,
        List.map_append, List.map_singleton, decide_eq_false room]

theorem Agrees.pairs {ops : List (Key × Value)} (agrees : Agrees r s) (filled : Filled ops r)
    (distinct : (ops.map Prod.fst).Nodup) :
    (s.toList.map fun e => (e.key, e.value)).Perm (ops.take (capacity - 1)) := by
  have nodup : (s.toList.map fun e => (e.key, e.value)).Nodup :=
    List.pairwise_map.mpr (agrees.represents.sorted.imp fun less same =>
      absurd (congrArg Prod.fst same) less.ne)
  have taken : (ops.take (capacity - 1)).Nodup :=
    (distinct.of_map _).sublist (List.take_sublist _ _)
  refine (List.perm_ext_iff_of_nodup nodup taken).mpr ?_
  rintro ⟨k, v⟩
  rw [← filled.lookup, agrees.lookup]
  simp only [List.mem_map, Prod.mk.injEq]

end Step

theorem Extreme.edge {ops pre : List (Key × Value)} {op : Key × Value} (extreme : Extreme ops)
    (inside : pre ++ [op] <+: ops) {held : Key → Option Value}
    (keys : ∀ k v, held k = some v → ∃ o ∈ pre, o.1 = k) :
    (∀ k v, held k = some v → k ≤ op.1) ∨ ∀ k v, held k = some v → op.1 ≤ k := by
  obtain ⟨rest, rfl⟩ := inside
  have here := extreme pre.length (by simp)
  simp only [List.append_assoc, List.take_left, List.singleton_append, List.getElem_append_right,
    Nat.le_refl, Nat.sub_self, List.getElem_cons_zero] at here
  rcases here with largest | smallest
  · refine .inl fun k v present => ?_
    obtain ⟨o, member, rfl⟩ := keys k v present
    exact largest o member
  · refine .inr fun k v present => ?_
    obtain ⟨o, member, rfl⟩ := keys k v present
    exact smallest o member

section Results
variable {capacity bound : Nat} (pos : 1 ≤ capacity) (enough : capacity ≤ bound)
  (fresh : Nat → Key × Value) (ops : List (Key × Value)) (extreme : Extreme ops)
include pos enough extreme

/-- Whenever each key is the largest or the smallest one so far, the array is the bounded map, its
links form a tree of the allocated nodes, and the tree is red-black, after every insert. -/
theorem extreme_inserts_sound :
    Runs.Always (mapStep bound)
      (fun r => RefinesMap bound r ∧ LinksFormTree bound r.tree ∧ RedBlack bound r.tree)
      (MapRun.start capacity fresh) ops := by
  have total : ∀ pre op (r : MapRun capacity), pre ++ [op] <+: ops →
      (Sound r ∧ ∀ k v, r.map.lookup k = some v → ∃ o ∈ pre, o.1 = k) →
      ∃ u, mapStep bound r op = some u ∧
        Sound u ∧ ∀ k v, u.map.lookup k = some v → ∃ o ∈ pre ++ [op], o.1 = k := by
    rintro pre op r inside ⟨sound, keys⟩
    obtain ⟨u, stepped, sound', map, -⟩ := sound.step enough (extreme.edge inside keys)
    refine ⟨u, stepped, sound', fun k v present => ?_⟩
    rw [map] at present
    rcases BoundedMap.lookup_insert_some present with rfl | old
    · exact ⟨op, by simp, rfl⟩
    · obtain ⟨o, member, same⟩ := keys k v old
      exact ⟨o, List.mem_append_left _ member, same⟩
  intro pre inside
  obtain ⟨r, reached, ⟨⟨s, agrees⟩, s', complete⟩, -⟩ :=
    Runs.always_prefix (I := fun pre r => Sound r ∧
      ∀ k v, r.map.lookup k = some v → ∃ o ∈ pre, o.1 = k)
      ⟨sound_start pos fresh, by simp [MapRun.start]⟩ total pre inside
  have within : r.tree.capacity ≤ bound := agrees.capacity.symm ▸ enough
  exact ⟨r, reached, agrees.refines enough, complete.links within,
    complete.toRepresents.redBlack within⟩

end Results

/-- New keys above and below the old ones, an old one again, and one too many. -/
theorem extreme_inserts_sound_outward :
    Runs.Always (mapStep 6)
      (fun r => RefinesMap 6 r ∧ LinksFormTree 6 r.tree ∧ RedBlack 6 r.tree)
      (MapRun.start 6 fun _ => (0, 0)) [(5, 1), (6, 2), (4, 3), (6, 4), (7, 5), (3, 6), (2, 7)] :=
  extreme_inserts_sound (by decide) (Nat.le_refl 6) _ _ (by decide)

section Results
variable {capacity bound : Nat} (pos : 1 ≤ capacity) (enough : capacity ≤ bound)
  (fresh : Nat → Key × Value) (ops : List (Key × Value)) (extreme : Extreme ops)
include pos enough extreme

/-- With distinct keys the first `capacity - 1` inserts succeed and no other; `mPrint` prints their
values in the order of the keys, and every search is short. -/
theorem extreme_inserts_print (distinct : (ops.map Prod.fst).Nodup) :
    ∃ r, ∃ sorted : List (Key × Value),
      Runs.run (mapStep bound) (MapRun.start capacity fresh) ops = some r ∧
      r.returned = (List.range ops.length).map (fun i => decide (i < capacity - 1)) ∧
      sorted.Perm (ops.take (capacity - 1)) ∧ (sorted.map Prod.fst).Pairwise (· < ·) ∧
      r.tree.mPrint bound = some (sorted.map Prod.snd) ∧
      ∀ key, ∃ visits, r.tree.searchVisits key bound r.tree.rootIdx = some visits ∧
        (visits : ℝ) ≤ 2 * Real.logb 2 (min ops.length (capacity - 1) + 1) := by
  have total : ∀ pre op (r : MapRun capacity), pre ++ [op] <+: ops → Sound r ∧ Filled pre r →
      ∃ u, mapStep bound r op = some u ∧ Sound u ∧ Filled (pre ++ [op]) u := by
    rintro pre op r inside ⟨sound, filled⟩
    have keys : ∀ k v, r.map.lookup k = some v → ∃ o ∈ pre, o.1 = k := fun k v present =>
      ⟨(k, v), List.mem_of_mem_take ((filled.lookup k v).mp present), rfl⟩
    have new : ∀ o ∈ pre, o.1 ≠ op.1 := by
      have apart := distinct.sublist (inside.sublist.map Prod.fst)
      rw [List.map_append, List.nodup_append] at apart
      exact fun o member => apart.2.2 o.1 (List.mem_map_of_mem member) op.1 (by simp)
    obtain ⟨u, stepped, sound', map, expected⟩ := sound.step enough (extreme.edge inside keys)
    exact ⟨u, stepped, sound', filled.step new map expected⟩
  obtain ⟨r, reached, ⟨⟨s, agrees⟩, s', complete⟩, filled⟩ :=
    Runs.always_prefix (I := fun pre r => Sound r ∧ Filled pre r)
      ⟨sound_start pos fresh, filled_start fresh⟩ total ops (List.prefix_refl _)
  have rep := agrees.represents
  have within : r.tree.capacity ≤ bound := agrees.capacity.symm ▸ enough
  have perm := agrees.pairs filled distinct
  refine ⟨r, _, reached, agrees.results.trans filled.expected, perm, ?_, ?_, fun key => ?_⟩
  · rw [List.map_map]
    exact List.pairwise_map.mpr rep.sorted
  · rw [rep.mPrint within, List.map_map]
    rfl
  · obtain ⟨n, balanced⟩ := rep.balanced
    have size : s.size = min ops.length (capacity - 1) := by
      have length := perm.length_eq
      rw [List.length_map, List.length_take, ← RBNode.size_eq] at length
      rw [length, Nat.min_comm]
    refine ⟨Zipper.visits Entry.key key s, ?_, ?_⟩
    · rw [rep.rootIdx]
      exact searchVisits_visits rep.holds rep.live (Nat.lt_of_lt_of_le rep.depth_lt within)
    · rw [← size]
      exact (Nat.cast_le.mpr (Zipper.visits_le_depth key s)).trans (depth_le_logb balanced)

end Results

/-- The workload of main.cpp, into an array with room for three keys. -/
theorem extreme_inserts_print_ascending :
    ∃ r, Runs.run (mapStep 4) (MapRun.start 4 fun _ => (0, 0))
        [(1, 10), (2, 20), (3, 30), (4, 40), (5, 50)] = some r ∧
      r.returned = [true, true, true, false, false] ∧ r.tree.mPrint 4 = some [10, 20, 30] := by
  obtain ⟨r, sorted, reached, returned, perm, ordered, printed, -⟩ :=
    extreme_inserts_print (by decide) (Nat.le_refl 4) (fun _ => (0, 0))
      [(1, 10), (2, 20), (3, 30), (4, 40), (5, 50)] (by decide) (by decide)
  refine ⟨r, reached, returned, ?_⟩
  have first : sorted = [(1, 10), (2, 20), (3, 30)] := by
    refine List.Perm.eq_of_pairwise ?_ (List.pairwise_map.mp ordered) (by decide) perm
    intro a b _ _ less more
    exact absurd (less.trans more) (lt_irrefl _)
  rw [printed, first]
  rfl

end Sometest.RbTreeArray
