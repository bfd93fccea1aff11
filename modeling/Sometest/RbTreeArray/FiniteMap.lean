import Sometest.Lib.BoundedMap
import Sometest.Lib.Run
import Sometest.RbTreeArray.Slips

/-! Runs of `insert` beside a bounded finite map. The array agrees with the map
as long as every rotation is straight, and no longer. -/
open RBTree (RBNode)

namespace Sometest.RbTreeArray
open Zipper (plug Sorted descend)

/-- The array and the map after the same inserts, with the results of both. -/
structure MapRun (capacity : Nat) where
  tree : RBTree
  map : BoundedMap Key Value (capacity - 1)
  returned : List Bool
  expected : List Bool

def MapRun.start (capacity : Nat) (fresh : Nat → Key × Value) : MapRun capacity :=
  ⟨RBTree.init capacity fresh, .empty, [], []⟩

def mapStep (bound : Nat) (r : MapRun capacity) (op : Key × Value) : Option (MapRun capacity) :=
  (r.tree.insert bound op.1 op.2).map fun out =>
    { tree := out.1
      map := (r.map.insert op.1 op.2).1
      returned := r.returned ++ [out.2]
      expected := r.expected ++ [(r.map.insert op.1 op.2).2] }

/-- What the caller of `search` reads from the node it gets. -/
def RBTree.content (t : RBTree) (i : Nat) : Key × Value := ((t.root i).key, (t.root i).value)

/-- Every insert returned what the map says, and every search finds what it holds. -/
def RefinesMap (bound : Nat) (r : MapRun capacity) : Prop :=
  r.returned = r.expected ∧ ∀ k, (r.tree.search bound k).map (Option.map r.tree.content) =
    some ((r.map.lookup k).map fun v => (k, v))

/-- The shape holds the map's keys, each allocated node one of them. -/
structure Agrees (r : MapRun capacity) (s : Shape) : Prop where
  represents : Represents r.tree s
  capacity : r.tree.capacity = capacity
  results : r.returned = r.expected
  count : r.map.count = r.tree.currIdx
  lookup : ∀ k v, r.map.lookup k = some v ↔ ∃ e ∈ s.toList, e.key = k ∧ e.value = v

theorem holds_content {t : RBTree} {s : Shape} (held : Holds t.root s) {e : Entry}
    (member : e ∈ s.toList) : t.content e.idx = (e.key, e.value) := by
  obtain ⟨-, key, value⟩ := holds_stored held member
  rw [RBTree.content, key, value]

section Step
variable {capacity bound : Nat} {r : MapRun capacity} {s : Shape} {op : Key × Value}

theorem Agrees.lookup_eq (agrees : Agrees r s) (k : Key) :
    r.map.lookup k = (Zipper.search Entry.key k s).map Entry.value := by
  cases found : Zipper.search Entry.key k s with
  | some e =>
    obtain ⟨member, same⟩ := Zipper.search_mem found
    exact (agrees.lookup k e.value).mpr ⟨e, member, same, rfl⟩
  | none =>
    apply Option.eq_none_iff_forall_ne_some.mpr
    intro v present
    obtain ⟨e, member, same, -⟩ := (agrees.lookup k v).mp present
    have other := Zipper.search_sorted agrees.represents.sorted member
    rw [same, found] at other
    cases other

theorem Agrees.refines (agrees : Agrees r s) (enough : capacity ≤ bound) : RefinesMap bound r := by
  have rep := agrees.represents
  refine ⟨agrees.results, fun k => ?_⟩
  rw [rep.search (agrees.capacity.symm ▸ enough) k, agrees.lookup_eq]
  cases found : Zipper.search Entry.key k s with
  | none => rfl
  | some e =>
    obtain ⟨member, same⟩ := Zipper.search_mem found
    simp only [Option.map_some, holds_content rep.holds member, same]

theorem Agrees.room (agrees : Agrees r s) :
    r.map.count < capacity - 1 ↔ r.tree.currIdx + 1 < r.tree.capacity := by
  rw [agrees.count, agrees.capacity]
  omega

theorem Agrees.step_refused (agrees : Agrees r s)
    (refused : r.tree.insert bound op.1 op.2 = some (r.tree, false))
    (why : r.tree.currIdx + 1 < r.tree.capacity → ∃ e, Zipper.search Entry.key op.1 s = some e) :
    ∃ u, mapStep bound r op = some u ∧ Agrees u s := by
  have same : r.map.insert op.1 op.2 = (r.map, false) := by
    by_cases room : r.map.count < capacity - 1
    · obtain ⟨e, found⟩ := why (agrees.room.mp room)
      have present := agrees.lookup_eq op.1
      rw [found] at present
      exact BoundedMap.insert_present present
    · exact BoundedMap.insert_full room
  refine ⟨_, by rw [mapStep, refused, Option.map_some], ?_⟩
  rw [same]
  exact ⟨agrees.represents, agrees.capacity, by rw [agrees.results], agrees.count, agrees.lookup⟩

theorem Agrees.step_accepted (agrees : Agrees r s) {t' : RBTree} {fs : List (Zipper.Frame Entry)}
    (accepted : r.tree.insert bound op.1 op.2 = some (t', true))
    (room : r.tree.currIdx + 1 < r.tree.capacity)
    (fell : descend Entry.key op.1 s [] = some fs)
    (grown : Grown r.tree t' (inserted (newEntry r.tree op.1 op.2) fs))
    (straight : ∀ turn, turnOf fs = some turn → turn.Straight) :
    ∃ u, mapStep bound r op = some u ∧ Agrees u (inserted (newEntry r.tree op.1 op.2) fs) := by
  have rep := agrees.represents
  have absent : r.map.lookup op.1 = none := by
    rw [agrees.lookup_eq]
    cases found : Zipper.search Entry.key op.1 s with
    | none => rfl
    | some e =>
      have stuck := (@Zipper.descend_eq_none _ _ _ Entry.key op.1 s []).mpr ⟨e, found⟩
      cases stuck.symm.trans fell
  have below := agrees.room.mpr room
  refine ⟨_, by rw [mapStep, accepted, Option.map_some], ?_, ?_, ?_, ?_, ?_⟩
  · exact represents_upright rep room fell grown fun turn here => (straight turn here).2
  · exact grown.capacity.trans agrees.capacity
  · rw [agrees.results, BoundedMap.insert_accepted absent below]
  · rw [BoundedMap.count_insert absent below, agrees.count, grown.currIdx]
  · intro k v
    simp only [inserted_straight (fits_leaf rep fell) fell straight]
    by_cases new : k = op.1
    · subst new
      rw [BoundedMap.lookup_insert absent below]
      constructor
      · intro same
        exact ⟨_, .inl rfl, rfl, Option.some.inj same⟩
      · rintro ⟨e, rfl | old, key, value⟩
        · rw [← value]
          rfl
        · have present := (agrees.lookup op.1 e.value).mpr ⟨e, old, key, rfl⟩
          cases absent.symm.trans present
    · rw [BoundedMap.lookup_insert_ne absent below new, agrees.lookup]
      constructor
      · rintro ⟨e, old, same⟩
        exact ⟨e, .inr old, same⟩
      · rintro ⟨e, rfl | old, key, value⟩
        · exact absurd key.symm new
        · exact ⟨e, old, key, value⟩

theorem Agrees.step (agrees : Agrees r s) (enough : capacity ≤ bound) (op : Key × Value)
    (straight : StraightInsert bound r.tree op.1) :
    ∃ u s', mapStep bound r op = some u ∧ Agrees u s' := by
  have rep := agrees.represents
  have within : r.tree.capacity ≤ bound := agrees.capacity.symm ▸ enough
  obtain ⟨refused, why⟩ | ⟨fs, t', accepted, room, fell, turn, grown⟩ :=
    insert_outcome rep within op.1 op.2
  · obtain ⟨u, stepped, next⟩ := agrees.step_refused refused why
    exact ⟨u, s, stepped, next⟩
  · obtain ⟨u, stepped, next⟩ := agrees.step_accepted accepted room fell grown
      fun r here => straight r (turn.trans here)
    exact ⟨u, _, stepped, next⟩

theorem Agrees.progress (agrees : Agrees r s) (enough : capacity ≤ bound) (op : Key × Value) :
    ∃ u, mapStep bound r op = some u := by
  have within : r.tree.capacity ≤ bound := agrees.capacity.symm ▸ enough
  obtain ⟨result, -⟩ | ⟨_, _, result, -⟩ := insert_outcome agrees.represents within op.1 op.2
  · exact ⟨_, by rw [mapStep, result, Option.map_some]⟩
  · exact ⟨_, by rw [mapStep, result, Option.map_some]⟩

theorem Agrees.expected (agrees : Agrees r s) (room : r.tree.currIdx + 1 < r.tree.capacity)
    (absent : Zipper.search Entry.key op.1 s = none) {e : Entry}
    (member : e = newEntry r.tree op.1 op.2 ∨ e ∈ s.toList) :
    (r.map.insert op.1 op.2).1.lookup e.key = some e.value := by
  have below := agrees.room.mpr room
  have new : r.map.lookup op.1 = none := by rw [agrees.lookup_eq, absent, Option.map_none]
  rcases member with rfl | old
  · exact BoundedMap.lookup_insert new below
  · have present := (agrees.lookup e.key e.value).mpr ⟨e, old, rfl, rfl⟩
    rw [BoundedMap.lookup_insert_ne new below, present]
    rintro same
    rw [same, new] at present
    cases present

/-- After a crooked turn a search misses a key that the map holds. -/
theorem Agrees.straightInsert_of_refines (agrees : Agrees r s) (enough : capacity ≤ bound)
    {u : MapRun capacity} (stepped : mapStep bound r op = some u) (refines : RefinesMap bound u) :
    StraightInsert bound r.tree op.1 := by
  intro turn here
  by_contra crooked
  have rep := agrees.represents
  have within : r.tree.capacity ≤ bound := agrees.capacity.symm ▸ enough
  obtain ⟨room, fs, fell, found⟩ := rep.turn_some within here
  obtain ⟨t', accepted, grown⟩ := insert_accepted rep room within fell op.2
  rw [mapStep, accepted, Option.map_some] at stepped
  cases stepped
  obtain ⟨⟨e, member, missed⟩, -⟩ := inserted_slips rep fell found crooked op.2
  have absent : Zipper.search Entry.key op.1 s = none := by
    apply Option.eq_none_iff_forall_ne_some.mpr
    intro a present
    have stuck := (@Zipper.descend_eq_none _ _ _ Entry.key op.1 s []).mpr ⟨a, present⟩
    cases stuck.symm.trans fell
  have lookup := refines.2 e.key
  rw [agrees.expected room absent member] at lookup
  obtain ⟨out, searched, content⟩ := Option.map_eq_some_iff.mp lookup
  rw [RBTree.search, grown.rootIdx] at searched
  rw [searchFrom_sound grown.holds (inserted_live rep fell grown) searched, missed] at content
  cases content

end Step

theorem agrees_start {capacity : Nat} (pos : 1 ≤ capacity) (fresh : Nat → Key × Value) :
    Agrees (MapRun.start capacity fresh) .nil where
  represents := represents_init pos fresh
  capacity := rfl
  results := rfl
  count := rfl
  lookup k v := by simp [MapRun.start]

/-- The array refines the bounded map after every insert of a run exactly when
no insert of the run turns crookedly. -/
theorem insert_refines_map_iff {capacity bound : Nat} (pos : 1 ≤ capacity)
    (enough : capacity ≤ bound) (fresh : Nat → Key × Value) (ops : List (Key × Value)) :
    Runs.Always (mapStep bound) (RefinesMap bound) (MapRun.start capacity fresh) ops ↔
      Runs.Guarded (mapStep bound) (fun r op => StraightInsert bound r.tree op.1)
        (MapRun.start capacity fresh) ops := by
  have initial : ∃ s, Agrees (MapRun.start capacity fresh) s := ⟨.nil, agrees_start pos fresh⟩
  refine Runs.always_iff_guarded (I := fun r => ∃ s, Agrees r s) ?_ ?_ ?_ ?_ initial ops
  · rintro r ⟨s, agrees⟩
    exact agrees.refines enough
  · rintro r op ⟨s, agrees⟩
    exact agrees.progress enough op
  · rintro r op u ⟨s, agrees⟩ straight stepped
    obtain ⟨v, s', same, next⟩ := agrees.step enough op straight
    cases same.symm.trans stepped
    exact ⟨s', next⟩
  · rintro r op u ⟨s, agrees⟩ stepped refines
    exact agrees.straightInsert_of_refines enough stepped refines

theorem insert_refines_map_iff_ascending :
    Runs.Always (mapStep 8) (RefinesMap 8) (MapRun.start 8 fun _ => (0, 0))
        [(1, 10), (2, 20), (3, 30)] ↔
      Runs.Guarded (mapStep 8) (fun r op => StraightInsert 8 r.tree op.1)
        (MapRun.start 8 fun _ => (0, 0)) [(1, 10), (2, 20), (3, 30)] :=
  insert_refines_map_iff (by decide) (Nat.le_refl 8) _ _

/-- The third insert is an inner rotation to the left and drops its own node. -/
theorem insert_three_one_two_not_refines :
    ¬ Runs.Always (mapStep 8) (RefinesMap 8) (MapRun.start 8 fun _ => (0, 0))
        [(3, 30), (1, 10), (2, 20)] := by
  intro always
  obtain ⟨r, ran, -, found⟩ := always _ (List.prefix_refl _)
  have missed : (Runs.run (mapStep 8) (MapRun.start 8 fun _ => (0, 0))
      [(3, 30), (1, 10), (2, 20)]).bind (fun r => (r.tree.search 8 2).map (Option.map r.tree.content)) =
        some none := by decide
  have stored : (Runs.run (mapStep 8) (MapRun.start 8 fun _ => (0, 0))
      [(3, 30), (1, 10), (2, 20)]).map (fun r => r.map.lookup 2) = some (some 20) := by decide
  rw [ran, Option.bind_some, found 2] at missed
  rw [ran, Option.map_some, Option.some.injEq] at stored
  rw [stored] at missed
  cases missed

end Sometest.RbTreeArray
