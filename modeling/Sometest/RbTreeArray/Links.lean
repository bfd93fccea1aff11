import Sometest.Lib.Run
import Sometest.RbTreeArray.Slips

/-! Runs of `insert` alone: what the in-order walk of `mPrintImpl` meets. -/
open RBTree (RBNode)

namespace Sometest.RbTreeArray
open Zipper (Frame plug Sorted descend)

def insertStep (bound : Nat) (t : RBTree) (op : Key × Value) : Option RBTree :=
  (t.insert bound op.1 op.2).map Prod.fst

theorem inorder_sound {t : RBTree} {s : Shape} (held : Holds t.root s) {bound : Nat}
    {ids : List Nat} (walked : t.inorder bound (index s) = some ids) :
    ids = s.toList.map Entry.idx := by
  induction s generalizing bound ids with
  | nil =>
    cases bound with
    | zero => simp [RBTree.inorder] at walked
    | succ bound => simpa [RBTree.inorder, eq_comm] using walked
  | node c l e r ihl ihr =>
    cases bound with
    | zero => simp [RBTree.inorder] at walked
    | succ bound =>
      obtain ⟨nonzero, stored, left, right⟩ := held
      simp only [index_node, RBTree.inorder, if_neg nonzero, stored, Option.bind_eq_bind,
        Option.bind_eq_some_iff, Option.some.injEq] at walked
      obtain ⟨ls, goLeft, rs, goRight, rfl⟩ := walked
      rw [ihl left goLeft, ihr right goRight]
      simp

theorem Represents.inorder {t : RBTree} {s : Shape} (rep : Represents t s) {bound : Nat}
    (enough : t.capacity ≤ bound) : t.inorder bound t.rootIdx = some (s.toList.map Entry.idx) := by
  rw [rep.rootIdx]
  exact inorder_toList rep.holds (Nat.lt_of_lt_of_le rep.depth_lt enough)

/-- Every allocated index, the first one 1. -/
def allocated (t : RBTree) : List Nat := (List.range t.currIdx).map Nat.succ

/-- The walk ends, meets every allocated node exactly once and nothing else, in
the order of the keys, and prints `size_` values. -/
def LinksFormTree (bound : Nat) (t : RBTree) : Prop :=
  ∃ ids, t.inorder bound t.rootIdx = some ids ∧ ids.Perm (allocated t) ∧
    (ids.map fun i => (t.root i).key).Pairwise (· < ·) ∧
    ∃ printed, t.mPrint bound = some printed ∧ printed.length = t.size

/-- The invariant of the straight runs. -/
structure Complete (t : RBTree) (s : Shape) : Prop extends Represents t s where
  all : s.size = t.currIdx

section Step
variable {t t' : RBTree} {s : Shape} {bound : Nat} {op : Key × Value} {fs : List (Frame Entry)}

theorem mem_allocated {i : Nat} : i ∈ allocated t ↔ i ≠ 0 ∧ i ≤ t.currIdx := by
  simp only [allocated, List.mem_map, List.mem_range]
  constructor
  · rintro ⟨j, below, rfl⟩
    exact ⟨Nat.succ_ne_zero j, below⟩
  · rintro ⟨nonzero, live⟩
    exact ⟨i - 1, by omega, by omega⟩

theorem allocated_nodup : (allocated t).Nodup := List.nodup_range.map Nat.succ_injective

theorem Complete.links (complete : Complete t s) (enough : t.capacity ≤ bound) :
    LinksFormTree bound t := by
  have rep := complete.toRepresents
  have sub : (s.toList.map Entry.idx).Subperm (allocated t) := by
    apply List.subperm_of_subset rep.distinct
    intro i member
    obtain ⟨e, inside, rfl⟩ := List.mem_map.mp member
    exact mem_allocated.mpr ⟨rep.nonzero inside, rep.live e inside⟩
  have count : (s.toList.map Entry.idx).length = t.currIdx := by
    rw [List.length_map, ← complete.all, RBNode.size_eq]
  refine ⟨_, rep.inorder enough, sub.perm_of_length_le ?_, ?_, _, rep.mPrint enough, ?_⟩
  · rw [count, allocated, List.length_map, List.length_range]
  · have keys : (s.toList.map Entry.idx).map (fun i => (t.root i).key) = s.toList.map Entry.key := by
      rw [List.map_map]
      exact List.map_congr_left fun e member => (holds_stored rep.holds member).2.1
    rw [keys]
    exact List.pairwise_map.mpr rep.sorted
  · rw [List.length_map, ← RBNode.size_eq, complete.all, rep.size]

theorem insertStep_accepted (rep : Represents t s) (enough : t.capacity ≤ bound)
    (upright : UprightInsert bound t op.1) :
    (insertStep bound t op = some t) ∨
      ∃ fs t', insertStep bound t op = some t' ∧ t'.capacity = t.capacity ∧
        descend Entry.key op.1 s [] = some fs ∧ t.turn bound op.1 = turnOf fs ∧
        t'.currIdx = t.currIdx + 1 ∧ Represents t' (inserted (newEntry t op.1 op.2) fs) := by
  obtain ⟨refused, -⟩ | ⟨fs, t', accepted, room, fell, turn, grown⟩ :=
    insert_outcome rep enough op.1 op.2
  · exact .inl (by rw [insertStep, refused, Option.map_some])
  · refine .inr ⟨fs, t', by rw [insertStep, accepted, Option.map_some], grown.capacity, fell, turn,
      grown.currIdx, ?_⟩
    exact represents_upright rep room fell grown fun r here => upright r (turn.trans here)

theorem insertStep_progress (rep : Represents t s) (enough : t.capacity ≤ bound)
    (op : Key × Value) : ∃ t', insertStep bound t op = some t' := by
  obtain ⟨result, -⟩ | ⟨_, _, result, -⟩ := insert_outcome rep enough op.1 op.2
  · exact ⟨_, by rw [insertStep, result, Option.map_some]⟩
  · exact ⟨_, by rw [insertStep, result, Option.map_some]⟩

theorem Complete.step (complete : Complete t s) (enough : t.capacity ≤ bound)
    (straight : StraightInsert bound t op.1) :
    ∃ t' s', insertStep bound t op = some t' ∧ t'.capacity = t.capacity ∧ Complete t' s' := by
  have rep := complete.toRepresents
  obtain same | ⟨fs, t', stepped, capacity, fell, turn, grown, next⟩ :=
    insertStep_accepted rep enough fun r here => (straight r here).2
  · exact ⟨t, s, same, rfl, complete⟩
  · refine ⟨t', _, stepped, capacity, next, ?_⟩
    have contents := climb_straight (fits_leaf rep fell) (balanced_leaf (newEntry t op.1 op.2))
      fun r here => straight r (turn.trans here)
    have size : (inserted (newEntry t op.1 op.2) fs).size = s.size + 1 := by
      have whole := (toList_plug_perm .nil fs).length_eq
      rw [descend_whole fell] at whole
      rw [RBNode.size_eq, RBNode.size_eq, inserted, toList_setBlack, contents, whole,
        (toList_plug_perm _ fs).length_eq]
      simp [leaf, Nat.add_comm]
    rw [size, complete.all, grown]

/-- After a crooked turn the walk misses a node or meets one twice. -/
theorem Complete.straightInsert_of_links (complete : Complete t s) (enough : t.capacity ≤ bound)
    (stepped : insertStep bound t op = some t') (links : LinksFormTree bound t') :
    StraightInsert bound t op.1 := by
  intro turn here
  by_contra crooked
  have rep := complete.toRepresents
  obtain ⟨room, fs, fell, found⟩ := rep.turn_some enough here
  obtain ⟨u, accepted, grown⟩ := insert_accepted rep room enough fell op.2
  rw [insertStep, accepted, Option.map_some] at stepped
  cases stepped
  obtain ⟨ids, walked, perm, -⟩ := links
  rw [grown.rootIdx] at walked
  rw [inorder_sound grown.holds walked] at perm
  obtain ⟨-, ⟨e, member, lost⟩ | shared⟩ := inserted_slips rep fell found crooked op.2
  · have live : e.idx ∈ allocated u := by
      rw [mem_allocated, grown.currIdx]
      rcases member with rfl | old
      · exact ⟨Nat.succ_ne_zero _, Nat.le_refl _⟩
      · exact ⟨rep.nonzero old, (rep.live e old).trans (Nat.le_succ _)⟩
    obtain ⟨d, inside, same⟩ := List.mem_map.mp (perm.mem_iff.mpr live)
    exact lost d inside same
  · exact shared (perm.nodup_iff.mpr allocated_nodup)

end Step

/-- The links form a tree of all the allocated nodes after every insert of a run
exactly when no insert of the run turns crookedly. -/
theorem insert_links_form_tree_iff {capacity bound : Nat} (pos : 1 ≤ capacity)
    (enough : capacity ≤ bound) (fresh : Nat → Key × Value) (ops : List (Key × Value)) :
    Runs.Always (insertStep bound) (LinksFormTree bound) (RBTree.init capacity fresh) ops ↔
      Runs.Guarded (insertStep bound) (fun t op => StraightInsert bound t op.1)
        (RBTree.init capacity fresh) ops := by
  have initial : ∃ s, Complete (RBTree.init capacity fresh) s ∧
      (RBTree.init capacity fresh).capacity ≤ bound :=
    ⟨.nil, ⟨represents_init pos fresh, rfl⟩, enough⟩
  refine Runs.always_iff_guarded (I := fun t => ∃ s, Complete t s ∧ t.capacity ≤ bound)
    ?_ ?_ ?_ ?_ initial ops
  · rintro t ⟨s, complete, within⟩
    exact complete.links within
  · rintro t op ⟨s, complete, within⟩
    exact insertStep_progress complete.toRepresents within op
  · rintro t op u ⟨s, complete, within⟩ straight stepped
    obtain ⟨t', s', same, capacity, next⟩ := complete.step within straight
    cases same.symm.trans stepped
    exact ⟨s', next, capacity ▸ within⟩
  · rintro t op u ⟨s, complete, within⟩ stepped links
    exact complete.straightInsert_of_links within stepped links

theorem insert_links_form_tree_iff_ascending :
    Runs.Always (insertStep 8) (LinksFormTree 8) (RBTree.init 8 fun _ => (0, 0))
        [(1, 10), (2, 20), (3, 30)] ↔
      Runs.Guarded (insertStep 8) (fun t op => StraightInsert 8 t op.1)
        (RBTree.init 8 fun _ => (0, 0)) [(1, 10), (2, 20), (3, 30)] :=
  insert_links_form_tree_iff (by decide) (Nat.le_refl 8) _ _

/-- After the third insert node 3 is allocated and no link leads to it. -/
theorem insert_three_one_two_not_linked :
    ¬ Runs.Always (insertStep 8) (LinksFormTree 8) (RBTree.init 8 fun _ => (0, 0))
        [(3, 30), (1, 10), (2, 20)] := by
  intro always
  obtain ⟨t, ran, ids, walked, perm, -⟩ := always _ (List.prefix_refl _)
  have linked : (Runs.run (insertStep 8) (RBTree.init 8 fun _ => (0, 0))
      [(3, 30), (1, 10), (2, 20)]).bind (fun t => t.inorder 8 t.rootIdx) = some [2, 1] := by decide
  have used : (Runs.run (insertStep 8) (RBTree.init 8 fun _ => (0, 0))
      [(3, 30), (1, 10), (2, 20)]).map allocated = some [1, 2, 3] := by decide
  rw [ran, Option.bind_some, walked, Option.some.injEq] at linked
  rw [ran, Option.map_some, Option.some.injEq] at used
  rw [linked, used] at perm
  exact absurd perm.length_eq (by decide)

end Sometest.RbTreeArray
