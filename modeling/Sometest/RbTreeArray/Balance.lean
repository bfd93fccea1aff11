import Sometest.RbTreeArray.Links

/-! Balance of the array along runs of `insert`. Inner rotations keep it although
they lose nodes, so only a skewed rotation breaks it. -/
open RBTree (RBNode RBColor)

namespace Sometest.RbTreeArray
open Zipper (Side Frame join plug descend)

namespace RBTree

/-- A link of node `i` leads to node `j`. -/
def Links (t : RBTree) (i j : Nat) : Prop := i ≠ 0 ∧ j ≠ 0 ∧ ∃ s, t.child i s = j

def Reachable (t : RBTree) (i : Nat) : Prop := Relation.ReflTransGen t.Links t.rootIdx i

/-- Some way from node `i` down to a nil link passes `k` black nodes. -/
inductive BlackPath (t : RBTree) : Nat → Nat → Prop where
  | nil : BlackPath t 0 0
  | down (s : Side) : i ≠ 0 → BlackPath t (t.child i s) k →
      BlackPath t i (k + if t.isRed i then 0 else 1)

/-- The number of nodes whose key `search` compares. -/
def searchVisits (t : RBTree) (key : Key) : Nat → Nat → Option Nat
  | 0, _ => none
  | n + 1, p =>
    if t.currIdx ≥ p ∧ 0 ≠ p then
      if (t.root p).key < key then (searchVisits t key n (t.root p).right).map (· + 1)
      else if (t.root p).key > key then (searchVisits t key n (t.root p).left).map (· + 1)
      else some 1
    else some 0

end RBTree

/-- The red-black properties, and what they are for: no search visits more than
`2 * log2 (n + 1)` of the `n` nodes in the tree. -/
structure RedBlack (bound : Nat) (t : RBTree) : Prop where
  root : t.rootIdx ≠ 0 → t.isRed t.rootIdx = false
  red : ∀ i j, t.Reachable i → t.Links i j → t.isRed i = true → t.isRed j = false
  height : ∀ a b, t.BlackPath t.rootIdx a → t.BlackPath t.rootIdx b → a = b
  search : ∃ ids, t.inorder bound t.rootIdx = some ids ∧ ids.length ≤ t.size ∧
    ∀ key, ∃ visits, t.searchVisits key bound t.rootIdx = some visits ∧
      (visits : ℝ) ≤ 2 * Real.logb 2 (ids.length + 1)

section Represented
variable {t : RBTree} {s : Shape}

theorem child_of_holds {c : RBColor} {l r : Shape} {e : Entry} (held : Holds t.root (.node c l e r))
    (d : Side) : t.child e.idx d = index (childOn d (.node c l e r)) := by
  rw [RBTree.child, held.2.1]
  cases d <;> rfl

theorem isRed_of_holds {c : RBColor} {l r : Shape} {e : Entry} (held : Holds t.root (.node c l e r)) :
    t.isRed e.idx = decide (c = .red) := by
  rw [RBTree.isRed, RBTreeNode.isRed, held.2.1]

theorem balanced_child {c : RBColor} {l r : Shape} {e : Entry} {d : Side}
    (balanced : (RBNode.node c l e r).Balanced c n) :
    ∃ c' m, (childOn d (.node c l e r)).Balanced c' m ∧ (c = .red → c' = .black) := by
  cases balanced with
  | red left right => cases d; exacts [⟨_, _, left, fun _ => rfl⟩, ⟨_, _, right, fun _ => rfl⟩]
  | black left right => cases d; exacts [⟨_, _, left, by simp⟩, ⟨_, _, right, by simp⟩]

theorem not_red_of_balanced (held : Holds t.root s) (balanced : s.Balanced .black n)
    (nonempty : index s ≠ 0) : t.isRed (index s) = false := by
  cases s with
  | nil => exact absurd rfl nonempty
  | node c l e r =>
    cases balanced
    rw [index_node, isRed_of_holds held]
    rfl

/-- Every reachable index is the root of a balanced subtree. -/
theorem Represents.reachable (rep : Represents t s) {i : Nat} (reached : t.Reachable i) :
    ∃ u c n, index u = i ∧ Holds t.root u ∧ u.Balanced c n := by
  induction reached with
  | refl =>
    obtain ⟨n, balanced⟩ := rep.balanced
    exact ⟨s, _, n, rep.rootIdx.symm, rep.holds, balanced⟩
  | tail _ linked ih =>
    obtain ⟨u, c, n, rfl, held, balanced⟩ := ih
    obtain ⟨nonempty, -, d, rfl⟩ := linked
    cases u with
    | nil => exact absurd rfl nonempty
    | node c' l e r =>
      obtain rfl : c' = c := rootColor_balanced balanced
      obtain ⟨c'', m, child, -⟩ := balanced_child (d := d) balanced
      exact ⟨_, c'', m, (child_of_holds held d).symm, holds_childOn held, child⟩

theorem Represents.red_child (rep : Represents t s) {i j : Nat} (reached : t.Reachable i)
    (linked : t.Links i j) (red : t.isRed i = true) : t.isRed j = false := by
  obtain ⟨u, c, n, rfl, held, balanced⟩ := rep.reachable reached
  obtain ⟨nonempty, child, d, rfl⟩ := linked
  cases u with
  | nil => exact absurd rfl nonempty
  | node c' l e r =>
    obtain rfl : c' = c := rootColor_balanced balanced
    rw [index_node, isRed_of_holds held, decide_eq_true_eq] at red
    rw [index_node, child_of_holds held] at child ⊢
    obtain ⟨c'', m, below, black⟩ := balanced_child (d := d) balanced
    rw [black red] at below
    exact not_red_of_balanced (holds_childOn held) below child

theorem shapePath_of_blackPath (held : Holds t.root s) {i k : Nat} (path : t.BlackPath i k)
    (rooted : i = index s) : ShapePath s k := by
  induction path generalizing s with
  | nil =>
    cases s with
    | nil => exact .nil
    | node c l e r => exact absurd rooted.symm held.1
  | @down i k d nonzero path ih =>
    cases s with
    | nil => exact absurd rooted nonzero
    | node c l e r =>
      obtain rfl : i = e.idx := rooted
      rw [isRed_of_holds held]
      have below := ih (holds_childOn held) (child_of_holds held d)
      simp only [decide_eq_true_eq]
      cases d
      · exact .down (e := e) (c := c) (u := r) .left below
      · exact .down (e := e) (c := c) (u := l) .right below

theorem blackPath_of_shapePath (held : Holds t.root s) {k : Nat} (path : ShapePath s k) :
    t.BlackPath (index s) k := by
  induction path with
  | nil => exact .nil
  | @down s k c e u d path ih =>
    obtain ⟨nonzero, stored, near, -⟩ := holds_join.mp held
    have child : t.child e.idx d = index s := by rw [RBTree.child, stored, cell_child]
    have red : t.isRed e.idx = decide (c = .red) := by
      rw [RBTree.isRed, RBTreeNode.isRed, stored, cell_color]
    have below := ih near
    rw [← child] at below
    have whole := RBTree.BlackPath.down d nonzero below
    simpa only [index_join, red, decide_eq_true_eq] using whole

theorem searchVisits_visits {key : Key} {bound : Nat} (held : Holds t.root s)
    (live : ∀ e ∈ s.toList, e.idx ≤ t.currIdx) (enough : s.depth < bound) :
    t.searchVisits key bound (index s) = some (Zipper.visits Entry.key key s) := by
  induction s generalizing bound with
  | nil =>
    obtain ⟨bound, rfl⟩ : ∃ b, bound = b + 1 := ⟨bound - 1, by omega⟩
    simp [RBTree.searchVisits, Zipper.visits]
  | node c l e r ihl ihr =>
    obtain ⟨bound, rfl⟩ : ∃ b, bound = b + 1 := ⟨bound - 1, by omega⟩
    obtain ⟨nonzero, stored, left, right⟩ := held
    obtain ⟨hl, hr⟩ := depth_node enough
    simp only [RBNode.toList_node, List.mem_append, List.mem_cons] at live
    have inside : t.currIdx ≥ e.idx ∧ 0 ≠ e.idx := ⟨live e (by simp), nonzero.symm⟩
    simp only [index_node, RBTree.searchVisits, if_pos inside, stored, gt_iff_lt, Zipper.visits]
    split
    · rw [ihr right (fun d m => live d (.inr (.inr m))) hr, Option.map_some]
    · split
      · rw [ihl left (fun d m => live d (.inl m)) hl, Option.map_some]
      · rfl

theorem depth_le_logb (balanced : s.Balanced c n) :
    (s.depth : ℝ) ≤ 2 * Real.logb 2 (s.size + 1) := by
  have deep : s.depth ≤ 2 * (s.size + 1).log2 := balanced.depth_bound
  have log := Real.log2_le_logb (s.size + 1)
  push_cast at log
  calc (s.depth : ℝ) ≤ 2 * ((s.size + 1).log2 : ℝ) := by exact_mod_cast deep
    _ ≤ 2 * Real.logb 2 (s.size + 1) := by linarith

theorem Represents.redBlack (rep : Represents t s) {bound : Nat} (enough : t.capacity ≤ bound) :
    RedBlack bound t where
  root := by
    obtain ⟨n, balanced⟩ := rep.balanced
    rw [rep.rootIdx]
    exact not_red_of_balanced rep.holds balanced
  red i j := rep.red_child
  height := by
    intro a b first second
    obtain ⟨n, balanced⟩ := rep.balanced
    rw [(shapePath_of_blackPath rep.holds first rep.rootIdx).balanced balanced,
      (shapePath_of_blackPath rep.holds second rep.rootIdx).balanced balanced]
  search := by
    obtain ⟨n, balanced⟩ := rep.balanced
    have length : (s.toList.map Entry.idx).length = s.size := by rw [List.length_map, RBNode.size_eq]
    refine ⟨_, rep.inorder enough, ?_, fun key => ⟨Zipper.visits Entry.key key s, ?_, ?_⟩⟩
    · rw [length, rep.size]
      exact rep.count
    · rw [rep.rootIdx]
      exact searchVisits_visits rep.holds rep.live (Nat.lt_of_lt_of_le rep.depth_lt enough)
    · rw [length]
      exact (Nat.cast_le.mpr (Zipper.visits_le_depth key s)).trans (depth_le_logb balanced)

end Represented

theorem shapePath_setBlack {s : Shape} (path : ShapePath s k) :
    ShapePath s.setBlack (k + if rootColor s = .red then 1 else 0) := by
  cases path with
  | nil => exact .nil
  | @down s k c e u d path =>
    have black : (join d c s e u).setBlack = join d .black s e u := by cases d <;> rfl
    have whole : ShapePath (join d .black s e u) (k + 1) := .down d path
    rw [black, rootColor_join]
    cases c
    · exact whole
    · exact whole

/-- After a skewed turn two paths have different numbers of black nodes. -/
theorem Represents.uprightInsert_of_redBlack {t t' : RBTree} {s : Shape} (rep : Represents t s)
    {bound : Nat} (enough : t.capacity ≤ bound) {op : Key × Value}
    (stepped : insertStep bound t op = some t') (redBlack : RedBlack bound t') :
    UprightInsert bound t op.1 := by
  intro turn here
  by_contra skewed
  obtain ⟨room, fs, fell, found⟩ := rep.turn_some enough here
  obtain ⟨u, accepted, grown⟩ := insert_accepted rep room enough fell op.2
  rw [insertStep, accepted, Option.map_some] at stepped
  cases stepped
  obtain ⟨k, short, long⟩ := climb_skewed_heights (fits_leaf rep fell)
    (balanced_leaf (newEntry t op.1 op.2)) found skewed
  have low := blackPath_of_shapePath grown.holds (shapePath_setBlack short)
  have high := blackPath_of_shapePath grown.holds (shapePath_setBlack long)
  rw [← grown.rootIdx] at low high
  have same := redBlack.height _ _ low high
  omega

/-- The array is a red-black tree after every insert of a run exactly when no
insert of the run turns askew. -/
theorem insert_red_black_iff {capacity bound : Nat} (pos : 1 ≤ capacity)
    (enough : capacity ≤ bound) (fresh : Nat → Key × Value) (ops : List (Key × Value)) :
    Runs.Always (insertStep bound) (RedBlack bound) (RBTree.init capacity fresh) ops ↔
      Runs.Guarded (insertStep bound) (fun t op => UprightInsert bound t op.1)
        (RBTree.init capacity fresh) ops := by
  have initial : ∃ s, Represents (RBTree.init capacity fresh) s ∧
      (RBTree.init capacity fresh).capacity ≤ bound := ⟨.nil, represents_init pos fresh, enough⟩
  refine Runs.always_iff_guarded (I := fun t => ∃ s, Represents t s ∧ t.capacity ≤ bound)
    ?_ ?_ ?_ ?_ initial ops
  · rintro t ⟨s, rep, within⟩
    exact rep.redBlack within
  · rintro t op ⟨s, rep, within⟩
    exact insertStep_progress rep within op
  · rintro t op u ⟨s, rep, within⟩ upright stepped
    obtain same | ⟨fs, t', same, capacity, -, -, -, next⟩ := insertStep_accepted rep within upright
    · cases same.symm.trans stepped
      exact ⟨s, rep, within⟩
    · cases same.symm.trans stepped
      exact ⟨_, next, capacity ▸ within⟩
  · rintro t op u ⟨s, rep, within⟩ stepped redBlack
    exact rep.uprightInsert_of_redBlack within stepped redBlack

theorem insert_red_black_iff_ascending :
    Runs.Always (insertStep 8) (RedBlack 8) (RBTree.init 8 fun _ => (0, 0))
        [(1, 10), (2, 20), (3, 30)] ↔
      Runs.Guarded (insertStep 8) (fun t op => UprightInsert 8 t op.1)
        (RBTree.init 8 fun _ => (0, 0)) [(1, 10), (2, 20), (3, 30)] :=
  insert_red_black_iff (by decide) (Nat.le_refl 8) _ _

theorem blackPath_link {t : RBTree} {i j k : Nat} {d : Side} {red : Bool} (nonzero : i ≠ 0)
    (child : t.child i d = j) (color : t.isRed i = red) (path : t.BlackPath j k) :
    t.BlackPath i (k + if red then 0 else 1) := by
  subst child color
  exact .down d nonzero path

/-- The fifth insert rotates to the left below a right child. Its two red nodes
and their black parent end up left of the root, one of them also right of it. -/
theorem insert_two_one_five_four_three_not_red_black :
    ¬ Runs.Always (insertStep 8) (RedBlack 8) (RBTree.init 8 fun _ => (0, 0))
        [(2, 20), (1, 10), (5, 50), (4, 40), (3, 30)] := by
  intro always
  obtain ⟨t, ran, redBlack⟩ := always _ (List.prefix_refl _)
  have links : (Runs.run (insertStep 8) (RBTree.init 8 fun _ => (0, 0))
      [(2, 20), (1, 10), (5, 50), (4, 40), (3, 30)]).map (fun t => [t.rootIdx, t.child 1 .left,
        t.child 4 .left, t.child 5 .left, t.child 1 .right, t.child 3 .left]) =
      some [1, 4, 5, 0, 3, 0] := by decide
  have colors : (Runs.run (insertStep 8) (RBTree.init 8 fun _ => (0, 0))
      [(2, 20), (1, 10), (5, 50), (4, 40), (3, 30)]).map (fun t => [1, 3, 4, 5].map t.isRed) =
      some [false, true, false, true] := by decide
  rw [ran, Option.map_some, Option.some.injEq] at links colors
  simp only [List.cons.injEq, List.map_cons, List.map_nil, and_true] at links colors
  obtain ⟨root, left, leftLeft, leaf, right, rightLeaf⟩ := links
  obtain ⟨rootBlack, rightRed, leftBlack, leafRed⟩ := colors
  have atLeaf := blackPath_link (by decide) leaf leafRed .nil
  have atLeft := blackPath_link (by decide) leftLeft leftBlack atLeaf
  have long : t.BlackPath 1 2 := blackPath_link (by decide) left rootBlack atLeft
  have atRight := blackPath_link (by decide) rightLeaf rightRed .nil
  have short : t.BlackPath 1 1 := blackPath_link (by decide) right rootBlack atRight
  exact absurd (redBlack.height 2 1 (root ▸ long) (root ▸ short)) (by decide)

end Sometest.RbTreeArray
