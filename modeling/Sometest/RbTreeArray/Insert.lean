import Sometest.RbTreeArray.InsertFix

/-! One call of `insert`, `search` or `mPrint` on an array that represents a
search tree: what it returns, and what `insert` leaves behind. -/
open RBTree (RBNode RBColor)

namespace Sometest.RbTreeArray
open Zipper (Side Frame Fits join plug Sorted descend)
open Sometest.RbTreeArray.RBTree (Descent findParent insertFix connect)

/-- The vector of saved ancestors, the root first. -/
def stackOf (fs : List (Frame Entry)) : List Nat := (fs.map fun f => f.val.idx).reverse

def nearest : List (Frame Entry) → Nat
  | [] => 0
  | f :: _ => f.val.idx

@[simp] theorem stackOf_cons (f : Frame Entry) (fs : List (Frame Entry)) :
    stackOf (f :: fs) = stackOf fs ++ [f.val.idx] := by simp [stackOf]

@[simp] theorem stackOf_length (fs : List (Frame Entry)) : (stackOf fs).length = fs.length := by
  simp [stackOf]

theorem stackOf_getD {fs : List (Frame Entry)} {i : Nat} {f : Frame Entry} (listed : fs[i]? = some f) :
    (stackOf fs).getD (fs.length - 1 - i) 0 = f.val.idx := by
  have inside := (List.getElem?_eq_some_iff.mp listed).1
  rw [stackOf, List.getD_eq_getElem?_getD, List.getElem?_reverse (by simp; omega)]
  have same : (fs.map fun f => f.val.idx).length - 1 - (fs.length - 1 - i) = i := by simp; omega
  rw [same, List.getElem?_map, listed]
  rfl

/-- The node indices in the order in which `mPrintImpl` visits them. -/
def RBTree.inorder (t : RBTree) : Nat → Nat → Option (List Nat)
  | 0, _ => none
  | n + 1, idx =>
    if idx = 0 then some []
    else do
      let left ← inorder t n (t.root idx).left
      let right ← inorder t n (t.root idx).right
      some (left ++ idx :: right)

theorem mPrintImpl_inorder (t : RBTree) (bound idx : Nat) :
    t.mPrintImpl bound idx = (t.inorder bound idx).map (List.map fun i => (t.root i).value) := by
  induction bound generalizing idx with
  | zero => rfl
  | succ n ih =>
    rw [RBTree.mPrintImpl, RBTree.inorder]
    split
    · rfl
    · simp only [ih, Option.bind_eq_bind]
      cases t.inorder n (t.root idx).left with
      | none => rfl
      | some left =>
        cases t.inorder n (t.root idx).right with
        | none => rfl
        | some right => simp

section Loops
variable {t : RBTree} {s : Shape} {key : Key} {bound : Nat}

theorem depth_node {c : RBColor} {l r : Shape} {e : Entry}
    (enough : (RBNode.node c l e r).depth < bound + 1) : l.depth < bound ∧ r.depth < bound := by
  simp only [RBNode.depth] at enough
  omega

theorem findParent_descend {fs : List (Frame Entry)} (held : Holds t.root s)
    (enough : s.depth < bound) :
    findParent t key bound (nearest fs) (index s) (stackOf fs) =
      some (match descend Entry.key key s fs with
        | none => .present
        | some fs' => .parent (nearest fs') (stackOf fs')) := by
  induction s generalizing fs bound with
  | nil =>
    obtain ⟨bound, rfl⟩ : ∃ b, bound = b + 1 := ⟨bound - 1, by omega⟩
    simp [findParent, index, descend]
  | node c l e r ihl ihr =>
    obtain ⟨bound, rfl⟩ : ∃ b, bound = b + 1 := ⟨bound - 1, by omega⟩
    obtain ⟨nonzero, stored, left, right⟩ := held
    obtain ⟨hl, hr⟩ := depth_node enough
    simp only [index_node, findParent, if_neg nonzero, stored, gt_iff_lt, descend]
    split
    · rw [← stackOf_cons ⟨.right, c, e, l⟩ fs]
      exact @ihr _ (⟨.right, c, e, l⟩ :: fs) right hr
    · split
      · rw [← stackOf_cons ⟨.left, c, e, r⟩ fs]
        exact @ihl _ (⟨.left, c, e, r⟩ :: fs) left hl
      · rfl

/-- One round of the search loop at a node of the unfolding. -/
theorem searchFrom_node {c : RBColor} {l r : Shape} {e : Entry} (held : Holds t.root (.node c l e r))
    (live : e.idx ≤ t.currIdx) : t.searchFrom key (bound + 1) (index (.node c l e r)) =
      if e.key < key then t.searchFrom key bound (index r)
      else if key < e.key then t.searchFrom key bound (index l)
      else some (some e.idx) := by
  obtain ⟨nonzero, stored, -, -⟩ := held
  have inside : t.currIdx ≥ e.idx ∧ 0 ≠ e.idx := ⟨live, nonzero.symm⟩
  simp only [index_node, RBTree.searchFrom, if_pos inside, stored, gt_iff_lt]

theorem searchFrom_search (held : Holds t.root s) (bounded : ∀ e ∈ s.toList, e.idx ≤ t.currIdx)
    (enough : s.depth < bound) : t.searchFrom key bound (index s) =
      some ((Zipper.search Entry.key key s).map Entry.idx) := by
  induction s generalizing bound with
  | nil =>
    obtain ⟨bound, rfl⟩ : ∃ b, bound = b + 1 := ⟨bound - 1, by omega⟩
    simp [RBTree.searchFrom, index, Zipper.search]
  | node c l e r ihl ihr =>
    obtain ⟨bound, rfl⟩ : ∃ b, bound = b + 1 := ⟨bound - 1, by omega⟩
    obtain ⟨hl, hr⟩ := depth_node enough
    rw [searchFrom_node held (bounded e (by simp)), Zipper.search]
    obtain ⟨-, -, left, right⟩ := held
    simp only [RBNode.toList_node, List.mem_append, List.mem_cons] at bounded
    split
    · exact ihr right (fun d m => bounded d (.inr (.inr m))) hr
    · split
      · exact ihl left (fun d m => bounded d (.inl m)) hl
      · rfl

theorem inorder_toList (held : Holds t.root s) (enough : s.depth < bound) :
    t.inorder bound (index s) = some (s.toList.map Entry.idx) := by
  induction s generalizing bound with
  | nil =>
    obtain ⟨bound, rfl⟩ : ∃ b, bound = b + 1 := ⟨bound - 1, by omega⟩
    simp [RBTree.inorder]
  | node c l e r ihl ihr =>
    obtain ⟨bound, rfl⟩ : ∃ b, bound = b + 1 := ⟨bound - 1, by omega⟩
    obtain ⟨nonzero, stored, left, right⟩ := held
    obtain ⟨hl, hr⟩ := depth_node enough
    rw [index_node, RBTree.inorder, if_neg nonzero, stored, ihl left hl, ihr right hr]
    simp

theorem mPrintImpl_toList (held : Holds t.root s) (enough : s.depth < bound) :
    t.mPrintImpl bound (index s) = some (s.toList.map Entry.value) := by
  rw [mPrintImpl_inorder, inorder_toList held enough, Option.map_some, List.map_map]
  exact congrArg some (List.map_congr_left fun e member => (holds_stored held member).2.2)

end Loops

def rootColor : Shape → RBColor
  | .nil => .black
  | .node c _ _ _ => c

@[simp] theorem rootColor_join (s : Side) (c : RBColor) (t u : Shape) (e : Entry) :
    rootColor (join s c t e u) = c := by cases s <;> rfl

theorem rootColor_balanced {t : Shape} (balanced : t.Balanced c n) : rootColor t = c := by
  cases balanced <;> rfl

theorem rootColor_plug {t u : Shape} (same : rootColor t = rootColor u) (fs : List (Frame Entry)) :
    rootColor (plug t fs) = rootColor (plug u fs) := by
  induction fs generalizing t u with
  | nil => exact same
  | cons f rest ih => exact ih (by simp only [Frame.fill, rootColor_join])

theorem rootColor_attach (s : Side) (top low t : Shape) (gg : Frame Entry)
    (tail : List (Frame Entry)) :
    rootColor (attach s top low (gg :: tail)) = rootColor (plug t (gg :: tail)) := by
  simp only [attach]
  split
  · simp only [Zipper.plug_cons]
    exact rootColor_plug (by simp only [Frame.fill, rootColor_join]) tail
  · simp only [Zipper.plug_cons]
    exact rootColor_plug (by simp only [Frame.fill, rootColor_join]) tail

/-- Only a recolouring that reaches the root makes it red, and recolouring keeps
the indices distinct. -/
theorem climb_root {x : Shape} {fs : List (Frame Entry)} (fits : Fits fs .black n)
    (balanced : x.Balanced .red n) (distinct : Distinct (plug x fs)) :
    rootColor (climb x fs) = .black ∨ Distinct (climb x fs) := by
  induction x, fs using climb_induct generalizing n with
  | root x => exact .inr distinct
  | top x p => exact .inr distinct
  | recolor x p g rest l u r red uncle ih =>
    rw [climb_recolor red uncle]
    apply ih (fits_red fits red).2.2.2 (balanced_recolored fits red uncle balanced)
    rw [Distinct, Zipper.toList_plug, toList_recolored uncle, ← Zipper.toList_plug]
    exact distinct
  | rotate x p g rest red uncle =>
    rw [climb_rotate red uncle]
    cases rest with
    | nil => exact .inl (by rw [attach, raised, rootColor_join])
    | cons gg tail =>
      have above := (fits_red fits red).2.2.2
      obtain ⟨m, whole⟩ := Zipper.balanced_plug above (balanced_raised fits red uncle balanced)
      exact .inl ((rootColor_attach _ _ _ _ gg tail).trans (rootColor_balanced whole))
  | black x p g rest black =>
    rw [climb_black black]
    exact .inr distinct

theorem setBlack_of_rootColor {s : Shape} (black : rootColor s = .black) : s.setBlack = s := by
  cases s with
  | nil => rfl
  | node c l e r => cases black; rfl

@[simp] theorem index_setBlack (s : Shape) : index s.setBlack = index s := by cases s <;> rfl

theorem holds_setBlack {t : RBTree} {s : Shape} (held : Holds t.root s) (rootIdx : t.rootIdx = index s)
    (once : rootColor s = .black ∨ Distinct s) :
    Holds (t.setBlack t.rootIdx).root s.setBlack := by
  cases s with
  | nil => trivial
  | node c l e r =>
    obtain ⟨nonzero, stored, left, right⟩ := held
    rcases once with black | distinct
    · have same : (t.setBlack t.rootIdx).root = t.root := by
        cases black
        rw [rootIdx, index_node, RBTree.setBlack, RBTree.modify, stored]
        simp only [← stored, Function.update_eq_self]
      rw [same, setBlack_of_rootColor black]
      exact ⟨nonzero, stored, left, right⟩
    · simp only [Distinct, RBNode.toList_node, List.map_append, List.map_cons, List.nodup_append,
        List.nodup_cons, List.mem_map, List.mem_cons] at distinct
      rw [rootIdx, index_node, RBTree.setBlack]
      refine ⟨nonzero, ?_, left.congr fun d m => ?_, right.congr fun d m => ?_⟩
      · rw [RBTree.modify_same, stored]
      · exact RBTree.modify_other _ _ _ (by grind)
      · exact RBTree.modify_other _ _ _ (by grind)

theorem mem_plug {t : Shape} {fs : List (Frame Entry)} {e : Entry} :
    e ∈ (plug t fs).toList ↔ e ∈ t.toList ∨ e ∈ entries fs := by
  rw [(toList_plug_perm t fs).mem_iff, List.mem_append]

theorem root_mem {s : Shape} (nonempty : s ≠ .nil) : ∃ e ∈ s.toList, e.idx = index s := by
  cases s with
  | nil => exact absurd rfl nonempty
  | node c l e r => exact ⟨e, by simp, rfl⟩

theorem plug_ne_nil {t : Shape} (nonempty : t ≠ .nil) (fs : List (Frame Entry)) : plug t fs ≠ .nil := by
  induction fs generalizing t with
  | nil => exact nonempty
  | cons f rest ih =>
    apply ih
    rw [Frame.fill]
    cases f.side <;> simp [join]

theorem join_ne_nil {s : Side} {c : RBColor} {t u : Shape} {e : Entry} : join s c t e u ≠ .nil := by
  cases s <;> simp [join]

theorem raised_sub {x : Shape} {p g : Frame Entry} {e : Entry}
    (member : e ∈ (raised x p g).toList ∨ e ∈ (lowered x p g).toList) :
    e ∈ (plug x [p, g]).toList := by
  simp only [raised, lowered, Zipper.mem_join] at member
  simp only [mem_plug, entries_cons, List.mem_cons, List.mem_append, entries_nil]
  rcases member with (kept | rfl | moved | rfl | far) | moved | rfl | far
  · exact (kept_sub kept).imp_right fun m => .inr (.inl m)
  · exact .inr (.inl rfl)
  · exact (moved_sub moved).imp_right fun m => .inr (.inl m)
  · exact .inr (.inr (.inr (.inl rfl)))
  · exact .inr (.inr (.inr (.inr (.inl far))))
  · exact (moved_sub moved).imp_right fun m => .inr (.inl m)
  · exact .inr (.inr (.inr (.inl rfl)))
  · exact .inr (.inr (.inr (.inr (.inl far))))

theorem attach_sub {s : Side} {top low : Shape} {fs : List (Frame Entry)} {e : Entry}
    (member : e ∈ (attach s top low fs).toList) :
    e ∈ top.toList ∨ e ∈ low.toList ∨ e ∈ entries fs := by
  cases fs with
  | nil => exact .inl member
  | cons gg rest =>
    simp only [attach] at member
    split at member
    · exact (mem_plug.mp member).imp_right .inr
    · simp only [mem_plug, Zipper.mem_join] at member
      simp only [entries_cons, List.mem_cons, List.mem_append]
      tauto

/-- Lifted over its ancestors, a rotation only rearranges nodes. -/
theorem rotated_sub {x : Shape} {p g : Frame Entry} {rest : List (Frame Entry)} {e : Entry}
    (member : e ∈ (attach g.side (raised x p g) (lowered x p g) rest).toList) :
    e ∈ (plug x (p :: g :: rest)).toList := by
  have inside : e ∈ (plug x [p, g]).toList ∨ e ∈ entries rest :=
    (attach_sub member).elim (fun m => .inl (raised_sub (.inl m)))
      fun m => m.imp_left fun m => raised_sub (.inr m)
  have whole : e ∈ (plug (plug x [p, g]) rest).toList := mem_plug.mpr inside
  exact whole

theorem climb_sub {x : Shape} {fs : List (Frame Entry)} {e : Entry}
    (member : e ∈ (climb x fs).toList) : e ∈ (plug x fs).toList := by
  induction x, fs using climb_induct with
  | root x => exact member
  | top x p => exact member
  | recolor x p g rest l u r red uncle ih =>
    rw [climb_recolor red uncle] at member
    have above := ih member
    rwa [Zipper.toList_plug, toList_recolored uncle, ← Zipper.toList_plug] at above
  | rotate x p g rest red uncle =>
    rw [climb_rotate red uncle] at member
    exact rotated_sub member
  | black x p g rest black => rwa [climb_black black] at member

theorem climb_ne_nil {x : Shape} (nonempty : x ≠ .nil) (fs : List (Frame Entry)) :
    climb x fs ≠ .nil := by
  induction x, fs using climb_induct with
  | root x => exact nonempty
  | top x p => exact plug_ne_nil nonempty [p]
  | recolor x p g rest l u r red uncle ih =>
    rw [climb_recolor red uncle]
    exact ih join_ne_nil
  | rotate x p g rest red uncle =>
    rw [climb_rotate red uncle]
    cases rest with
    | nil => exact join_ne_nil
    | cons gg tail =>
      simp only [attach]
      split
      · exact plug_ne_nil join_ne_nil _
      · exact plug_ne_nil join_ne_nil _
  | black x p g rest black =>
    rw [climb_black black]
    exact plug_ne_nil nonempty _

theorem insertFix_climb {t : RBTree} {x : Shape} {fs : List (Frame Entry)}
    (held : Holds t.root (plug x fs)) (distinct : Distinct (plug x fs)) (nonempty : index x ≠ 0)
    (rootIdx : t.rootIdx = index (plug x fs)) (below : fs ≠ []) (fits : Fits fs .black n)
    (balanced : x.Balanced .red n) (bound : Nat) (enough : fs.length ≤ bound) :
    ∃ t', insertFix bound t (index x) (stackOf fs) = some t' ∧
      Climbed t t' (plug x fs) (climb x fs).setBlack := by
  rw [insertFix, stackOf_length]
  by_cases single : fs.length - 1 = 0
  · rw [if_pos single]
    obtain ⟨p, rfl⟩ : ∃ p, fs = [p] := by
      match fs, below, single with
      | [p], _, _ => exact ⟨p, rfl⟩
    refine ⟨t, rfl, ?_⟩
    have black : rootColor (plug x [p]) = .black := by
      cases fits with
      | red _ outer => nomatch outer
      | black => exact rootColor_join _ _ _ _ _
    rw [climb, ← Zipper.plug_nil (p.fill x), ← Zipper.plug_cons, setBlack_of_rootColor black]
    exact ⟨held, rootIdx, rfl, rfl, rfl, fun _ _ => rfl⟩
  · rw [if_neg single]
    have height : fs.length - 1 + 1 = fs.length := by
      cases fs with
      | nil => exact absurd rfl below
      | cons => simp
    have climbing : Climbing ⟨t, index x, fs.length - 1, (stackOf fs).getD (fs.length - 1) 0,
        stackOf fs⟩ x fs :=
      ⟨held, distinct, rfl, nonempty, height, fun i f listed => stackOf_getD listed, rfl, rootIdx⟩
    obtain ⟨st, ran, climbed⟩ := fixLoop_climb climbing fits balanced bound enough
    refine ⟨st.tree.setBlack st.tree.rootIdx, by rw [ran, Option.map_some], ?_, ?_, climbed.size,
      climbed.capacity, climbed.currIdx, ?_⟩
    · exact holds_setBlack climbed.holds climbed.rootIdx (climb_root fits balanced distinct)
    · rw [index_setBlack]
      exact climbed.rootIdx
    · intro i outside
      have focus : x ≠ .nil := by
        rintro rfl
        exact nonempty rfl
      obtain ⟨e, member, same⟩ := root_mem (climb_ne_nil focus fs)
      rw [← climbed.outside i outside, RBTree.setBlack]
      refine RBTree.modify_other _ _ _ fun clash => outside e (climb_sub member) ?_
      rw [same, clash, climbed.rootIdx]

end Sometest.RbTreeArray
