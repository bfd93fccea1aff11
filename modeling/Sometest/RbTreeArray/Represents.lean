import Sometest.RbTreeArray.Insert

/-! The representation invariant of the node array and what one `insert` does to
it. The invariant leaves open whether every allocated node is still linked. -/
open RBTree (RBNode RBColor)

namespace Sometest.RbTreeArray
open Zipper (Side Frame Fits join plug Sorted descend)
open Sometest.RbTreeArray.RBTree (connect findParent insertFix)

def RBTreeNode.Fresh (n : RBTreeNode) : Prop := n.color = .red ∧ n.left = 0 ∧ n.right = 0

structure Represents (t : RBTree) (s : Shape) : Prop where
  rootIdx : t.rootIdx = index s
  holds : Holds t.root s
  distinct : Distinct s
  live : ∀ e ∈ s.toList, e.idx ≤ t.currIdx
  sorted : Sorted Entry.key s
  balanced : ∃ n, s.Balanced .black n
  size : t.size = t.currIdx
  room : t.currIdx + 1 ≤ t.capacity
  fresh : ∀ i, t.currIdx < i → (t.root i).Fresh
  empty : s = .nil → t.size = 0

theorem represents_init {capacity : Nat} (pos : 1 ≤ capacity) (fresh : Nat → Key × Value) :
    Represents (RBTree.init capacity fresh) .nil where
  rootIdx := rfl
  holds := trivial
  distinct := List.nodup_nil
  live := by simp
  sorted := by simp [Sorted]
  balanced := ⟨0, .nil⟩
  size := rfl
  room := pos
  fresh := by
    intro i allocated
    have ne : i ≠ 0 := Nat.ne_of_gt allocated
    simp [RBTree.init, RBTreeNode.Fresh, Function.update_of_ne ne]
  empty := fun _ => rfl

section Represented
variable {t : RBTree} {s : Shape} (rep : Represents t s)
include rep

theorem Represents.nonzero {e : Entry} (member : e ∈ s.toList) : e.idx ≠ 0 :=
  (holds_stored rep.holds member).1

/-- Distinct live indices bound the number of linked nodes. -/
theorem Represents.count : s.size ≤ t.currIdx := by
  have inside : (s.toList.map Entry.idx) ⊆ (List.range t.currIdx).map Nat.succ := by
    intro i member
    obtain ⟨e, inTree, rfl⟩ := List.mem_map.mp member
    have pos := rep.nonzero inTree
    have live := rep.live e inTree
    exact List.mem_map.mpr ⟨e.idx - 1, List.mem_range.mpr (by omega), by omega⟩
  have bound := (List.subperm_of_subset rep.distinct inside).length_le
  simpa only [List.length_map, List.length_range, ← RBNode.size_eq] using bound

theorem Represents.depth_lt : s.depth < t.capacity := by
  have deep : s.depth ≤ s.size := by
    clear rep
    induction s with
    | nil => exact Nat.le_refl _
    | node c l e r ihl ihr =>
      simp only [RBNode.depth, RBNode.size]
      omega
  exact Nat.lt_of_le_of_lt (deep.trans rep.count) rep.room

theorem Represents.isFull_iff : t.isFull = true ↔ ¬ t.currIdx + 1 < t.capacity := by
  have size := rep.size
  have room := rep.room
  simp only [RBTree.isFull, decide_eq_true_eq]
  omega

theorem Represents.search {bound : Nat} (enough : t.capacity ≤ bound) (key : Key) :
    t.search bound key = some ((Zipper.search Entry.key key s).map Entry.idx) := by
  rw [RBTree.search, rep.rootIdx]
  exact searchFrom_search rep.holds rep.live (Nat.lt_of_lt_of_le rep.depth_lt enough)

theorem Represents.mPrint {bound : Nat} (enough : t.capacity ≤ bound) :
    t.mPrint bound = some (s.toList.map Entry.value) := by
  rw [RBTree.mPrint, rep.rootIdx]
  exact mPrintImpl_toList rep.holds (Nat.lt_of_lt_of_le rep.depth_lt enough)

theorem Represents.findParent {bound : Nat} (enough : t.capacity ≤ bound) (key : Key) :
    findParent t key bound 0 t.rootIdx [] =
      some (match descend Entry.key key s [] with
        | none => .present
        | some fs => .parent (nearest fs) (stackOf fs)) := by
  rw [rep.rootIdx]
  exact @findParent_descend t s key bound [] rep.holds (Nat.lt_of_lt_of_le rep.depth_lt enough)

theorem Represents.not_first (nonempty : s ≠ .nil) : ¬ (t.size = 0 ∧ t.rootIdx = 0) := by
  rintro ⟨-, root⟩
  obtain ⟨e, member, same⟩ := root_mem nonempty
  exact rep.nonzero member (by rw [same, ← rep.rootIdx, root])

theorem insert_full {bound : Nat} {key : Key} {value : Value}
    (full : ¬ t.currIdx + 1 < t.capacity) : t.insert bound key value = some (t, false) := by
  rw [RBTree.insert, if_pos (rep.isFull_iff.mpr full)]

theorem insert_present {bound : Nat} {key : Key} {value : Value} (enough : t.capacity ≤ bound)
    (present : descend Entry.key key s [] = none) :
    t.insert bound key value = some (t, false) := by
  have nonempty : s ≠ .nil := by
    rintro rfl
    simp [descend] at present
  have found := rep.findParent enough key
  rw [present] at found
  rw [RBTree.insert]
  split
  · rfl
  · rw [if_neg (rep.not_first nonempty), found]

def newEntry (t : RBTree) (key : Key) (value : Value) : Entry := ⟨t.currIdx + 1, key, value⟩

end Represented

/-- The new node, red and without children. -/
def leaf (e : Entry) : Shape := .node .red .nil e .nil

/-- What `insert` makes of the context in which its descent ended. -/
def inserted (e : Entry) (fs : List (Frame Entry)) : Shape := (climb (leaf e) fs).setBlack

structure Grown (t t' : RBTree) (result : Shape) : Prop where
  rootIdx : t'.rootIdx = index result
  holds : Holds t'.root result
  size : t'.size = t.size + 1
  currIdx : t'.currIdx = t.currIdx + 1
  capacity : t'.capacity = t.capacity
  fresh : ∀ i, t'.currIdx < i → t'.root i = t.root i

/-- The array when the new node has been filled in and hung below its parent. -/
def linked (t : RBTree) (e : Entry) (f : Frame Entry) : RBTree :=
  ({ t with currIdx := t.currIdx + 1 }.modify e.idx fun n =>
    { n with key := e.key, value := e.value }).link f.val.idx f.side e.idx

section Accepted
variable {t : RBTree} {s : Shape} {key : Key} {value : Value} {fs : List (Frame Entry)}

theorem allocIndex_of_room (room : t.currIdx + 1 < t.capacity) :
    t.allocIndex = ({ t with currIdx := t.currIdx + 1 }, t.currIdx + 1) := by
  rw [RBTree.allocIndex, if_pos (by omega)]

theorem insert_first (rep : Represents t .nil) (room : t.currIdx + 1 < t.capacity)
    (bound : Nat) :
    ∃ t', t.insert bound key value = some (t', true) ∧
      Grown t t' (inserted (newEntry t key value) []) := by
  have notFull : ¬ t.isFull = true := fun full => rep.isFull_iff.mp full room
  have first : t.size = 0 ∧ t.rootIdx = 0 := ⟨rep.empty rfl, rep.rootIdx⟩
  rw [RBTree.insert, if_neg notFull, if_pos first, allocIndex_of_room room]
  simp only [if_neg (Nat.succ_ne_zero t.currIdx)]
  refine ⟨_, rfl, rfl, ⟨Nat.succ_ne_zero _, ?_, trivial, trivial⟩, rfl, rfl, rfl, ?_⟩
  · obtain ⟨-, left, right⟩ := rep.fresh (t.currIdx + 1) (Nat.lt_succ_self _)
    simp only [RBTree.setBlack, RBTree.modify_same, newEntry, left, right, index_nil]
  · intro i above
    have ne : i ≠ t.currIdx + 1 := Nat.ne_of_gt above
    simp only [RBTree.setBlack]
    rw [RBTree.modify_other _ _ _ ne, RBTree.modify_other _ _ _ ne]

theorem descend_whole (fell : descend Entry.key key s [] = some fs) : plug .nil fs = s :=
  Zipper.descend_plug fell

theorem mem_context (fell : descend Entry.key key s [] = some fs) {e : Entry} :
    e ∈ entries fs ↔ e ∈ s.toList := by
  rw [← descend_whole fell, mem_plug]
  simp

theorem length_le_entries (fs : List (Frame Entry)) : fs.length ≤ (entries fs).length := by
  induction fs with
  | nil => exact Nat.le_refl _
  | cons f rest ih =>
    simp only [entries_cons, List.length_cons, List.length_append]
    omega

theorem height_lt (rep : Represents t s) (fell : descend Entry.key key s [] = some fs) :
    fs.length < t.capacity := by
  have contents := (toList_plug_perm .nil fs).length_eq
  rw [descend_whole fell, ← RBNode.size_eq, RBNode.toList_nil, List.nil_append] at contents
  have count := rep.count
  have short := length_le_entries fs
  have room := rep.room
  omega

/-- The parent's key decides the side of the new node as it decided the descent. -/
theorem connect_linked {f : Frame Entry} (rep : Represents t s)
    (fell : descend Entry.key key s [] = some (f :: fs)) (value : Value) :
    connect ({ t with currIdx := t.currIdx + 1 }.modify (newEntry t key value).idx fun n =>
      { n with key := key, value := value }) f.val.idx (newEntry t key value).idx =
      some (linked t (newEntry t key value) f) := by
  have member : f.val ∈ s.toList := (mem_context fell).mp (by simp)
  have live := rep.live f.val member
  have ne : f.val.idx ≠ t.currIdx + 1 := by omega
  have inside : ¬ (f.val.idx > t.size ∨ f.val.idx = t.currIdx + 1) := by
    have size := rep.size
    omega
  have stored : (t.root f.val.idx).key = f.val.key := by
    have held := rep.holds
    rw [← descend_whole fell] at held
    rw [(holds_plug.mp held).2.2.1, cell_key]
  have ordered := Zipper.descend_side fell rep.sorted
  simp only [connect, RBTree.modify_size, newEntry, linked, if_neg inside, RBTree.modify_same]
  rw [RBTree.modify_other _ _ _ ne, stored]
  cases side : f.side with
  | left =>
    rw [side] at ordered
    rw [if_pos ordered]
  | right =>
    rw [side] at ordered
    rw [if_neg (not_lt_of_gt ordered), if_pos ordered]

theorem holds_linked {f : Frame Entry} (rep : Represents t s)
    (fell : descend Entry.key key s [] = some (f :: fs)) :
    Holds (linked t (newEntry t key value) f).root
      (plug (leaf (newEntry t key value)) (f :: fs)) := by
  have member : ∀ e ∈ entries (f :: fs), e.idx ≤ t.currIdx := fun e inside =>
    rep.live e ((mem_context fell).mp inside)
  have distinct := rep.distinct
  have held := rep.holds
  rw [← descend_whole fell] at held distinct
  obtain ⟨-, nonzero, stored, sibling, around⟩ := holds_plug.mp held
  have nodup := distinct_plug.mp distinct
  simp only [entries_cons, RBNode.toList_nil, List.nil_append, List.map_cons, List.nodup_cons,
    List.mem_map, List.mem_append, not_exists, not_and] at nodup
  have atParent := member f.val (by simp)
  have new : (newEntry t key value).idx = t.currIdx + 1 := rfl
  have other : ∀ e, e ∈ f.sibling.toList ∨ e ∈ entries fs →
      (linked t (newEntry t key value) f).root e.idx = t.root e.idx := by
    intro e inside
    have live := member e (by
      rw [entries_cons]
      exact List.mem_cons_of_mem _ (List.mem_append.mpr inside))
    rw [linked, RBTree.link, RBTree.modify_other _ _ _ (nodup.1 e inside),
      RBTree.modify_other _ _ _ (by omega)]
  refine holds_plug.mpr ⟨⟨Nat.succ_ne_zero _, ?_, trivial, trivial⟩, nonzero, ?_,
    sibling.congr fun e inside => other e (.inl inside), around.congr fun e inside => other e (.inr inside)⟩
  · obtain ⟨red, left, right⟩ := rep.fresh (t.currIdx + 1) (Nat.lt_succ_self _)
    rw [linked, RBTree.link, RBTree.modify_other _ _ _ (by omega), RBTree.modify_same, new]
    simp only [red, left, right, index_nil]
  · rw [linked, RBTree.link, RBTree.modify_same, RBTree.modify_other _ _ _ (by omega)]
    show (t.root f.val.idx).setChild f.side _ = _
    rw [stored, cell_setChild]
    rfl

theorem distinct_leaf (rep : Represents t s) (fell : descend Entry.key key s [] = some fs) :
    Distinct (plug (leaf (newEntry t key value)) fs) := by
  have distinct := rep.distinct
  rw [← descend_whole fell] at distinct
  have nodup := distinct_plug.mp distinct
  apply distinct_plug.mpr
  simp only [leaf, RBNode.toList_node, RBNode.toList_nil, List.nil_append, List.cons_append,
    List.map_cons, List.nodup_cons, List.mem_map, not_exists, not_and] at nodup ⊢
  refine ⟨fun e inside => ?_, nodup⟩
  have live := rep.live e ((mem_context fell).mp inside)
  have new : (newEntry t key value).idx = t.currIdx + 1 := rfl
  omega

theorem fits_leaf (rep : Represents t s) (fell : descend Entry.key key s [] = some fs) :
    Fits fs .black 0 := by
  obtain ⟨n, balanced⟩ := rep.balanced
  exact Zipper.descend_fits fell .root balanced

theorem balanced_leaf (e : Entry) : (leaf e).Balanced .red 0 := .red .nil .nil

theorem insert_below {f : Frame Entry} (rep : Represents t s) (room : t.currIdx + 1 < t.capacity)
    {bound : Nat} (enough : t.capacity ≤ bound)
    (fell : descend Entry.key key s [] = some (f :: fs)) :
    ∃ t', t.insert bound key value = some (t', true) ∧
      Grown t t' (inserted (newEntry t key value) (f :: fs)) := by
  have notFull : ¬ t.isFull = true := fun full => rep.isFull_iff.mp full room
  have nonempty : s ≠ .nil := by
    rw [← descend_whole fell, Zipper.plug_cons]
    exact plug_ne_nil join_ne_nil fs
  have found := rep.findParent enough key
  rw [fell] at found
  have connected := connect_linked rep fell value
  have rooted : (linked t (newEntry t key value) f).rootIdx =
      index (plug (leaf (newEntry t key value)) (f :: fs)) := by
    apply rep.rootIdx.trans
    rw [← descend_whole fell]
    exact index_plug (by simp only [Frame.fill, index_join]) fs
  obtain ⟨t', fixed, climbed⟩ := insertFix_climb (holds_linked rep fell) (distinct_leaf rep fell)
    (Nat.succ_ne_zero t.currIdx) rooted (List.cons_ne_nil f fs) (fits_leaf rep fell)
    (balanced_leaf _) bound ((height_lt rep fell).le.trans enough)
  refine ⟨{ t' with size := t'.size + 1 }, ?_, climbed.rootIdx, climbed.holds, ?_, climbed.currIdx,
    climbed.capacity, ?_⟩
  · rw [RBTree.insert, if_neg notFull, if_neg (rep.not_first nonempty), found]
    simp only [newEntry] at connected
    have fixed' : insertFix bound (linked t (newEntry t key value) f) (t.currIdx + 1)
        (stackOf (f :: fs)) = some t' := fixed
    simp only [nearest, allocIndex_of_room room, if_neg (Nat.succ_ne_zero t.currIdx), connected]
    simp only [newEntry] at fixed'
    rw [fixed']
    rfl
  · simp only [climbed.size]
    rfl
  · intro i above
    have allocated : t'.currIdx = t.currIdx + 1 := climbed.currIdx
    have outside : ∀ e ∈ (plug (leaf (newEntry t key value)) (f :: fs)).toList, e.idx ≠ i := by
      intro e member
      rcases mem_plug.mp member with new | old
      · simp only [leaf, RBNode.toList_node, RBNode.toList_nil, List.nil_append,
          List.mem_singleton] at new
        subst new
        simp only [allocated] at above
        exact Nat.ne_of_lt above
      · have live := rep.live e ((mem_context fell).mp old)
        simp only at above
        omega
    have parent := rep.live f.val ((mem_context fell).mp (by simp))
    have new : (newEntry t key value).idx = t.currIdx + 1 := rfl
    simp only at above
    apply (climbed.outside i outside).trans
    rw [linked, RBTree.link, RBTree.modify_other _ _ _ (by omega),
      RBTree.modify_other _ _ _ (by omega)]

theorem insert_accepted (rep : Represents t s) (room : t.currIdx + 1 < t.capacity)
    {bound : Nat} (enough : t.capacity ≤ bound)
    (fell : descend Entry.key key s [] = some fs) (value : Value) :
    ∃ t', t.insert bound key value = some (t', true) ∧
      Grown t t' (inserted (newEntry t key value) fs) := by
  cases fs with
  | nil =>
    obtain rfl : .nil = s := descend_whole fell
    exact insert_first rep room bound
  | cons f fs => exact insert_below rep room enough fell

@[simp] theorem toList_setBlack (u : Shape) : u.setBlack.toList = u.toList := by cases u <;> rfl

theorem inserted_sub (fell : descend Entry.key key s [] = some fs) {e d : Entry}
    (member : d ∈ (inserted e fs).toList) : d = e ∨ d ∈ s.toList := by
  rw [inserted, toList_setBlack] at member
  rcases mem_plug.mp (climb_sub member) with new | old
  · simp only [leaf, RBNode.toList_node, RBNode.toList_nil, List.nil_append,
      List.mem_singleton] at new
    exact .inl new
  · exact .inr ((mem_context fell).mp old)

theorem inserted_live {t' : RBTree} (rep : Represents t s)
    (fell : descend Entry.key key s [] = some fs)
    (grown : Grown t t' (inserted (newEntry t key value) fs)) :
    ∀ e ∈ (inserted (newEntry t key value) fs).toList, e.idx ≤ t'.currIdx := by
  intro e member
  rw [grown.currIdx]
  rcases inserted_sub fell member with rfl | old
  · exact Nat.le_refl _
  · exact (rep.live e old).trans (Nat.le_succ _)

/-- The invariant holds again as far as the new shape is a balanced search tree. -/
theorem represents_grown {t' : RBTree} (rep : Represents t s) (room : t.currIdx + 1 < t.capacity)
    (fell : descend Entry.key key s [] = some fs)
    (grown : Grown t t' (inserted (newEntry t key value) fs))
    (distinct : Distinct (inserted (newEntry t key value) fs))
    (sorted : Sorted Entry.key (inserted (newEntry t key value) fs))
    (balanced : ∃ n, (inserted (newEntry t key value) fs).Balanced .black n) :
    Represents t' (inserted (newEntry t key value) fs) where
  rootIdx := grown.rootIdx
  holds := grown.holds
  distinct := distinct
  live := inserted_live rep fell grown
  sorted := sorted
  balanced := balanced
  size := by rw [grown.size, grown.currIdx, rep.size]
  room := by
    rw [grown.currIdx, grown.capacity]
    exact room
  fresh := by
    intro i above
    rw [grown.fresh i above]
    exact rep.fresh i (by rw [grown.currIdx] at above; omega)
  empty := by
    intro nil
    have nonempty := climb_ne_nil (x := leaf (newEntry t key value)) (by simp [leaf]) fs
    cases whole : climb (leaf (newEntry t key value)) fs with
    | nil => exact absurd whole nonempty
    | node c l e r =>
      rw [inserted, whole] at nil
      cases nil

end Accepted
end Sometest.RbTreeArray
