import Sometest.Lib.Run
import Sometest.RbTreeArray.Represents

/-! What `insert` relies on and does not check, in every state that inserts and
`clear` lead to. Nothing is assumed about the shape of the links: after a crooked turn
they may share a node or close a cycle. -/
open RBTree (RBColor)

namespace Sometest.RbTreeArray
open Zipper (Side)
open Sometest.RbTreeArray.RBTree (FixState Descent recolor rotateInner rotateLinks rotateOuter
  fixBranch fixBody fixLoop insertFix findParent connect)

/-- A call that changes the tree. -/
inductive Mutation where
  | insert (key : Key) (value : Value)
  | clear

def mutate (bound : Nat) (t : RBTree) : Mutation → Option RBTree
  | .insert key value => (t.insert bound key value).map Prod.fst
  | .clear => some t.clear

/-- The slot of an allocated node. -/
def Live (n i : Nat) : Prop := i ≠ 0 ∧ i ≤ n

theorem Live.mono (live : Live n i) (le : n ≤ m) : Live m i := ⟨live.1, live.2.trans le⟩

/-- No link leads beyond slot `n`. -/
def Linked (n : Nat) (t : RBTree) : Prop := ∀ i s, t.child i s ≤ n

/-- What the fix-up may write: colours and links of the live slots, and the root. -/
inductive Rewires (n : Nat) (t : RBTree) : RBTree → Prop where
  | refl : Rewires n t t
  | setRed : Rewires n t u → Live n i → Rewires n t (u.setRed i)
  | setBlack : Rewires n t u → Live n i → Rewires n t (u.setBlack i)
  | link (s : Side) : Rewires n t u → Live n i → c ≤ n → Rewires n t (u.link i s c)
  | reroot : Rewires n t u → Live n i → Rewires n t { u with rootIdx := i }

section Colours
variable (t : RBTree) (i j c : Nat) (s : Side)

@[simp] theorem link_isRed : (t.link i s c).isRed j = t.isRed j := by
  by_cases same : j = i
  · subst same
    rw [RBTree.isRed, RBTree.link, RBTree.modify_same]
    cases s <;> rfl
  · rw [RBTree.isRed, RBTree.link, RBTree.modify_other _ _ _ same, RBTree.isRed]

theorem setBlack_isRed_same : (t.setBlack i).isRed i = false := by
  rw [RBTree.isRed, RBTree.setBlack, RBTree.modify_same]
  rfl

theorem setBlack_isRed (black : t.isRed j = false) : (t.setBlack i).isRed j = false := by
  by_cases same : j = i
  · subst same
    exact setBlack_isRed_same t j
  · rwa [RBTree.isRed, RBTree.setBlack, RBTree.modify_other _ _ _ same]

theorem setRed_isRed (ne : j ≠ i) : (t.setRed i).isRed j = t.isRed j := by
  rw [RBTree.isRed, RBTree.setRed, RBTree.modify_other _ _ _ ne, RBTree.isRed]

theorem modify_child {f : RBTreeNode → RBTreeNode} (keeps : ∀ m : RBTreeNode, (f m).child s = m.child s) :
    (t.modify i f).child j s = t.child j s := by
  by_cases same : j = i
  · subst same
    rw [RBTree.child, RBTree.modify_same, keeps, RBTree.child]
  · rw [RBTree.child, RBTree.modify_other _ _ _ same, RBTree.child]

theorem link_child_le (linked : Linked n t) (small : c ≤ n) : Linked n (t.link i s c) := by
  intro j s'
  by_cases same : j = i
  · subst same
    have before := linked j s'
    rw [RBTree.child, RBTree.link, RBTree.modify_same]
    rw [RBTree.child] at before
    cases s <;> cases s' <;> first | exact small | exact before
  · rw [RBTree.child, RBTree.link, RBTree.modify_other _ _ _ same]
    exact linked j s'

end Colours

/-- What a rewiring leaves alone. -/
structure Rewired (n : Nat) (t u : RBTree) : Prop where
  capacity : u.capacity = t.capacity
  size : u.size = t.size
  currIdx : u.currIdx = t.currIdx
  dead : ∀ i, ¬ Live n i → u.root i = t.root i
  entry : ∀ i, (u.root i).key = (t.root i).key ∧ (u.root i).value = (t.root i).value

section Rewires
variable {n : Nat} {t u v : RBTree}

theorem Rewires.trans (first : Rewires n t u) (second : Rewires n u v) : Rewires n t v := by
  induction second with
  | refl => exact first
  | setRed _ live ih => exact ih.setRed live
  | setBlack _ live ih => exact ih.setBlack live
  | link s _ live small ih => exact ih.link s live small
  | reroot _ live ih => exact ih.reroot live

theorem Rewired.modify {i : Nat} {f : RBTreeNode → RBTreeNode} (rewired : Rewired n t u)
    (live : Live n i) (keeps : ∀ m : RBTreeNode, (f m).key = m.key ∧ (f m).value = m.value) :
    Rewired n t (u.modify i f) where
  capacity := rewired.capacity
  size := rewired.size
  currIdx := rewired.currIdx
  dead := by
    intro j dead
    have ne : j ≠ i := fun same => dead (same ▸ live)
    rw [RBTree.modify_other _ _ _ ne, rewired.dead j dead]
  entry := by
    intro j
    by_cases same : j = i
    · subst same
      rw [RBTree.modify_same, (keeps _).1, (keeps _).2]
      exact rewired.entry j
    · rw [RBTree.modify_other _ _ _ same]
      exact rewired.entry j

theorem Rewires.rewired (rewires : Rewires n t u) : Rewired n t u := by
  induction rewires with
  | refl => exact ⟨rfl, rfl, rfl, fun _ _ => rfl, fun _ => ⟨rfl, rfl⟩⟩
  | setRed _ live ih => exact ih.modify live fun _ => ⟨rfl, rfl⟩
  | setBlack _ live ih => exact ih.modify live fun _ => ⟨rfl, rfl⟩
  | link s _ live _ ih => exact ih.modify live fun _ => by cases s <;> exact ⟨rfl, rfl⟩
  | reroot _ _ ih => exact ⟨ih.capacity, ih.size, ih.currIdx, ih.dead, ih.entry⟩

theorem Rewires.linked (rewires : Rewires n t u) (linked : Linked n t) : Linked n u := by
  induction rewires with
  | refl => exact linked
  | setRed _ _ ih =>
    intro i s
    rw [RBTree.setRed, modify_child _ _ _ _ fun _ => by cases s <;> rfl]
    exact ih i s
  | setBlack _ _ ih =>
    intro i s
    rw [RBTree.setBlack, modify_child _ _ _ _ fun _ => by cases s <;> rfl]
    exact ih i s
  | link s _ _ small ih => exact link_child_le _ _ _ s ih small
  | reroot _ _ ih => exact ih

theorem Rewires.rootIdx (rewires : Rewires n t u) (live : Live n t.rootIdx) : Live n u.rootIdx := by
  induction rewires with
  | refl => exact live
  | setRed _ _ ih => exact ih
  | setBlack _ _ ih => exact ih
  | link _ _ _ _ ih => exact ih
  | reroot _ live _ => exact live

end Rewires

/-- The loop's state whenever its condition is tested: the saved ancestors are live and
different, the lowest one is the root, and the root is black. -/
structure OnStack (n : Nat) (st : FixState) : Prop where
  linked : Linked n st.tree
  root : Live n st.tree.rootIdx
  black : st.tree.isRed st.tree.rootIdx = false
  idxBk : Live n st.idxBk
  live : ∀ i ∈ st.reStack, Live n i
  distinct : st.reStack.Nodup
  bottom : st.reStack.getD 0 0 = st.tree.rootIdx
  top : st.top < st.reStack.length
  parent : st.parent = st.reStack.getD st.top 0

section Climb
variable {n : Nat} {st : FixState}

theorem getD_mem {stack : List Nat} {i : Nat} (inside : i < stack.length) : stack.getD i 0 ∈ stack := by
  rw [List.getD_eq_getElem _ _ inside]
  exact List.getElem_mem inside

theorem set_getD {stack : List Nat} {i : Nat} (inside : i < stack.length) :
    stack.set i (stack.getD i 0) = stack := by
  rw [List.getD_eq_getElem _ _ inside]
  exact List.set_getElem_self inside

theorem OnStack.ancestor (on : OnStack n st) (i : Nat) : Live n (st.reStack.getD (st.top - i) 0) :=
  on.live _ (getD_mem (Nat.lt_of_le_of_lt (Nat.sub_le _ _) on.top))

/-- The loop is never entered at the root: there is a grandparent. -/
theorem OnStack.top_pos (on : OnStack n st) (red : st.tree.isRed st.parent = true) : 0 < st.top := by
  rcases Nat.eq_zero_or_pos st.top with zero | pos
  · rw [on.parent, zero, on.bottom, on.black] at red
    cases red
  · exact pos

/-- A node that is coloured red while the climb goes on is not the root. -/
theorem OnStack.grand_ne_root (on : OnStack n st) (high : ¬ st.top < 2) :
    st.reStack.getD (st.top - 1) 0 ≠ st.tree.rootIdx := by
  have top := on.top
  rw [← on.bottom, List.getD_eq_getElem _ _ (by omega), List.getD_eq_getElem _ _ (by omega)]
  intro same
  have := on.distinct.getElem_inj_iff.mp same
  omega

/-- What one round of the loop leaves: the loop is left, or its condition fails, or
the climb goes on two places further down the stack. -/
structure Round (n : Nat) (st next : FixState) (stop : Bool) : Prop where
  rewires : Rewires n st.tree next.tree
  goesOn : stop = true ∨ Live n next.parent ∧ next.tree.isRed next.parent = false ∨
    OnStack n next ∧ next.top < st.top

theorem OnStack.recolor (on : OnStack n st) {uncle : Nat} (live : Live n uncle) :
    Round n st (recolor st (st.reStack.getD st.top 0) (st.reStack.getD (st.top - 1) 0) uncle).1
      (recolor st (st.reStack.getD st.top 0) (st.reStack.getD (st.top - 1) 0) uncle).2 := by
  have parent := on.ancestor 0
  have grand := on.ancestor 1
  have rewires : Rewires n st.tree (((st.tree.setBlack uncle).setBlack (st.reStack.getD st.top 0)).setRed
      (st.reStack.getD (st.top - 1) 0)) := ((Rewires.refl.setBlack live).setBlack parent).setRed grand
  rw [RBTree.recolor]
  split
  · exact ⟨rewires, .inl rfl⟩
  · rename_i high
    have top := on.top
    refine ⟨rewires, .inr (.inr ⟨?_, ?_⟩)⟩
    · exact {
        linked := rewires.linked on.linked
        root := on.root
        black := by
          show (RBTree.setRed _ _).isRed st.tree.rootIdx = false
          rw [setRed_isRed _ _ _ (on.grand_ne_root high).symm]
          exact setBlack_isRed _ _ _ (setBlack_isRed _ _ _ on.black)
        idxBk := grand
        live := on.live
        distinct := on.distinct
        bottom := on.bottom
        top := Nat.lt_of_le_of_lt (Nat.sub_le _ _) top
        parent := rfl }
    · show st.top - 2 < st.top
      omega

theorem rewires_rotateInner (on : OnStack n st) (s : Side) :
    Rewires n st.tree (rotateInner s st st.parent (st.reStack.getD (st.top - 1) 0)).tree := by
  have parent : Live n st.parent := on.parent ▸ on.ancestor 0
  have lifted : Rewires n st.tree (st.tree.link (st.reStack.getD (st.top - 1) 0) s st.idxBk) :=
    Rewires.refl.link s (on.ancestor 1) on.idxBk.2
  have child := lifted.linked on.linked st.idxBk s
  exact (lifted.link s.other parent child).link s on.idxBk parent.2

/-- The inner rotation stores the parent again where it was. -/
theorem rotateInner_frame (on : OnStack n st) (s : Side) (grand : Nat) :
    (rotateInner s st st.parent grand).parent = st.parent ∧
      (rotateInner s st st.parent grand).reStack = st.reStack := by
  have same : st.reStack.set st.top st.parent = st.reStack := by
    rw [on.parent]
    exact set_getD on.top
  constructor
  · simp only [rotateInner, same]
    exact on.parent.symm
  · exact same

theorem rewires_rotateLinks {t : RBTree} {p g : Nat} (linked : Linked n t) (parent : Live n p)
    (grand : Live n g) (s : Side) : Rewires n t (rotateLinks s t p g) := by
  have coloured : Rewires n t ((t.setRed g).setBlack p) := (Rewires.refl.setRed grand).setBlack parent
  have child := coloured.linked linked p s.other
  exact (coloured.link s grand child).link s.other parent grand.2

theorem rotateLinks_black (t : RBTree) (p g : Nat) (s : Side) :
    (rotateLinks s t p g).isRed p = false := by
  rw [rotateLinks, link_isRed, link_isRed]
  exact setBlack_isRed_same _ p

/-- The parent of the rotation is black, so the loop is left. -/
theorem rotateOuter_black (st : FixState) (g : Nat) (s : Side) :
    (rotateOuter s st g).tree.isRed (rotateOuter s st g).parent = false := by
  rw [rotateOuter]
  split
  · exact rotateLinks_black st.tree st.parent g s
  · rw [link_isRed]
    exact rotateLinks_black st.tree st.parent g s

theorem rotateOuter_parent (st : FixState) (g : Nat) (s : Side) :
    (rotateOuter s st g).parent = st.parent := by
  rw [rotateOuter]
  split <;> rfl

theorem rewires_rotateOuter {g : Nat} (linked : Linked n st.tree) (parent : Live n st.parent)
    (grand : Live n g) (great : Live n (st.reStack.getD (st.top - 2) 0)) (s : Side) :
    Rewires n st.tree (rotateOuter s st g).tree := by
  have links := rewires_rotateLinks linked parent grand s
  rw [rotateOuter]
  split
  · exact links.reroot parent
  · exact links.link s great parent.2

theorem OnStack.fixBranch (on : OnStack n st) (s : Side) :
    Round n st (fixBranch s st st.parent (st.reStack.getD (st.top - 1) 0)).1
      (fixBranch s st st.parent (st.reStack.getD (st.top - 1) 0)).2 := by
  have parent : Live n st.parent := on.parent ▸ on.ancestor 0
  simp only [RBTree.fixBranch]
  split
  · rename_i uncle
    have recolored := on.recolor ⟨uncle.1, on.linked (st.reStack.getD (st.top - 1) 0) s.other⟩
    rwa [← on.parent] at recolored
  · split
    · have inner := rewires_rotateInner on s
      obtain ⟨sameParent, sameStack⟩ := rotateInner_frame on s (st.reStack.getD (st.top - 1) 0)
      refine ⟨inner.trans (rewires_rotateOuter (inner.linked on.linked) ?_ (on.ancestor 1) ?_ s),
        .inr (.inl ⟨?_, rotateOuter_black _ _ s⟩)⟩
      · rw [sameParent]
        exact parent
      · rw [sameStack]
        exact on.ancestor 2
      · rw [rotateOuter_parent, sameParent]
        exact parent
    · refine ⟨rewires_rotateOuter on.linked parent (on.ancestor 1) (on.ancestor 2) s,
        .inr (.inl ⟨?_, rotateOuter_black _ _ s⟩)⟩
      rw [rotateOuter_parent]
      exact parent

theorem OnStack.fixBody (on : OnStack n st) : Round n st (fixBody st).1 (fixBody st).2 := by
  simp only [RBTree.fixBody, ← on.parent]
  split
  · exact on.fixBranch .left
  · exact on.fixBranch .right

theorem OnStack.fixLoop {bound : Nat} {out : FixState} (on : OnStack n st)
    (ran : fixLoop bound st = some out) : Rewires n st.tree out.tree := by
  induction bound generalizing st with
  | zero => cases ran
  | succ bound ih =>
    have round := on.fixBody
    rw [RBTree.fixLoop] at ran
    split at ran
    · split at ran
      · rename_i next body
        rw [body] at round
        cases ran
        exact round.rewires
      · rename_i next body
        rw [body] at round
        rcases round.goesOn with stop | ⟨-, black⟩ | ⟨next, -⟩
        · cases stop
        · cases bound with
          | zero => cases ran
          | succ bound =>
            rw [RBTree.fixLoop, black] at ran
            cases ran
            exact round.rewires
        · exact round.rewires.trans (ih next ran)
    · cases ran
      exact .refl

theorem OnStack.insertFix {t u : RBTree} {idx bound : Nat} {reStack : List Nat}
    (on : OnStack n ⟨t, idx, reStack.length - 1, reStack.getD (reStack.length - 1) 0, reStack⟩)
    (ran : insertFix bound t idx reStack = some u) :
    Rewires n t u ∧ u.isRed u.rootIdx = false := by
  rw [RBTree.insertFix] at ran
  split at ran
  · cases ran
    exact ⟨.refl, on.black⟩
  · obtain ⟨out, looped, same⟩ := Option.map_eq_some_iff.mp ran
    cases same
    have rewires := on.fixLoop looped
    exact ⟨rewires.setBlack (rewires.rootIdx on.root), setBlack_isRed_same _ _⟩

end Climb

/-- The child on which the descent for `key` goes on. -/
def RBTree.toward (t : RBTree) (key : Key) (p : Nat) : Nat :=
  if (t.root p).key < key then (t.root p).right else (t.root p).left

/-- The nodes from `p` down to a nil link, none of which has the key. -/
inductive Descends (t : RBTree) (key : Key) : Nat → List Nat → Prop where
  | nil : Descends t key 0 []
  | next : p ≠ 0 → (t.root p).key ≠ key → Descends t key (t.toward key p) path →
      Descends t key p (p :: path)

section Descent
variable {n : Nat} {t : RBTree} {key : Key} {p q x bound : Nat} {path stack : List Nat}

theorem Descends.unique (one : Descends t key p path) (other : Descends t key p path') :
    path' = path := by
  induction one generalizing path' with
  | nil =>
    cases other with
    | nil => rfl
    | next nonzero => exact absurd rfl nonzero
  | next nonzero _ _ ih =>
    cases other with
    | nil => exact absurd rfl nonzero
    | next _ _ rest => rw [ih rest]

theorem Descends.nonempty (descends : Descends t key p path) (nonzero : p ≠ 0) : path ≠ [] := by
  cases descends with
  | nil => exact absurd rfl nonzero
  | next => exact List.cons_ne_nil _ _

theorem Descends.head (descends : Descends t key p path) : path.getD 0 0 = p := by
  cases descends with
  | nil => rfl
  | next => rfl

theorem Descends.suffix (descends : Descends t key p path) (member : q ∈ path) :
    ∃ rest, Descends t key q rest ∧ rest <:+ path := by
  induction descends with
  | nil => cases member
  | @next p path nonzero differs below ih =>
    rcases List.mem_cons.mp member with rfl | later
    · exact ⟨q :: path, .next nonzero differs below, List.suffix_refl _⟩
    · obtain ⟨rest, descends, suffix⟩ := ih later
      exact ⟨rest, descends, suffix.trans (List.suffix_cons p path)⟩

/-- A descent that ends has not met a node twice. -/
theorem Descends.nodup (descends : Descends t key p path) : path.Nodup := by
  induction descends with
  | nil => exact List.nodup_nil
  | @next p path nonzero differs below ih =>
    refine List.nodup_cons.mpr ⟨fun again => ?_, ih⟩
    obtain ⟨rest, descends, suffix⟩ := below.suffix again
    have same := descends.unique (.next nonzero differs below)
    have shorter := suffix.length_le
    rw [← same, List.length_cons] at shorter
    omega

theorem toward_le (linked : Linked n t) (key : Key) (p : Nat) : t.toward key p ≤ n := by
  rw [RBTree.toward]
  split
  · exact linked p .right
  · exact linked p .left

theorem Descends.live (descends : Descends t key p path) (linked : Linked n t) (small : p ≤ n) :
    ∀ i ∈ path, Live n i ∧ (t.root i).key ≠ key := by
  induction descends with
  | nil =>
    intro i member
    cases member
  | @next p path nonzero differs _ ih =>
    intro i member
    rcases List.mem_cons.mp member with rfl | later
    · exact ⟨⟨nonzero, small⟩, differs⟩
    · exact ih (toward_le linked key p) i later

theorem findParent_eq (nonzero : p ≠ 0) (differs : (t.root p).key ≠ key) :
    findParent t key (bound + 1) x p stack =
      findParent t key bound p (t.toward key p) (stack ++ [p]) := by
  rw [RBTree.findParent, if_neg nonzero, RBTree.toward]
  split
  · rfl
  · rename_i notLess
    rw [if_pos (lt_of_le_of_ne (not_lt.mp notLess) differs.symm)]

theorem findParent_present (nonzero : p ≠ 0) (same : (t.root p).key = key) :
    findParent t key (bound + 1) x p stack = some .present := by
  rw [RBTree.findParent, if_neg nonzero, same, if_neg (lt_irrefl key), if_neg (lt_irrefl key)]

theorem findParent_nil : findParent t key (bound + 1) x 0 stack = some (.parent x stack) := by
  rw [RBTree.findParent, if_pos rfl]

/-- The saved ancestors are the path of the descent. -/
theorem findParent_descends {stack' : List Nat} {x' : Nat}
    (fell : findParent t key bound x p stack = some (.parent x' stack')) :
    ∃ path, Descends t key p path ∧ stack' = stack ++ path ∧ x' = path.getLastD x := by
  induction bound generalizing x p stack with
  | zero => cases fell
  | succ bound ih =>
    by_cases zero : p = 0
    · subst zero
      rw [findParent_nil] at fell
      cases fell
      exact ⟨[], .nil, (List.append_nil _).symm, rfl⟩
    · by_cases same : (t.root p).key = key
      · rw [findParent_present zero same] at fell
        cases fell
      · rw [findParent_eq zero same] at fell
        obtain ⟨path, descends, stacked, last⟩ := ih fell
        refine ⟨p :: path, .next zero same descends, ?_, ?_⟩
        · rw [stacked, List.append_assoc]
          rfl
        · rw [last, List.getLastD_cons]

theorem searchFrom_nil : t.searchFrom key (bound + 1) 0 = some none := by
  rw [RBTree.searchFrom, if_neg fun both => both.2 rfl]

theorem searchFrom_present (small : p ≤ t.currIdx) (nonzero : p ≠ 0) (same : (t.root p).key = key) :
    t.searchFrom key (bound + 1) p = some (some p) := by
  rw [RBTree.searchFrom, if_pos ⟨small, Ne.symm nonzero⟩, same, if_neg (lt_irrefl key),
    if_neg (lt_irrefl key)]

theorem searchFrom_eq (small : p ≤ t.currIdx) (nonzero : p ≠ 0) (differs : (t.root p).key ≠ key) :
    t.searchFrom key (bound + 1) p = t.searchFrom key bound (t.toward key p) := by
  rw [RBTree.searchFrom, if_pos ⟨small, Ne.symm nonzero⟩, RBTree.toward]
  split
  · rfl
  · rename_i notLess
    rw [if_pos (lt_of_le_of_ne (not_lt.mp notLess) differs.symm)]

/-- `search` goes the same way; its test against `curr_idx_` never fails. -/
theorem findParent_search (linked : Linked t.currIdx t) (small : p ≤ t.currIdx) :
    (findParent t key bound x p stack = some .present → ∃ i, t.searchFrom key bound p = some (some i)) ∧
      ∀ x' stack', findParent t key bound x p stack = some (.parent x' stack') →
        t.searchFrom key bound p = some none := by
  induction bound generalizing x p stack with
  | zero =>
    constructor
    · intro fell
      cases fell
    · intro x' stack' fell
      cases fell
  | succ bound ih =>
    by_cases zero : p = 0
    · subst zero
      rw [findParent_nil, searchFrom_nil]
      constructor
      · intro fell
        cases fell
      · intro x' stack' fell
        rfl
    · by_cases same : (t.root p).key = key
      · rw [findParent_present zero same, searchFrom_present small zero same]
        constructor
        · intro fell
          exact ⟨p, rfl⟩
        · intro x' stack' fell
          cases fell
      · rw [findParent_eq zero same, searchFrom_eq small zero same]
        exact ih (toward_le linked key p)

/-- Two searches that end agree. -/
theorem searchFrom_unique {more : Nat} {r r' : Option Nat} (one : t.searchFrom key bound p = some r)
    (other : t.searchFrom key more p = some r') : r' = r := by
  induction bound generalizing p more with
  | zero => cases one
  | succ bound ih =>
    cases more with
    | zero => cases other
    | succ more =>
      rw [RBTree.searchFrom] at one other
      split at one
      · rename_i inside
        rw [if_pos inside] at other
        split at one
        · rename_i less
          rw [if_pos less] at other
          exact ih one other
        · rename_i notLess
          rw [if_neg notLess] at other
          split at one
          · rename_i greater
            rw [if_pos greater] at other
            exact ih one other
          · rename_i notGreater
            rw [if_neg notGreater] at other
            cases one
            cases other
            rfl
      · rename_i outside
        rw [if_neg outside] at other
        cases one
        cases other
        rfl

end Descent

/-- In every state, whatever its links. -/
structure Accounted (t : RBTree) : Prop where
  size : t.size = t.currIdx
  room : t.currIdx + 1 ≤ t.capacity
  linked : Linked t.currIdx t
  fresh : ∀ i, t.currIdx < i → (t.root i).Fresh
  root : t.rootIdx = 0 ∧ t.currIdx = 0 ∨ Live t.currIdx t.rootIdx ∧ t.isRed t.rootIdx = false

/-- The tree with its next slot taken for the entry, not yet linked. -/
def RBTree.place (t : RBTree) (key : Key) (value : Value) : RBTree :=
  t.allocIndex.1.modify t.allocIndex.2 fun n => { n with key, value }

/-- The rest of `insert` after its descent, with a free slot. -/
def RBTree.finishInsert (bound : Nat) (t : RBTree) (key : Key) (value : Value) :
    Descent → Option (RBTree × Bool)
  | .present => some (t, false)
  | .parent x reStack =>
    (connect (t.place key value) x t.allocIndex.2).elim (some ((t.place key value).releaseIndex, false))
      fun linked => (insertFix bound linked t.allocIndex.2 reStack).map fun fixed =>
        ({ fixed with size := fixed.size + 1 }, true)

section Accounts
variable {t u : RBTree} {key : Key} {value : Value} {bound : Nat}

theorem accounted_init {capacity : Nat} (pos : 1 ≤ capacity) (fresh : Nat → Key × Value) :
    Accounted (.init capacity fresh) where
  size := rfl
  room := pos
  linked := by
    intro i s
    by_cases zero : i = 0
    · subst zero
      cases s <;> simp [RBTree.init, RBTree.child, RBTreeNode.child]
    · cases s <;> simp [RBTree.init, RBTree.child, RBTreeNode.child, Function.update_of_ne zero]
  fresh := (represents_init pos fresh).fresh
  root := .inl ⟨rfl, rfl⟩

theorem Accounted.clear (accounted : Accounted t) : Accounted t.clear where
  size := rfl
  room := (Nat.succ_le_succ (Nat.zero_le _)).trans accounted.room
  linked := fun _ s => by cases s <;> exact Nat.le_refl 0
  fresh := fun _ _ => ⟨rfl, rfl, rfl⟩
  root := .inl ⟨rfl, rfl⟩

theorem Accounted.root_le (accounted : Accounted t) : t.rootIdx ≤ t.currIdx := by
  rcases accounted.root with ⟨zero, -⟩ | ⟨live, -⟩
  · rw [zero]
    exact Nat.zero_le _
  · exact live.2

theorem Accounted.isFull_iff (accounted : Accounted t) :
    t.isFull = true ↔ ¬ t.currIdx + 1 < t.capacity := by
  have size := accounted.size
  have room := accounted.room
  rw [RBTree.isFull, decide_eq_true_iff]
  omega

/-- An insert that is neither refused nor the first finds room and a root. -/
theorem Accounted.below_root (accounted : Accounted t) (notFull : t.isFull = false)
    (notFirst : ¬ (t.size = 0 ∧ t.rootIdx = 0)) : t.currIdx + 1 < t.capacity ∧ t.rootIdx ≠ 0 := by
  constructor
  · by_contra full
    rw [accounted.isFull_iff.mpr full] at notFull
    cases notFull
  · intro zero
    rcases accounted.root with ⟨-, empty⟩ | ⟨live, -⟩
    · exact notFirst ⟨accounted.size.trans empty, zero⟩
    · exact live.1 zero

theorem place_other (room : t.currIdx + 1 < t.capacity) {i : Nat} (ne : i ≠ t.currIdx + 1) :
    (t.place key value).root i = t.root i := by
  rw [RBTree.place, allocIndex_of_room room, RBTree.modify_other _ _ _ ne]

theorem Accounted.linked_place (accounted : Accounted t) (room : t.currIdx + 1 < t.capacity) :
    Linked (t.currIdx + 1) (t.place key value) := by
  intro i s
  rw [RBTree.place, allocIndex_of_room room, modify_child _ _ _ _ fun _ => by cases s <;> rfl]
  exact Nat.le_succ_of_le (accounted.linked i s)

/-- With different keys and a parent among the counted nodes, `connect` links. -/
theorem connect_links {p c : Nat} (small : p ≤ t.size) (ne : p ≠ c)
    (differs : (t.root p).key ≠ (t.root c).key) : ∃ s, connect t p c = some (t.link p s c) := by
  rw [RBTree.connect, if_neg (not_or.mpr ⟨Nat.not_lt.mpr small, ne⟩)]
  rcases lt_or_gt_of_ne differs with less | greater
  · exact ⟨.right, by rw [if_neg (lt_asymm less), if_pos less]⟩
  · exact ⟨.left, if_pos greater⟩

/-- The parent that a descent ends at can be connected to the new slot. -/
theorem Accounted.connects (accounted : Accounted t) (room : t.currIdx + 1 < t.capacity)
    (nonzero : t.rootIdx ≠ 0) {x : Nat} {reStack : List Nat}
    (fell : findParent t key bound 0 t.rootIdx [] = some (.parent x reStack)) :
    Live t.currIdx x ∧ reStack ≠ [] ∧ Descends t key t.rootIdx reStack ∧
      ∃ s, connect (t.place key value) x (t.currIdx + 1) =
        some ((t.place key value).link x s (t.currIdx + 1)) := by
  obtain ⟨path, descends, stacked, last⟩ := findParent_descends fell
  rw [List.nil_append] at stacked
  subst stacked
  have small := accounted.root_le
  have all := descends.live accounted.linked small
  have nonempty := descends.nonempty nonzero
  have member : x ∈ reStack := by
    rw [last, List.getLastD_eq_getLast?, List.getLast?_eq_some_getLast nonempty]
    exact List.getLast_mem nonempty
  obtain ⟨live, differs⟩ := all x member
  have ne : x ≠ t.currIdx + 1 := Nat.ne_of_lt (Nat.lt_succ_of_le live.2)
  refine ⟨live, nonempty, descends, connect_links ?_ ne ?_⟩
  · rw [RBTree.place, allocIndex_of_room room]
    exact accounted.size ▸ live.2
  · rw [place_other room ne, RBTree.place, allocIndex_of_room room, RBTree.modify_same]
    exact differs

/-- What an accepted insert leaves. -/
structure Booked (t : RBTree) (key : Key) (value : Value) (u : RBTree) : Prop where
  accounted : Accounted u
  capacity : u.capacity = t.capacity
  size : u.size = t.size + 1
  currIdx : u.currIdx = t.currIdx + 1
  stored : (u.root u.currIdx).key = key ∧ (u.root u.currIdx).value = value

/-- Every rewiring of the placed node that ends with a black root keeps the accounts. -/
theorem Accounted.booked (accounted : Accounted t) (room : t.currIdx + 1 < t.capacity)
    (rewires : Rewires (t.currIdx + 1) (t.place key value) u) (root : Live (t.currIdx + 1) u.rootIdx)
    (black : u.isRed u.rootIdx = false) :
    Booked t key value { u with size := u.size + 1 } := by
  have rewired := rewires.rewired
  have currIdx : u.currIdx = t.currIdx + 1 := by
    rw [rewired.currIdx, RBTree.place, allocIndex_of_room room, RBTree.modify_currIdx]
  have capacity : u.capacity = t.capacity := by
    rw [rewired.capacity, RBTree.place, allocIndex_of_room room, RBTree.modify_capacity]
  have size : u.size = t.size := by
    rw [rewired.size, RBTree.place, allocIndex_of_room room, RBTree.modify_size]
  have stored : (u.root u.currIdx).key = key ∧ (u.root u.currIdx).value = value := by
    have entry := rewired.entry u.currIdx
    rw [RBTree.place, allocIndex_of_room room, currIdx, RBTree.modify_same] at entry
    rw [currIdx]
    exact entry
  refine ⟨?_, capacity, congrArg (· + 1) size, currIdx, stored⟩
  constructor
  · show u.size + 1 = u.currIdx
    rw [size, currIdx, accounted.size]
  · show u.currIdx + 1 ≤ u.capacity
    rw [currIdx, capacity]
    exact room
  · show Linked u.currIdx u
    rw [currIdx]
    exact rewires.linked (accounted.linked_place room)
  · intro i above
    have beyond : t.currIdx + 1 < i := currIdx ▸ above
    have dead : ¬ Live (t.currIdx + 1) i := fun live => absurd live.2 (Nat.not_le.mpr beyond)
    show (u.root i).Fresh
    rw [rewired.dead i dead, place_other room (Nat.ne_of_gt beyond)]
    exact accounted.fresh i (Nat.lt_of_succ_lt beyond)
  · apply Or.inr
    constructor
    · show Live u.currIdx u.rootIdx
      rw [currIdx]
      exact root
    · exact black

/-- The first node of an empty tree, before it is counted. -/
def RBTree.plant (t : RBTree) (key : Key) (value : Value) : RBTree :=
  { (t.place key value).setBlack (t.currIdx + 1) with rootIdx := t.currIdx + 1 }

theorem Accounted.insert_root (accounted : Accounted t) (room : t.currIdx + 1 < t.capacity)
    (zero : t.rootIdx = 0) :
    t.insert bound key value =
      some ({ t.plant key value with size := (t.plant key value).size + 1 }, true) := by
  have notFull : ¬ t.isFull = true := fun full => accounted.isFull_iff.mp full room
  have empty : t.currIdx = 0 := by
    rcases accounted.root with ⟨-, empty⟩ | ⟨live, -⟩
    · exact empty
    · exact absurd zero live.1
  rw [RBTree.insert, if_neg notFull, if_pos ⟨accounted.size.trans empty, zero⟩, RBTree.plant,
    RBTree.place, allocIndex_of_room room]
  simp only [if_neg (Nat.succ_ne_zero t.currIdx)]

theorem Accounted.booked_root (accounted : Accounted t) (room : t.currIdx + 1 < t.capacity) :
    Booked t key value { t.plant key value with size := (t.plant key value).size + 1 } := by
  have slot : Live (t.currIdx + 1) (t.currIdx + 1) := ⟨Nat.succ_ne_zero _, Nat.le_refl _⟩
  have rewires : Rewires (t.currIdx + 1) (t.place key value) (t.plant key value) :=
    (Rewires.refl.setBlack slot).reroot slot
  exact accounted.booked room rewires slot (setBlack_isRed_same _ _)

/-- The fix-up starts on the saved ancestors. -/
theorem Accounted.onStack (accounted : Accounted t) (room : t.currIdx + 1 < t.capacity)
    (nonzero : t.rootIdx ≠ 0) {reStack : List Nat} (descends : Descends t key t.rootIdx reStack)
    {x : Nat} {s : Side} :
    OnStack (t.currIdx + 1) ⟨(t.place key value).link x s (t.currIdx + 1), t.currIdx + 1,
      reStack.length - 1, reStack.getD (reStack.length - 1) 0, reStack⟩ := by
  obtain ⟨root, black⟩ : Live t.currIdx t.rootIdx ∧ t.isRed t.rootIdx = false := by
    rcases accounted.root with ⟨zero, -⟩ | both
    · exact absurd zero nonzero
    · exact both
  have rootIdx : (t.place key value).rootIdx = t.rootIdx := by
    rw [RBTree.place, allocIndex_of_room room, RBTree.modify_rootIdx]
  have grown := root.mono (Nat.le_succ _)
  have live := descends.live accounted.linked root.2
  constructor
  · exact link_child_le _ _ _ _ (accounted.linked_place room) (Nat.le_refl _)
  · show Live (t.currIdx + 1) (t.place key value).rootIdx
    rw [rootIdx]
    exact grown
  · show ((t.place key value).link x s (t.currIdx + 1)).isRed (t.place key value).rootIdx = false
    rw [link_isRed, rootIdx, RBTree.isRed, place_other room (Nat.ne_of_lt (Nat.lt_succ_of_le root.2))]
    exact black
  · exact ⟨Nat.succ_ne_zero _, Nat.le_refl _⟩
  · intro i member
    exact (live i member).1.mono (Nat.le_succ _)
  · exact descends.nodup
  · show reStack.getD 0 0 = (t.place key value).rootIdx
    rw [rootIdx]
    exact descends.head
  · exact Nat.sub_lt (List.length_pos_iff.mpr (descends.nonempty nonzero)) Nat.one_pos
  · rfl

/-- Below the root, an insert is a descent and then what it does at the end of it. -/
theorem Accounted.insert_eq (accounted : Accounted t) (room : t.currIdx + 1 < t.capacity)
    (nonzero : t.rootIdx ≠ 0) :
    t.insert bound key value =
      (findParent t key bound 0 t.rootIdx []).bind (t.finishInsert bound key value) := by
  have notFull : ¬ t.isFull = true := fun full => accounted.isFull_iff.mp full room
  have slot : t.allocIndex.2 = t.currIdx + 1 := by rw [allocIndex_of_room room]
  rw [RBTree.insert, if_neg notFull, if_neg fun both => nonzero both.2]
  cases findParent t key bound 0 t.rootIdx [] with
  | none => rfl
  | some descent =>
    cases descent with
    | present => rfl
    | parent x reStack =>
      simp only [Option.bind_some, RBTree.finishInsert, slot, if_neg (Nat.succ_ne_zero t.currIdx)]
      rw [RBTree.place, slot]
      split
      · rename_i refused
        rw [refused]
        rfl
      · rename_i linked connected
        rw [connected]
        rfl

theorem Accounted.insert_below (accounted : Accounted t) (room : t.currIdx + 1 < t.capacity)
    (nonzero : t.rootIdx ≠ 0) {ok : Bool} (ran : t.insert bound key value = some (u, ok)) :
    (ok = false ∧ u = t ∧ ∃ i, t.search bound key = some (some i)) ∨
      (ok = true ∧ t.search bound key = some none ∧ Booked t key value u) := by
  have small := accounted.root_le
  have searches := @findParent_search t key t.rootIdx 0 bound [] accounted.linked small
  rw [accounted.insert_eq room nonzero] at ran
  obtain ⟨descent, fell, finished⟩ := Option.bind_eq_some_iff.mp ran
  cases descent with
  | present =>
    cases finished
    exact .inl ⟨rfl, rfl, searches.1 fell⟩
  | parent x reStack =>
    obtain ⟨live, -, descends, s, connected⟩ :=
      @Accounted.connects t key value bound accounted room nonzero x reStack fell
    have slot : t.allocIndex.2 = t.currIdx + 1 := by rw [allocIndex_of_room room]
    rw [RBTree.finishInsert, slot, connected, Option.elim_some] at finished
    obtain ⟨fixed, climbed, same⟩ := Option.map_eq_some_iff.mp finished
    cases same
    have on := @Accounted.onStack t key value accounted room nonzero reStack descends x s
    obtain ⟨rewires, black⟩ := on.insertFix climbed
    have whole : Rewires (t.currIdx + 1) (t.place key value) fixed :=
      (Rewires.refl.link s (live.mono (Nat.le_succ _)) (Nat.le_refl _)).trans rewires
    exact .inr ⟨rfl, searches.2 _ _ fell, accounted.booked room whole (rewires.rootIdx on.root) black⟩

/-- Every insert that returns. -/
theorem Accounted.insert (accounted : Accounted t) {ok : Bool}
    (ran : t.insert bound key value = some (u, ok)) :
    (ok = false ∧ u = t ∧ (t.size = t.capacity - 1 ∨ ∃ i, t.search bound key = some (some i))) ∨
      (ok = true ∧ t.currIdx + 1 < t.capacity ∧ (∃ more, t.search more key = some none) ∧
        Booked t key value u) := by
  by_cases room : t.currIdx + 1 < t.capacity
  · by_cases zero : t.rootIdx = 0
    · rw [accounted.insert_root room zero] at ran
      cases ran
      refine .inr ⟨rfl, room, ⟨1, ?_⟩, accounted.booked_root room⟩
      rw [RBTree.search, zero, searchFrom_nil]
    · rcases accounted.insert_below room zero ran with ⟨refused, same, found⟩ | ⟨ok, absent, books⟩
      · exact .inl ⟨refused, same, .inr found⟩
      · exact .inr ⟨ok, room, ⟨bound, absent⟩, books⟩
  · have full : t.isFull = true := accounted.isFull_iff.mpr room
    rw [RBTree.insert, if_pos full] at ran
    cases ran
    exact .inl ⟨rfl, rfl, .inl (of_decide_eq_true full)⟩

theorem Accounted.mutate {mutation : Mutation} (accounted : Accounted t)
    (stepped : mutate bound t mutation = some u) : Accounted u ∧ u.capacity = t.capacity := by
  cases mutation with
  | clear =>
    cases stepped
    exact ⟨accounted.clear, rfl⟩
  | insert key value =>
    obtain ⟨⟨v, ok⟩, ran, same⟩ := Option.map_eq_some_iff.mp stepped
    cases same
    rcases accounted.insert ran with ⟨-, rfl, -⟩ | ⟨-, -, -, books⟩
    · exact ⟨accounted, rfl⟩
    · exact ⟨books.accounted, books.capacity⟩

theorem run_accounted {capacity : Nat} (pos : 1 ≤ capacity) {fresh : Nat → Key × Value}
    {mutations : List Mutation}
    (reached : Runs.run (mutate bound) (.init capacity fresh) mutations = some t) :
    Accounted t ∧ t.capacity = capacity := by
  have preserved : ∀ t mutation u, Accounted t ∧ t.capacity = capacity →
      mutate bound t mutation = some u → Accounted u ∧ u.capacity = capacity := by
    rintro t mutation u ⟨accounted, same⟩ stepped
    obtain ⟨next, kept⟩ := accounted.mutate stepped
    exact ⟨next, kept.trans same⟩
  exact (Runs.invariant preserved ⟨accounted_init pos fresh, rfl⟩ mutations).last reached

end Accounts

/-- What a call of `insert` that returned `ok` and left `u` has done. -/
structure AllOrNothing (t : RBTree) (key : Key) (value : Value) (u : RBTree) (ok : Bool) : Prop where
  refused : ok = false ↔ t.size = t.capacity - 1 ∨ ∃ bound i, t.search bound key = some (some i)
  unchanged : ok = false → u = t
  slot : ok = true → (t.root (t.currIdx + 1)).Fresh ∧ (u.root (t.currIdx + 1)).key = key ∧
    (u.root (t.currIdx + 1)).value = value
  size : ok = true → u.size = t.size + 1
  currIdx : ok = true → u.currIdx = t.currIdx + 1

/-- In every state that inserts and `clear` lead to, `size_` and `curr_idx_` agree and
no link leads beyond them, every insert that returns is done entirely or not at all,
and a new node is always connected. -/
theorem insert_all_or_nothing (capacity : Nat) (pos : 1 ≤ capacity) (fresh : Nat → Key × Value)
    (bound : Nat) (mutations : List Mutation) (t : RBTree)
    (reached : Runs.run (mutate bound) (.init capacity fresh) mutations = some t) :
    (t.size = t.currIdx ∧ t.currIdx ≤ t.capacity - 1 ∧ ∀ i s, t.child i s ≤ t.currIdx) ∧
      (∀ bound key value u ok, t.insert bound key value = some (u, ok) →
        AllOrNothing t key value u ok) ∧
      ∀ bound key value x reStack, t.isFull = false → ¬ (t.size = 0 ∧ t.rootIdx = 0) →
        findParent t key bound 0 t.rootIdx [] = some (.parent x reStack) →
        t.allocIndex.2 ≠ 0 ∧ (connect (t.place key value) x t.allocIndex.2).isSome = true := by
  have accounted := (run_accounted pos reached).1
  have room := accounted.room
  refine ⟨⟨accounted.size, by omega, accounted.linked⟩, ?_, ?_⟩
  · intro bound key value u ok ran
    rcases accounted.insert ran with ⟨rfl, same, why⟩ | ⟨rfl, room, ⟨more, absent⟩, books⟩
    · constructor
      · simp only [true_iff]
        rcases why with full | ⟨i, found⟩
        · exact .inl full
        · exact .inr ⟨bound, i, found⟩
      · exact fun _ => same
      all_goals
        intro wrong
        cases wrong
    · constructor
      · constructor
        · intro wrong
          cases wrong
        · rintro (full | ⟨bound', i, found⟩)
          · have size := accounted.size
            omega
          · cases searchFrom_unique absent found
      · intro wrong
        cases wrong
      · intro _
        exact ⟨accounted.fresh _ (Nat.lt_succ_self _), books.currIdx ▸ books.stored⟩
      · exact fun _ => books.size
      · exact fun _ => books.currIdx
  · intro bound key value x reStack notFull notFirst fell
    obtain ⟨room, nonzero⟩ := accounted.below_root notFull notFirst
    obtain ⟨-, -, -, s, connected⟩ :=
      @Accounted.connects t key value bound accounted room nonzero x reStack fell
    rw [allocIndex_of_room room]
    exact ⟨Nat.succ_ne_zero _, by rw [connected]; rfl⟩

/-- After a crooked turn has lost a node, `clear` and two more inserts. -/
theorem insert_all_or_nothing_after_clear :
    ∃ t, Runs.run (mutate 8) (.init 4 fun _ => (0, 0))
        [.insert 3 30, .insert 1 10, .insert 2 20, .clear, .insert 5 50] = some t ∧
      ∀ bound value u ok, t.insert bound 7 value = some (u, ok) → AllOrNothing t 7 value u ok := by
  have ends : (Runs.run (mutate 8) (.init 4 fun _ => (0, 0))
      [.insert 3 30, .insert 1 10, .insert 2 20, .clear, .insert 5 50]).isSome = true := by decide
  obtain ⟨t, reached⟩ := Option.isSome_iff_exists.mp ends
  refine ⟨t, reached, fun bound value u ok ran => ?_⟩
  exact (insert_all_or_nothing 4 (by decide) _ 8 _ t reached).2.1 bound 7 value u ok ran

end Sometest.RbTreeArray
