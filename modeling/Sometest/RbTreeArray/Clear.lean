import Sometest.RbTreeArray.Accounting

/-! A cleared tree against a fresh one. The two arrays differ in the colour of the nil
node and in the keys and values of slots that are not allocated; `insert`, `search` and
`mPrint` read neither. -/
open RBTree (RBColor)

namespace Sometest.RbTreeArray
open Zipper (Side)
open Sometest.RbTreeArray.RBTree (FixState Descent recolor rotateInner rotateLinks rotateOuter
  fixBranch fixBody fixLoop insertFix findParent connect)

/-- The calls that are made on both trees. -/
inductive Query where
  | insert (key : Key) (value : Value)
  | search (key : Key)
  | mPrint

/-- What a caller sees: of the node that `search` points to, its key and its value. -/
inductive Answer where
  | inserted (ok : Bool)
  | found (entry : Option (Key × Value))
  | printed (values : List Value)

namespace RBTree

def ask (bound : Nat) (t : RBTree) : Query → Option (RBTree × Answer)
  | .insert key value => (t.insert bound key value).map fun r => (r.1, .inserted r.2)
  | .search key => (t.search bound key).map fun found =>
      (t, .found (found.map fun i => ((t.root i).key, (t.root i).value)))
  | .mPrint => (t.mPrint bound).map fun values => (t, .printed values)

/-- The answers to the calls in order; the last one is `none` when that call does not
end within the bound. -/
def answers (bound : Nat) (t : RBTree) : List Query → List (Option Answer)
  | [] => []
  | query :: rest =>
    match t.ask bound query with
    | none => [none]
    | some (next, answer) => some answer :: answers bound next rest

end RBTree

structure Alike (n : Nat) (t u : RBTree) : Prop where
  capacity : u.capacity = t.capacity
  size : u.size = t.size
  currIdx : u.currIdx = t.currIdx
  rootIdx : u.rootIdx = t.rootIdx
  nodes : ∀ i, Live n i → u.root i = t.root i

section Alike
variable {n : Nat} {t u : RBTree} {i : Nat}

theorem Alike.child (alike : Alike n t u) (live : Live n i) (s : Side) : u.child i s = t.child i s := by
  rw [RBTree.child, alike.nodes i live, RBTree.child]

theorem Alike.isRed (alike : Alike n t u) (live : Live n i) : u.isRed i = t.isRed i := by
  rw [RBTree.isRed, alike.nodes i live, RBTree.isRed]

/-- The same write to both, whatever the slot. -/
theorem Alike.modify (alike : Alike n t u) (i : Nat) (f : RBTreeNode → RBTreeNode) :
    Alike n (t.modify i f) (u.modify i f) where
  capacity := alike.capacity
  size := alike.size
  currIdx := alike.currIdx
  rootIdx := alike.rootIdx
  nodes := by
    intro j live
    by_cases same : j = i
    · subst same
      rw [RBTree.modify_same, RBTree.modify_same, alike.nodes j live]
    · rw [RBTree.modify_other _ _ _ same, RBTree.modify_other _ _ _ same, alike.nodes j live]

theorem Alike.setRed (alike : Alike n t u) (i : Nat) : Alike n (t.setRed i) (u.setRed i) :=
  alike.modify i _

theorem Alike.setBlack (alike : Alike n t u) (i : Nat) : Alike n (t.setBlack i) (u.setBlack i) :=
  alike.modify i _

theorem Alike.link (alike : Alike n t u) (i : Nat) (s : Side) (c : Nat) :
    Alike n (t.link i s c) (u.link i s c) := alike.modify i _

theorem Alike.reroot (alike : Alike n t u) (i : Nat) :
    Alike n { t with rootIdx := i } { u with rootIdx := i } :=
  ⟨alike.capacity, alike.size, alike.currIdx, rfl, alike.nodes⟩

end Alike

/-- The second state is the first one with a tree that is alike. -/
def Paired (n : Nat) (st st' : FixState) : Prop :=
  ∃ u, Alike n st.tree u ∧ st' = { st with tree := u }

section Lockstep
variable {n : Nat} {st st' : FixState} {u : RBTree}

theorem Paired.recolor (paired : Paired n st st') (p g uncle : Nat) :
    Paired n (recolor st p g uncle).1 (recolor st' p g uncle).1 ∧
      (recolor st' p g uncle).2 = (recolor st p g uncle).2 := by
  obtain ⟨u, alike, rfl⟩ := paired
  have coloured := ((alike.setBlack uncle).setBlack p).setRed g
  simp only [RBTree.recolor]
  split
  · exact ⟨⟨_, coloured, rfl⟩, rfl⟩
  · exact ⟨⟨_, coloured, rfl⟩, rfl⟩

theorem Paired.rotateInner (paired : Paired n st st') (idxBk : Live n st.idxBk) (s : Side)
    (p g : Nat) : Paired n (rotateInner s st p g) (rotateInner s st' p g) := by
  obtain ⟨u, alike, rfl⟩ := paired
  have lifted := alike.link g s st.idxBk
  simp only [RBTree.rotateInner, lifted.child idxBk]
  exact ⟨_, (lifted.link p s.other _).link st.idxBk s p, rfl⟩

theorem Alike.rotateLinks {t : RBTree} {p : Nat} (alike : Alike n t u) (parent : Live n p) (g : Nat)
    (s : Side) : Alike n (rotateLinks s t p g) (rotateLinks s u p g) := by
  have coloured := (alike.setRed g).setBlack p
  simp only [RBTree.rotateLinks, coloured.child parent]
  exact (coloured.link g s _).link p s.other g

theorem Paired.rotateOuter (paired : Paired n st st') (parent : Live n st.parent) (g : Nat)
    (s : Side) : Paired n (rotateOuter s st g) (rotateOuter s st' g) := by
  obtain ⟨u, alike, rfl⟩ := paired
  have links := alike.rotateLinks parent g s
  simp only [RBTree.rotateOuter]
  split
  · exact ⟨_, links.reroot st.parent, rfl⟩
  · exact ⟨_, links.link _ s st.parent, rfl⟩

theorem Paired.fixBranch (paired : Paired n st st') (on : OnStack n st) (s : Side) :
    Paired n (fixBranch s st st.parent (st.reStack.getD (st.top - 1) 0)).1
        (fixBranch s st' st.parent (st.reStack.getD (st.top - 1) 0)).1 ∧
      (fixBranch s st' st.parent (st.reStack.getD (st.top - 1) 0)).2 =
        (fixBranch s st st.parent (st.reStack.getD (st.top - 1) 0)).2 := by
  obtain ⟨u, alike, rfl⟩ := paired
  have parent : Live n st.parent := on.parent ▸ on.ancestor 0
  have recolored := fun uncle => Paired.recolor ⟨u, alike, rfl⟩ st.parent
    (st.reStack.getD (st.top - 1) 0) uncle
  have uncle := alike.child (on.ancestor 1) s.other
  have near := alike.child parent s.other
  by_cases red : st.tree.child (st.reStack.getD (st.top - 1) 0) s.other ≠ 0 ∧
      st.tree.isRed (st.tree.child (st.reStack.getD (st.top - 1) 0) s.other) = true
  · have live : Live n (st.tree.child (st.reStack.getD (st.top - 1) 0) s.other) :=
      ⟨red.1, on.linked _ _⟩
    simp only [RBTree.fixBranch, uncle, alike.isRed live, if_pos red]
    exact recolored _
  · have black : ¬ (st.tree.child (st.reStack.getD (st.top - 1) 0) s.other ≠ 0 ∧
        u.isRed (st.tree.child (st.reStack.getD (st.top - 1) 0) s.other) = true) := by
      rintro ⟨nonzero, isRed⟩
      rw [alike.isRed ⟨nonzero, on.linked _ _⟩] at isRed
      exact red ⟨nonzero, isRed⟩
    simp only [RBTree.fixBranch, uncle, near, if_neg red, if_neg black]
    split
    · have inner := Paired.rotateInner ⟨u, alike, rfl⟩ on.idxBk s st.parent
        (st.reStack.getD (st.top - 1) 0)
      have kept : Live n (RBTree.rotateInner s st st.parent (st.reStack.getD (st.top - 1) 0)).parent := by
        rw [(rotateInner_frame on s _).1]
        exact parent
      exact ⟨inner.rotateOuter kept _ s, trivial⟩
    · exact ⟨Paired.rotateOuter ⟨u, alike, rfl⟩ parent _ s, trivial⟩

theorem Paired.fixBody (paired : Paired n st st') (on : OnStack n st) :
    Paired n (fixBody st).1 (fixBody st').1 ∧ (fixBody st').2 = (fixBody st).2 := by
  have branch := paired.fixBranch on
  obtain ⟨u, alike, rfl⟩ := paired
  simp only [RBTree.fixBody, ← on.parent, alike.child (on.ancestor 1)]
  split
  · exact branch .left
  · exact branch .right

theorem Paired.fixLoop {bound : Nat} (paired : Paired n st st') (on : OnStack n st) :
    Option.Rel (Paired n) (fixLoop bound st) (fixLoop bound st') := by
  induction bound generalizing st st' with
  | zero => exact .none
  | succ bound ih =>
    have round := on.fixBody
    have next := paired.fixBody on
    have colour : st'.tree.isRed st'.parent = st.tree.isRed st.parent := by
      obtain ⟨u, alike, rfl⟩ := paired
      exact alike.isRed (on.parent ▸ on.ancestor 0)
    rw [RBTree.fixLoop, RBTree.fixLoop, colour]
    cases st.tree.isRed st.parent with
    | false => exact .some paired
    | true =>
      simp only [if_true]
      rcases body : RBTree.fixBody st with ⟨after, stop⟩
      rcases body' : RBTree.fixBody st' with ⟨after', stop'⟩
      rw [body] at round
      rw [body, body'] at next
      have pairedAfter : Paired n after after' := next.1
      obtain rfl : stop' = stop := next.2
      cases stop' with
      | true => exact .some pairedAfter
      | false =>
        rcases round.goesOn with stop | ⟨live, black⟩ | ⟨onAfter, -⟩
        · cases stop
        · have black' : after'.tree.isRed after'.parent = false := by
            obtain ⟨u, alike, rfl⟩ := pairedAfter
            exact (alike.isRed live).trans black
          cases bound with
          | zero => exact .none
          | succ bound =>
            show Option.Rel (Paired n) (fixLoop (bound + 1) after) (fixLoop (bound + 1) after')
            rw [RBTree.fixLoop, RBTree.fixLoop, black, black']
            exact .some pairedAfter
        · exact ih pairedAfter onAfter

theorem Alike.insertFix {t : RBTree} {idx bound : Nat} {reStack : List Nat} (alike : Alike n t u)
    (on : OnStack n ⟨t, idx, reStack.length - 1, reStack.getD (reStack.length - 1) 0, reStack⟩) :
    Option.Rel (Alike n) (insertFix bound t idx reStack) (insertFix bound u idx reStack) := by
  rw [RBTree.insertFix, RBTree.insertFix]
  split
  · exact .some alike
  · have looped : Option.Rel (Paired n)
        (fixLoop bound ⟨t, idx, reStack.length - 1, reStack.getD (reStack.length - 1) 0, reStack⟩)
        (fixLoop bound ⟨u, idx, reStack.length - 1, reStack.getD (reStack.length - 1) 0, reStack⟩) :=
      Paired.fixLoop ⟨u, alike, rfl⟩ on
    generalize fixLoop bound _ = out at looped ⊢
    generalize fixLoop bound _ = out' at looped ⊢
    cases looped with
    | none => exact .none
    | some paired =>
      obtain ⟨v, alike, rfl⟩ := paired
      rw [Option.map_some, Option.map_some, alike.rootIdx]
      exact .some (alike.setBlack _)

end Lockstep

/-- Two trees with the same accounts that agree on the live slots. -/
structure Twins (t u : RBTree) : Prop where
  left : Accounted t
  right : Accounted u
  alike : Alike t.currIdx t u

section Twins
variable {t u : RBTree} {key : Key} {value : Value} {bound : Nat}

theorem Twins.room (twins : Twins t u) (room : t.currIdx + 1 < t.capacity) :
    u.currIdx + 1 < u.capacity := by
  rw [twins.alike.currIdx, twins.alike.capacity]
  exact room

theorem Twins.findParent (twins : Twins t u) {p : Nat} (small : p ≤ t.currIdx) (x : Nat)
    (reStack : List Nat) :
    findParent u key bound x p reStack = findParent t key bound x p reStack := by
  induction bound generalizing p x reStack with
  | zero => rfl
  | succ bound ih =>
    rw [RBTree.findParent, RBTree.findParent]
    split
    · rfl
    · rename_i nonzero
      rw [twins.alike.nodes p ⟨nonzero, small⟩]
      have right : (t.root p).right ≤ t.currIdx := twins.left.linked p .right
      have left : (t.root p).left ≤ t.currIdx := twins.left.linked p .left
      rw [ih right, ih left]

theorem Twins.searchFrom (twins : Twins t u) {p : Nat} (small : p ≤ t.currIdx) :
    u.searchFrom key bound p = t.searchFrom key bound p := by
  induction bound generalizing p with
  | zero => rfl
  | succ bound ih =>
    rw [RBTree.searchFrom, RBTree.searchFrom, twins.alike.currIdx]
    split
    · rename_i inside
      rw [twins.alike.nodes p ⟨inside.2.symm, small⟩]
      have right : (t.root p).right ≤ t.currIdx := twins.left.linked p .right
      have left : (t.root p).left ≤ t.currIdx := twins.left.linked p .left
      rw [ih right, ih left]
    · rfl

/-- The node that a search points to is live. -/
theorem searchFrom_live {p i : Nat} (found : t.searchFrom key bound p = some (some i)) :
    Live t.currIdx i := by
  induction bound generalizing p with
  | zero => cases found
  | succ bound ih =>
    rw [RBTree.searchFrom] at found
    split at found
    · rename_i inside
      split at found
      · exact ih found
      · split at found
        · exact ih found
        · cases found
          exact ⟨inside.2.symm, inside.1⟩
    · cases found

theorem Twins.mPrintImpl (twins : Twins t u) {p : Nat} (small : p ≤ t.currIdx) :
    u.mPrintImpl bound p = t.mPrintImpl bound p := by
  induction bound generalizing p with
  | zero => rfl
  | succ bound ih =>
    rw [RBTree.mPrintImpl, RBTree.mPrintImpl]
    split
    · rfl
    · rename_i nonzero
      have right : (t.root p).right ≤ t.currIdx := twins.left.linked p .right
      have left : (t.root p).left ≤ t.currIdx := twins.left.linked p .left
      rw [twins.alike.nodes p ⟨nonzero, small⟩, ih right, ih left]

/-- Writing the entry makes the new slots equal: both were red with nil links. -/
theorem Twins.place (twins : Twins t u) (room : t.currIdx + 1 < t.capacity) :
    Alike (t.currIdx + 1) (t.place key value) (u.place key value) := by
  have room' := twins.room room
  have alike := twins.alike
  rw [RBTree.place, RBTree.place, allocIndex_of_room room, allocIndex_of_room room', alike.currIdx]
  refine ⟨alike.capacity, alike.size, rfl, alike.rootIdx, fun i live => ?_⟩
  by_cases new : i = t.currIdx + 1
  · subst new
    have fresh := twins.left.fresh (t.currIdx + 1) (Nat.lt_succ_self _)
    have fresh' := twins.right.fresh (t.currIdx + 1) (by rw [alike.currIdx]; exact Nat.lt_succ_self _)
    rw [RBTree.modify_same, RBTree.modify_same, RBTreeNode.mk.injEq]
    refine ⟨fresh'.1.trans fresh.1.symm, fresh'.2.1.trans fresh.2.1.symm, ?_, rfl, rfl⟩
    exact fresh'.2.2.trans fresh.2.2.symm
  · rw [RBTree.modify_other _ _ _ new, RBTree.modify_other _ _ _ new]
    exact alike.nodes i ⟨live.1, by have := live.2; omega⟩

theorem Alike.connect {n x c : Nat} (alike : Alike n t u) (parent : Live n x) (child : Live n c) :
    Option.Rel (Alike n) (connect t x c) (connect u x c) := by
  rw [RBTree.connect, RBTree.connect, alike.size, alike.nodes x parent, alike.nodes c child]
  split
  · exact .none
  · split
    · exact .some (alike.link x .left c)
    · split
      · exact .some (alike.link x .right c)
      · exact .none

theorem Alike.count {n : Nat} (alike : Alike n t u) :
    Alike n { t with size := t.size + 1 } { u with size := u.size + 1 } :=
  ⟨alike.capacity, congrArg (· + 1) alike.size, alike.currIdx, alike.rootIdx, alike.nodes⟩

/-- The same result, and after an accepted insert trees that are alike on one slot more. -/
def SameInsert (n : Nat) (r r' : RBTree × Bool) : Prop :=
  r'.2 = r.2 ∧ (r.2 = true → Alike (n + 1) r.1 r'.1)

theorem Twins.insert_below (twins : Twins t u) (room : t.currIdx + 1 < t.capacity)
    (nonzero : t.rootIdx ≠ 0) :
    Option.Rel (SameInsert t.currIdx) (t.insert bound key value) (u.insert bound key value) := by
  have alike := twins.alike
  have room' := twins.room room
  have nonzero' : u.rootIdx ≠ 0 := by
    rw [alike.rootIdx]
    exact nonzero
  rw [twins.left.insert_eq room nonzero, twins.right.insert_eq room' nonzero', alike.rootIdx,
    twins.findParent twins.left.root_le]
  cases fell : t.findParent key bound 0 t.rootIdx [] with
  | none => exact .none
  | some descent =>
    cases descent with
    | present => exact .some ⟨rfl, fun wrong => by cases wrong⟩
    | parent x reStack =>
      obtain ⟨live, -, descends, s, connected⟩ :=
        @Accounted.connects t key value bound twins.left room nonzero x reStack fell
      have slot : Live (t.currIdx + 1) (t.currIdx + 1) := ⟨Nat.succ_ne_zero _, Nat.le_refl _⟩
      have placed : Alike (t.currIdx + 1) (t.place key value) (u.place key value) := twins.place room
      have connects := placed.connect (live.mono (Nat.le_succ _)) slot
      rw [connected] at connects
      simp only [Option.bind_some, RBTree.finishInsert, allocIndex_of_room room,
        allocIndex_of_room room', alike.currIdx, connected]
      generalize connect (u.place key value) x (t.currIdx + 1) = connected' at connects ⊢
      cases connects with
      | some linked =>
        have on := @Accounted.onStack t key value twins.left room nonzero reStack descends x s
        have fixed := @Alike.insertFix _ _ _ _ bound _ linked on
        simp only [Option.elim_some]
        generalize insertFix bound _ _ _ = out at fixed ⊢
        generalize insertFix bound _ _ _ = out' at fixed ⊢
        cases fixed with
        | none => exact .none
        | some after => exact .some ⟨rfl, fun _ => after.count⟩

theorem Twins.insert (twins : Twins t u) :
    Option.Rel (SameInsert t.currIdx) (t.insert bound key value) (u.insert bound key value) := by
  have alike := twins.alike
  by_cases room : t.currIdx + 1 < t.capacity
  · by_cases zero : t.rootIdx = 0
    · have room' := twins.room room
      have planted : Alike (t.currIdx + 1) (t.plant key value) (u.plant key value) := by
        rw [RBTree.plant, RBTree.plant, alike.currIdx]
        exact ((twins.place room).setBlack _).reroot _
      rw [twins.left.insert_root room zero, twins.right.insert_root room' (alike.rootIdx.trans zero)]
      exact .some ⟨rfl, fun _ => planted.count⟩
    · exact twins.insert_below room zero
  · have full : t.isFull = true := twins.left.isFull_iff.mpr room
    have full' : u.isFull = true := by
      rw [twins.right.isFull_iff, alike.currIdx, alike.capacity]
      exact room
    rw [RBTree.insert, RBTree.insert, if_pos full, if_pos full']
    exact .some ⟨rfl, fun wrong => by cases wrong⟩

/-- The trees stay twins. -/
theorem Twins.inserted (twins : Twins t u) {r r' : RBTree × Bool}
    (ran : t.insert bound key value = some r) (ran' : u.insert bound key value = some r')
    (same : SameInsert t.currIdx r r') : Twins r.1 r'.1 := by
  obtain ⟨v, ok⟩ := r
  obtain ⟨v', ok'⟩ := r'
  obtain ⟨rfl, accepted⟩ := same
  rcases twins.left.insert ran with ⟨rfl, rfl, -⟩ | ⟨rfl, -, -, books⟩
  · rcases twins.right.insert ran' with ⟨-, rfl, -⟩ | ⟨wrong, -⟩
    · exact twins
    · cases wrong
  · rcases twins.right.insert ran' with ⟨wrong, -⟩ | ⟨-, -, -, books'⟩
    · cases wrong
    · exact ⟨books.accounted, books'.accounted, books.currIdx ▸ accepted rfl⟩

/-- One call on both trees. -/
theorem Twins.ask (twins : Twins t u) (query : Query) :
    Option.Rel (fun (r r' : RBTree × Answer) => r'.2 = r.2 ∧ Twins r.1 r'.1) (t.ask bound query)
      (u.ask bound query) := by
  cases query with
  | insert key value =>
    have outcomes := @Twins.insert t u key value bound twins
    have next := @Twins.inserted t u key value bound twins
    simp only [RBTree.ask]
    generalize t.insert bound key value = r at outcomes next ⊢
    generalize u.insert bound key value = r' at outcomes next ⊢
    cases outcomes with
    | none => exact .none
    | some same => exact .some ⟨congrArg Answer.inserted same.1, next rfl rfl same⟩
  | search key =>
    have found := @Twins.searchFrom t u key bound twins t.rootIdx twins.left.root_le
    simp only [RBTree.ask, RBTree.search, twins.alike.rootIdx, found]
    cases searched : t.searchFrom key bound t.rootIdx with
    | none => exact .none
    | some result =>
      refine .some ⟨?_, twins⟩
      cases result with
      | none => rfl
      | some i => simp only [Option.map_some, twins.alike.nodes i (searchFrom_live searched)]
  | mPrint =>
    have printed := @Twins.mPrintImpl t u bound twins t.rootIdx twins.left.root_le
    simp only [RBTree.ask, RBTree.mPrint, twins.alike.rootIdx, printed]
    cases t.mPrintImpl bound t.rootIdx with
    | none => exact .none
    | some values => exact .some ⟨rfl, twins⟩

theorem Twins.answers (twins : Twins t u) (queries : List Query) :
    u.answers bound queries = t.answers bound queries := by
  induction queries generalizing t u with
  | nil => rfl
  | cons query rest ih =>
    have asked := @Twins.ask t u bound twins query
    rw [RBTree.answers, RBTree.answers]
    generalize t.ask bound query = r at asked ⊢
    generalize u.ask bound query = r' at asked ⊢
    cases asked with
    | none => rfl
    | @some r r' same =>
      obtain ⟨next, answer⟩ := r
      obtain ⟨next', answer'⟩ := r'
      obtain ⟨rfl, twins'⟩ := same
      simp only [ih twins']

end Twins

/-- No call tells a cleared tree from a fresh one, also not by failing to end. -/
theorem clear_like_init (capacity : Nat) (pos : 1 ≤ capacity) (fresh fresh' : Nat → Key × Value)
    (bound : Nat) (mutations : List Mutation) (t : RBTree)
    (reached : Runs.run (mutate bound) (.init capacity fresh) mutations = some t) :
    ∀ bound queries, t.clear.answers bound queries =
      (RBTree.init capacity fresh').answers bound queries := by
  obtain ⟨accounted, kept⟩ := run_accounted pos reached
  have twins : Twins (.init capacity fresh') t.clear := by
    refine ⟨accounted_init pos fresh', accounted.clear, ⟨?_, rfl, rfl, rfl, ?_⟩⟩
    · exact kept
    · intro i live
      exact absurd live.2 (Nat.not_le.mpr (Nat.pos_of_ne_zero live.1))
  exact fun bound queries => twins.answers queries

/-- After three inserts of which the last one loses a node. -/
theorem clear_like_init_crooked :
    ∃ t, Runs.run (mutate 8) (.init 4 fun _ => (0, 0)) [.insert 3 30, .insert 1 10, .insert 2 20] = some t ∧
      t.clear.answers 8 [.insert 5 50, .search 5, .search 3, .mPrint] =
        (RBTree.init 4 fun _ => (9, 9)).answers 8 [.insert 5 50, .search 5, .search 3, .mPrint] := by
  have ends : (Runs.run (mutate 8) (.init 4 fun _ => (0, 0))
      [.insert 3 30, .insert 1 10, .insert 2 20]).isSome = true := by decide
  obtain ⟨t, reached⟩ := Option.isSome_iff_exists.mp ends
  exact ⟨t, reached, clear_like_init 4 (by decide) _ _ 8 _ t reached 8 _⟩

end Sometest.RbTreeArray
