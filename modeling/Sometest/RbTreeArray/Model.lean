import Sometest.Lib.Zipper

/-! The array red-black tree of rb_tree_array.h and rb_tree_array.cpp. Pointers
into the node array are its indices, index 0 is the shared leaf `Nil_idx`. Every
loop takes a bound on its iterations and gives `none` when the bound runs out,
so a result for some bound is a result of the C++ loop. -/
open RBTree (RBColor)

namespace Sometest.RbTreeArray
open Zipper (Side)

abbrev Key := UInt64
abbrev Value := UInt32

instance : LinearOrder Key where
  le_refl := UInt64.le_refl
  le_trans _ _ _ := UInt64.le_trans
  lt_iff_le_not_ge _ _ := by grind
  le_antisymm _ _ := UInt64.le_antisymm
  le_total := UInt64.le_total
  toDecidableLE := inferInstance
  toDecidableLT := inferInstance

structure RBTreeNode where
  color : RBColor
  left : Nat
  right : Nat
  key : Key
  value : Value

def RBTreeNode.isRed (n : RBTreeNode) : Bool := n.color = .red

/-- `left_` or `right_`. -/
def RBTreeNode.child (n : RBTreeNode) : Side → Nat
  | .left => n.left
  | .right => n.right

def RBTreeNode.setChild (n : RBTreeNode) : Side → Nat → RBTreeNode
  | .left, i => { n with left := i }
  | .right, i => { n with right := i }

/-- The node array is a function of the index; `capacity` is its length. -/
structure RBTree where
  capacity : Nat
  size : Nat
  currIdx : Nat
  rootIdx : Nat
  root : Nat → RBTreeNode

namespace RBTree

def modify (t : RBTree) (i : Nat) (f : RBTreeNode → RBTreeNode) : RBTree :=
  { t with root := Function.update t.root i (f (t.root i)) }

def setRed (t : RBTree) (i : Nat) : RBTree := t.modify i fun n => { n with color := .red }

def setBlack (t : RBTree) (i : Nat) : RBTree := t.modify i fun n => { n with color := .black }

/-- The assignment `root_[i].left_ = c` or `root_[i].right_ = c`. -/
def link (t : RBTree) (i : Nat) (s : Side) (c : Nat) : RBTree := t.modify i fun n => n.setChild s c

section Modify
variable (t : RBTree) (i : Nat) (f : RBTreeNode → RBTreeNode)

@[simp] theorem modify_same : (t.modify i f).root i = f (t.root i) := by simp [modify]

theorem modify_other {j : Nat} (ne : j ≠ i) : (t.modify i f).root j = t.root j := by
  simp [modify, ne]

@[simp] theorem modify_rootIdx : (t.modify i f).rootIdx = t.rootIdx := rfl

@[simp] theorem modify_currIdx : (t.modify i f).currIdx = t.currIdx := rfl

@[simp] theorem modify_size : (t.modify i f).size = t.size := rfl

@[simp] theorem modify_capacity : (t.modify i f).capacity = t.capacity := rfl

end Modify

def isRed (t : RBTree) (i : Nat) : Bool := (t.root i).isRed

def child (t : RBTree) (i : Nat) (s : Side) : Nat := (t.root i).child s

/-- `fresh` is what the uninitialised key and value of each node hold. -/
def init (capacity : Nat) (fresh : Nat → Key × Value) : RBTree :=
  { capacity, size := 0, currIdx := 0, rootIdx := 0,
    root := Function.update (fun i => ⟨.red, 0, 0, (fresh i).1, (fresh i).2⟩) 0
      ⟨.black, 0, 0, (fresh 0).1, (fresh 0).2⟩ }

/-- `memset` fills the whole array with zeros, so node 0 becomes red. -/
def clear (t : RBTree) : RBTree :=
  { t with size := 0, currIdx := 0, rootIdx := 0, root := fun _ => ⟨.red, 0, 0, 0, 0⟩ }

def isFull (t : RBTree) : Bool := t.size = t.capacity - 1

/-- The index is 0 when the array is exhausted. -/
def allocIndex (t : RBTree) : RBTree × Nat :=
  if t.currIdx < t.capacity - 1 then ({ t with currIdx := t.currIdx + 1 }, t.currIdx + 1) else (t, 0)

def releaseIndex (t : RBTree) : RBTree := { t with currIdx := t.currIdx - 1 }

/-- `none` is the result `false`, which changes nothing. -/
def connect (t : RBTree) (p c : Nat) : Option RBTree :=
  if p > t.size ∨ p = c then none
  else if (t.root p).key > (t.root c).key then some (t.link p .left c)
  else if (t.root p).key < (t.root c).key then some (t.link p .right c)
  else none

/-- The local variables of `insertFix` with the tree they act on. The vector
`re_stack` is a list in the vector's order. -/
structure FixState where
  tree : RBTree
  idxBk : Nat
  top : Nat
  parent : Nat
  reStack : List Nat

/-- The red-uncle case. The flag is set when the loop is left by `break`. -/
def recolor (st : FixState) (parent grandParent uncle : Nat) : FixState × Bool :=
  let t := ((st.tree.setBlack uncle).setBlack parent).setRed grandParent
  if st.top < 2 then ({ st with tree := t, parent }, true)
  else ({ st with
    tree := t
    idxBk := grandParent
    top := st.top - 2
    parent := st.reStack.getD (st.top - 2) 0 }, false)

/-- `idx_bk` is the child of `parent` on the other side than `s`: it is lifted
over `parent`, and then `parent` itself is kept as the rotation's centre. -/
def rotateInner (s : Side) (st : FixState) (parent grandParent : Nat) : FixState :=
  let t₁ := st.tree.link grandParent s st.idxBk
  let t₂ := t₁.link parent s.other (t₁.child st.idxBk s)
  let t₃ := t₂.link st.idxBk s parent
  let stack := st.reStack.set st.top parent
  { st with tree := t₃, idxBk := parent, reStack := stack, parent := stack.getD st.top 0 }

/-- The recolouring and the two links with which `parent` takes the place of
`grandParent`. -/
def rotateLinks (s : Side) (t : RBTree) (parent grandParent : Nat) : RBTree :=
  let t₁ := (t.setRed grandParent).setBlack parent
  let t₂ := t₁.link grandParent s (t₁.child parent s.other)
  t₂.link parent s.other grandParent

/-- The great-grandparent's link on side `s` is overwritten without a look at
which of its children the grandparent was. -/
def rotateOuter (s : Side) (st : FixState) (grandParent : Nat) : FixState :=
  let t := rotateLinks s st.tree st.parent grandParent
  if st.top = 1 then { st with tree := { t with rootIdx := st.parent } }
  else { st with tree := t.link (st.reStack.getD (st.top - 2) 0) s st.parent }

/-- The branch for a parent that is its grandparent's child on side `s`. The two
branches mirror each other, but only the left one leaves the loop by `break`
after its rotation. -/
def fixBranch (s : Side) (st : FixState) (parent grandParent : Nat) : FixState × Bool :=
  let uncle := st.tree.child grandParent s.other
  if uncle ≠ 0 ∧ st.tree.isRed uncle then recolor st parent grandParent uncle
  else
    let st := { st with parent }
    let st := if st.idxBk = st.tree.child parent s.other then rotateInner s st parent grandParent else st
    (rotateOuter s st grandParent, decide (s = .left))

/-- The body of the climbing loop. -/
def fixBody (st : FixState) : FixState × Bool :=
  let parent := st.reStack.getD st.top 0
  let grandParent := st.reStack.getD (st.top - 1) 0
  if parent = st.tree.child grandParent .left then fixBranch .left st parent grandParent
  else fixBranch .right st parent grandParent

def fixLoop : Nat → FixState → Option FixState
  | 0, _ => none
  | n + 1, st =>
    if st.tree.isRed st.parent then
      match fixBody st with
      | (next, true) => some next
      | (next, false) => fixLoop n next
    else some st

/-- `insertFix` has no other result than `true`. -/
def insertFix (bound : Nat) (t : RBTree) (idx : Nat) (reStack : List Nat) : Option RBTree :=
  let top := reStack.length - 1
  if top = 0 then some t
  else (fixLoop bound ⟨t, idx, top, reStack.getD top 0, reStack⟩).map fun st =>
    st.tree.setBlack st.tree.rootIdx

/-- How the descent of `insert` ends: at the parent of the new node, with the
saved ancestors, or at a node that has the key already. -/
inductive Descent where
  | parent (x : Nat) (reStack : List Nat)
  | present

def findParent (t : RBTree) (key : Key) : Nat → Nat → Nat → List Nat → Option Descent
  | 0, _, _, _ => none
  | n + 1, x, p, reStack =>
    if p = 0 then some (.parent x reStack)
    else if (t.root p).key < key then findParent t key n p (t.root p).right (reStack ++ [p])
    else if (t.root p).key > key then findParent t key n p (t.root p).left (reStack ++ [p])
    else some .present

def insert (bound : Nat) (t : RBTree) (key : Key) (value : Value) : Option (RBTree × Bool) :=
  if t.isFull then some (t, false)
  else if t.size = 0 ∧ t.rootIdx = 0 then
    let (t₁, idx) := t.allocIndex
    if idx = 0 then some (t₁, false)
    else
      let t₂ := (t₁.modify idx fun n => { n with key, value }).setBlack idx
      some ({ t₂ with rootIdx := idx, size := t₂.size + 1 }, true)
  else
    match findParent t key bound 0 t.rootIdx [] with
    | none => none
    | some .present => some (t, false)
    | some (.parent x reStack) =>
      let (t₁, nIdx) := t.allocIndex
      if nIdx = 0 then some (t₁, false)
      else
        let t₂ := t₁.modify nIdx fun n => { n with key, value }
        match connect t₂ x nIdx with
        | none => some (t₂.releaseIndex, false)
        | some t₃ => (insertFix bound t₃ nIdx reStack).map fun t₄ =>
            ({ t₄ with size := t₄.size + 1 }, true)

/-- The index of the node that `search` points to; `some none` is `NULL`. -/
def searchFrom (t : RBTree) (key : Key) : Nat → Nat → Option (Option Nat)
  | 0, _ => none
  | n + 1, p =>
    if t.currIdx ≥ p ∧ 0 ≠ p then
      if (t.root p).key < key then searchFrom t key n (t.root p).right
      else if (t.root p).key > key then searchFrom t key n (t.root p).left
      else some (some p)
    else some none

def search (bound : Nat) (t : RBTree) (key : Key) : Option (Option Nat) :=
  t.searchFrom key bound t.rootIdx

/-- The values that `mPrintImpl` prints, in order. -/
def mPrintImpl (t : RBTree) : Nat → Nat → Option (List Value)
  | 0, _ => none
  | n + 1, idx =>
    if idx = 0 then some []
    else do
      let left ← mPrintImpl t n (t.root idx).left
      let right ← mPrintImpl t n (t.root idx).right
      some (left ++ (t.root idx).value :: right)

def mPrint (bound : Nat) (t : RBTree) : Option (List Value) := t.mPrintImpl bound t.rootIdx

end RBTree
end Sometest.RbTreeArray
