import Sometest.RbTreeArray.Model

/-! The tree that the links of a node array unfold to. `Holds` reads the links
only; that no index occurs twice is said separately, so an array whose links
share a subtree still has an unfolding. -/
open RBTree (RBNode RBColor)

namespace Sometest.RbTreeArray
open Zipper (Side Frame join plug before after)

structure Entry where
  idx : Nat
  key : Key
  value : Value

abbrev Shape := RBNode Entry

def index : Shape → Nat
  | .nil => 0
  | .node _ _ e _ => e.idx

@[simp] theorem index_nil : index .nil = 0 := rfl

@[simp] theorem index_node (c : RBColor) (l r : Shape) (e : Entry) : index (.node c l e r) = e.idx :=
  rfl

/-- The node whose link on side `s` is `near` and whose other link is `far`. -/
def cell (s : Side) (c : RBColor) (near far : Nat) (e : Entry) : RBTreeNode :=
  match s with
  | .left => ⟨c, near, far, e.key, e.value⟩
  | .right => ⟨c, far, near, e.key, e.value⟩

section Cell
variable (s : Side) (c : RBColor) (near far : Nat) (e : Entry)

@[simp] theorem cell_child : (cell s c near far e).child s = near := by cases s <;> rfl

@[simp] theorem cell_child_other : (cell s c near far e).child s.other = far := by cases s <;> rfl

@[simp] theorem cell_setChild (i : Nat) :
    (cell s c near far e).setChild s i = cell s c i far e := by cases s <;> rfl

@[simp] theorem cell_setChild_other (i : Nat) :
    (cell s c near far e).setChild s.other i = cell s c near i e := by cases s <;> rfl

@[simp] theorem cell_color : (cell s c near far e).color = c := by cases s <;> rfl

@[simp] theorem cell_key : (cell s c near far e).key = e.key := by cases s <;> rfl

@[simp] theorem cell_value : (cell s c near far e).value = e.value := by cases s <;> rfl

@[simp] theorem cell_recolor (c' : RBColor) :
    { cell s c near far e with color := c' } = cell s c' near far e := by cases s <;> rfl

theorem cell_other : cell s.other c near far e = cell s c far near e := by cases s <;> rfl

end Cell

/-- The links of the array below `index t` unfold to `t`. -/
def Holds (nodes : Nat → RBTreeNode) : Shape → Prop
  | .nil => True
  | .node c l e r => e.idx ≠ 0 ∧ nodes e.idx = ⟨c, index l, index r, e.key, e.value⟩ ∧
      Holds nodes l ∧ Holds nodes r

/-- The same for a context, from the hole up to the root. -/
def HoldsAround (nodes : Nat → RBTreeNode) (hole : Nat) : List (Frame Entry) → Prop
  | [] => True
  | f :: rest => f.val.idx ≠ 0 ∧
      nodes f.val.idx = cell f.side f.color hole (index f.sibling) f.val ∧
      Holds nodes f.sibling ∧ HoldsAround nodes f.val.idx rest

@[simp] theorem index_join (s : Side) (c : RBColor) (t u : Shape) (e : Entry) :
    index (join s c t e u) = e.idx := by cases s <;> rfl

theorem holds_join {nodes : Nat → RBTreeNode} {s : Side} {c : RBColor} {t u : Shape} {e : Entry} :
    Holds nodes (join s c t e u) ↔ e.idx ≠ 0 ∧ nodes e.idx = cell s c (index t) (index u) e ∧
      Holds nodes t ∧ Holds nodes u := by
  cases s
  · rfl
  · simp only [join, Holds, cell]
    tauto

theorem holds_plug {nodes : Nat → RBTreeNode} {t : Shape} {fs : List (Frame Entry)} :
    Holds nodes (plug t fs) ↔ Holds nodes t ∧ HoldsAround nodes (index t) fs := by
  induction fs generalizing t with
  | nil => simp [HoldsAround]
  | cons f rest ih =>
    simp only [Zipper.plug_cons, ih, Frame.fill, holds_join, index_join, HoldsAround]
    tauto

/-- The node at the index of an entry holds its key and value. -/
theorem holds_stored {nodes : Nat → RBTreeNode} {s : Shape} (held : Holds nodes s) {e : Entry}
    (member : e ∈ s.toList) :
    e.idx ≠ 0 ∧ (nodes e.idx).key = e.key ∧ (nodes e.idx).value = e.value := by
  induction s with
  | nil => simp at member
  | node c l d r ihl ihr =>
    obtain ⟨nonzero, stored, left, right⟩ := held
    simp only [RBNode.toList_node, List.mem_append, List.mem_cons] at member
    rcases member with inl | rfl | inr
    · exact ihl left inl
    · exact ⟨nonzero, by rw [stored], by rw [stored]⟩
    · exact ihr right inr

theorem isRed_index {t : RBTree} {s : Shape} (held : Holds t.root s) :
    (index s ≠ 0 ∧ t.isRed (index s) = true) ↔ ∃ l e r, s = .node .red l e r := by
  cases s with
  | nil => simp
  | node c l e r =>
    simp only [index_node, RBTree.isRed, RBTreeNode.isRed, held.2.1, decide_eq_true_eq, ne_eq,
      held.1, not_false_eq_true, true_and, RBNode.node.injEq]
    constructor
    · exact fun red => ⟨l, e, r, red, rfl, rfl, rfl⟩
    · rintro ⟨_, _, _, red, _⟩
      exact red

theorem Holds.congr {nodes nodes' : Nat → RBTreeNode} {t : Shape} (held : Holds nodes t)
    (same : ∀ e ∈ t.toList, nodes' e.idx = nodes e.idx) : Holds nodes' t := by
  induction t with
  | nil => trivial
  | node c l e r ihl ihr =>
    obtain ⟨nonzero, stored, left, right⟩ := held
    simp only [RBNode.toList_node, List.mem_append, List.mem_cons] at same
    refine ⟨nonzero, ?_, ihl left fun d m => same d (.inl m), ihr right fun d m => same d (.inr (.inr m))⟩
    rw [same e (.inr (.inl rfl)), stored]

def entries (fs : List (Frame Entry)) : List Entry := fs.flatMap fun f => f.val :: f.sibling.toList

@[simp] theorem entries_nil : entries [] = [] := rfl

@[simp] theorem entries_cons (f : Frame Entry) (rest : List (Frame Entry)) :
    entries (f :: rest) = f.val :: (f.sibling.toList ++ entries rest) := rfl

theorem HoldsAround.congr {nodes nodes' : Nat → RBTreeNode} {hole : Nat} {fs : List (Frame Entry)}
    (held : HoldsAround nodes hole fs) (same : ∀ e ∈ entries fs, nodes' e.idx = nodes e.idx) :
    HoldsAround nodes' hole fs := by
  induction fs generalizing hole with
  | nil => trivial
  | cons f rest ih =>
    obtain ⟨nonzero, stored, sibling, around⟩ := held
    simp only [entries_cons, List.mem_cons, List.mem_append] at same
    refine ⟨nonzero, ?_, sibling.congr fun d m => same d (.inr (.inl m)),
      ih around fun d m => same d (.inr (.inr m))⟩
    rw [same f.val (.inl rfl), stored]

/-- No index occurs twice. -/
def Distinct (t : Shape) : Prop := (t.toList.map Entry.idx).Nodup

theorem toList_join_perm (s : Side) (c : RBColor) (t u : Shape) (e : Entry) :
    (join s c t e u).toList.Perm (e :: (t.toList ++ u.toList)) := by
  cases s
  · simp only [join, RBNode.toList_node]
    exact List.perm_middle
  · simp only [join, RBNode.toList_node]
    exact List.perm_middle.trans (List.Perm.cons _ List.perm_append_comm)

theorem toList_plug_perm (t : Shape) (fs : List (Frame Entry)) :
    (plug t fs).toList.Perm (t.toList ++ entries fs) := by
  induction fs generalizing t with
  | nil => simp
  | cons f rest ih =>
    apply (ih (f.fill t)).trans
    apply ((toList_join_perm f.side f.color t f.sibling f.val).append_right _).trans
    simp only [entries_cons, List.cons_append, List.append_assoc]
    exact List.perm_middle.symm

theorem distinct_plug {t : Shape} {fs : List (Frame Entry)} :
    Distinct (plug t fs) ↔ ((t.toList ++ entries fs).map Entry.idx).Nodup :=
  ((toList_plug_perm t fs).map Entry.idx).nodup_iff

end Sometest.RbTreeArray
