import Sometest.RbTreeArray.Represents

/-! Where the fix-up of an insert rotates. The turn is read off the array before
the insert; what the rotation does to the nodes depends on the turn alone. -/
open RBTree (RBNode RBColor)

namespace Sometest.RbTreeArray
open Zipper (Side Frame Fits join plug Sorted descend)

/-- The side of the climbing node below its parent, of the parent below the
grandparent, and of the grandparent below the great-grandparent. -/
structure Turn where
  node : Side
  parent : Side
  grandParent : Option Side
  deriving DecidableEq

/-- The rotated subtree hangs where the loop writes it. -/
def Turn.Upright (r : Turn) : Prop := ∀ s, r.grandParent = some s → s = r.parent

/-- The rotation is single, and upright. -/
def Turn.Straight (r : Turn) : Prop := r.node = r.parent ∧ r.Upright

namespace RBTree

/-- The links that the descent of `insert` follows, the last one first. Empty
when the key is present. -/
def path (t : RBTree) (key : Key) : Nat → Nat → List (Nat × Side) → List (Nat × Side)
  | 0, _, _ => []
  | n + 1, p, links =>
    if p = 0 then links
    else if (t.root p).key < key then path t key n (t.root p).right ((p, .right) :: links)
    else if (t.root p).key > key then path t key n (t.root p).left ((p, .left) :: links)
    else []

def turnAt (t : RBTree) : List (Nat × Side) → Option Turn
  | (p, ps) :: (g, gs) :: rest =>
    if t.isRed p then
      if t.child g gs.other ≠ 0 ∧ t.isRed (t.child g gs.other) then turnAt t rest
      else some ⟨ps, gs, rest.head?.map Prod.snd⟩
    else none
  | _ => none

/-- The turn of `insert` for this key; `none` when it rotates nothing. -/
def turn (bound : Nat) (t : RBTree) (key : Key) : Option Turn :=
  if t.isFull then none else t.turnAt (t.path key bound t.rootIdx [])

end RBTree

def turnOf : List (Frame Entry) → Option Turn
  | p :: g :: rest =>
    if p.color = .red then
      match g.sibling with
      | .node .red _ _ _ => turnOf rest
      | _ => some ⟨p.side, g.side, rest.head?.map Frame.side⟩
    else none
  | _ => none

def linksOf (fs : List (Frame Entry)) : List (Nat × Side) := fs.map fun f => (f.val.idx, f.side)

theorem path_descend {t : RBTree} {s : Shape} {key : Key} {bound : Nat} {fs : List (Frame Entry)}
    (held : Holds t.root s) (enough : s.depth < bound) :
    t.path key bound (index s) (linksOf fs) =
      match descend Entry.key key s fs with
      | none => []
      | some fs' => linksOf fs' := by
  induction s generalizing fs bound with
  | nil =>
    obtain ⟨bound, rfl⟩ : ∃ b, bound = b + 1 := ⟨bound - 1, by omega⟩
    simp [RBTree.path, descend]
  | node c l e r ihl ihr =>
    obtain ⟨bound, rfl⟩ : ∃ b, bound = b + 1 := ⟨bound - 1, by omega⟩
    obtain ⟨nonzero, stored, left, right⟩ := held
    obtain ⟨hl, hr⟩ := depth_node enough
    simp only [index_node, RBTree.path, if_neg nonzero, stored, gt_iff_lt, descend]
    split
    · exact @ihr _ (⟨.right, c, e, l⟩ :: fs) right hr
    · split
      · exact @ihl _ (⟨.left, c, e, r⟩ :: fs) left hl
      · rfl

theorem turnAt_links {t : RBTree} {hole : Nat} {fs : List (Frame Entry)}
    (held : HoldsAround t.root hole fs) : t.turnAt (linksOf fs) = turnOf fs := by
  induction fs using List.twoStepInduction generalizing hole with
  | nil => rfl
  | singleton p => rfl
  | cons_cons p g rest ih _ =>
    obtain ⟨-, parent, -, -, grand, sibling, above⟩ := held
    have red : t.isRed p.val.idx = decide (p.color = .red) := by
      rw [RBTree.isRed, RBTreeNode.isRed, parent, cell_color]
    have uncle : t.child g.val.idx g.side.other = index g.sibling := by
      rw [RBTree.child, grand, cell_child_other]
    simp only [linksOf, List.map_cons, RBTree.turnAt, turnOf, red, decide_eq_true_eq, uncle]
    split
    · split
      · rename_i redUncle
        obtain ⟨l, e, r, same⟩ := (isRed_index sibling).mp redUncle
        rw [same]
        exact ih above
      · rename_i blackUncle
        split
        · rename_i same
          exact absurd ((isRed_index sibling).mpr ⟨_, _, _, same⟩) blackUncle
        · cases rest <;> rfl
    · rfl

theorem Represents.turn {t : RBTree} {s : Shape} (rep : Represents t s) {bound : Nat}
    (enough : t.capacity ≤ bound) (key : Key) :
    t.turn bound key = if t.currIdx + 1 < t.capacity then
      (descend Entry.key key s []).bind turnOf else none := by
  have followed := @path_descend t s key bound [] rep.holds (Nat.lt_of_lt_of_le rep.depth_lt enough)
  rw [RBTree.turn, rep.rootIdx]
  by_cases room : t.currIdx + 1 < t.capacity
  · rw [if_neg fun full => rep.isFull_iff.mp full room, if_pos room]
    apply (congrArg t.turnAt followed).trans
    cases fell : descend Entry.key key s [] with
    | none => rfl
    | some fs =>
      have held := rep.holds
      rw [← descend_whole fell] at held
      exact turnAt_links (holds_plug.mp held).2
  · rw [if_pos (rep.isFull_iff.mpr room), if_neg room]

theorem Represents.turn_some {t : RBTree} {s : Shape} (rep : Represents t s) {bound : Nat}
    (enough : t.capacity ≤ bound) {key : Key} {r : Turn} (here : t.turn bound key = some r) :
    t.currIdx + 1 < t.capacity ∧
      ∃ fs, descend Entry.key key s [] = some fs ∧ turnOf fs = some r := by
  rw [rep.turn enough] at here
  split at here
  · exact ⟨‹_›, Option.bind_eq_some_iff.mp here⟩
  · contradiction

theorem childOn_sublist (s : Side) (t : Shape) : (childOn s t).toList.Sublist t.toList := by
  cases t with
  | nil => exact List.Sublist.refl _
  | node c l e r =>
    cases s
    · simp only [childOn, RBNode.toList_node]
      exact List.sublist_append_left _ _
    · simp only [childOn, RBNode.toList_node]
      exact (List.sublist_cons_self _ _).trans (List.sublist_append_right _ _)

section Rotation
variable {x : Shape} {p g : Frame Entry} {rest : List (Frame Entry)}

theorem toList_raised_outer (outer : p.side = g.side) :
    (raised x p g).toList = (plug x [p, g]).toList := by
  simp only [raised, lowered, kept, moved, Zipper.plug_cons, Zipper.plug_nil,
    Frame.fill, outer, if_true]
  exact Zipper.toList_rotate_outer ..

theorem toList_raised_sublist : (raised x p g).toList.Sublist (plug x [p, g]).toList := by
  by_cases outer : p.side = g.side
  · rw [toList_raised_outer outer]
  · have child := childOn_sublist g.side x
    simp only [raised, lowered, kept, moved, Zipper.plug_cons, Zipper.plug_nil,
      Frame.fill, Side.ne_iff.mp outer]
    cases side : g.side with
    | left =>
      rw [side] at child
      simpa [join, Side.other] using child.append_right (g.val :: g.sibling.toList)
    | right =>
      rw [side] at child
      simpa [join, Side.other] using child.append_right (p.val :: p.sibling.toList)

end Rotation

theorem balanced_black_parent {x : Shape} {p : Frame Entry} {rest : List (Frame Entry)}
    (fits : Fits (p :: rest) .black n) (black : p.color ≠ .red) (balanced : x.Balanced .red n) :
    ∃ m, (plug x (p :: rest)).setBlack.Balanced .black m := by
  cases fits with
  | red => exact absurd rfl black
  | black far above =>
    obtain ⟨m, whole⟩ := Zipper.balanced_plug above (Zipper.balanced_join_black balanced far)
    refine ⟨m, ?_⟩
    rw [← setBlack_of_rootColor (rootColor_balanced whole)] at whole
    exact whole

/-- What `insertFix` can do: recolour at most, or recolour and then rotate around
a red node `y` with the contents unchanged so far. -/
theorem climb_cases {x : Shape} {fs : List (Frame Entry)} (fits : Fits fs .black n)
    (balanced : x.Balanced .red n) :
    (turnOf fs = none ∧ (climb x fs).toList = (plug x fs).toList ∧
      ∃ m, (climb x fs).setBlack.Balanced .black m) ∨
    ∃ y p g rest m, turnOf fs = some ⟨p.side, g.side, rest.head?.map Frame.side⟩ ∧
      climb x fs = attach g.side (raised y p g) (lowered y p g) rest ∧
      (plug y (p :: g :: rest)).toList = (plug x fs).toList ∧ y.Balanced .red m ∧
      Fits rest .black (m + 1) ∧ (raised y p g).Balanced .black (m + 1) ∧
      (lowered y p g).Balanced .red m := by
  induction x, fs using climb_induct generalizing n with
  | root x =>
    refine .inl ⟨rfl, rfl, n + 1, ?_⟩
    cases balanced with
    | red left right => exact .black left right
  | top x p =>
    have black : p.color ≠ .red := by
      cases fits with
      | red _ outer => nomatch outer
      | black => simp
    exact .inl ⟨rfl, rfl, balanced_black_parent fits black balanced⟩
  | recolor x p g rest l u r red uncle ih =>
    have turn : turnOf (p :: g :: rest) = turnOf rest := by simp only [turnOf, if_pos red, uncle]
    have contents : (plug (recolored x p g l u r) rest).toList =
        (plug x (p :: g :: rest)).toList := by
      rw [Zipper.toList_plug, toList_recolored uncle, ← Zipper.toList_plug]
      rfl
    have above := ih (fits_red fits red).2.2.2 (balanced_recolored fits red uncle balanced)
    rw [turn, climb_recolor red uncle, ← contents]
    exact above
  | rotate x p g rest red uncle =>
    refine .inr ⟨x, p, g, rest, n, ?_, climb_rotate red uncle, rfl, balanced,
      (fits_red fits red).2.2.2, balanced_raised fits red uncle balanced,
      balanced_lowered fits red uncle balanced⟩
    rw [turnOf, if_pos red]
    split
    · exact absurd ⟨_, _, _, ‹_›⟩ uncle
    · rfl
  | black x p g rest black =>
    rw [climb_black black]
    exact .inl ⟨by rw [turnOf, if_neg black], rfl, balanced_black_parent fits black balanced⟩

section Attach
variable {y : Shape} {p g : Frame Entry} {rest : List (Frame Entry)}

theorem attach_upright {s : Side} {top low : Shape}
    (upright : Turn.Upright ⟨a, s, rest.head?.map Frame.side⟩) : attach s top low rest = plug top rest := by
  cases rest with
  | nil => rfl
  | cons gg tail => rw [attach, if_pos (upright gg.side rfl)]

theorem plug_sublist {t u : Shape} (sub : t.toList.Sublist u.toList) (fs : List (Frame Entry)) :
    (plug t fs).toList.Sublist (plug u fs).toList := by
  rw [Zipper.toList_plug, Zipper.toList_plug]
  exact (sub.append_left _).append_right _

end Attach

/-- An insert without a skewed rotation keeps the order and the balance. -/
theorem climb_upright {x : Shape} {fs : List (Frame Entry)} (fits : Fits fs .black n)
    (balanced : x.Balanced .red n) (upright : ∀ r, turnOf fs = some r → r.Upright) :
    (climb x fs).toList.Sublist (plug x fs).toList ∧
      ∃ m, (climb x fs).setBlack.Balanced .black m := by
  obtain ⟨-, contents, whole⟩ | ⟨y, p, g, rest, m, turn, rotated, contents, -, above, top, -⟩ :=
    climb_cases fits balanced
  · exact ⟨contents ▸ List.Sublist.refl _, whole⟩
  · rw [rotated, attach_upright (upright _ turn), ← contents]
    obtain ⟨k, whole⟩ := Zipper.balanced_plug above top
    refine ⟨plug_sublist toList_raised_sublist rest, k, ?_⟩
    rwa [setBlack_of_rootColor (rootColor_balanced whole)]

theorem climb_straight {x : Shape} {fs : List (Frame Entry)} (fits : Fits fs .black n)
    (balanced : x.Balanced .red n) (straight : ∀ r, turnOf fs = some r → r.Straight) :
    (climb x fs).toList = (plug x fs).toList := by
  obtain ⟨-, contents, -⟩ | ⟨y, p, g, rest, m, turn, rotated, contents, -⟩ :=
    climb_cases fits balanced
  · exact contents
  · obtain ⟨outer, upright⟩ := straight _ turn
    have same : (plug (raised y p g) rest).toList = (plug (plug y [p, g]) rest).toList := by
      rw [Zipper.toList_plug, toList_raised_outer outer, ← Zipper.toList_plug]
    rw [rotated, attach_upright upright, ← contents, same]
    rfl

section Outcome
variable {t : RBTree} {s : Shape} {key : Key} {bound : Nat} (rep : Represents t s)
include rep

/-- Everything one `insert` can do. -/
theorem insert_outcome (enough : t.capacity ≤ bound) (key : Key) (value : Value) :
    (t.insert bound key value = some (t, false) ∧
      (t.currIdx + 1 < t.capacity → ∃ e, Zipper.search Entry.key key s = some e)) ∨
    ∃ fs t', t.insert bound key value = some (t', true) ∧ t.currIdx + 1 < t.capacity ∧
      descend Entry.key key s [] = some fs ∧ t.turn bound key = turnOf fs ∧
      Grown t t' (inserted (newEntry t key value) fs) := by
  by_cases room : t.currIdx + 1 < t.capacity
  · cases fell : descend Entry.key key s [] with
    | none => exact .inl ⟨insert_present rep enough fell, fun _ => Zipper.descend_eq_none.mp fell⟩
    | some fs =>
      obtain ⟨t', accepted, grown⟩ := insert_accepted rep room enough fell value
      have turn := rep.turn enough key
      rw [if_pos room, fell] at turn
      exact .inr ⟨fs, t', accepted, room, rfl, turn, grown⟩
  · exact .inl ⟨insert_full rep room, fun other => absurd other room⟩

variable {fs : List (Frame Entry)} {t' : RBTree} {value : Value}

theorem represents_upright (room : t.currIdx + 1 < t.capacity)
    (fell : descend Entry.key key s [] = some fs)
    (grown : Grown t t' (inserted (newEntry t key value) fs))
    (upright : ∀ r, turnOf fs = some r → r.Upright) :
    Represents t' (inserted (newEntry t key value) fs) := by
  obtain ⟨sub, balanced⟩ := climb_upright (fits_leaf rep fell)
    (balanced_leaf (newEntry t key value)) upright
  have ordered : Sorted Entry.key (plug (leaf (newEntry t key value)) fs) :=
    Zipper.sorted_insert rep.sorted fell
  refine represents_grown rep room fell grown ?_ ?_ balanced
  · rw [Distinct, inserted, toList_setBlack]
    exact (sub.map Entry.idx).nodup (distinct_leaf rep fell)
  · rw [Sorted, inserted, toList_setBlack]
    exact ordered.sublist sub

omit rep in
/-- A straight turn loses nothing. -/
theorem inserted_straight {e d : Entry} (balanced : Fits fs .black 0)
    (fell : descend Entry.key key s [] = some fs)
    (straight : ∀ r, turnOf fs = some r → r.Straight) :
    d ∈ (inserted e fs).toList ↔ d = e ∨ d ∈ s.toList := by
  rw [inserted, toList_setBlack, climb_straight balanced (balanced_leaf e) straight]
  rw [mem_plug, mem_context fell]
  simp [leaf]

end Outcome

/-- The guard of an insert, read off the array before it. -/
def StraightInsert (bound : Nat) (t : RBTree) (key : Key) : Prop :=
  ∀ r, t.turn bound key = some r → r.Straight

def UprightInsert (bound : Nat) (t : RBTree) (key : Key) : Prop :=
  ∀ r, t.turn bound key = some r → r.Upright

end Sometest.RbTreeArray
