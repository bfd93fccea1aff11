import Mathlib

/-! Contexts of red-black trees. A context is the list of frames from a hole up
to the root; the trees, their balance and its depth bound are those of the
standard library. Both mirror images are covered by one `Side` parameter. -/
namespace Zipper
open RBTree (RBNode RBColor)
open RBTree.RBColor

instance decidableEqRBColor : DecidableEq RBColor
  | .red, .red => isTrue rfl
  | .red, .black => isFalse RBColor.noConfusion
  | .black, .red => isFalse RBColor.noConfusion
  | .black, .black => isTrue rfl

inductive Side where
  | left
  | right
  deriving DecidableEq, Repr

def Side.other : Side → Side
  | .left => .right
  | .right => .left

@[simp] theorem Side.other_other (s : Side) : s.other.other = s := by cases s <;> rfl

@[simp] theorem Side.other_ne (s : Side) : s.other ≠ s := by cases s <;> decide

theorem Side.ne_iff {s t : Side} : s ≠ t ↔ s = t.other := by cases s <;> cases t <;> decide

variable {α κ : Type*}

/-- The node whose child on side `s` is `near` and whose other child is `far`. -/
def join (s : Side) (c : RBColor) (near : RBNode α) (a : α) (far : RBNode α) : RBNode α :=
  match s with
  | .left => .node c near a far
  | .right => .node c far a near

/-- One ancestor of a hole: the hole hangs on `side`, `sibling` on the other. -/
structure Frame (α : Type*) where
  side : Side
  color : RBColor
  val : α
  sibling : RBNode α

def Frame.fill (f : Frame α) (t : RBNode α) : RBNode α := join f.side f.color t f.val f.sibling

/-- The whole tree around a hole that holds `t`. The nearest frame comes first. -/
def plug (t : RBNode α) : List (Frame α) → RBNode α
  | [] => t
  | f :: rest => plug (f.fill t) rest

@[simp] theorem plug_nil (t : RBNode α) : plug t [] = t := rfl

@[simp] theorem plug_cons (t : RBNode α) (f : Frame α) (rest : List (Frame α)) :
    plug t (f :: rest) = plug (f.fill t) rest := rfl

def Frame.before (f : Frame α) : List α :=
  match f.side with
  | .left => []
  | .right => f.sibling.toList ++ [f.val]

def Frame.after (f : Frame α) : List α :=
  match f.side with
  | .left => f.val :: f.sibling.toList
  | .right => []

def before : List (Frame α) → List α
  | [] => []
  | f :: rest => before rest ++ f.before

def after : List (Frame α) → List α
  | [] => []
  | f :: rest => f.after ++ after rest

theorem toList_fill (f : Frame α) (t : RBNode α) :
    (f.fill t).toList = f.before ++ t.toList ++ f.after := by
  obtain ⟨side, c, a, u⟩ := f
  cases side <;> simp [Frame.fill, join, Frame.before, Frame.after]

theorem toList_plug (t : RBNode α) (fs : List (Frame α)) :
    (plug t fs).toList = before fs ++ t.toList ++ after fs := by
  induction fs generalizing t with
  | nil => simp [before, after]
  | cons f rest ih => simp [ih, toList_fill, before, after]

theorem mem_join {s : Side} {c : RBColor} {t u : RBNode α} {a b : α} :
    b ∈ (join s c t a u).toList ↔ b ∈ t.toList ∨ b = a ∨ b ∈ u.toList := by
  cases s
  · simp [join]
  · simp only [join, RBNode.toList_node, List.mem_append, List.mem_cons]
    tauto

/-- Moving the red-red pair of an outer child over the grandparent keeps the
in-order contents. -/
theorem toList_rotate_outer (s : Side) (c c₁ c₂ c₃ : RBColor) (t m u : RBNode α) (p g : α) :
    (join s c t p (join s c₁ m g u)).toList = (join s c₂ (join s c₃ t p m) g u).toList := by
  cases s <;> simp [join]

/-- A hole that takes trees of color `c` and black height `n` so that the whole
is balanced with a black root. -/
inductive Fits : List (Frame α) → RBColor → Nat → Prop where
  | root : Fits [] black n
  | red {s : Side} : u.Balanced black n → Fits rest red n → Fits (⟨s, red, a, u⟩ :: rest) black n
  | black {s : Side} : u.Balanced c' n → Fits rest black (n + 1) →
      Fits (⟨s, black, a, u⟩ :: rest) c n

theorem balanced_join_red {s : Side} {t u : RBNode α} (near : t.Balanced black n)
    (far : u.Balanced black n) : (join s red t a u).Balanced red n := by
  cases s
  · exact .red near far
  · exact .red far near

theorem balanced_join_black {s : Side} {t u : RBNode α} (near : t.Balanced c n)
    (far : u.Balanced c' n) : (join s black t a u).Balanced black (n + 1) := by
  cases s
  · exact .black near far
  · exact .black far near

theorem balanced_plug {fs : List (Frame α)} {t : RBNode α} (fits : Fits fs c n)
    (balanced : t.Balanced c n) : ∃ m, (plug t fs).Balanced black m := by
  induction fits generalizing t with
  | root => exact ⟨_, balanced⟩
  | red far _ ih => exact ih (balanced_join_red balanced far)
  | black far _ ih => exact ih (balanced_join_black balanced far)

section Ordered
variable [LinearOrder κ] (key : α → κ)

def Sorted (t : RBNode α) : Prop := t.toList.Pairwise fun a b => key a < key b

def search (k : κ) : RBNode α → Option α
  | .nil => none
  | .node _ l a r =>
    if key a < k then search k r else if k < key a then search k l else some a

/-- The nodes that `search` visits. -/
def visits (k : κ) : RBNode α → Nat
  | .nil => 0
  | .node _ l a r =>
    if key a < k then visits k r + 1 else if k < key a then visits k l + 1 else 1

/-- The context in which `search` falls off the tree; `none` when the key is there. -/
def descend (k : κ) : RBNode α → List (Frame α) → Option (List (Frame α))
  | .nil, fs => some fs
  | .node c l a r, fs =>
    if key a < k then descend k r (⟨.right, c, a, l⟩ :: fs)
    else if k < key a then descend k l (⟨.left, c, a, r⟩ :: fs)
    else none

variable {key}

theorem visits_le_depth (k : κ) (t : RBNode α) : visits key k t ≤ t.depth := by
  induction t with
  | nil => exact Nat.le_refl _
  | node c l a r ihl ihr =>
    simp only [visits, RBNode.depth]
    split
    · omega
    · split <;> omega

theorem search_mem {k : κ} {t : RBNode α} (found : search key k t = some a) :
    a ∈ t.toList ∧ key a = k := by
  induction t with
  | nil => simp [search] at found
  | node c l b r ihl ihr =>
    simp only [search] at found
    simp only [RBNode.toList_node, List.mem_append, List.mem_cons]
    split at found
    · exact ⟨.inr (.inr (ihr found).1), (ihr found).2⟩
    · split at found
      · exact ⟨.inl (ihl found).1, (ihl found).2⟩
      · cases found
        exact ⟨.inr (.inl rfl), by grind⟩

theorem sorted_node {c : RBColor} {l r : RBNode α} {a : α} : Sorted key (.node c l a r) ↔
    Sorted key l ∧ Sorted key r ∧ (∀ b ∈ l.toList, key b < key a) ∧ (∀ b ∈ r.toList, key a < key b) ∧
      ∀ b ∈ l.toList, ∀ d ∈ r.toList, key b < key d := by
  simp only [Sorted, RBNode.toList_node, List.pairwise_append, List.pairwise_cons, List.mem_cons]
  constructor
  · rintro ⟨hl, ⟨ha, hr⟩, hb⟩
    exact ⟨hl, hr, fun b m => hb b m a (.inl rfl), ha, fun b m d m' => hb b m d (.inr m')⟩
  · rintro ⟨hl, hr, hb, ha, hbd⟩
    refine ⟨hl, ⟨ha, hr⟩, fun b m d m' => ?_⟩
    rcases m' with rfl | m'
    · exact hb b m
    · exact hbd b m d m'

theorem search_sorted {t : RBNode α} (sorted : Sorted key t) (member : a ∈ t.toList) :
    search key (key a) t = some a := by
  induction t with
  | nil => simp at member
  | node c l b r ihl ihr =>
    obtain ⟨hl, hr, hlb, hbr, _⟩ := sorted_node.mp sorted
    simp only [RBNode.toList_node, List.mem_append, List.mem_cons] at member
    rcases member with inl | rfl | inr
    · have less := hlb a inl
      simp only [search, if_neg (not_lt_of_gt less), if_pos less, ihl hl inl]
    · simp only [search, lt_irrefl, if_false]
    · simp only [search, if_pos (hbr a inr), ihr hr inr]

theorem search_eq_none {t : RBNode α} {k : κ} (absent : ∀ a ∈ t.toList, key a ≠ k) :
    search key k t = none := by
  cases found : search key k t with
  | none => rfl
  | some a => exact absurd (search_mem found).2 (absent a (search_mem found).1)

theorem Sorted.fill_of_plug {t : RBNode α} {fs : List (Frame α)} (sorted : Sorted key (plug t fs)) :
    Sorted key t := by
  rw [Sorted, toList_plug] at sorted
  exact (List.pairwise_append.mp (List.pairwise_append.mp sorted).1).2.1

/-- A search for a key that belongs into the hole ends in the hole, whatever is
plugged in there. -/
theorem search_plug {x y : RBNode α} {fs : List (Frame α)} (sorted : Sorted key (plug y fs))
    (member : a ∈ y.toList) : search key (key a) (plug x fs) = search key (key a) x := by
  induction fs generalizing x y with
  | nil => rfl
  | cons f rest ih =>
    obtain ⟨side, c, b, u⟩ := f
    have inside : a ∈ (Frame.fill ⟨side, c, b, u⟩ y).toList := mem_join.mpr (.inl member)
    rw [plug_cons, ih sorted inside]
    have whole : Sorted key (plug (Frame.fill ⟨side, c, b, u⟩ y) rest) := sorted
    have ordered := whole.fill_of_plug
    cases side with
    | left =>
      have less := (sorted_node.mp ordered).2.2.1 a member
      simp only [Frame.fill, join, search, if_neg (not_lt_of_gt less), if_pos less]
    | right =>
      have less := (sorted_node.mp ordered).2.2.2.1 a member
      simp only [Frame.fill, join, search, if_pos less]

theorem descend_plug {k : κ} {t : RBNode α} {fs fs' : List (Frame α)}
    (fell : descend key k t fs = some fs') : plug .nil fs' = plug t fs := by
  induction t generalizing fs with
  | nil => cases fell; rfl
  | node c l a r ihl ihr =>
    simp only [descend] at fell
    split at fell
    · exact ihr fell
    · split at fell
      · exact ihl fell
      · contradiction

theorem descend_eq_none {k : κ} {t : RBNode α} {fs : List (Frame α)} :
    descend key k t fs = none ↔ ∃ a, search key k t = some a := by
  induction t generalizing fs with
  | nil => simp [descend, search]
  | node c l a r ihl ihr =>
    simp only [descend, search]
    split
    · exact ihr
    · split
      · exact ihl
      · simp

theorem descend_fits {k : κ} {t : RBNode α} {fs fs' : List (Frame α)}
    (fell : descend key k t fs = some fs') (fits : Fits fs c n) (balanced : t.Balanced c n) :
    Fits fs' black 0 := by
  induction t generalizing fs c n with
  | nil => cases fell; cases balanced; exact fits
  | node c l a r ihl ihr =>
    simp only [descend] at fell
    cases balanced with
    | red hl hr =>
      split at fell
      · exact ihr fell (.red hl fits) hr
      · split at fell
        · exact ihl fell (.red hr fits) hl
        · contradiction
    | black hl hr =>
      split at fell
      · exact ihr fell (.black hl fits) hr
      · split at fell
        · exact ihl fell (.black hr fits) hl
        · contradiction

/-- The hole that a descent for `k` reaches separates the smaller keys from the
larger ones. -/
theorem descend_splits {k : κ} {t : RBNode α} {fs fs' : List (Frame α)}
    (fell : descend key k t fs = some fs') (sorted : Sorted key (plug t fs))
    (low : ∀ a ∈ before fs, key a < k) (high : ∀ a ∈ after fs, k < key a) :
    (∀ a ∈ before fs', key a < k) ∧ ∀ a ∈ after fs', k < key a := by
  induction t generalizing fs with
  | nil => cases fell; exact ⟨low, high⟩
  | node c l a r ihl ihr =>
    have ordered := sorted_node.mp sorted.fill_of_plug
    simp only [descend] at fell
    split at fell
    · rename_i less
      apply ihr fell sorted
      · intro b member
        simp only [before, Frame.before, List.mem_append, List.mem_singleton] at member
        rcases member with out | inl | rfl
        · exact low b out
        · exact (ordered.2.2.1 b inl).trans less
        · exact less
      · simpa only [after, Frame.after, List.nil_append] using high
    · split at fell
      · rename_i less
        apply ihl fell sorted
        · simpa only [before, Frame.before, List.append_nil] using low
        · intro b member
          simp only [after, Frame.after, List.cons_append, List.mem_cons, List.mem_append] at member
          rcases member with rfl | inr | out
          · exact less
          · exact less.trans (ordered.2.2.2.1 b inr)
          · exact high b out
      · contradiction

/-- The nearest frame says on which side of its value the key belongs. -/
theorem descend_side {k : κ} {t : RBNode α} {f : Frame α} {fs : List (Frame α)}
    (fell : descend key k t [] = some (f :: fs)) (sorted : Sorted key t) :
    match f.side with
      | .left => k < key f.val
      | .right => key f.val < k := by
  obtain ⟨low, high⟩ := descend_splits fell sorted (by simp [before]) (by simp [after])
  cases side : f.side with
  | left => exact high f.val (by simp [after, Frame.after, side])
  | right => exact low f.val (by simp [before, Frame.before, side])

/-- No key above `k`: the descent keeps to the right. -/
theorem descend_right {k : κ} {t : RBNode α} {fs fs' : List (Frame α)}
    (fell : descend key k t fs = some fs') (below : ∀ a ∈ t.toList, key a ≤ k)
    (right : ∀ f ∈ fs, f.side = .right) : ∀ f ∈ fs', f.side = .right := by
  induction t generalizing fs with
  | nil => cases fell; exact right
  | node c l a r ihl ihr =>
    simp only [RBNode.toList_node, List.mem_append, List.mem_cons] at below
    rw [descend] at fell
    split at fell
    · exact ihr fell (fun b member => below b (.inr (.inr member)))
        (List.forall_mem_cons.mpr ⟨rfl, right⟩)
    · rw [if_neg (not_lt_of_ge (below a (.inr (.inl rfl))))] at fell
      contradiction

/-- No key below `k`: the descent keeps to the left. -/
theorem descend_left {k : κ} {t : RBNode α} {fs fs' : List (Frame α)}
    (fell : descend key k t fs = some fs') (above : ∀ a ∈ t.toList, k ≤ key a)
    (left : ∀ f ∈ fs, f.side = .left) : ∀ f ∈ fs', f.side = .left := by
  induction t generalizing fs with
  | nil => cases fell; exact left
  | node c l a r ihl ihr =>
    simp only [RBNode.toList_node, List.mem_append, List.mem_cons] at above
    rw [descend, if_neg (not_lt_of_ge (above a (.inr (.inl rfl))))] at fell
    split at fell
    · exact ihl fell (fun b member => above b (.inl member))
        (List.forall_mem_cons.mpr ⟨rfl, left⟩)
    · contradiction

/-- A new node with the key of the descent keeps the order. -/
theorem sorted_insert {e : α} {t : RBNode α} {fs : List (Frame α)} {c : RBColor}
    (sorted : Sorted key t) (fell : descend key (key e) t [] = some fs) :
    Sorted key (plug (.node c .nil e .nil) fs) := by
  obtain ⟨low, high⟩ := descend_splits fell sorted (by simp [before]) (by simp [after])
  have whole : Sorted key (plug .nil fs) := by rw [descend_plug fell]; exact sorted
  simp only [Sorted, toList_plug, RBNode.toList_node, RBNode.toList_nil, List.append_nil,
    List.nil_append, List.pairwise_append, List.pairwise_cons, List.mem_append,
    List.mem_singleton] at whole ⊢
  grind

end Ordered
end Zipper
