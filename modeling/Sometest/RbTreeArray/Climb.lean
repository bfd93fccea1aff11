import Sometest.RbTreeArray.Shape

/-! The climbing loop of `insertFix` on the unfolded tree. `climb` is what the
loop computes, its two slips included: an inner child is dropped by the rotation
that should lift it, and the rotated subtree goes to the rotation's own side of
the great-grandparent. Every step of the loop refines it. -/
open RBTree (RBNode RBColor)

namespace Sometest.RbTreeArray
open Zipper (Side Frame Fits join plug)

def childOn (s : Side) : Shape → Shape
  | .nil => .nil
  | .node _ l _ r => match s with
    | .left => l
    | .right => r

/-- What stays below the raised parent on the rotation's side. -/
def kept (x : Shape) (p g : Frame Entry) : Shape := if p.side = g.side then x else p.sibling

/-- What moves below the lowered grandparent. -/
def moved (x : Shape) (p g : Frame Entry) : Shape :=
  if p.side = g.side then p.sibling else childOn g.side x

def lowered (x : Shape) (p g : Frame Entry) : Shape :=
  join g.side .red (moved x p g) g.val g.sibling

def raised (x : Shape) (p g : Frame Entry) : Shape :=
  join g.side .black (kept x p g) p.val (lowered x p g)

/-- The raised subtree replaces the great-grandparent's child on side `s`. When
the grandparent was the other child, it stays there, now as the lowered one. -/
def attach (s : Side) (top low : Shape) : List (Frame Entry) → Shape
  | [] => top
  | gg :: rest =>
    if gg.side = s then plug top (gg :: rest) else plug (join s gg.color top gg.val low) rest

def recolored (x : Shape) (p g : Frame Entry) (l : Shape) (u : Entry) (r : Shape) : Shape :=
  join g.side .red (join p.side .black x p.val p.sibling) g.val (.node .black l u r)

/-- The loop from the red node `x`, whose nearest ancestor comes first. -/
def climb (x : Shape) : List (Frame Entry) → Shape
  | [] => x
  | [p] => p.fill x
  | p :: g :: rest =>
    if p.color = .red then
      match g.sibling with
      | .node .red l u r => climb (recolored x p g l u r) rest
      | _ => attach g.side (raised x p g) (lowered x p g) rest
    else plug x (p :: g :: rest)

section Equations
variable {x : Shape} {p g : Frame Entry} {rest : List (Frame Entry)}

theorem climb_black (black : p.color ≠ .red) : climb x (p :: g :: rest) = plug x (p :: g :: rest) := by
  simp only [climb, if_neg black]

theorem climb_recolor {l r : Shape} {u : Entry} (red : p.color = .red)
    (uncle : g.sibling = .node .red l u r) :
    climb x (p :: g :: rest) = climb (recolored x p g l u r) rest := by
  simp only [climb, if_pos red, uncle]

theorem climb_rotate (red : p.color = .red) (uncle : ¬ ∃ l u r, g.sibling = .node .red l u r) :
    climb x (p :: g :: rest) = attach g.side (raised x p g) (lowered x p g) rest := by
  rw [climb, if_pos red]
  split
  · exact absurd ⟨_, _, _, ‹_›⟩ uncle
  · rfl

/-- The induction of the loop: it stops below the root or a black parent, recolours and
goes on at the grandparent, or rotates and stops. -/
@[elab_as_elim]
theorem climb_induct {motive : Shape → List (Frame Entry) → Prop} (root : ∀ x, motive x [])
    (top : ∀ x p, motive x [p])
    (recolor : ∀ x p g rest l u r, p.color = .red → g.sibling = .node .red l u r →
      motive (recolored x p g l u r) rest → motive x (p :: g :: rest))
    (rotate : ∀ x p g rest, p.color = .red → (¬ ∃ l u r, g.sibling = .node .red l u r) →
      motive x (p :: g :: rest))
    (black : ∀ x p g rest, p.color ≠ .red → motive x (p :: g :: rest)) (x : Shape)
    (fs : List (Frame Entry)) : motive x fs := by
  induction fs using List.twoStepInduction generalizing x with
  | nil => exact root x
  | singleton p => exact top x p
  | cons_cons p g rest ih _ =>
    by_cases red : p.color = .red
    · by_cases uncle : ∃ l u r, g.sibling = .node .red l u r
      · obtain ⟨l, u, r, uncle⟩ := uncle
        exact recolor x p g rest l u r red uncle (ih _)
      · exact rotate x p g rest red uncle
    · exact black x p g rest red

end Equations

section Balance
variable {x : Shape} {p g : Frame Entry} {rest : List (Frame Entry)}

/-- A red parent has a black sibling tree below it and a black parent above it. -/
theorem fits_red (fits : Fits (p :: g :: rest) .black n) (red : p.color = .red) :
    p.sibling.Balanced .black n ∧ g.color = .black ∧ (∃ c, g.sibling.Balanced c n) ∧
      Fits rest .black (n + 1) := by
  cases fits with
  | black => exact absurd red (by simp)
  | red near outer => cases outer with
    | black far above => exact ⟨near, rfl, ⟨_, far⟩, above⟩

theorem balanced_recolored {l r : Shape} {u : Entry} (fits : Fits (p :: g :: rest) .black n)
    (red : p.color = .red) (uncle : g.sibling = .node .red l u r) (focus : x.Balanced .red n) :
    (recolored x p g l u r).Balanced .red (n + 1) := by
  obtain ⟨near, -, ⟨c, far⟩, -⟩ := fits_red fits red
  rw [uncle] at far
  cases far with
  | red left right =>
    exact Zipper.balanced_join_red (Zipper.balanced_join_black focus near) (.black left right)

theorem balanced_childOn {s : Side} (focus : x.Balanced .red n) :
    (childOn s x).Balanced .black n := by
  cases focus with
  | red left right => cases s; exacts [left, right]

theorem balanced_black {t : Shape} (balanced : t.Balanced c n) (black : ¬ ∃ l u r, t = .node .red l u r) :
    t.Balanced .black n := by
  cases balanced with
  | nil => exact .nil
  | black left right => exact .black left right
  | red => exact absurd ⟨_, _, _, rfl⟩ black

theorem balanced_lowered (fits : Fits (p :: g :: rest) .black n) (red : p.color = .red)
    (uncle : ¬ ∃ l u r, g.sibling = .node .red l u r) (focus : x.Balanced .red n) :
    (lowered x p g).Balanced .red n := by
  obtain ⟨near, -, ⟨c, far⟩, -⟩ := fits_red fits red
  refine Zipper.balanced_join_red ?_ (balanced_black far uncle)
  rw [moved]
  split
  · exact near
  · exact balanced_childOn focus

/-- The raised subtree is balanced even when the rotation drops the inner child. -/
theorem balanced_raised (fits : Fits (p :: g :: rest) .black n) (red : p.color = .red)
    (uncle : ¬ ∃ l u r, g.sibling = .node .red l u r) (focus : x.Balanced .red n) :
    (raised x p g).Balanced .black (n + 1) := by
  have low := balanced_lowered fits red uncle focus
  rw [raised, kept]
  split
  · exact Zipper.balanced_join_black focus low
  · exact Zipper.balanced_join_black (fits_red fits red).1 low

end Balance

/-- The loop's state represents the context `fs` around the red node `x`. -/
structure Climbing (st : RBTree.FixState) (x : Shape) (fs : List (Frame Entry)) : Prop where
  holds : Holds st.tree.root (plug x fs)
  distinct : Distinct (plug x fs)
  focus : st.idxBk = index x
  nonempty : index x ≠ 0
  top : st.top + 1 = fs.length
  stack : ∀ i f, fs[i]? = some f → st.reStack.getD (st.top - i) 0 = f.val.idx
  parent : st.parent = st.reStack.getD st.top 0
  rootIdx : st.tree.rootIdx = index (plug x fs)

section Ancestors
variable {nodes : Nat → RBTreeNode} {x : Shape} {p g : Frame Entry} {rest : List (Frame Entry)}

theorem index_mem {t : Shape} (nonempty : index t ≠ 0) : ∃ e ∈ t.toList, e.idx = index t := by
  cases t with
  | nil => exact absurd rfl nonempty
  | node c l e r => exact ⟨e, by simp, rfl⟩

theorem index_ne_of_free {t : Shape} {i : Nat} (nonzero : i ≠ 0) (free : ∀ e ∈ t.toList, e.idx ≠ i) :
    index t ≠ i := by
  cases t with
  | nil => exact nonzero.symm
  | node c l e r => exact free e (by simp)

/-- The indices that the two nearest ancestors separate. -/
structure Apart (x : Shape) (p g : Frame Entry) (rest : List (Frame Entry)) : Prop where
  ne : p.val.idx ≠ g.val.idx
  focus : ∀ e ∈ x.toList, e.idx ≠ p.val.idx ∧ e.idx ≠ g.val.idx
  near : ∀ e ∈ p.sibling.toList, e.idx ≠ p.val.idx ∧ e.idx ≠ g.val.idx
  far : ∀ e ∈ g.sibling.toList, e.idx ≠ p.val.idx ∧ e.idx ≠ g.val.idx
  around : ∀ e ∈ entries rest, e.idx ≠ p.val.idx ∧ e.idx ≠ g.val.idx
  focus_near : ∀ e ∈ x.toList, ∀ d ∈ p.sibling.toList, e.idx ≠ d.idx
  focus_far : ∀ e ∈ x.toList, ∀ d ∈ g.sibling.toList, e.idx ≠ d.idx
  near_far : ∀ e ∈ p.sibling.toList, ∀ d ∈ g.sibling.toList, e.idx ≠ d.idx
  inside_around : ∀ e, e ∈ x.toList ∨ e ∈ p.sibling.toList ∨ e ∈ g.sibling.toList →
    ∀ d ∈ entries rest, e.idx ≠ d.idx
  around_nodup : ((entries rest).map Entry.idx).Nodup

theorem apart_of_distinct (distinct : Distinct (plug x (p :: g :: rest))) : Apart x p g rest := by
  have nodup := distinct_plug.mp distinct
  simp only [entries_cons, List.map_append, List.map_cons, List.nodup_append, List.nodup_cons,
    List.mem_append, List.mem_cons, List.mem_map] at nodup
  constructor <;> grind

theorem distinct_focus {fs : List (Frame Entry)} (distinct : Distinct (plug x fs)) : Distinct x := by
  have nodup := distinct_plug.mp distinct
  rw [List.map_append] at nodup
  exact (List.nodup_append.mp nodup).1

theorem holds_ancestors : Holds nodes (plug x (p :: g :: rest)) ↔ Holds nodes x ∧
    (p.val.idx ≠ 0 ∧ nodes p.val.idx = cell p.side p.color (index x) (index p.sibling) p.val) ∧
    Holds nodes p.sibling ∧
    (g.val.idx ≠ 0 ∧ nodes g.val.idx = cell g.side g.color p.val.idx (index g.sibling) g.val) ∧
    Holds nodes g.sibling ∧ HoldsAround nodes g.val.idx rest := by
  simp only [holds_plug, HoldsAround, and_assoc]

theorem holds_recolored {nodes' : Nat → RBTreeNode} {l r : Shape} {u : Entry}
    (held : Holds nodes (plug x (p :: g :: rest))) (distinct : Distinct (plug x (p :: g :: rest)))
    (uncle : g.sibling = .node .red l u r)
    (atParent : nodes' p.val.idx = { nodes p.val.idx with color := .black })
    (atGrand : nodes' g.val.idx = { nodes g.val.idx with color := .red })
    (atUncle : nodes' u.idx = { nodes u.idx with color := .black })
    (same : ∀ i, i ≠ p.val.idx → i ≠ g.val.idx → i ≠ u.idx → nodes' i = nodes i) :
    Holds nodes' (plug (recolored x p g l u r) rest) := by
  have apart := apart_of_distinct distinct
  have nodup := distinct_plug.mp distinct
  obtain ⟨hx, ⟨hp0, hp⟩, hps, ⟨hg0, hg⟩, hgs, hrest⟩ := holds_ancestors.mp held
  rw [uncle] at hgs hg
  obtain ⟨hu0, hu, hl, hr⟩ := hgs
  have uncleMem : u ∈ g.sibling.toList := by simp [uncle]
  have childMem : ∀ e, e ∈ l.toList ∨ e ∈ r.toList → e ∈ g.sibling.toList := by
    intro e member
    rw [uncle, RBNode.toList_node, List.mem_append, List.mem_cons]
    tauto
  have childNe : ∀ e, e ∈ l.toList ∨ e ∈ r.toList → e.idx ≠ u.idx := by
    simp only [entries_cons, uncle, RBNode.toList_node, List.map_append, List.map_cons,
      List.nodup_append, List.nodup_cons, List.mem_append, List.mem_cons, List.mem_map] at nodup
    grind
  refine holds_plug.mpr ⟨?_, ?_⟩
  · rw [recolored, holds_join, holds_join]
    refine ⟨hg0, ?_, ⟨hp0, ?_, ?_, ?_⟩, hu0, ?_, ?_, ?_⟩
    · rw [atGrand, hg, cell_recolor, index_join]; rfl
    · rw [atParent, hp, cell_recolor]
    · exact hx.congr fun e m => same _ (apart.focus e m).1 (apart.focus e m).2
        (apart.focus_far e m u uncleMem)
    · exact hps.congr fun e m => same _ (apart.near e m).1 (apart.near e m).2
        (apart.near_far e m u uncleMem)
    · rw [atUncle, hu]
    · exact hl.congr fun e m => same _ (apart.far e (childMem e (.inl m))).1
        (apart.far e (childMem e (.inl m))).2 (childNe e (.inl m))
    · exact hr.congr fun e m => same _ (apart.far e (childMem e (.inr m))).1
        (apart.far e (childMem e (.inr m))).2 (childNe e (.inr m))
  · rw [recolored, index_join]
    exact hrest.congr fun e m => same _ (apart.around e m).1 (apart.around e m).2
      (apart.inside_around u (.inr (.inr uncleMem)) e m).symm

theorem kept_sub {e : Entry} (member : e ∈ (kept x p g).toList) :
    e ∈ x.toList ∨ e ∈ p.sibling.toList := by
  rw [kept] at member
  split at member
  · exact .inl member
  · exact .inr member

theorem childOn_sub {s : Side} {t : Shape} {e : Entry} (member : e ∈ (childOn s t).toList) :
    e ∈ t.toList := by
  cases t with
  | nil => exact member
  | node c l d r => cases s <;> simp_all [childOn]

theorem moved_sub {e : Entry} (member : e ∈ (moved x p g).toList) :
    e ∈ x.toList ∨ e ∈ p.sibling.toList := by
  rw [moved] at member
  split at member
  · exact .inr member
  · exact .inl (childOn_sub member)

theorem holds_childOn {s : Side} {t : Shape} (held : Holds nodes t) : Holds nodes (childOn s t) := by
  cases t with
  | nil => exact held
  | node c l d r => cases s; exacts [held.2.2.1, held.2.2.2]

theorem holds_kept (hx : Holds nodes x) (hp : Holds nodes p.sibling) : Holds nodes (kept x p g) := by
  rw [kept]; split <;> assumption

theorem holds_moved (hx : Holds nodes x) (hp : Holds nodes p.sibling) :
    Holds nodes (moved x p g) := by
  rw [moved]; split
  · exact hp
  · exact holds_childOn hx

/-- An inner rotation writes the root of `x`, which is no longer reached. -/
theorem index_not_kept_or_moved (distinct : Distinct (plug x (p :: g :: rest)))
    (nonempty : index x ≠ 0) (inner : p.side ≠ g.side) {e : Entry}
    (member : e ∈ (kept x p g).toList ∨ e ∈ (moved x p g).toList) : e.idx ≠ index x := by
  have apart := apart_of_distinct distinct
  have nodup := distinct_focus distinct
  simp only [kept, moved, if_neg inner] at member
  cases x with
  | nil => exact absurd rfl nonempty
  | node c l d r =>
    rcases member with near | child
    · exact (apart.focus_near d (by simp) e near).symm
    · simp only [Distinct, RBNode.toList_node, List.map_append, List.map_cons, List.nodup_append,
        List.nodup_cons, List.mem_map, List.mem_cons] at nodup
      cases side : g.side <;> simp only [side, childOn] at child <;> simp only [index] <;> grind

/-- What the array has to look like for the unfolding to be the rotated tree. -/
structure Rotated (nodes nodes' : Nat → RBTreeNode) (x : Shape) (p g : Frame Entry)
    (rest : List (Frame Entry)) : Prop where
  atParent : nodes' p.val.idx = cell g.side .black (index (kept x p g)) g.val.idx p.val
  atGrand : nodes' g.val.idx = cell g.side .red (index (moved x p g)) (index g.sibling) g.val
  atGreat : ∀ gg tail, rest = gg :: tail →
    nodes' gg.val.idx = (nodes gg.val.idx).setChild g.side p.val.idx
  same : ∀ i, i ≠ p.val.idx → i ≠ g.val.idx → (p.side ≠ g.side → i ≠ index x) →
    (∀ gg tail, rest = gg :: tail → i ≠ gg.val.idx) → nodes' i = nodes i

theorem holds_rotated {nodes' : Nat → RBTreeNode} (rotated : Rotated nodes nodes' x p g rest)
    (held : Holds nodes (plug x (p :: g :: rest))) (distinct : Distinct (plug x (p :: g :: rest)))
    (nonempty : index x ≠ 0) :
    Holds nodes' (raised x p g) ∧ Holds nodes' (lowered x p g) := by
  have apart := apart_of_distinct distinct
  obtain ⟨hx, ⟨hp0, -⟩, hps, ⟨hg0, -⟩, hgs, -⟩ := holds_ancestors.mp held
  have outside : ∀ e, e ∈ x.toList ∨ e ∈ p.sibling.toList ∨ e ∈ g.sibling.toList →
      ∀ gg tail, rest = gg :: tail → e.idx ≠ gg.val.idx := by
    rintro e member gg tail rfl
    exact apart.inside_around e member gg.val (by simp)
  have below : ∀ t : Shape, Holds nodes t →
      (∀ e ∈ t.toList, e ∈ (kept x p g).toList ∨ e ∈ (moved x p g).toList) → Holds nodes' t := by
    intro t ht sub
    apply ht.congr
    intro e member
    have origin : e ∈ x.toList ∨ e ∈ p.sibling.toList := (sub e member).elim kept_sub moved_sub
    have ne : e.idx ≠ p.val.idx ∧ e.idx ≠ g.val.idx := origin.elim (apart.focus e) (apart.near e)
    exact rotated.same _ ne.1 ne.2
      (fun inner => index_not_kept_or_moved distinct nonempty inner (sub e member))
      (outside e (origin.imp_right .inl))
  have far : Holds nodes' g.sibling := by
    refine hgs.congr fun e member => rotated.same _ (apart.far e member).1 (apart.far e member).2 ?_ ?_
    · obtain ⟨d, inside, same⟩ := index_mem nonempty
      exact fun _ => same ▸ (apart.focus_far d inside e member).symm
    · exact outside e (.inr (.inr member))
  have low : Holds nodes' (lowered x p g) :=
    holds_join.mpr ⟨hg0, rotated.atGrand, below _ (holds_moved hx hps) fun _ => .inr, far⟩
  refine ⟨holds_join.mpr ⟨hp0, ?_, below _ (holds_kept hx hps) fun _ => .inl, low⟩, low⟩
  rw [rotated.atParent, lowered, index_join]

theorem holds_attach {nodes' : Nat → RBTreeNode} (rotated : Rotated nodes nodes' x p g rest)
    (held : Holds nodes (plug x (p :: g :: rest))) (distinct : Distinct (plug x (p :: g :: rest)))
    (nonempty : index x ≠ 0) :
    Holds nodes' (attach g.side (raised x p g) (lowered x p g) rest) := by
  have apart := apart_of_distinct distinct
  obtain ⟨top, low⟩ := holds_rotated rotated held distinct nonempty
  cases rest with
  | nil => exact top
  | cons gg tail =>
    obtain ⟨-, -, -, -, -, hgg0, hgg, hsib, htail⟩ := holds_ancestors.mp held
    have nodup := apart.around_nodup
    simp only [entries_cons, List.map_cons, List.nodup_cons, List.mem_map, List.mem_append] at nodup
    have unchanged : ∀ e, e ∈ gg.sibling.toList ∨ e ∈ entries tail → nodes' e.idx = nodes e.idx := by
      intro e member
      have inRest : e ∈ entries (gg :: tail) :=
        List.mem_cons_of_mem _ (List.mem_append.mpr member)
      apply rotated.same _ (apart.around e inRest).1 (apart.around e inRest).2
      · obtain ⟨d, inside, same⟩ := index_mem nonempty
        exact fun _ => same ▸ (apart.inside_around d (.inl inside) e inRest).symm
      · rintro gg' tail' same
        obtain ⟨rfl, rfl⟩ := List.cons.inj same
        exact fun clash => nodup.1 ⟨e, member, clash⟩
    have sibling : Holds nodes' gg.sibling := hsib.congr fun e m => unchanged e (.inl m)
    have around : HoldsAround nodes' gg.val.idx tail := htail.congr fun e m => unchanged e (.inr m)
    have great := rotated.atGreat gg tail rfl
    rw [hgg] at great
    simp only [attach]
    split
    · rename_i same
      rw [← same, cell_setChild] at great
      refine holds_plug.mpr ⟨top, hgg0, ?_, sibling, around⟩
      rw [great, raised, index_join]
    · rename_i opposite
      rw [Side.ne_iff.mp opposite, cell_other, cell_setChild] at great
      refine holds_plug.mpr ⟨holds_join.mpr ⟨hgg0, ?_, top, low⟩, ?_⟩
      · rw [great, raised, lowered, index_join, index_join]
      · rwa [index_join]

end Ancestors
end Sometest.RbTreeArray
