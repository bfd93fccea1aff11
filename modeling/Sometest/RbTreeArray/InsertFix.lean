import Sometest.RbTreeArray.Climb

/-! The loop of `insertFix` refines `climb`: one lemma for each case of the loop
body, then the induction along the saved ancestors. -/
open RBTree (RBNode RBColor)

namespace Sometest.RbTreeArray
open Zipper (Side Frame Fits join plug)
open Sometest.RbTreeArray.RBTree (FixState fixBody fixBranch fixLoop recolor rotateInner rotateLinks rotateOuter)

theorem childOn_index {nodes : Nat → RBTreeNode} {x : Shape} {s : Side} (held : Holds nodes x)
    (nonempty : index x ≠ 0) : (nodes (index x)).child s = index (childOn s x) := by
  cases x with
  | nil => exact absurd rfl nonempty
  | node c l e r =>
    rw [index, held.2.1]
    cases s <;> rfl

section Links
variable {t : RBTree} {s : Side} {P G near out far a : Nat} {c d : RBColor} {pe ge : Entry}

theorem rotateLinks_parent (ne : P ≠ G) (atP : t.root P = cell s c near out pe) :
    (rotateLinks s t P G).root P = cell s .black near G pe := by
  simp only [rotateLinks, RBTree.link, RBTree.modify_same]
  rw [RBTree.modify_other _ _ _ ne]
  simp only [RBTree.setBlack, RBTree.modify_same]
  rw [RBTree.setRed, RBTree.modify_other _ _ _ ne, atP, cell_recolor, cell_setChild_other]

theorem rotateLinks_grand (ne : P ≠ G) (atP : t.root P = cell s c near out pe)
    (atG : t.root G = cell s d a far ge) :
    (rotateLinks s t P G).root G = cell s .red out far ge := by
  have child : (((t.setRed G).setBlack P).root P).child s.other = out := by
    simp only [RBTree.setBlack, RBTree.modify_same, RBTree.setRed]
    rw [RBTree.modify_other _ _ _ ne, atP, cell_recolor, cell_child_other]
  simp only [rotateLinks, RBTree.link]
  rw [RBTree.modify_other _ _ _ ne.symm, RBTree.modify_same, RBTree.child, child, RBTree.setBlack,
    RBTree.modify_other _ _ _ ne.symm, RBTree.setRed, RBTree.modify_same, atG, cell_recolor,
    cell_setChild]

theorem rotateLinks_other {i : Nat} (neP : i ≠ P) (neG : i ≠ G) :
    (rotateLinks s t P G).root i = t.root i := by
  simp only [rotateLinks, RBTree.link, RBTree.setBlack, RBTree.setRed]
  rw [RBTree.modify_other _ _ _ neP, RBTree.modify_other _ _ _ neG, RBTree.modify_other _ _ _ neP,
    RBTree.modify_other _ _ _ neG]

variable (t s P G)

@[simp] theorem rotateLinks_size : (rotateLinks s t P G).size = t.size := rfl

@[simp] theorem rotateLinks_capacity : (rotateLinks s t P G).capacity = t.capacity := rfl

@[simp] theorem rotateLinks_currIdx : (rotateLinks s t P G).currIdx = t.currIdx := rfl

@[simp] theorem rotateLinks_rootIdx : (rotateLinks s t P G).rootIdx = t.rootIdx := rfl

end Links

section Body
variable {st : FixState} {x : Shape} {p g : Frame Entry} {rest : List (Frame Entry)}

theorem Climbing.parent_eq (c : Climbing st x (p :: rest)) : st.parent = p.val.idx := by
  rw [c.parent]
  exact c.stack 0 p rfl

theorem fixBody_eq (c : Climbing st x (p :: g :: rest)) :
    fixBody st = fixBranch g.side st p.val.idx g.val.idx := by
  have first := c.stack 0 p rfl
  have second := c.stack 1 g rfl
  obtain ⟨-, ⟨hp0, -⟩, -, ⟨-, hg⟩, -, -⟩ := holds_ancestors.mp c.holds
  have apart := apart_of_distinct c.distinct
  have uncleNe : index g.sibling ≠ p.val.idx :=
    index_ne_of_free hp0 fun e m => (apart.far e m).1
  simp only [fixBody, Nat.sub_zero] at first second ⊢
  rw [first, second]
  cases side : g.side with
  | left =>
    rw [side] at hg
    rw [if_pos (by rw [RBTree.child, hg, cell_child])]
  | right =>
    rw [side] at hg
    have sibling : st.tree.child g.val.idx .left = index g.sibling := by
      rw [RBTree.child, hg]
      exact cell_child_other .right _ _ _ _
    rw [sibling, if_neg uncleNe.symm]

theorem uncle_eq (c : Climbing st x (p :: g :: rest)) :
    st.tree.child g.val.idx g.side.other = index g.sibling := by
  obtain ⟨-, -, -, ⟨-, hg⟩, -, -⟩ := holds_ancestors.mp c.holds
  rw [RBTree.child, hg, cell_child_other]

theorem uncle_red (c : Climbing st x (p :: g :: rest)) :
    (index g.sibling ≠ 0 ∧ st.tree.isRed (index g.sibling) = true) ↔
      ∃ l u r, g.sibling = .node .red l u r := by
  obtain ⟨-, -, -, -, hs, -⟩ := holds_ancestors.mp c.holds
  exact isRed_index hs

theorem toList_recolored {l r : Shape} {u : Entry} (uncle : g.sibling = .node .red l u r) :
    (recolored x p g l u r).toList = (g.fill (p.fill x)).toList := by
  obtain ⟨gs, gc, gv, gsib⟩ := g
  obtain ⟨ps, pc, pv, psib⟩ := p
  subst uncle
  cases gs <;> cases ps <;> simp [recolored, Frame.fill, join]

theorem index_plug {t u : Shape} (same : index t = index u) (fs : List (Frame Entry)) :
    index (plug t fs) = index (plug u fs) := by
  induction fs generalizing t u with
  | nil => exact same
  | cons f rest ih => exact ih (by simp only [Frame.fill, index_join])

def recoloredTree (t : RBTree) (p g : Frame Entry) (u : Entry) : RBTree :=
  ((t.setBlack u.idx).setBlack p.val.idx).setRed g.val.idx

theorem holds_recoloredTree {l r : Shape} {u : Entry} (c : Climbing st x (p :: g :: rest))
    (uncle : g.sibling = .node .red l u r) :
    Holds (recoloredTree st.tree p g u).root (plug (recolored x p g l u r) rest) := by
  have apart := apart_of_distinct c.distinct
  have uncleMem : u ∈ g.sibling.toList := by simp [uncle]
  have up := (apart.far u uncleMem).1
  have ug := (apart.far u uncleMem).2
  apply holds_recolored c.holds c.distinct uncle
  · simp only [recoloredTree, RBTree.setRed, RBTree.setBlack]
    rw [RBTree.modify_other _ _ _ apart.ne, RBTree.modify_same, RBTree.modify_other _ _ _ up.symm]
  · simp only [recoloredTree, RBTree.setRed, RBTree.setBlack, RBTree.modify_same]
    rw [RBTree.modify_other _ _ _ apart.ne.symm, RBTree.modify_other _ _ _ ug.symm]
  · simp only [recoloredTree, RBTree.setRed, RBTree.setBlack]
    rw [RBTree.modify_other _ _ _ ug, RBTree.modify_other _ _ _ up, RBTree.modify_same]
  · intro i neP neG neU
    simp only [recoloredTree, RBTree.setRed, RBTree.setBlack]
    rw [RBTree.modify_other _ _ _ neG, RBTree.modify_other _ _ _ neP, RBTree.modify_other _ _ _ neU]

theorem fixBody_recolor {l r : Shape} {u : Entry} (c : Climbing st x (p :: g :: rest))
    (uncle : g.sibling = .node .red l u r) :
    fixBody st = recolor st p.val.idx g.val.idx u.idx := by
  have red := (uncle_red c).mpr ⟨l, u, r, uncle⟩
  rw [fixBody_eq c, fixBranch, uncle_eq c, if_pos red, uncle, index]

/-- The state in which the rotation starts: an inner child has been exchanged. -/
def exchanged (st : FixState) (p g : Frame Entry) : FixState :=
  if p.side = g.side then { st with parent := p.val.idx }
  else rotateInner g.side { st with parent := p.val.idx } p.val.idx g.val.idx

theorem fixBody_rotate (c : Climbing st x (p :: g :: rest))
    (uncle : ¬ ∃ l u r, g.sibling = .node .red l u r) :
    fixBody st = (rotateOuter g.side (exchanged st p g) g.val.idx, decide (g.side = .left)) := by
  have black := mt (uncle_red c).mp uncle
  obtain ⟨-, ⟨-, hp⟩, -, -, -, -⟩ := holds_ancestors.mp c.holds
  have apart := apart_of_distinct c.distinct
  obtain ⟨d, inside, same⟩ := index_mem c.nonempty
  have sibNe : index p.sibling ≠ st.idxBk := by
    rw [c.focus]
    exact index_ne_of_free c.nonempty fun e m => same ▸ (apart.focus_near d inside e m).symm
  have inner : st.idxBk = st.tree.child p.val.idx g.side.other ↔ p.side ≠ g.side := by
    rw [RBTree.child, hp]
    by_cases outer : p.side = g.side
    · rw [outer, cell_child_other]
      simp only [ne_eq, not_true, iff_false]
      exact sibNe.symm
    · rw [Side.ne_iff.mp outer, cell_child, c.focus]
      simp
  rw [fixBody_eq c, fixBranch, uncle_eq c, if_neg black, exchanged]
  simp only [inner]
  split <;> simp_all

/-- The exchange only prepares the links of the two ancestors. -/
structure Exchanged (st st' : FixState) (x : Shape) (p g : Frame Entry) : Prop where
  parent : st'.parent = p.val.idx
  top : st'.top = st.top
  stack : ∀ i, i ≠ st.top → st'.reStack.getD i 0 = st.reStack.getD i 0
  atParent : ∃ c, st'.tree.root p.val.idx =
    cell g.side c (index (kept x p g)) (index (moved x p g)) p.val
  atGrand : ∃ c a, st'.tree.root g.val.idx = cell g.side c a (index g.sibling) g.val
  same : ∀ i, i ≠ p.val.idx → i ≠ g.val.idx → (p.side ≠ g.side → i ≠ index x) →
    st'.tree.root i = st.tree.root i
  size : st'.tree.size = st.tree.size
  capacity : st'.tree.capacity = st.tree.capacity
  currIdx : st'.tree.currIdx = st.tree.currIdx
  rootIdx : st'.tree.rootIdx = st.tree.rootIdx

theorem exchanged_spec (c : Climbing st x (p :: g :: rest)) :
    Exchanged st (exchanged st p g) x p g := by
  obtain ⟨hx, ⟨hp0, hp⟩, -, ⟨-, hg⟩, -, -⟩ := holds_ancestors.mp c.holds
  have apart := apart_of_distinct c.distinct
  by_cases outer : p.side = g.side
  · simp only [exchanged, if_pos outer]
    refine ⟨rfl, rfl, fun _ _ => rfl, ⟨p.color, ?_⟩, ⟨g.color, p.val.idx, ?_⟩, fun _ _ _ _ => rfl,
      rfl, rfl, rfl, rfl⟩
    · simp only [kept, moved, if_pos outer]
      rw [hp, outer]
    · exact hg
  · obtain ⟨d, inside, same⟩ := index_mem c.nonempty
    have xp : index x ≠ p.val.idx := same ▸ (apart.focus d inside).1
    have xg : index x ≠ g.val.idx := same ▸ (apart.focus d inside).2
    simp only [exchanged, if_neg outer, rotateInner]
    have below : (st.tree.modify g.val.idx fun n => n.setChild g.side (index x)).child (index x)
        g.side = index (childOn g.side x) := by
      rw [RBTree.child, RBTree.modify_other _ _ _ xg, childOn_index hx c.nonempty]
    have saved : st.reStack.getD st.top 0 = p.val.idx := c.stack 0 p rfl
    have inStack : st.top < st.reStack.length := by
      by_contra outOfRange
      rw [List.getD_eq_default _ _ (Nat.le_of_not_lt outOfRange)] at saved
      exact hp0 saved.symm
    refine ⟨?_, rfl, ?_, ⟨p.color, ?_⟩, ⟨g.color, index x, ?_⟩, ?_, rfl, rfl, rfl, rfl⟩
    · simp [List.getD_eq_getElem?_getD, inStack]
    · intro i ne
      simp only [List.getD_eq_getElem?_getD, List.getElem?_set_ne ne.symm]
    · simp only [kept, moved, if_neg outer, c.focus, below, RBTree.link]
      rw [RBTree.modify_other _ _ _ xp.symm, RBTree.modify_same,
        RBTree.modify_other _ _ _ apart.ne, hp, Side.ne_iff.mp outer, cell_other,
        cell_setChild_other]
    · simp only [c.focus, RBTree.link]
      rw [RBTree.modify_other _ _ _ xg.symm, RBTree.modify_other _ _ _ apart.ne.symm,
        RBTree.modify_same, hg, cell_setChild]
    · intro i neP neG neX
      simp only [c.focus, RBTree.link]
      rw [RBTree.modify_other _ _ _ (neX outer), RBTree.modify_other _ _ _ neP,
        RBTree.modify_other _ _ _ neG]

theorem index_attach (s : Side) (top low t : Shape) (gg : Frame Entry) (tail : List (Frame Entry)) :
    index (attach s top low (gg :: tail)) = index (plug t (gg :: tail)) := by
  simp only [attach]
  split
  · simp only [Zipper.plug_cons]
    exact index_plug (by simp only [Frame.fill, index_join]) tail
  · simp only [Zipper.plug_cons]
    exact index_plug (by simp only [Frame.fill, index_join]) tail

/-- The memory that a rotation leaves behind unfolds to the rotated tree. -/
theorem rotateOuter_spec (c : Climbing st x (p :: g :: rest)) :
    let t := (rotateOuter g.side (exchanged st p g) g.val.idx).tree
    Rotated st.tree.root t.root x p g rest ∧
      t.rootIdx = index (attach g.side (raised x p g) (lowered x p g) rest) ∧
      t.size = st.tree.size ∧ t.capacity = st.tree.capacity ∧ t.currIdx = st.tree.currIdx := by
  have e := exchanged_spec c
  have apart := apart_of_distinct c.distinct
  obtain ⟨cp, atP⟩ := e.atParent
  obtain ⟨cg, a, atG⟩ := e.atGrand
  have height := c.top
  simp only [List.length_cons] at height
  have parent := rotateLinks_parent apart.ne atP
  have grand := rotateLinks_grand apart.ne atP atG
  have other : ∀ i, i ≠ p.val.idx → i ≠ g.val.idx → (p.side ≠ g.side → i ≠ index x) →
      (rotateLinks g.side (exchanged st p g).tree p.val.idx g.val.idx).root i = st.tree.root i := by
    intro i neP neG neX
    rw [rotateLinks_other neP neG, e.same i neP neG neX]
  cases rest with
  | nil =>
    have top : (exchanged st p g).top = 1 := by
      rw [e.top]
      simpa using height
    simp only [rotateOuter, e.parent, if_pos top]
    refine ⟨⟨parent, grand, by simp, fun i neP neG neX _ => other i neP neG neX⟩, ?_, ?_⟩
    swap
    · simp only [rotateLinks_size, rotateLinks_capacity, rotateLinks_currIdx, e.size, e.capacity,
        e.currIdx, and_self]
    rw [attach, raised, index_join]
  | cons gg tail =>
    have top : (exchanged st p g).top ≠ 1 := by
      rw [e.top]
      simp only [List.length_cons] at height
      omega
    have saved : (exchanged st p g).reStack.getD ((exchanged st p g).top - 2) 0 = gg.val.idx := by
      rw [e.top, e.stack _ (by omega)]
      exact c.stack 2 gg rfl
    have ggMem : gg.val ∈ entries (gg :: tail) := by simp
    have ggP := (apart.around gg.val ggMem).1
    have ggG := (apart.around gg.val ggMem).2
    have ggX : p.side ≠ g.side → gg.val.idx ≠ index x := by
      obtain ⟨d, inside, same⟩ := index_mem c.nonempty
      exact fun _ => same ▸ (apart.inside_around d (.inl inside) gg.val ggMem).symm
    simp only [rotateOuter, e.parent, if_neg top, saved, RBTree.link, RBTree.modify_size,
      RBTree.modify_capacity, RBTree.modify_currIdx, RBTree.modify_rootIdx, rotateLinks_size,
      rotateLinks_capacity, rotateLinks_currIdx, rotateLinks_rootIdx, e.size, e.capacity, e.currIdx,
      e.rootIdx, and_true]
    refine ⟨⟨?_, ?_, ?_, ?_⟩, ?_⟩
    · rw [RBTree.modify_other _ _ _ ggP.symm, parent]
    · rw [RBTree.modify_other _ _ _ ggG.symm, grand]
    · intro gg' tail' same
      obtain ⟨rfl, rfl⟩ := List.cons.inj same
      rw [RBTree.modify_same, other _ ggP ggG ggX]
    · intro i neP neG neX neGG
      rw [RBTree.modify_other _ _ _ (neGG gg tail rfl), other i neP neG neX]
    · rw [c.rootIdx]
      exact (index_attach g.side _ _ (g.fill (p.fill x)) gg tail).symm

end Body

/-- What a run of the loop leaves behind: the tree `result`, and every node
outside the old tree as it was. -/
structure Climbed (t t' : RBTree) (whole result : Shape) : Prop where
  holds : Holds t'.root result
  rootIdx : t'.rootIdx = index result
  size : t'.size = t.size
  capacity : t'.capacity = t.capacity
  currIdx : t'.currIdx = t.currIdx
  outside : ∀ i, (∀ e ∈ whole.toList, e.idx ≠ i) → t'.root i = t.root i

theorem mem_plug_ancestors {x : Shape} {p g : Frame Entry} {rest : List (Frame Entry)} {e : Entry} :
    e ∈ (plug x (p :: g :: rest)).toList ↔
      e ∈ x.toList ∨ e = p.val ∨ e ∈ p.sibling.toList ∨ e = g.val ∨ e ∈ g.sibling.toList ∨
        e ∈ entries rest := by
  rw [(toList_plug_perm x (p :: g :: rest)).mem_iff]
  simp only [entries_cons, List.mem_append, List.mem_cons]

theorem isRed_of_climbing {st : FixState} {x : Shape} {p : Frame Entry} {rest : List (Frame Entry)}
    (c : Climbing st x (p :: rest)) : st.tree.isRed st.parent = decide (p.color = .red) := by
  have stored := (holds_plug.mp c.holds).2.2.1
  rw [RBTree.isRed, RBTreeNode.isRed, c.parent_eq, stored, cell_color]

theorem outside_ancestors {x : Shape} {p g : Frame Entry} {rest : List (Frame Entry)} {i : Nat}
    (nonempty : index x ≠ 0) (outside : ∀ e ∈ (plug x (p :: g :: rest)).toList, e.idx ≠ i) :
    i ≠ index x ∧ i ≠ p.val.idx ∧ i ≠ g.val.idx ∧ (∀ e ∈ g.sibling.toList, i ≠ e.idx) ∧
      ∀ e ∈ entries rest, i ≠ e.idx := by
  simp only [mem_plug_ancestors] at outside
  obtain ⟨d, inside, same⟩ := index_mem nonempty
  refine ⟨same ▸ (outside d (.inl inside)).symm, (outside p.val (by simp)).symm,
    (outside g.val (by simp)).symm, fun e m => (outside e ?_).symm, fun e m => (outside e ?_).symm⟩
  · exact .inr (.inr (.inr (.inr (.inl m))))
  · exact .inr (.inr (.inr (.inr (.inr m))))

/-- Recolouring leaves the loop's state two ancestors further up. -/
theorem climbing_recolored {st : FixState} {x l r : Shape} {u : Entry} {p g h : Frame Entry}
    {rest : List (Frame Entry)} (c : Climbing st x (p :: g :: h :: rest))
    (uncle : g.sibling = .node .red l u r) :
    ∃ next, recolor st p.val.idx g.val.idx u.idx = (next, false) ∧
      next.tree = recoloredTree st.tree p g u ∧ Climbing next (recolored x p g l u r) (h :: rest) := by
  have height := c.top
  simp only [List.length_cons] at height
  have below : ¬ st.top < 2 := by omega
  refine ⟨_, by rw [recolor, if_neg below], rfl, ?_⟩
  obtain ⟨-, -, -, ⟨hg0, -⟩, -, -⟩ := holds_ancestors.mp c.holds
  refine ⟨holds_recoloredTree c uncle, ?_, ?_, ?_, ?_, ?_, rfl, ?_⟩
  · rw [Distinct, Zipper.toList_plug, toList_recolored uncle, ← Zipper.toList_plug]
    exact c.distinct
  · rw [recolored, index_join]
  · rwa [recolored, index_join]
  · simp only [List.length_cons]
    omega
  · intro i f listed
    have shifted := c.stack (i + 2) f (by simpa using listed)
    simpa only [Nat.sub_sub, Nat.add_comm] using shifted
  · apply c.rootIdx.trans
    simp only [Zipper.plug_cons]
    exact index_plug (by simp only [Frame.fill, index_join]) rest

theorem climbed_recolored {st : FixState} {x l r : Shape} {u : Entry} {p g : Frame Entry}
    {rest : List (Frame Entry)} {t' : RBTree} {result : Shape} (c : Climbing st x (p :: g :: rest))
    (uncle : g.sibling = .node .red l u r)
    (above : Climbed (recoloredTree st.tree p g u) t' (plug (recolored x p g l u r) rest) result) :
    Climbed st.tree t' (plug x (p :: g :: rest)) result := by
  refine ⟨above.holds, above.rootIdx, above.size, above.capacity, above.currIdx, ?_⟩
  intro i outside
  obtain ⟨-, neP, neG, neU, -⟩ := outside_ancestors c.nonempty outside
  have neU := neU u (by simp [uncle])
  rw [above.outside i]
  · simp only [recoloredTree, RBTree.setRed, RBTree.setBlack]
    rw [RBTree.modify_other _ _ _ neG, RBTree.modify_other _ _ _ neP, RBTree.modify_other _ _ _ neU]
  · intro e member
    apply outside e
    rw [Zipper.toList_plug, toList_recolored uncle, ← Zipper.toList_plug] at member
    exact member

theorem climbed_rotated {st : FixState} {x : Shape} {p g : Frame Entry} {rest : List (Frame Entry)}
    (c : Climbing st x (p :: g :: rest)) :
    Climbed st.tree (rotateOuter g.side (exchanged st p g) g.val.idx).tree (plug x (p :: g :: rest))
      (attach g.side (raised x p g) (lowered x p g) rest) := by
  obtain ⟨rotated, rootIdx, size, capacity, currIdx⟩ := rotateOuter_spec c
  refine ⟨holds_attach rotated c.holds c.distinct c.nonempty, rootIdx, size, capacity, currIdx, ?_⟩
  intro i outside
  obtain ⟨neX, neP, neG, -, neRest⟩ := outside_ancestors c.nonempty outside
  refine rotated.same i neP neG (fun _ => neX) ?_
  rintro gg tail rfl
  exact neRest gg.val (by simp)

/-- After a rotation the loop's test finds a black parent. -/
theorem rotateOuter_exits {st : FixState} {x : Shape} {p g : Frame Entry}
    {rest : List (Frame Entry)} (c : Climbing st x (p :: g :: rest)) :
    (rotateOuter g.side (exchanged st p g) g.val.idx).tree.isRed
      (rotateOuter g.side (exchanged st p g) g.val.idx).parent = false := by
  have parent : (rotateOuter g.side (exchanged st p g) g.val.idx).parent = p.val.idx := by
    simp only [rotateOuter]
    split <;> exact (exchanged_spec c).parent
  rw [parent, RBTree.isRed, RBTreeNode.isRed, (rotateOuter_spec c).1.atParent, cell_color]
  rfl

theorem fixLoop_climb {st : FixState} {x : Shape} {fs : List (Frame Entry)}
    (c : Climbing st x fs) (fits : Fits fs .black n) (balanced : x.Balanced .red n)
    (bound : Nat) (enough : fs.length ≤ bound) :
    ∃ st', fixLoop bound st = some st' ∧ Climbed st.tree st'.tree (plug x fs) (climb x fs) := by
  induction fs using List.twoStepInduction generalizing st x n bound with
  | nil => exact absurd c.top (by simp)
  | singleton p =>
    obtain ⟨bound, rfl⟩ : ∃ b, bound = b + 1 := ⟨bound - 1, by simp at enough; omega⟩
    have black : p.color ≠ .red := by
      cases fits with
      | red _ outer => nomatch outer
      | black => simp
    refine ⟨st, ?_, c.holds, c.rootIdx, rfl, rfl, rfl, fun _ _ => rfl⟩
    rw [fixLoop, isRed_of_climbing c, decide_eq_false black]
    simp
  | cons_cons p g rest ih _ =>
    obtain ⟨bound, rfl⟩ : ∃ b, bound = b + 1 := ⟨bound - 1, by simp at enough; omega⟩
    simp only [List.length_cons, Nat.add_le_add_iff_right] at enough
    rw [fixLoop, isRed_of_climbing c]
    by_cases red : p.color = .red
    · rw [decide_eq_true red, if_pos rfl]
      by_cases uncle : ∃ l u r, g.sibling = .node .red l u r
      · obtain ⟨l, u, r, uncle⟩ := uncle
        rw [fixBody_recolor c uncle, climb_recolor red uncle]
        cases rest with
        | nil =>
          have top : st.top < 2 := by
            have height := c.top
            simp only [List.length_cons, List.length_nil] at height
            omega
          rw [recolor, if_pos top]
          refine ⟨_, rfl, climbed_recolored c uncle ⟨holds_recoloredTree c uncle, ?_, rfl, rfl, rfl,
            fun _ _ => rfl⟩⟩
          rw [climb, recolored, index_join]
          apply c.rootIdx.trans
          simp only [Zipper.plug_cons, Zipper.plug_nil, Frame.fill, index_join]
        | cons h rest =>
          obtain ⟨next, step, tree, climbing⟩ := climbing_recolored c uncle
          have fitsAbove := (fits_red fits red).2.2.2
          have balancedAbove := balanced_recolored fits red uncle balanced
          obtain ⟨st', ran, above⟩ := ih climbing fitsAbove balancedAbove bound (by omega)
          rw [step]
          refine ⟨st', ran, climbed_recolored c uncle ?_⟩
          rwa [← tree]
      · rw [fixBody_rotate c uncle, climb_rotate red uncle]
        cases side : g.side with
        | left =>
          refine ⟨_, rfl, ?_⟩
          rw [← side]
          exact climbed_rotated c
        | right =>
          obtain ⟨bound, rfl⟩ : ∃ b, bound = b + 1 := ⟨bound - 1, by omega⟩
          have exits := rotateOuter_exits c
          rw [side] at exits
          refine ⟨rotateOuter .right (exchanged st p g) g.val.idx, ?_, ?_⟩
          · simp only [reduceCtorEq, decide_false]
            rw [fixLoop, exits, if_neg Bool.false_ne_true]
          · rw [← side]
            exact climbed_rotated c
    · rw [decide_eq_false red, if_neg Bool.false_ne_true, climb_black red]
      exact ⟨st, rfl, c.holds, c.rootIdx, rfl, rfl, rfl, fun _ _ => rfl⟩

end Sometest.RbTreeArray
