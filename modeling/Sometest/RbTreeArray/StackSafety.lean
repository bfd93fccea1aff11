import Sometest.RbTreeArray.Accounting

/-! `insertFix` with a check before every access to `re_stack` and to a node, and for
every unsigned subtraction from `top`. On the ancestors that a descent has saved no
check fails, whatever the shape of the links, and the loop ends. -/
namespace Sometest.RbTreeArray
open Zipper (Side)
open Sometest.RbTreeArray.RBTree (FixState findParent connect)

/-- What a check refuses: a difference below 0, a place outside of `re_stack`, and a node
that is the common leaf or lies outside of the array. `bound` is no such access: the
loop of the model ran out of its iteration bound. -/
inductive FixFault where
  | underflow
  | stack
  | slot
  | bound
  deriving DecidableEq

namespace Checked

@[simp] theorem ok_bind {α β : Type} (x : α) (f : α → Except FixFault β) :
    (Except.ok x >>= f) = f x := rfl

def sub (a b : Nat) : Except FixFault Nat := if b ≤ a then .ok (a - b) else .error .underflow

def stackAt (reStack : List Nat) (i : Nat) : Except FixFault Nat :=
  if i < reStack.length then .ok (reStack.getD i 0) else .error .stack

def storeStack (reStack : List Nat) (i x : Nat) : Except FixFault (List Nat) :=
  if i < reStack.length then .ok (reStack.set i x) else .error .stack

/-- A read or a write of the colour or of a link of node `i`, with its outcome. -/
def touch {α : Type} (t : RBTree) (i : Nat) (out : α) : Except FixFault α :=
  if i ≠ 0 ∧ i < t.capacity then .ok out else .error .slot

def isRed (t : RBTree) (i : Nat) : Except FixFault Bool := touch t i (t.isRed i)

def child (t : RBTree) (i : Nat) (s : Side) : Except FixFault Nat := touch t i (t.child i s)

def setRed (t : RBTree) (i : Nat) : Except FixFault RBTree := touch t i (t.setRed i)

def setBlack (t : RBTree) (i : Nat) : Except FixFault RBTree := touch t i (t.setBlack i)

def link (t : RBTree) (i : Nat) (s : Side) (c : Nat) : Except FixFault RBTree :=
  touch t i (t.link i s c)

def recolor (st : FixState) (parent grandParent uncle : Nat) :
    Except FixFault (FixState × Bool) := do
  let t₁ ← setBlack st.tree uncle
  let t₂ ← setBlack t₁ parent
  let t₃ ← setRed t₂ grandParent
  if st.top < 2 then .ok ({ st with tree := t₃, parent }, true)
  else
    let top ← sub st.top 2
    let below ← stackAt st.reStack top
    .ok ({ st with tree := t₃, idxBk := grandParent, top, parent := below }, false)

def rotateInner (s : Side) (st : FixState) (parent grandParent : Nat) :
    Except FixFault FixState := do
  let t₁ ← link st.tree grandParent s st.idxBk
  let inner ← child t₁ st.idxBk s
  let t₂ ← link t₁ parent s.other inner
  let t₃ ← link t₂ st.idxBk s parent
  let stack ← storeStack st.reStack st.top parent
  let centre ← stackAt stack st.top
  .ok { st with tree := t₃, idxBk := parent, reStack := stack, parent := centre }

def rotateLinks (s : Side) (t : RBTree) (parent grandParent : Nat) : Except FixFault RBTree := do
  let t₁ ← setRed t grandParent
  let t₂ ← setBlack t₁ parent
  let inner ← child t₂ parent s.other
  let t₃ ← link t₂ grandParent s inner
  link t₃ parent s.other grandParent

def rotateOuter (s : Side) (st : FixState) (grandParent : Nat) : Except FixFault FixState := do
  let t ← rotateLinks s st.tree st.parent grandParent
  if st.top = 1 then .ok { st with tree := { t with rootIdx := st.parent } }
  else
    let below ← sub st.top 2
    let ggParent ← stackAt st.reStack below
    let t₁ ← link t ggParent s st.parent
    .ok { st with tree := t₁ }

def rotate (s : Side) (st : FixState) (parent grandParent : Nat) : Except FixFault FixState := do
  let inner ← child st.tree parent s.other
  let st₁ ← if st.idxBk = inner then rotateInner s { st with parent } parent grandParent
    else .ok { st with parent }
  rotateOuter s st₁ grandParent

/-- The colour of the uncle is read only when there is one. -/
def fixBranch (s : Side) (st : FixState) (parent grandParent : Nat) :
    Except FixFault (FixState × Bool) := do
  let uncle ← child st.tree grandParent s.other
  let red ← if uncle ≠ 0 then isRed st.tree uncle else .ok false
  if red then recolor st parent grandParent uncle
  else
    let st₁ ← rotate s st parent grandParent
    .ok (st₁, decide (s = .left))

def fixBody (st : FixState) : Except FixFault (FixState × Bool) := do
  let parent ← stackAt st.reStack st.top
  let below ← sub st.top 1
  let grandParent ← stackAt st.reStack below
  let left ← child st.tree grandParent .left
  if parent = left then fixBranch .left st parent grandParent
  else fixBranch .right st parent grandParent

def fixLoop : Nat → FixState → Except FixFault FixState
  | 0, _ => .error .bound
  | n + 1, st => do
    let red ← isRed st.tree st.parent
    if red then
      match ← fixBody st with
      | (next, true) => .ok next
      | (next, false) => fixLoop n next
    else .ok st

def insertFix (bound : Nat) (t : RBTree) (idx : Nat) (reStack : List Nat) :
    Except FixFault RBTree := do
  let top ← sub reStack.length 1
  if top = 0 then .ok t
  else
    let parent ← stackAt reStack top
    let st ← fixLoop bound ⟨t, idx, top, parent, reStack⟩
    setBlack st.tree st.tree.rootIdx

section Checks
variable {n a b i : Nat} {t : RBTree} {stack : List Nat}

theorem sub_ok (le : b ≤ a) : sub a b = .ok (a - b) := if_pos le

theorem stackAt_ok (inside : i < stack.length) : stackAt stack i = .ok (stack.getD i 0) :=
  if_pos inside

theorem storeStack_ok {x : Nat} (inside : i < stack.length) :
    storeStack stack i x = .ok (stack.set i x) := if_pos inside

theorem touch_ok {α : Type} {out : α} (live : Live n i) (room : n < t.capacity) :
    touch t i out = .ok out := if_pos ⟨live.1, Nat.lt_of_le_of_lt live.2 room⟩

theorem isRed_ok (live : Live n i) (room : n < t.capacity) : isRed t i = .ok (t.isRed i) :=
  touch_ok live room

theorem child_ok (live : Live n i) (room : n < t.capacity) (s : Side) :
    child t i s = .ok (t.child i s) := touch_ok live room

theorem setRed_ok (live : Live n i) (room : n < t.capacity) : setRed t i = .ok (t.setRed i) :=
  touch_ok live room

theorem setBlack_ok (live : Live n i) (room : n < t.capacity) : setBlack t i = .ok (t.setBlack i) :=
  touch_ok live room

theorem link_ok {c : Nat} (live : Live n i) (room : n < t.capacity) (s : Side) :
    link t i s c = .ok (t.link i s c) := touch_ok live room

end Checks

section Round
variable {n : Nat} {st : FixState}

theorem recolor_ok (on : OnStack n st) (room : n < st.tree.capacity) {uncle : Nat}
    (live : Live n uncle) :
    recolor st st.parent (st.reStack.getD (st.top - 1) 0) uncle =
      .ok (RBTree.recolor st st.parent (st.reStack.getD (st.top - 1) 0) uncle) := by
  have parent : Live n st.parent := on.parent ▸ on.ancestor 0
  have top := on.top
  rw [recolor, setBlack_ok live, ok_bind, setBlack_ok parent, ok_bind, setRed_ok (on.ancestor 1),
    ok_bind, RBTree.recolor]
  · split
    · rfl
    · rename_i high
      rw [sub_ok (Nat.not_lt.mp high), ok_bind, stackAt_ok (by omega), ok_bind]
  all_goals exact room

theorem rotateInner_ok (on : OnStack n st) (room : n < st.tree.capacity) (s : Side) :
    rotateInner s st st.parent (st.reStack.getD (st.top - 1) 0) =
      .ok (RBTree.rotateInner s st st.parent (st.reStack.getD (st.top - 1) 0)) := by
  have parent : Live n st.parent := on.parent ▸ on.ancestor 0
  rw [rotateInner, link_ok (on.ancestor 1), ok_bind, child_ok on.idxBk, ok_bind, link_ok parent,
    ok_bind, link_ok on.idxBk, ok_bind, storeStack_ok on.top, ok_bind,
    stackAt_ok (by rw [List.length_set]; exact on.top), ok_bind, RBTree.rotateInner]
  all_goals exact room

theorem rotateLinks_ok {t : RBTree} {p g : Nat} (room : n < t.capacity) (parent : Live n p)
    (grand : Live n g) (s : Side) :
    rotateLinks s t p g = .ok (RBTree.rotateLinks s t p g) := by
  rw [rotateLinks, setRed_ok grand, ok_bind, setBlack_ok parent, ok_bind, child_ok parent, ok_bind,
    link_ok grand, ok_bind, link_ok parent, RBTree.rotateLinks]
  all_goals exact room

theorem rotateOuter_ok {g : Nat} (room : n < st.tree.capacity) (parent : Live n st.parent)
    (grand : Live n g) (great : Live n (st.reStack.getD (st.top - 2) 0)) (pos : 0 < st.top)
    (top : st.top < st.reStack.length) (s : Side) :
    rotateOuter s st g = .ok (RBTree.rotateOuter s st g) := by
  rw [rotateOuter, rotateLinks_ok room parent grand, ok_bind, RBTree.rotateOuter]
  split
  · rfl
  · rw [sub_ok (by omega), ok_bind, stackAt_ok (by omega), ok_bind, link_ok great, ok_bind]
    exact room

theorem rotate_ok (on : OnStack n st) (room : n < st.tree.capacity) (pos : 0 < st.top) (s : Side) :
    rotate s st st.parent (st.reStack.getD (st.top - 1) 0) =
      .ok (RBTree.rotateOuter s
        (if st.idxBk = st.tree.child st.parent s.other then
          RBTree.rotateInner s st st.parent (st.reStack.getD (st.top - 1) 0)
        else st) (st.reStack.getD (st.top - 1) 0)) := by
  have parent : Live n st.parent := on.parent ▸ on.ancestor 0
  rw [rotate, child_ok parent room, ok_bind]
  split
  · obtain ⟨sameParent, sameStack⟩ := rotateInner_frame on s (st.reStack.getD (st.top - 1) 0)
    have inner := rotateInner_ok on room s
    have outer := @rotateOuter_ok n
      (RBTree.rotateInner s st st.parent (st.reStack.getD (st.top - 1) 0)) _ room
      (by rw [sameParent]; exact parent) (on.ancestor 1) (by rw [sameStack]; exact on.ancestor 2)
      pos (by rw [sameStack]; exact on.top) s
    rw [inner, ok_bind]
    exact outer
  · rw [ok_bind]
    exact rotateOuter_ok room parent (on.ancestor 1) (on.ancestor 2) pos on.top s

theorem fixBranch_ok (on : OnStack n st) (room : n < st.tree.capacity) (pos : 0 < st.top)
    (s : Side) :
    fixBranch s st st.parent (st.reStack.getD (st.top - 1) 0) =
      .ok (RBTree.fixBranch s st st.parent (st.reStack.getD (st.top - 1) 0)) := by
  have rotated := rotate_ok on room pos s
  rw [fixBranch, child_ok (on.ancestor 1) room, ok_bind]
  generalize uncle : st.tree.child (st.reStack.getD (st.top - 1) 0) s.other = u
  by_cases none : u = 0
  · have kept : ¬ (u ≠ 0 ∧ st.tree.isRed u = true) := fun both => both.1 none
    simp only [if_neg (not_not.mpr none), ok_bind, rotated, RBTree.fixBranch, uncle, if_neg kept,
      Bool.false_eq_true, if_false]
  · have live : Live n u := ⟨none, uncle ▸ on.linked _ _⟩
    rw [if_pos none, isRed_ok live room, ok_bind]
    by_cases red : st.tree.isRed u = true
    · simp only [if_pos red, RBTree.fixBranch, uncle, if_pos (And.intro none red)]
      exact recolor_ok on room live
    · have kept : ¬ (u ≠ 0 ∧ st.tree.isRed u = true) := fun both => red both.2
      simp only [if_neg red, rotated, ok_bind, RBTree.fixBranch, uncle, if_neg kept]

theorem fixBody_ok (on : OnStack n st) (room : n < st.tree.capacity) (pos : 0 < st.top) :
    fixBody st = .ok (RBTree.fixBody st) := by
  have top := on.top
  have left := fixBranch_ok on room pos .left
  have right := fixBranch_ok on room pos .right
  rw [fixBody, stackAt_ok top, ok_bind, sub_ok pos, ok_bind, stackAt_ok (by omega), ok_bind,
    child_ok (on.ancestor 1) room, ok_bind, RBTree.fixBody]
  simp only [← on.parent]
  split
  · exact left
  · exact right

/-- At the root there is no grandparent to read. -/
example (t : RBTree) : fixBody ⟨t, 2, 0, 1, [1]⟩ = .error .underflow := rfl

end Round

section Climb
variable {n : Nat} {st : FixState}

theorem fixLoop_step {bound : Nat} (live : Live n st.parent) (room : n < st.tree.capacity) :
    fixLoop (bound + 1) st =
      if st.tree.isRed st.parent then do
        match ← fixBody st with
        | (next, true) => .ok next
        | (next, false) => fixLoop bound next
      else .ok st := by
  rw [fixLoop, isRed_ok live room, ok_bind]

theorem fixLoop_black {bound : Nat} (live : Live n st.parent) (room : n < st.tree.capacity)
    (black : st.tree.isRed st.parent = false) :
    fixLoop (bound + 1) st = .ok st ∧ RBTree.fixLoop (bound + 1) st = some st := by
  rw [fixLoop_step live room, RBTree.fixLoop, black]
  exact ⟨rfl, rfl⟩

theorem fixLoop_red {bound : Nat} {next : FixState} {stop : Bool} (on : OnStack n st)
    (room : n < st.tree.capacity) (red : st.tree.isRed st.parent = true)
    (made : RBTree.fixBody st = (next, stop)) :
    fixLoop (bound + 1) st = (if stop then .ok next else fixLoop bound next) ∧
      RBTree.fixLoop (bound + 1) st = (if stop then some next else RBTree.fixLoop bound next) := by
  have live : Live n st.parent := on.parent ▸ on.ancestor 0
  have body := fixBody_ok on room (on.top_pos red)
  rw [made] at body
  rw [fixLoop_step live room, RBTree.fixLoop, if_pos red, if_pos red, body, made, ok_bind]
  cases stop <;> exact ⟨rfl, rfl⟩

/-- The loop ends after at most `top + 1` rounds, and no check fails on the way. -/
theorem fixLoop_ok (on : OnStack n st) (room : n < st.tree.capacity) :
    ∃ out, ∀ bound, st.top < bound →
      fixLoop bound st = .ok out ∧ RBTree.fixLoop bound st = some out := by
  induction high : st.top using Nat.strong_induction_on generalizing st with
  | _ top ih =>
    have live : Live n st.parent := on.parent ▸ on.ancestor 0
    by_cases red : st.tree.isRed st.parent = true
    · have pos := on.top_pos red
      have round := on.fixBody
      rcases made : RBTree.fixBody st with ⟨next, stop⟩
      rw [made] at round
      have room' : n < next.tree.capacity := by
        rw [round.rewires.rewired.capacity]
        exact room
      -- The rounds that are left, once the first has been made.
      have rest : ∃ out, ∀ bound, top ≤ bound →
          (if stop then .ok next else fixLoop bound next) = .ok out ∧
            (if stop then some next else RBTree.fixLoop bound next) = some out := by
        rcases Bool.eq_false_or_eq_true stop with rfl | rfl
        · exact ⟨next, fun _ _ => ⟨rfl, rfl⟩⟩
        rcases round.goesOn with stop | ⟨live, black⟩ | ⟨on, lower⟩
        · cases stop
        · refine ⟨next, fun bound long => ?_⟩
          cases bound with
          | zero => omega
          | succ bound => exact fixLoop_black live room' black
        · have lower : next.top < top := high ▸ lower
          obtain ⟨out, ends⟩ := ih next.top lower on room' rfl
          exact ⟨out, fun bound long => ends bound (Nat.lt_of_lt_of_le lower long)⟩
      obtain ⟨out, ends⟩ := rest
      refine ⟨out, fun bound long => ?_⟩
      cases bound with
      | zero => cases long
      | succ bound =>
        obtain ⟨checked, looped⟩ := @fixLoop_red n st bound next stop on room red made
        rw [checked, looped]
        exact ends bound (Nat.le_of_lt_succ long)
    · refine ⟨st, fun bound long => ?_⟩
      cases bound with
      | zero => cases long
      | succ bound => exact fixLoop_black live room (eq_false_of_ne_true red)

theorem insertFix_ok {t : RBTree} {idx : Nat} {reStack : List Nat}
    (on : OnStack n ⟨t, idx, reStack.length - 1, reStack.getD (reStack.length - 1) 0, reStack⟩)
    (room : n < t.capacity) :
    ∃ u, (∀ bound, reStack.length ≤ bound →
      insertFix bound t idx reStack = .ok u ∧ RBTree.insertFix bound t idx reStack = some u) ∧
      Live n u.rootIdx ∧ u.isRed u.rootIdx = false := by
  have top : reStack.length - 1 < reStack.length := on.top
  by_cases root : reStack.length - 1 = 0
  · refine ⟨t, fun bound long => ?_, on.root, on.black⟩
    rw [insertFix, sub_ok (by omega), ok_bind, if_pos root, RBTree.insertFix, if_pos root]
    exact ⟨rfl, rfl⟩
  · obtain ⟨out, ends⟩ := fixLoop_ok on room
    have rewires := on.fixLoop (ends reStack.length top).2
    have live : Live n out.tree.rootIdx := rewires.rootIdx on.root
    have wide : n < out.tree.capacity := by
      rw [rewires.rewired.capacity]
      exact room
    refine ⟨out.tree.setBlack out.tree.rootIdx, fun bound long => ?_, live,
      setBlack_isRed_same _ _⟩
    obtain ⟨checked, looped⟩ := ends bound (Nat.lt_of_lt_of_le top long)
    rw [insertFix, sub_ok (by omega), ok_bind, if_neg root, stackAt_ok top, ok_bind, checked,
      ok_bind, setBlack_ok live wide, RBTree.insertFix, if_neg root, looped]
    exact ⟨rfl, rfl⟩

end Climb
end Checked

/-- In every state that inserts and `clear` lead to, `insertFix` ends on the ancestors that a
descent has saved: no check fails in it, and it leaves a root that is a black node. -/
theorem climb_stays_on_stack (capacity : Nat) (pos : 1 ≤ capacity) (fresh : Nat → Key × Value)
    (bound : Nat) (mutations : List Mutation) (t : RBTree)
    (reached : Runs.run (mutate bound) (.init capacity fresh) mutations = some t)
    (rounds : Nat) (key : Key) (value : Value) (x : Nat) (reStack : List Nat)
    (notFull : t.isFull = false) (notFirst : ¬ (t.size = 0 ∧ t.rootIdx = 0))
    (fell : findParent t key rounds 0 t.rootIdx [] = some (.parent x reStack)) :
    ∃ linked u, connect (t.place key value) x t.allocIndex.2 = some linked ∧
      (∀ bound, reStack.length ≤ bound →
        Checked.insertFix bound linked t.allocIndex.2 reStack = .ok u ∧
          RBTree.insertFix bound linked t.allocIndex.2 reStack = some u) ∧
      u.rootIdx ≠ 0 ∧ u.isRed u.rootIdx = false := by
  have accounted := (run_accounted pos reached).1
  obtain ⟨room, nonzero⟩ := accounted.below_root notFull notFirst
  obtain ⟨-, -, descends, s, connected⟩ :=
    @Accounted.connects t key value rounds accounted room nonzero x reStack fell
  have on := @Accounted.onStack t key value accounted room nonzero reStack descends x s
  have wide : t.currIdx + 1 < ((t.place key value).link x s (t.currIdx + 1)).capacity := by
    rw [RBTree.link, RBTree.modify_capacity, RBTree.place, allocIndex_of_room room,
      RBTree.modify_capacity]
    exact room
  obtain ⟨u, ends, root, black⟩ := Checked.insertFix_ok on wide
  have slot : t.allocIndex.2 = t.currIdx + 1 := by rw [allocIndex_of_room room]
  rw [slot]
  exact ⟨_, u, connected, ends, root.1, black⟩

/-- The fix-up of 6 below 5 and 4, after a crooked turn has lost a node and `clear`. -/
theorem climb_stays_on_stack_ascending :
    ∃ t, Runs.run (mutate 8) (.init 8 fun _ => (0, 0))
        [.insert 3 30, .insert 1 10, .insert 2 20, .clear, .insert 4 40, .insert 5 50] = some t ∧
      ∃ linked u, connect (t.place 6 60) 2 t.allocIndex.2 = some linked ∧
        (∀ bound, 2 ≤ bound → Checked.insertFix bound linked t.allocIndex.2 [1, 2] = .ok u ∧
          RBTree.insertFix bound linked t.allocIndex.2 [1, 2] = some u) ∧
        u.rootIdx ≠ 0 ∧ u.isRed u.rootIdx = false := by
  refine ⟨(Runs.run (mutate 8) (.init 8 fun _ => (0, 0))
    [.insert 3 30, .insert 1 10, .insert 2 20, .clear, .insert 4 40, .insert 5 50]).get (by decide),
    (Option.some_get _).symm, ?_⟩
  exact climb_stays_on_stack 8 (by decide) _ 8 _ _ (Option.some_get _).symm 8 6 60 2 [1, 2]
    (by decide) (by decide) rfl

end Sometest.RbTreeArray
