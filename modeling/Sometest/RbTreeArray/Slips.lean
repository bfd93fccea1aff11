import Sometest.RbTreeArray.Turn

/-! The two slips of the rotation. An inner rotation drops the climbing node, and
a skewed one hangs the rotated subtree on the wrong side of the
great-grandparent, next to the lowered grandparent it contains. -/
open RBTree (RBNode RBColor)

namespace Sometest.RbTreeArray
open Zipper (Side Frame Fits join plug Sorted descend)

section Rotation
variable {y : Shape} {p g : Frame Entry} {rest : List (Frame Entry)}

theorem sorted_inj {t : Shape} (sorted : Sorted Entry.key t) {d e : Entry} (hd : d ∈ t.toList)
    (he : e ∈ t.toList) (same : d.key = e.key) : d = e := by
  have nodup : (t.toList.map Entry.key).Nodup :=
    List.pairwise_map.mpr (sorted.imp fun less => ne_of_lt less)
  exact List.inj_on_of_nodup_map nodup hd he same

/-- The climbing node has no link after an inner rotation. -/
theorem attach_inner_loses (distinct : Distinct (plug y (p :: g :: rest))) (nonempty : index y ≠ 0)
    (inner : p.side ≠ g.side) {d : Entry}
    (member : d ∈ (attach g.side (raised y p g) (lowered y p g) rest).toList) : d.idx ≠ index y := by
  have apart := apart_of_distinct distinct
  obtain ⟨e, root, same⟩ := index_mem nonempty
  have below : d ∈ (raised y p g).toList ∨ d ∈ (lowered y p g).toList ∨ d ∈ entries rest :=
    attach_sub member
  simp only [raised, lowered, Zipper.mem_join] at below
  have hidden : d ∈ (kept y p g).toList ∨ d ∈ (moved y p g).toList → d.idx ≠ index y :=
    index_not_kept_or_moved distinct nonempty inner
  have near : p.val.idx ≠ index y := same ▸ (apart.focus e root).1.symm
  have grand : g.val.idx ≠ index y := same ▸ (apart.focus e root).2.symm
  have far : d ∈ g.sibling.toList → d.idx ≠ index y := fun inside =>
    same ▸ (apart.focus_far e root d inside).symm
  have around : d ∈ entries rest → d.idx ≠ index y := fun inside =>
    same ▸ (apart.inside_around e (.inl root) d inside).symm
  rcases below with (m | rfl | m | rfl | m) | (m | rfl | m) | m
  · exact hidden (.inl m)
  · exact near
  · exact hidden (.inr m)
  · exact grand
  · exact far m
  · exact hidden (.inr m)
  · exact grand
  · exact far m
  · exact around m

theorem parent_not_lowered (distinct : Distinct (plug y (p :: g :: rest))) {d : Entry}
    (member : d ∈ (lowered y p g).toList) : d ≠ p.val := by
  have apart := apart_of_distinct distinct
  rintro rfl
  rcases Zipper.mem_join.mp member with inside | same | inside
  · exact (moved_sub inside).elim (fun m => (apart.focus _ m).1 rfl) fun m => (apart.near _ m).1 rfl
  · exact apart.ne (congrArg Entry.idx same)
  · exact (apart.far _ inside).1 rfl

theorem lowered_sub {d : Entry} (member : d ∈ (lowered y p g).toList) :
    d ∈ (plug y (p :: g :: rest)).toList := by
  have whole : d ∈ (plug (plug y [p, g]) rest).toList :=
    mem_plug.mpr (.inl (raised_sub (.inr member)))
  exact whole

/-- A search for the raised parent turns to the other side of the
great-grandparent, where only the lowered grandparent is. -/
theorem attach_skewed_hides {gg : Frame Entry} (distinct : Distinct (plug y (p :: g :: gg :: rest)))
    (sorted : Sorted Entry.key (plug y (p :: g :: gg :: rest))) (skewed : gg.side ≠ g.side) :
    Zipper.search Entry.key p.val.key
      (attach g.side (raised y p g) (lowered y p g) (gg :: rest)) = none := by
  have parent : p.val ∈ (plug y [p, g, gg]).toList := by
    rw [mem_plug]
    simp
  have ordered : Sorted Entry.key (plug (plug y [p, g, gg]) rest) := sorted
  have nearby : Sorted Entry.key (gg.fill (plug y [p, g])) := ordered.fill_of_plug
  have inside : p.val ∈ (plug y [p, g]).toList := by
    rw [mem_plug]
    simp
  have absent : ∀ d ∈ (lowered y p g).toList, d.key ≠ p.val.key := by
    intro d member same
    refine parent_not_lowered distinct member (sorted_inj sorted (lowered_sub member) ?_ same)
    rw [mem_plug]
    simp
  have missed := Zipper.search_eq_none absent
  rw [attach, if_neg skewed, Zipper.search_plug ordered parent]
  cases side : gg.side with
  | left =>
    obtain other : g.side = .right := by
      cases far : g.side
      · exact absurd (side.trans far.symm) skewed
      · rfl
    rw [Frame.fill, side] at nearby
    have less := (Zipper.sorted_node.mp nearby).2.2.1 p.val inside
    simp only [other, join, Zipper.search, if_neg (not_lt_of_gt less), if_pos less, missed]
  | right =>
    obtain other : g.side = .left := by
      cases far : g.side
      · rfl
      · exact absurd (side.trans far.symm) skewed
    rw [Frame.fill, side] at nearby
    have less := (Zipper.sorted_node.mp nearby).2.2.2.1 p.val inside
    simp only [other, join, Zipper.search, if_pos less, missed]

/-- The lowered grandparent has two parents after a skewed rotation. -/
theorem attach_skewed_shares {gg : Frame Entry} (skewed : gg.side ≠ g.side) :
    ¬ Distinct (attach g.side (raised y p g) (lowered y p g) (gg :: rest)) := by
  intro distinct
  rw [attach, if_neg skewed] at distinct
  have top := distinct_focus distinct
  have nodup : (((raised y p g).toList ++ (lowered y p g).toList).map Entry.idx).Nodup := by
    have perm := (toList_join_perm g.side gg.color (raised y p g) (lowered y p g) gg.val).map Entry.idx
    have whole := perm.nodup_iff.mp top
    rw [List.map_cons, List.nodup_cons] at whole
    exact whole.2
  have right : g.val ∈ (lowered y p g).toList := Zipper.mem_join.mpr (.inr (.inl rfl))
  have left : g.val ∈ (raised y p g).toList := Zipper.mem_join.mpr (.inr (.inr right))
  rw [List.map_append, List.nodup_append] at nodup
  exact nodup.2.2 _ (List.mem_map_of_mem left) _ (List.mem_map_of_mem right) rfl

end Rotation

/-- Some way from the root of the shape down to a nil link passes `k` black nodes. -/
inductive ShapePath : Shape → Nat → Prop where
  | nil : ShapePath .nil 0
  | down (s : Side) : ShapePath t k → ShapePath (join s c t e u) (k + if c = .red then 0 else 1)

theorem ShapePath.balanced {t : Shape} (path : ShapePath t k) (balanced : t.Balanced c n) : k = n := by
  induction path generalizing c n with
  | nil => cases balanced; rfl
  | down s path ih =>
    cases s with
    | left =>
      cases balanced with
      | red near _ => exact ih near
      | black near _ => rw [ih near]; rfl
    | right =>
      cases balanced with
      | red _ near => exact ih near
      | black _ near => rw [ih near]; rfl

theorem shapePath_exists {t : Shape} (balanced : t.Balanced c n) : ShapePath t n := by
  induction balanced with
  | nil => exact .nil
  | red _ _ near _ => exact .down (c := .red) .left near
  | black _ _ near _ => exact .down (c := .black) .left near

def blacks : List (Frame Entry) → Nat
  | [] => 0
  | f :: rest => (if f.color = .red then 0 else 1) + blacks rest

theorem shapePath_plug {t : Shape} (path : ShapePath t k) (fs : List (Frame Entry)) :
    ShapePath (plug t fs) (k + blacks fs) := by
  induction fs generalizing t k with
  | nil => exact path
  | cons f rest ih =>
    rw [Zipper.plug_cons, blacks, ← Nat.add_assoc]
    exact ih (.down f.side path)

theorem shapePath_far {s : Side} {c : RBColor} {t u : Shape} {e : Entry} (path : ShapePath u k) :
    ShapePath (join s c t e u) (k + if c = .red then 0 else 1) := by
  have whole : ShapePath (join s.other c u e t) (k + if c = .red then 0 else 1) := .down s.other path
  cases s
  · exact whole
  · exact whole

/-- The raised subtree is one black node higher than the lowered one beside it. -/
theorem attach_skewed_heights {y : Shape} {p g gg : Frame Entry} {rest : List (Frame Entry)}
    (skewed : gg.side ≠ g.side) (top : (raised y p g).Balanced .black (m + 1))
    (low : (lowered y p g).Balanced .red m) :
    ∃ k, ShapePath (attach g.side (raised y p g) (lowered y p g) (gg :: rest)) k ∧
      ShapePath (attach g.side (raised y p g) (lowered y p g) (gg :: rest)) (k + 1) := by
  rw [attach, if_neg skewed]
  refine ⟨_, shapePath_plug (shapePath_far (shapePath_exists low)) rest, ?_⟩
  have high := shapePath_plug
    (ShapePath.down (c := gg.color) (e := gg.val) (u := lowered y p g) g.side (shapePath_exists top)) rest
  convert high using 1
  omega

section Climb
variable {x : Shape} {fs : List (Frame Entry)} {r : Turn}

/-- Whatever the turn, the climb loses a node or hides one from the search. -/
theorem climb_slips (fits : Fits fs .black n) (balanced : x.Balanced .red n)
    (nonzero : ∀ e ∈ (plug x fs).toList, e.idx ≠ 0) (distinct : Distinct (plug x fs))
    (sorted : Sorted Entry.key (plug x fs)) (turn : turnOf fs = some r) (crooked : ¬ r.Straight) :
    (∃ e ∈ (plug x fs).toList, Zipper.search Entry.key e.key (climb x fs) = none) ∧
      ((∃ e ∈ (plug x fs).toList, ∀ d ∈ (climb x fs).toList, d.idx ≠ e.idx) ∨
        ¬ Distinct (climb x fs)) := by
  obtain ⟨absent, -⟩ | ⟨y, p, g, rest, m, turn', rotated, contents, red, -, -, -⟩ :=
    climb_cases fits balanced
  · exact absurd (turn.symm.trans absent) (by simp)
  obtain rfl : r = _ := Option.some.inj (turn.symm.trans turn')
  rw [Distinct, ← contents] at distinct
  rw [Sorted, ← contents] at sorted
  rw [← contents] at nonzero
  rw [rotated, ← contents]
  by_cases inner : p.side = g.side
  · -- an outer rotation that is not straight is skewed
    cases rest with
    | nil => exact absurd ⟨inner, fun s absent => by simp at absent⟩ crooked
    | cons gg tail =>
      have skewed : gg.side ≠ g.side := fun upright =>
        crooked ⟨inner, fun s above => by cases above; exact upright⟩
      refine ⟨⟨p.val, ?_, attach_skewed_hides distinct sorted skewed⟩,
        .inr (attach_skewed_shares skewed)⟩
      rw [mem_plug]
      simp
  · have nonempty : y ≠ .nil := by
      rintro rfl
      cases red
    obtain ⟨e, root, same⟩ := root_mem nonempty
    have inTree : e ∈ (plug y (p :: g :: rest)).toList := mem_plug.mpr (.inl root)
    have rooted : index y ≠ 0 := same ▸ nonzero e inTree
    have lost : ∀ d ∈ (attach g.side (raised y p g) (lowered y p g) rest).toList, d.idx ≠ e.idx :=
      fun d member => same ▸ attach_inner_loses distinct rooted inner member
    refine ⟨⟨e, inTree, Zipper.search_eq_none fun d member key => ?_⟩, .inl ⟨e, inTree, lost⟩⟩
    exact lost d member (congrArg Entry.idx (sorted_inj sorted (rotated_sub member) inTree key))

theorem climb_skewed_heights (fits : Fits fs .black n) (balanced : x.Balanced .red n)
    (turn : turnOf fs = some r) (skewed : ¬ r.Upright) :
    ∃ k, ShapePath (climb x fs) k ∧ ShapePath (climb x fs) (k + 1) := by
  obtain ⟨absent, -⟩ | ⟨y, p, g, rest, m, turn', rotated, -, -, -, top, low⟩ :=
    climb_cases fits balanced
  · exact absurd (turn.symm.trans absent) (by simp)
  obtain rfl : r = _ := Option.some.inj (turn.symm.trans turn')
  rw [rotated]
  cases rest with
  | nil => exact absurd (fun s absent => by simp at absent) skewed
  | cons gg tail =>
    refine attach_skewed_heights (fun upright => skewed fun s above => ?_) top low
    cases above
    exact upright

end Climb

/-- A result of the search loop is the search's result in the unfolding, also
when the links share a subtree. -/
theorem searchFrom_sound {t : RBTree} {s : Shape} {key : Key} (held : Holds t.root s)
    (live : ∀ e ∈ s.toList, e.idx ≤ t.currIdx) {bound : Nat} {out : Option Nat}
    (found : t.searchFrom key bound (index s) = some out) :
    out = (Zipper.search Entry.key key s).map Entry.idx := by
  induction s generalizing bound with
  | nil =>
    cases bound with
    | zero => simp [RBTree.searchFrom] at found
    | succ bound => simpa [RBTree.searchFrom, Zipper.search, eq_comm] using found
  | node c l e r ihl ihr =>
    cases bound with
    | zero => simp [RBTree.searchFrom] at found
    | succ bound =>
      rw [searchFrom_node held (live e (by simp))] at found
      obtain ⟨-, -, left, right⟩ := held
      simp only [RBNode.toList_node, List.mem_append, List.mem_cons] at live
      simp only [Zipper.search]
      split at found
      · rename_i less
        rw [if_pos less]
        exact ihr right (fun d m => live d (.inr (.inr m))) found
      · rename_i notLess
        rw [if_neg notLess]
        split at found
        · rename_i less
          rw [if_pos less]
          exact ihl left (fun d m => live d (.inl m)) found
        · rename_i notGreater
          rw [if_neg notGreater]
          cases found
          rfl

@[simp] theorem search_setBlack (key : Key) (s : Shape) :
    Zipper.search Entry.key key s.setBlack = Zipper.search Entry.key key s := by cases s <;> rfl

section Crooked
variable {t : RBTree} {s : Shape} {key : Key} {fs : List (Frame Entry)} {r : Turn}

theorem mem_leaf (fell : descend Entry.key key s [] = some fs) {e d : Entry} :
    d ∈ (plug (leaf e) fs).toList ↔ d = e ∨ d ∈ s.toList := by
  rw [mem_plug, mem_context fell]
  simp [leaf]

theorem inserted_slips (rep : Represents t s) (fell : descend Entry.key key s [] = some fs)
    (turn : turnOf fs = some r) (crooked : ¬ r.Straight) (value : Value) :
    (∃ e, (e = newEntry t key value ∨ e ∈ s.toList) ∧
      Zipper.search Entry.key e.key (inserted (newEntry t key value) fs) = none) ∧
    ((∃ e, (e = newEntry t key value ∨ e ∈ s.toList) ∧
        ∀ d ∈ (inserted (newEntry t key value) fs).toList, d.idx ≠ e.idx) ∨
      ¬ Distinct (inserted (newEntry t key value) fs)) := by
  have nonzero : ∀ e ∈ (plug (leaf (newEntry t key value)) fs).toList, e.idx ≠ 0 := by
    intro e member
    rcases (mem_leaf fell).mp member with rfl | old
    · exact Nat.succ_ne_zero _
    · exact rep.nonzero old
  have ordered : Sorted Entry.key (plug (leaf (newEntry t key value)) fs) :=
    Zipper.sorted_insert rep.sorted fell
  have slips := climb_slips (fits_leaf rep fell) (balanced_leaf _) nonzero
    (distinct_leaf rep fell) ordered turn crooked
  simpa only [mem_leaf fell, inserted, search_setBlack, toList_setBlack, Distinct] using slips

end Crooked
end Sometest.RbTreeArray
