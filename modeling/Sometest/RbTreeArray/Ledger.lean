import Sometest.RbTreeArray.Clear
import Sometest.RbTreeArray.FiniteMap

/-! The node array as a ledger of the accepted inserts, whatever has become of the links: a node keeps
its entry until `clear`, so what `search` and `mPrint` find was inserted. -/
namespace Sometest.RbTreeArray

/-- The pairs that were accepted since the last `clear`, beside the array. -/
structure Ledger where
  tree : RBTree
  entries : List (Key × Value)

def Ledger.start (capacity : Nat) (fresh : Nat → Key × Value) : Ledger :=
  ⟨.init capacity fresh, []⟩

def Ledger.mutate (bound : Nat) (l : Ledger) : Mutation → Option Ledger
  | .insert key value => (l.tree.insert bound key value).map fun out =>
      ⟨out.1, if out.2 then l.entries ++ [(key, value)] else l.entries⟩
  | .clear => some ⟨l.tree.clear, []⟩

/-- Slot `i + 1` holds the `i`-th entry. -/
structure Recorded (l : Ledger) : Prop where
  accounted : Accounted l.tree
  count : l.tree.currIdx = l.entries.length
  slot : ∀ i, ∀ inside : i < l.entries.length, l.tree.content (i + 1) = l.entries[i]

section Insert
variable {t u : RBTree} {key : Key} {value : Value} {bound : Nat}

/-- The fix-up moves links, not entries. -/
theorem Accounted.insert_entry (accounted : Accounted t) (room : t.currIdx + 1 < t.capacity)
    (ran : t.insert bound key value = some (u, true)) (i : Nat) :
    u.content i = (t.place key value).content i := by
  have slot : Live (t.currIdx + 1) (t.currIdx + 1) := ⟨Nat.succ_ne_zero _, Nat.le_refl _⟩
  by_cases zero : t.rootIdx = 0
  · rw [accounted.insert_root room zero] at ran
    cases ran
    have rewires : Rewires (t.currIdx + 1) (t.place key value) (t.plant key value) :=
      (Rewires.refl.setBlack slot).reroot slot
    obtain ⟨sameKey, sameValue⟩ := rewires.rewired.entry i
    exact Prod.ext sameKey sameValue
  · rw [accounted.insert_eq room zero] at ran
    obtain ⟨descent, fell, finished⟩ := Option.bind_eq_some_iff.mp ran
    cases descent with
    | present => cases finished
    | parent x reStack =>
      obtain ⟨live, -, descends, s, connected⟩ :=
        @Accounted.connects t key value bound accounted room zero x reStack fell
      have allocated : t.allocIndex.2 = t.currIdx + 1 := by rw [allocIndex_of_room room]
      rw [RBTree.finishInsert, allocated, connected, Option.elim_some] at finished
      obtain ⟨fixed, climbed, same⟩ := Option.map_eq_some_iff.mp finished
      cases same
      have on := @Accounted.onStack t key value accounted room zero reStack descends x s
      have whole : Rewires (t.currIdx + 1) (t.place key value) fixed :=
        (Rewires.refl.link s (live.mono (Nat.le_succ _)) (Nat.le_refl _)).trans
          (on.insertFix climbed).1
      obtain ⟨sameKey, sameValue⟩ := whole.rewired.entry i
      exact Prod.ext sameKey sameValue

theorem Accounted.insert_old (accounted : Accounted t) (room : t.currIdx + 1 < t.capacity)
    (ran : t.insert bound key value = some (u, true)) {i : Nat} (old : i ≤ t.currIdx) :
    u.content i = t.content i := by
  rw [accounted.insert_entry room ran, RBTree.content, place_other room (by omega), RBTree.content]

end Insert

section Run
variable {capacity bound : Nat} {l l' : Ledger}

theorem recorded_start (pos : 1 ≤ capacity) (fresh : Nat → Key × Value) :
    Recorded (.start capacity fresh) where
  accounted := accounted_init pos fresh
  count := rfl
  slot := nofun

theorem Recorded.step (recorded : Recorded l) {mutation : Mutation}
    (stepped : l.mutate bound mutation = some l') : Recorded l' := by
  cases mutation with
  | clear =>
    cases stepped
    exact ⟨recorded.accounted.clear, rfl, nofun⟩
  | insert key value =>
    obtain ⟨⟨u, ok⟩, ran, rfl⟩ := Option.map_eq_some_iff.mp stepped
    rcases recorded.accounted.insert ran with ⟨rfl, rfl, -⟩ | ⟨rfl, room, -, books⟩
    · exact recorded
    · have count := recorded.count
      refine ⟨books.accounted, ?_, fun i inside => ?_⟩
      · simp only [books.currIdx, count, if_true, List.length_append, List.length_singleton]
      · simp only [if_true, List.length_append, List.length_singleton] at inside ⊢
        by_cases last : i = l.entries.length
        · subst last
          have newest : u.content (l.entries.length + 1) = (key, value) := by
            rw [← count, ← books.currIdx, RBTree.content, books.stored.1, books.stored.2]
          simpa using newest
        · have old : i < l.entries.length := by omega
          rw [List.getElem_append_left old, ← recorded.slot i old]
          exact recorded.accounted.insert_old room ran (by omega)

theorem Recorded.mem (recorded : Recorded l) {i : Nat} (live : Live l.tree.currIdx i) :
    l.tree.content i ∈ l.entries := by
  obtain ⟨j, rfl⟩ := Nat.exists_eq_succ_of_ne_zero live.1
  have inside : j < l.entries.length := recorded.count ▸ live.2
  rw [recorded.slot j inside]
  exact List.getElem_mem inside

theorem searchFrom_key {t : RBTree} {key : Key} {p i : Nat}
    (found : t.searchFrom key bound p = some (some i)) : (t.root i).key = key := by
  induction bound generalizing p with
  | zero => contradiction
  | succ bound ih =>
    rw [RBTree.searchFrom] at found
    split at found
    · split at found
      · exact ih found
      · rename_i notLess
        split at found
        · exact ih found
        · rename_i notMore
          cases found
          exact le_antisymm (le_of_not_gt notMore) (le_of_not_gt notLess)
    · cases found

/-- The links keep the walk on allocated nodes. -/
theorem mPrintImpl_live {t : RBTree} (linked : Linked t.currIdx t) {p : Nat} (small : p ≤ t.currIdx)
    {printed : List Value} (walked : t.mPrintImpl bound p = some printed) :
    ∀ v ∈ printed, ∃ i, Live t.currIdx i ∧ (t.root i).value = v := by
  induction bound generalizing p printed with
  | zero => contradiction
  | succ bound ih =>
    rw [RBTree.mPrintImpl] at walked
    split at walked
    · cases walked
      exact List.forall_mem_nil _
    · rename_i nonzero
      simp only [Option.bind_eq_bind, Option.bind_eq_some_iff, Option.some.injEq] at walked
      obtain ⟨left, goLeft, right, goRight, rfl⟩ := walked
      intro v member
      rcases List.mem_append.mp member with before | after
      · exact ih (linked p .left) goLeft v before
      · rcases List.mem_cons.mp after with rfl | after
        · exact ⟨p, ⟨nonzero, small⟩, rfl⟩
        · exact ih (linked p .right) goRight v after

theorem recorded_run (pos : 1 ≤ capacity) (fresh : Nat → Key × Value) {mutations : List Mutation}
    (reached : Runs.run (Ledger.mutate bound) (.start capacity fresh) mutations = some l) :
    Recorded l :=
  (Runs.invariant (fun _ _ _ recorded stepped => recorded.step stepped) (recorded_start pos fresh)
    mutations).last reached

end Run

/-- In every state that inserts and `clear` lead to, whatever its links: the nodes hold the accepted
pairs in the order of their inserts, `search` returns one of them with the key it was asked for, and
`mPrint` prints no other value. -/
theorem nodes_are_ledger (capacity : Nat) (pos : 1 ≤ capacity) (fresh : Nat → Key × Value)
    (bound : Nat) (mutations : List Mutation) (l : Ledger)
    (reached : Runs.run (Ledger.mutate bound) (.start capacity fresh) mutations = some l) :
    ((List.range l.tree.currIdx).map fun i => l.tree.content (i + 1)) = l.entries ∧
    (∀ bound key i, l.tree.search bound key = some (some i) →
      ∃ v, l.tree.content i = (key, v) ∧ (key, v) ∈ l.entries) ∧
    ∀ bound printed, l.tree.mPrint bound = some printed →
      ∀ v ∈ printed, ∃ key, (key, v) ∈ l.entries := by
  have recorded := recorded_run pos fresh reached
  refine ⟨?_, ?_, ?_⟩
  · apply List.ext_getElem
    · rw [List.length_map, List.length_range, recorded.count]
    · intro i _ inside
      rw [List.getElem_map, List.getElem_range, recorded.slot i inside]
  · intro bound key i found
    have member := recorded.mem (searchFrom_live found)
    rw [RBTree.content, searchFrom_key found] at member ⊢
    exact ⟨_, rfl, member⟩
  · intro bound printed walked v member
    obtain ⟨i, live, rfl⟩ :=
      mPrintImpl_live recorded.accounted.linked recorded.accounted.root_le walked v member
    exact ⟨_, recorded.mem live⟩

/-- The third insert loses its node; the entry stays where it is. -/
theorem nodes_are_ledger_crooked :
    ∃ l, Runs.run (Ledger.mutate 8) (.start 8 fun _ => (0, 0))
        [.insert 9 90, .clear, .insert 3 30, .insert 1 10, .insert 2 20] = some l ∧
      l.entries = [(3, 30), (1, 10), (2, 20)] ∧
      ((List.range l.tree.currIdx).map fun i => l.tree.content (i + 1)) = l.entries := by
  have ran : (Runs.run (Ledger.mutate 8) (.start 8 fun _ => (0, 0))
      [.insert 9 90, .clear, .insert 3 30, .insert 1 10, .insert 2 20]).map (·.entries) =
        some [(3, 30), (1, 10), (2, 20)] := by decide
  obtain ⟨l, reached, entries⟩ := Option.map_eq_some_iff.mp ran
  exact ⟨l, reached, entries, (nodes_are_ledger 8 (by decide) _ 8 _ l reached).1⟩

end Sometest.RbTreeArray
