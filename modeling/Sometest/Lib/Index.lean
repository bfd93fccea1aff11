import Mathlib.Logic.Function.Basic

/-! A secondary index of a table: a map from keys to the rows that are selected, which
the operations on the rows keep up to date. No program is named here. -/

/-- The map leads from each key to the one selected row that has it. -/
def Indexes {I K R : Type*} (rows : I → Option R) (key : R → K) (selected : R → Prop)
    (index : K → Option I) : Prop :=
  ∀ k i, index k = some i ↔ ∃ row, rows i = some row ∧ key row = k ∧ selected row

namespace Indexes
variable {I K R : Type*} {rows : I → Option R} {key : R → K} {selected : R → Prop}
  {index : K → Option I} {i j : I} {row row' : R}

theorem found (indexes : Indexes rows key selected index) (stored : rows i = some row)
    (here : selected row) : index (key row) = some i :=
  (indexes _ _).mpr ⟨row, stored, rfl, here⟩

theorem unique (indexes : Indexes rows key selected index) (one : rows i = some row)
    (other : rows j = some row') (here : selected row) (there : selected row')
    (same : key row = key row') : i = j := by
  have first := indexes.found one here
  rw [same, indexes.found other there] at first
  cases first
  rfl

theorem out_of (stored : rows i = some row) (out : ¬ selected row) :
    ∀ row, rows i = some row → ¬ selected row := by
  intro other found
  cases stored.symm.trans found
  exact out

variable [DecidableEq I]

theorem row_update {x : I} {y : R} : Function.update rows i (some row') x = some y ↔
    x = i ∧ y = row' ∨ x ≠ i ∧ rows x = some y := by
  by_cases same : x = i
  · subst same
    rw [Function.update_self, Option.some.injEq]
    constructor
    · exact fun eq => .inl ⟨rfl, eq.symm⟩
    · rintro (⟨-, eq⟩ | ⟨ne, -⟩)
      · exact eq.symm
      · exact absurd rfl ne
  · rw [Function.update_of_ne same]
    constructor
    · exact fun found => .inr ⟨same, found⟩
    · rintro (⟨eq, -⟩ | ⟨-, found⟩)
      · exact absurd eq same
      · exact found

theorem selected_update {k : K} {x : I} :
    (∃ row, Function.update rows i (some row') x = some row ∧ key row = k ∧ selected row) ↔
      x = i ∧ key row' = k ∧ selected row' ∨
        x ≠ i ∧ ∃ row, rows x = some row ∧ key row = k ∧ selected row := by
  constructor
  · rintro ⟨row, stored, chosen⟩
    rcases row_update.mp stored with ⟨same, rfl⟩ | ⟨ne, old⟩
    · exact .inl ⟨same, chosen⟩
    · exact .inr ⟨ne, row, old, chosen⟩
  · rintro (⟨same, chosen⟩ | ⟨ne, row, old, chosen⟩)
    · exact ⟨row', row_update.mpr (.inl ⟨same, rfl⟩), chosen⟩
    · exact ⟨row, row_update.mpr (.inr ⟨ne, old⟩), chosen⟩

/-- Under a key that the row has neither before nor after, selected, nothing changes. -/
theorem other (indexes : Indexes rows key selected index) {k : K}
    (before : ∀ row, rows i = some row → key row = k → ¬ selected row)
    (after : key row' = k → ¬ selected row') (x : I) :
    index k = some x ↔
      ∃ row, Function.update rows i (some row') x = some row ∧ key row = k ∧ selected row := by
  rw [selected_update, indexes k x]
  constructor
  · rintro ⟨row, stored, same, chosen⟩
    have ne : x ≠ i := fun eq => before row (eq ▸ stored) same chosen
    exact .inr ⟨ne, row, stored, same, chosen⟩
  · rintro (⟨-, same, chosen⟩ | ⟨-, old⟩)
    · exact absurd chosen (after same)
    · exact old

/-- A row that is selected neither before nor after. -/
theorem skip (indexes : Indexes rows key selected index)
    (before : ∀ row, rows i = some row → ¬ selected row) (after : ¬ selected row') :
    Indexes (Function.update rows i (some row')) key selected index := by
  intro k x
  exact indexes.other (fun row stored _ => before row stored) (fun _ => after) x

theorem keep (indexes : Indexes rows key selected index) (stored : rows i = some row)
    (before : selected row) (after : selected row') (same : key row' = key row) :
    Indexes (Function.update rows i (some row')) key selected index := by
  intro k x
  rw [selected_update, indexes k x]
  constructor
  · rintro ⟨other, found, eq, chosen⟩
    by_cases here : x = i
    · subst here
      cases stored.symm.trans found
      exact .inl ⟨rfl, same.trans eq, after⟩
    · exact .inr ⟨here, other, found, eq, chosen⟩
  · rintro (⟨rfl, eq, -⟩ | ⟨-, old⟩)
    · exact ⟨row, stored, same.symm.trans eq, before⟩
    · exact old

variable [DecidableEq K]

theorem select (indexes : Indexes rows key selected index)
    (before : ∀ row, rows i = some row → ¬ selected row) (after : selected row')
    (free : index (key row') = none) :
    Indexes (Function.update rows i (some row')) key selected
      (Function.update index (key row') (some i)) := by
  intro k x
  by_cases here : k = key row'
  · subst here
    rw [Function.update_self, Option.some.injEq, selected_update]
    constructor
    · rintro rfl
      exact .inl ⟨rfl, rfl, after⟩
    · rintro (⟨rfl, -⟩ | ⟨-, row, old, same, chosen⟩)
      · rfl
      · have taken := indexes.found old chosen
        rw [same, free] at taken
        cases taken
  · rw [Function.update_of_ne here]
    exact indexes.other (fun row stored _ => before row stored) (fun same => absurd same.symm here) x

theorem deselect (indexes : Indexes rows key selected index) (stored : rows i = some row)
    (before : selected row) (after : ¬ selected row') :
    Indexes (Function.update rows i (some row')) key selected
      (Function.update index (key row) none) := by
  intro k x
  by_cases here : k = key row
  · subst here
    rw [Function.update_self, selected_update]
    constructor
    · intro wrong
      cases wrong
    · rintro (⟨-, -, chosen⟩ | ⟨ne, other, old, same, chosen⟩)
      · exact absurd chosen after
      · exact absurd (indexes.unique old stored chosen before same) ne
  · rw [Function.update_of_ne here]
    refine indexes.other (fun other found same => ?_) (fun _ => after) x
    cases stored.symm.trans found
    exact absurd same.symm here

end Indexes

/-- Rows are referred to by their key, and only while they are allowed. There may be
several references to a row or none. -/
def Refers {I K R : Type*} (rows : I → Option R) (key : R → K) (allowed : R → Prop)
    (refs : K → I → Prop) : Prop :=
  ∀ k i, refs k i → ∃ row, rows i = some row ∧ key row = k ∧ allowed row

namespace Refers
variable {I K R : Type*} {rows : I → Option R} {key : R → K} {allowed : R → Prop}
  {refs refs' : K → I → Prop} {i : I} {row row' : R}

theorem mono (refers : Refers rows key allowed refs) (fewer : ∀ k i, refs' k i → refs k i) :
    Refers rows key allowed refs' := fun k i here => refers k i (fewer k i here)

theorem row_of (refers : Refers rows key allowed refs) {k : K} (here : refs k i)
    (stored : rows i = some row) : key row = k ∧ allowed row := by
  obtain ⟨other, found, same, there⟩ := refers k i here
  cases found.symm.trans stored
  exact ⟨same, there⟩

theorem add (refers : Refers rows key allowed refs) (stored : rows i = some row) (here : allowed row)
    (more : ∀ k j, refs' k j → refs k j ∨ k = key row ∧ j = i) :
    Refers rows key allowed refs' := by
  intro k j there
  rcases more k j there with old | ⟨rfl, rfl⟩
  · exact refers k j old
  · exact ⟨row, stored, rfl, here⟩

variable [DecidableEq I]

theorem update (refers : Refers rows key allowed refs)
    (after : ∀ k, refs k i → key row' = k ∧ allowed row') :
    Refers (Function.update rows i (some row')) key allowed refs := by
  intro k j here
  by_cases same : j = i
  · subst same
    exact ⟨row', Function.update_self .., after k here⟩
  · obtain ⟨other, found, rest⟩ := refers k j here
    exact ⟨other, by rw [Function.update_of_ne same, found], rest⟩

/-- An allowed row stays allowed under its key. -/
theorem keep (refers : Refers rows key allowed refs) (stored : rows i = some row)
    (after : allowed row') (same : key row' = key row) :
    Refers (Function.update rows i (some row')) key allowed refs :=
  refers.update fun _ here => ⟨same.trans (refers.row_of here stored).1, after⟩

/-- Nobody refers to a row that is not allowed. -/
theorem skip (refers : Refers rows key allowed refs)
    (before : ∀ row, rows i = some row → ¬ allowed row) :
    Refers (Function.update rows i (some row')) key allowed refs := by
  apply refers.update
  intro k here
  obtain ⟨row, found, -, there⟩ := refers k i here
  exact absurd there (before row found)

end Refers
