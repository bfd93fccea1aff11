import Mathlib.Data.List.Basic

/-! A stream of packets that arrives in arbitrary pieces. After `n` symbols the
packets whose last symbol is among them have arrived, and the symbols of the
next packet that are there already are pending. No program is named here. -/
namespace Framing
variable {α : Type*}

def arrived : List (List α) → Nat → List (List α)
  | [], _ => []
  | p :: rest, n => if p.length ≤ n then p :: arrived rest (n - p.length) else []

def pending : List (List α) → Nat → List α
  | [], _ => []
  | p :: rest, n => if p.length ≤ n then pending rest (n - p.length) else p.take n

section Equations
variable {p : List α} {rest : List (List α)} {n : Nat}

@[simp] theorem arrived_nil (n : Nat) : arrived ([] : List (List α)) n = [] := rfl

@[simp] theorem pending_nil (n : Nat) : pending ([] : List (List α)) n = [] := rfl

theorem arrived_complete (complete : p.length ≤ n) :
    arrived (p :: rest) n = p :: arrived rest (n - p.length) := by simp only [arrived, if_pos complete]

theorem arrived_short (short : n < p.length) : arrived (p :: rest) n = [] := by
  simp only [arrived, if_neg (Nat.not_le.mpr short)]

theorem pending_complete (complete : p.length ≤ n) :
    pending (p :: rest) n = pending rest (n - p.length) := by simp only [pending, if_pos complete]

theorem pending_short (short : n < p.length) : pending (p :: rest) n = p.take n := by
  simp only [pending, if_neg (Nat.not_le.mpr short)]

end Equations

theorem arrived_zero {ps : List (List α)} (nonempty : ∀ p ∈ ps, p ≠ []) : arrived ps 0 = [] := by
  cases ps with
  | nil => rfl
  | cons p rest => exact arrived_short (List.length_pos_iff.mpr (nonempty p (by simp)))

theorem pending_zero (ps : List (List α)) : pending ps 0 = [] := by
  induction ps with
  | nil => rfl
  | cons p rest ih =>
    simp only [pending]
    split
    · simpa using ih
    · rfl

theorem arrived_prefix (ps : List (List α)) (n : Nat) : arrived ps n <+: ps := by
  induction ps generalizing n with
  | nil => exact List.nil_prefix
  | cons p rest ih =>
    simp only [arrived]
    split
    · exact List.cons_prefix_cons.mpr ⟨rfl, ih _⟩
    · exact List.nil_prefix

/-- The arrived packets are the longest run of packets that fits into `n` symbols. -/
theorem le_arrived_length {ps : List (List α)} {n k : Nat} :
    k ≤ (arrived ps n).length ↔ k ≤ ps.length ∧ (ps.take k).flatten.length ≤ n := by
  induction ps generalizing n k with
  | nil => simp +contextual
  | cons p rest ih =>
    cases k with
    | zero => simp
    | succ k =>
      simp only [arrived, List.take_succ_cons, List.flatten_cons, List.length_append, List.length_cons]
      split
      · simp only [List.length_cons, Nat.add_le_add_iff_right, ih]
        omega
      · simp only [List.length_nil]
        omega

/-- Nothing is lost: arrived packets and pending symbols are the stream so far. -/
theorem arrived_append_pending (ps : List (List α)) (n : Nat) :
    (arrived ps n).flatten ++ pending ps n = ps.flatten.take n := by
  induction ps generalizing n with
  | nil => simp
  | cons p rest ih =>
    by_cases complete : p.length ≤ n
    · rw [arrived_complete complete, pending_complete complete, List.flatten_cons, List.flatten_cons,
        List.append_assoc, ih, List.take_append, List.take_of_length_le complete]
    · have short := Nat.not_le.mp complete
      rw [arrived_short short, pending_short short, List.flatten_cons,
        List.take_append_of_le_length (Nat.le_of_lt short)]
      rfl

/-- The pending symbols never make up a whole packet. -/
theorem pending_lt {ps : List (List α)} {n bound : Nat} (pos : 0 < bound)
    (short : ∀ p ∈ ps, p.length ≤ bound) : (pending ps n).length < bound := by
  induction ps generalizing n with
  | nil => exact pos
  | cons p rest ih =>
    simp only [pending]
    split
    · exact ih fun q member => short q (List.mem_cons_of_mem _ member)
    · have fits := short p (by simp)
      simp only [List.length_take]
      omega

/-- The packets that have not arrived, with what is pending of the first. -/
def remaining (ps : List (List α)) (n : Nat) : List (List α) := ps.drop (arrived ps n).length

theorem remaining_complete {p : List α} {rest : List (List α)} {n : Nat} (complete : p.length ≤ n) :
    remaining (p :: rest) n = remaining rest (n - p.length) := by
  simp only [remaining, arrived_complete complete, List.length_cons, List.drop_succ_cons]

theorem remaining_short {p : List α} {rest : List (List α)} {n : Nat} (short : n < p.length) :
    remaining (p :: rest) n = p :: rest := by
  simp only [remaining, arrived_short short, List.length_nil, List.drop_zero]

/-- More symbols continue where the pending ones stop. -/
theorem arrived_add (ps : List (List α)) (n m : Nat) (inside : n ≤ ps.flatten.length) :
    arrived ps (n + m) =
      arrived ps n ++ arrived (remaining ps n) ((pending ps n).length + m) := by
  induction ps generalizing n with
  | nil => rfl
  | cons p rest ih =>
    by_cases complete : p.length ≤ n
    · have shift : n + m - p.length = n - p.length + m := by omega
      simp only [List.flatten_cons, List.length_append] at inside
      rw [arrived_complete complete, arrived_complete (Nat.le_trans complete (Nat.le_add_right n m)), shift,
        ih _ (by omega), remaining_complete complete, pending_complete complete, List.cons_append]
    · have short := Nat.not_le.mp complete
      have taken : (p.take n).length = n := by rw [List.length_take, Nat.min_eq_left (Nat.le_of_lt short)]
      rw [arrived_short short, remaining_short short, pending_short short, taken, List.nil_append]

theorem pending_add (ps : List (List α)) (n m : Nat) (inside : n ≤ ps.flatten.length) :
    pending ps (n + m) = pending (remaining ps n) ((pending ps n).length + m) := by
  induction ps generalizing n with
  | nil => rfl
  | cons p rest ih =>
    by_cases complete : p.length ≤ n
    · have shift : n + m - p.length = n - p.length + m := by omega
      simp only [List.flatten_cons, List.length_append] at inside
      rw [pending_complete complete, pending_complete (Nat.le_trans complete (Nat.le_add_right n m)), shift,
        ih _ (by omega), remaining_complete complete]
    · have short := Nat.not_le.mp complete
      have taken : (p.take n).length = n := by rw [List.length_take, Nat.min_eq_left (Nat.le_of_lt short)]
      rw [remaining_short short, pending_short short, taken]

/-- The pending symbols and the rest of the stream are the remaining packets. -/
theorem pending_append_drop (ps : List (List α)) (n : Nat) :
    pending ps n ++ ps.flatten.drop n = (remaining ps n).flatten := by
  induction ps generalizing n with
  | nil => simp [remaining]
  | cons p rest ih =>
    by_cases complete : p.length ≤ n
    · rw [pending_complete complete, remaining_complete complete, ← ih, List.flatten_cons,
        List.drop_append, List.drop_of_length_le complete, List.nil_append]
    · have short := Nat.not_le.mp complete
      rw [pending_short short, remaining_short short, List.flatten_cons,
        List.drop_append_of_le_length (Nat.le_of_lt short), ← List.append_assoc, List.take_append_drop]

end Framing
