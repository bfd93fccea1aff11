import Mathlib.Data.List.Basic

/-! A first-in-first-out queue: the symbols it has accepted so far, and how many of
them have been taken off its front. No program is named here. -/

structure Fifo (α : Type*) where
  accepted : List α
  taken : Nat
  inside : taken ≤ accepted.length

namespace Fifo
variable {α : Type*}

def empty : Fifo α := ⟨[], 0, Nat.le_refl 0⟩

/-- The symbols that are still in the queue, the oldest first. -/
def content (q : Fifo α) : List α := q.accepted.drop q.taken

def write (q : Fifo α) (src : List α) : Fifo α where
  accepted := q.accepted ++ src
  taken := q.taken
  inside := by
    rw [List.length_append]
    exact Nat.le_add_right_of_le q.inside

theorem content_length (q : Fifo α) : q.content.length = q.accepted.length - q.taken :=
  List.length_drop

/-- Takes the `n` oldest symbols, or none when there are fewer. -/
def remove (q : Fifo α) (n : Nat) : Fifo α :=
  if enough : n ≤ q.content.length then
    { accepted := q.accepted
      taken := q.taken + n
      inside := by
        have inside := q.inside
        rw [content_length] at enough
        omega }
  else q

@[simp] theorem content_empty : (empty : Fifo α).content = [] := rfl

@[simp] theorem content_write (q : Fifo α) (src : List α) :
    (q.write src).content = q.content ++ src := List.drop_append_of_le_length q.inside

theorem content_remove {q : Fifo α} {n : Nat} (enough : n ≤ q.content.length) :
    (q.remove n).content = q.content.drop n := by
  rw [remove, dif_pos enough, content, content, List.drop_drop]

@[simp] theorem remove_accepted (q : Fifo α) (n : Nat) : (q.remove n).accepted = q.accepted := by
  rw [remove]
  split <;> rfl

theorem remove_taken {q : Fifo α} {n : Nat} (enough : n ≤ q.content.length) :
    (q.remove n).taken = q.taken + n := by
  rw [remove, dif_pos enough]

theorem remove_short {q : Fifo α} {n : Nat} (short : q.content.length < n) : q.remove n = q := by
  rw [remove, dif_neg (Nat.not_le.mpr short)]

end Fifo
