import Mathlib.Algebra.Order.Field.Basic
import Mathlib.Data.List.Perm.Basic
import Mathlib.Tactic.Linarith
import Mathlib.Tactic.Ring

/-!
# Sequencing filters

Filters run one after another, each on what the ones before it let through. The expected cost of a sequence
is least where no filter comes after one that costs more for each rejection: a filter moved to the front of
those it is cheaper than only saves, and so every sequence is no cheaper than the sorted one.
-/

namespace Sequencing

variable {α K : Type} [Field K] [LinearOrder K] [IsStrictOrderedRing K] (cost pass : α → K)

/-- The expected cost of a sequence on one input. -/
def total : List α → K
  | [] => 0
  | x :: xs => cost x + pass x * total xs

/-- One filter costs no more for each rejection than another. -/
def Cheaper (x y : α) : Prop := cost x * (1 - pass y) ≤ cost y * (1 - pass x)

variable {cost pass} {x : α} {xs ys : List α}

/-- A filter moved to the front of those it is cheaper than saves. -/
lemma total_move_le (hpass : ∀ y ∈ xs, 0 ≤ pass y) (hx : ∀ y ∈ xs, Cheaper cost pass x y) :
    total cost pass (x :: xs ++ ys) ≤ total cost pass (xs ++ x :: ys) := by
  induction xs with
  | nil => exact le_rfl
  | cons y xs ih =>
    obtain ⟨hy, hpass⟩ := List.forall_mem_cons.1 hpass
    obtain ⟨hxy, hx⟩ := List.forall_mem_cons.1 hx
    have hrest := mul_le_mul_of_nonneg_left (ih hpass hx) hy
    unfold Cheaper at hxy
    simp only [total, List.cons_append] at hrest ⊢
    -- the two neighbours swap places: only their own costs change
    calc cost x + pass x * (cost y + pass y * total cost pass (xs ++ ys))
        = cost x * (1 - pass y) - cost y * (1 - pass x) +
            (cost y + pass y * (cost x + pass x * total cost pass (xs ++ ys))) := by ring
      _ ≤ cost y + pass y * (cost x + pass x * total cost pass (xs ++ ys)) := by linarith
      _ ≤ cost y + pass y * total cost pass (xs ++ x :: ys) := by linarith

/-- A sequence sorted by cost per rejection is the cheapest of its filters' sequences. -/
theorem total_le_of_pairwise (hpass : ∀ y ∈ xs, 0 ≤ pass y) (hsorted : xs.Pairwise (Cheaper cost pass))
    (hperm : ys.Perm xs) : total cost pass xs ≤ total cost pass ys := by
  induction xs generalizing ys with
  | nil => rw [hperm.eq_nil]
  | cons x xs ih =>
    obtain ⟨hx, hpass⟩ := List.forall_mem_cons.1 hpass
    obtain ⟨hcheaper, hsorted⟩ := List.pairwise_cons.1 hsorted
    obtain ⟨front, back, rfl⟩ := List.append_of_mem (hperm.mem_iff.2 List.mem_cons_self)
    have hrest : (front ++ back).Perm xs :=
      (List.perm_middle.symm.trans hperm).cons_inv
    have hfront : ∀ y ∈ front, y ∈ xs := fun y hy => hrest.subset (List.mem_append_left _ hy)
    calc total cost pass (x :: xs)
        ≤ total cost pass (x :: (front ++ back)) := by
          have hle := mul_le_mul_of_nonneg_left (ih hpass hsorted hrest) hx
          simp only [total]
          linarith
      _ ≤ total cost pass (front ++ x :: back) :=
          total_move_le (fun y hy => hpass y (hfront y hy)) fun y hy => hcheaper y (hfront y hy)

end Sequencing
