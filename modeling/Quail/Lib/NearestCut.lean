import Mathlib.Algebra.Order.Group.Abs
import Mathlib.Data.List.TakeWhile
import Mathlib.Tactic.Common

/-!
# Bisection and the nearest value

A bisection of a sorted list ends after the elements that its test holds of. For a list of ascending values
and a target, the element that it ends at or the one before it is nearest to the target.
-/

namespace Bisect

variable {α : Type} {p : α → Bool} {l : List α} {i : ℕ} {x : α}

/-- Where the first part of a list ends, whose elements pass a test. -/
def cut (p : α → Bool) (l : List α) : ℕ := (l.takeWhile p).length

lemma of_lt_cut (h : i < cut p l) (hx : l[i]? = some x) : p x = true := by
  induction l generalizing i with
  | nil => cases hx
  | cons y l ih =>
    rw [cut, List.takeWhile_cons] at h
    cases hy : p y with
    | false =>
      rw [hy] at h
      cases h
    | true =>
      rw [hy] at h
      cases i with
      | zero =>
        cases hx
        exact hy
      | succ i => exact ih (Nat.lt_of_succ_lt_succ h) (by simpa using hx)

lemma not_of_cut (hx : l[cut p l]? = some x) : p x = false := by
  induction l with
  | nil => cases hx
  | cons y l ih =>
    rw [cut, List.takeWhile_cons] at hx
    cases hy : p y with
    | false =>
      rw [hy] at hx
      cases hx
      exact hy
    | true =>
      rw [hy] at hx
      exact ih (by simpa [cut] using hx)

variable {K : Type} [AddCommGroup K] [LinearOrder K] [IsOrderedAddMonoid K] {c : ℕ → K} {n stop e : ℕ}

/-- The first of ascending values that is not below a target is nearest to it, or the one before is. -/
theorem nearest (target : K) (hmono : ∀ i j, i ≤ j → j ≤ n → c i ≤ c j) (hn : stop ≤ n)
    (hbelow : ∀ i < stop, c i < target) (hstop : target ≤ c stop) (he : e ≤ n) : |target - c stop| ≤ |target - c e| ∨
      e < stop ∧ |target - c (stop - 1)| ≤ |target - c e| := by
  rcases Nat.lt_or_ge e stop with hlt | hge
  · refine Or.inr ⟨hlt, ?_⟩
    have hlast := hbelow (stop - 1) (by omega)
    have hle : c e ≤ c (stop - 1) := hmono e (stop - 1) (by omega) (by omega)
    rw [abs_of_nonneg (sub_nonneg.2 hlast.le), abs_of_nonneg (sub_nonneg.2 (hbelow e hlt).le)]
    exact sub_le_sub_left hle target
  · refine Or.inl ?_
    have hle : c stop ≤ c e := hmono stop e hge he
    rw [abs_of_nonpos (sub_nonpos.2 hstop), abs_of_nonpos (sub_nonpos.2 (hstop.trans hle))]
    exact neg_le_neg (sub_le_sub_left hle target)

end Bisect
