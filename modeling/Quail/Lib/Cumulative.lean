import Mathlib.Tactic.Basic
import Mathlib.Tactic.Common
import Mathlib.Algebra.BigOperators.Group.List.Basic
import Mathlib.Algebra.Order.BigOperators.Group.List
import Mathlib.Algebra.GroupWithZero.Nat

/-!
# Cumulative sums and bisection

The cumulative sums of a list of lengths, and the position a bisection of them finds: how many of
the first lengths fit into a budget. `fit_le`, `sum_fit` and `le_fit` say that it is the greatest
number of lengths whose sum is within the budget.
-/

/-- Cumulative sums with a leading zero. -/
def cumulative (lengths : List ℕ) : List ℕ := lengths.scanl (· + ·) 0

/-- Where a value would be inserted into a sorted list, after its equals. -/
def bisectRight (l : List ℕ) (x : ℕ) : ℕ := (l.takeWhile (· ≤ x)).length

namespace Cumulative

variable {l : List ℕ} {i j x : ℕ}

lemma scanl_getD {b : ℕ} (h : i ≤ l.length) : (l.scanl (· + ·) b).getD i 0 = b + (l.take i).sum := by
  induction l generalizing b i with
  | nil =>
    obtain rfl : i = 0 := by simpa using h
    simp
  | cons y l ih =>
    cases i with
    | zero => simp
    | succ i =>
      have hi : i ≤ l.length := by simpa using h
      simpa [Nat.add_assoc] using ih (b := b + y) hi

lemma scanl_eq_cons {b : ℕ} : l.scanl (· + ·) b = b :: (l.scanl (· + ·) b).tail := by
  cases l <;> simp

/-- A cumulative sum is the sum of the first lengths. -/
lemma getD_eq (h : i ≤ l.length) : (cumulative l).getD i 0 = (l.take i).sum := by
  simpa [cumulative] using scanl_getD (b := 0) h

lemma getElem?_eq (h : i ≤ l.length) : (cumulative l)[i]? = some (l.take i).sum := by
  have hlt : i < (cumulative l).length := by
    rw [cumulative, List.length_scanl]
    omega
  have hsum := getD_eq h
  rw [List.getD_eq_getElem?_getD, List.getElem?_eq_getElem hlt, Option.getD_some] at hsum
  rw [List.getElem?_eq_getElem hlt, hsum]

@[simp] lemma getD_zero : (cumulative l).getD 0 0 = 0 := getD_eq (Nat.zero_le _)

lemma sum_take_mono (h : i ≤ j) : (l.take i).sum ≤ (l.take j).sum := by
  obtain ⟨d, rfl⟩ := Nat.exists_eq_add_of_le h
  rw [List.take_add, List.sum_append]
  exact Nat.le_add_right _ _

/-- Sums of positive lengths grow with every length. -/
lemma sum_take_lt (hpos : ∀ length ∈ l, 0 < length) (h : i < j) (hj : j ≤ l.length) :
    (l.take i).sum < (l.take j).sum := by
  have hi : i < l.length := by omega
  have hlength := hpos l[i] (List.getElem_mem hi)
  have hstep : (l.take i).sum < (l.take (i + 1)).sum := by
    rw [List.take_succ_eq_append_getElem hi, List.sum_append, List.sum_singleton]
    omega
  exact hstep.trans_le (sum_take_mono h)

/-- The sum of a slice is the difference of the sums at its ends. -/
lemma sum_slice (h : i ≤ j) : ((l.take j).drop i).sum = (l.take j).sum - (l.take i).sum := by
  have hsplit := List.sum_take_add_sum_drop (l.take j) i
  rw [List.take_take, Nat.min_eq_left h] at hsplit
  omega

/-- A difference of neighbouring cumulative sums is a length. -/
lemma sub_eq : (cumulative l).getD (i + 1) 0 - (cumulative l).getD i 0 = l.getD i 0 := by
  by_cases h : i < l.length
  · rw [getD_eq h, getD_eq h.le, List.take_succ_eq_append_getElem h, List.sum_append]
    simp [List.getD_eq_getElem?_getD, List.getElem?_eq_getElem h]
  · have hlen : (cumulative l).length = l.length + 1 := List.length_scanl
    have hnone : (cumulative l)[i + 1]? = none := List.getElem?_eq_none (by omega)
    have hnone' : l[i]? = none := List.getElem?_eq_none (by omega)
    simp [List.getD_eq_getElem?_getD, hnone, hnone']

lemma takeWhile_scanl {b : ℕ} (h : b ≤ x) :
    ∃ e, ((l.scanl (· + ·) b).takeWhile (· ≤ x)).length = e + 1 ∧ e ≤ l.length ∧
      b + (l.take e).sum ≤ x ∧ (e < l.length → x < b + (l.take (e + 1)).sum) := by
  induction l generalizing b with
  | nil => exact ⟨0, by simp [h], by simp, by simpa using h, by simp⟩
  | cons y l ih =>
    rw [List.scanl_cons, List.takeWhile_cons_of_pos (by simpa using h)]
    by_cases hy : b + y ≤ x
    · obtain ⟨e, h₁, h₂, h₃, h₄⟩ := ih hy
      refine ⟨e + 1, by simp [h₁], by simpa using h₂, ?_, ?_⟩
      · simpa [Nat.add_assoc] using h₃
      · intro he
        simpa [Nat.add_assoc] using h₄ (by simpa using he)
    · refine ⟨0, ?_, by simp, by simpa using h, ?_⟩
      · cases l <;> simp [hy]
      · intro _
        simpa using hy

/-- How many of the first lengths fit into a budget. -/
def fit (l : List ℕ) (x : ℕ) : ℕ := bisectRight (cumulative l) x - 1

lemma fit_spec : fit l x ≤ l.length ∧ (l.take (fit l x)).sum ≤ x ∧
    (fit l x < l.length → x < (l.take (fit l x + 1)).sum) := by
  obtain ⟨e, h₁, h₂, h₃, h₄⟩ := takeWhile_scanl (l := l) (Nat.zero_le x)
  have he : fit l x = e := by simp [fit, bisectRight, cumulative, h₁]
  rw [he]
  exact ⟨h₂, by simpa using h₃, by simpa using h₄⟩

lemma fit_le : fit l x ≤ l.length := fit_spec.1

lemma sum_fit : (l.take (fit l x)).sum ≤ x := fit_spec.2.1

lemma le_fit (hi : i ≤ l.length) (h : (l.take i).sum ≤ x) : i ≤ fit l x := by
  by_contra hlt
  have hlt := Nat.not_le.1 hlt
  have hnext := fit_spec.2.2 (hlt.trans_le hi)
  have hmono : (l.take (fit l x + 1)).sum ≤ (l.take i).sum := sum_take_mono hlt
  omega

/-- Only one number of lengths fits while the next one does not. -/
lemma fit_eq (hi : i ≤ l.length) (hle : (l.take i).sum ≤ x) (hlt : i < l.length → x < (l.take (i + 1)).sum) :
    fit l x = i := by
  refine le_antisymm ?_ (le_fit hi hle)
  by_contra hgt
  have hgt := Nat.not_le.1 hgt
  have hnext := hlt (hgt.trans_le fit_le)
  have hmono : (l.take (i + 1)).sum ≤ (l.take (fit l x)).sum := sum_take_mono hgt
  have hfit := sum_fit (l := l) (x := x)
  omega

lemma fit_cons_of_le {y : ℕ} (h : y ≤ x) : fit (y :: l) x = fit l (x - y) + 1 := by
  obtain ⟨hle, hsum, hlt⟩ := fit_spec (l := l) (x := x - y)
  refine fit_eq (Nat.succ_le_succ hle) ?_ fun hi => ?_
  · rw [List.take_succ_cons, List.sum_cons]
    omega
  · have := hlt (Nat.lt_of_succ_lt_succ hi)
    rw [List.take_succ_cons, List.sum_cons]
    omega

lemma fit_cons_of_lt {y : ℕ} (h : x < y) : fit (y :: l) x = 0 := by
  refine fit_eq (Nat.zero_le _) (Nat.zero_le x) fun _ => ?_
  rw [List.take_succ_cons, List.sum_cons]
  omega

end Cumulative
