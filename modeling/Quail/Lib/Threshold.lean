import Mathlib.Algebra.Order.BigOperators.Group.List
import Mathlib.Algebra.Order.Group.Abs
import Mathlib.Algebra.Order.Ring.Defs
import Mathlib.Data.List.Sort
import Mathlib.Tactic.Abel
import Mathlib.Tactic.Linarith

/-!
# Selecting by a threshold

Rows that never rise are cut to a number of entries in all by one threshold: the entries above it are kept,
and of those equal to it as many as still fit, from the first row on. No other choice of a prefix of each
row keeps as many entries and a larger sum.
-/

namespace Threshold

section
variable {α : Type} [LinearOrder α] {l : List α} {p : ℕ}

/-- Above the entry at a position of a sorted list are at most the entries after it. -/
lemma countP_lt_le (hl : l.Pairwise (· ≤ ·)) (hp : p < l.length) :
    l.countP (fun x => decide (l[p] < x)) ≤ l.length - p - 1 := by
  have hsplit : l.countP (fun x => decide (l[p] < x)) = (l.take (p + 1)).countP (fun x => decide (l[p] < x)) +
      (l.drop (p + 1)).countP (fun x => decide (l[p] < x)) := by
    rw [← List.countP_append, List.take_append_drop]
  have hzero : (l.take (p + 1)).countP (fun x => decide (l[p] < x)) = 0 := by
    refine List.countP_eq_zero.2 fun x hx => ?_
    obtain ⟨i, hi, rfl⟩ := List.getElem_of_mem hx
    rw [List.length_take] at hi
    rw [List.getElem_take, decide_eq_true_eq, not_lt]
    obtain hip | rfl := Nat.lt_or_eq_of_le (show i ≤ p by omega)
    · exact List.pairwise_iff_getElem.1 hl i p (by omega) hp hip
    · exact le_rfl
  have hlen : (l.drop (p + 1)).countP (fun x => decide (l[p] < x)) ≤ (l.drop (p + 1)).length :=
    List.countP_le_length
  rw [List.length_drop] at hlen
  omega

/-- At least the entries from a position of a sorted list on are as large as the one there. -/
lemma le_countP_le (hl : l.Pairwise (· ≤ ·)) (hp : p < l.length) :
    l.length - p ≤ l.countP (fun x => decide (l[p] ≤ x)) := by
  have hsplit : l.countP (fun x => decide (l[p] ≤ x)) = (l.take p).countP (fun x => decide (l[p] ≤ x)) +
      (l.drop p).countP (fun x => decide (l[p] ≤ x)) := by
    rw [← List.countP_append, List.take_append_drop]
  have hall : (l.drop p).countP (fun x => decide (l[p] ≤ x)) = (l.drop p).length := by
    refine List.countP_eq_length.2 fun x hx => ?_
    obtain ⟨i, hi, rfl⟩ := List.getElem_of_mem hx
    rw [List.length_drop] at hi
    rw [List.getElem_drop, decide_eq_true_eq]
    obtain rfl | hpos := Nat.eq_zero_or_pos i
    · exact le_rfl
    · exact List.pairwise_iff_getElem.1 hl p (p + i) hp (by omega) (by omega)
  rw [List.length_drop] at hall
  omega

lemma countP_le_eq (l : List α) (θ : α) : l.countP (fun x => decide (θ ≤ x)) =
    l.countP (fun x => decide (θ < x)) + l.countP (fun x => decide (x = θ)) := by
  induction l with
  | nil => rfl
  | cons x l ih =>
    simp only [List.countP_cons, ih]
    obtain hlt | rfl | hgt := lt_trichotomy θ x
    · simp [hlt, hlt.le, hlt.ne']
      omega
    · simp
      omega
    · simp [hgt.not_gt, hgt.not_ge, hgt.ne]

end

section
variable {K : Type} [AddCommGroup K] [LinearOrder K] [IsOrderedAddMonoid K] {row : List K} {θ : K} {n : ℕ}

/-- What the entries of a row add above a threshold, the others left out. -/
def excess (θ : K) (row : List K) : K := (row.map fun x => max (x - θ) 0).sum

/-- No prefix adds more above the threshold than the entries above it. -/
lemma sum_take_le_excess : ((row.take n).map (· - θ)).sum ≤ excess θ row := by
  induction row generalizing n with
  | nil => simp [excess]
  | cons x row ih =>
    cases n with
    | zero =>
      exact List.sum_nonneg fun y hy => by
        obtain ⟨z, -, rfl⟩ := List.mem_map.1 hy
        exact le_max_right _ _
    | succ n =>
      simp only [List.take_succ_cons, List.map_cons, List.sum_cons, excess]
      exact add_le_add (le_max_left _ _) ih

/-- A row with nothing above the threshold has no excess. -/
lemma excess_eq_zero (h : ∀ x ∈ row, x ≤ θ) : excess θ row = 0 := by
  refine List.sum_eq_zero fun y hy => ?_
  obtain ⟨x, hx, rfl⟩ := List.mem_map.1 hy
  exact max_eq_right (sub_nonpos.2 (h x hx))

/-- Of a row that never rises, the prefix of the entries above the threshold and any that equal it adds
the excess. -/
lemma sum_take_eq_excess (hrow : row.Pairwise (· ≥ ·)) (hlow : row.countP (fun x => decide (θ < x)) ≤ n)
    (hhigh : n ≤ row.countP (fun x => decide (θ ≤ x))) :
    ((row.take n).map (· - θ)).sum = excess θ row := by
  induction row generalizing n with
  | nil => simp [excess]
  | cons x row ih =>
    obtain ⟨hx, hrow⟩ := List.pairwise_cons.1 hrow
    rw [List.countP_cons] at hlow hhigh
    cases n with
    | zero =>
      -- nothing is above the threshold
      have hzero := Nat.le_zero.1 hlow
      have hxθ : x ≤ θ := by
        by_contra! h
        simp [h] at hzero
      rw [excess_eq_zero]
      · rfl
      · intro y hy
        obtain rfl | hy := List.mem_cons.1 hy
        · exact hxθ
        · exact (hx y hy).trans hxθ
    | succ n =>
      simp only [List.take_succ_cons, List.map_cons, List.sum_cons, excess]
      obtain hlt | hle := lt_or_ge θ x
      · rw [max_eq_left (sub_nonneg.2 hlt.le)]
        refine congrArg _ (ih hrow ?_ ?_)
        · simpa [hlt] using hlow
        · simpa [hlt.le] using hhigh
      · have hbelow : ∀ y ∈ row, y ≤ θ := fun y hy => (hx y hy).trans hle
        have hnone : row.countP (fun x => decide (θ < x)) = 0 :=
          List.countP_eq_zero.2 fun y hy => by simpa using hbelow y hy
        have hθx : θ ≤ x := by
          by_contra! h
          have hnone' : row.countP (fun x => decide (θ ≤ x)) = 0 :=
            List.countP_eq_zero.2 fun y hy => by simpa using (hx y hy).trans_lt h
          simp [hnone', h.not_ge] at hhigh
        rw [max_eq_right (sub_nonpos.2 hle), le_antisymm hle hθx, sub_self]
        refine congrArg _ (ih hrow (hnone.le.trans (Nat.zero_le _)) ?_)
        simpa [hθx] using hhigh

omit [LinearOrder K] [IsOrderedAddMonoid K] in
lemma sum_map_sub (l : List K) (θ : K) : (l.map (· - θ)).sum = l.sum - l.length • θ := by
  induction l with
  | nil => simp
  | cons x l ih =>
    rw [List.map_cons, List.sum_cons, ih, List.sum_cons, List.length_cons, succ_nsmul]
    abel

/-- The sum of a prefix of each row. -/
def prefixSum (rows : List (List K)) (lengths : List ℕ) : K :=
  (List.zipWith (fun row n => (row.take n).sum) rows lengths).sum

variable {rows : List (List K)} {ns ms : List ℕ}

/-- Prefixes within their rows add at most the rows' excess over the threshold of each of their entries. -/
lemma prefixSum_le_excess (hm : List.Forall₂ (fun row m => m ≤ row.length) rows ms) :
    prefixSum rows ms ≤ (rows.map (excess θ)).sum + ms.sum • θ := by
  induction hm with
  | nil => simp [prefixSum]
  | @cons row m rows ms hm _ ih =>
    have hle : ((row.take m).map (· - θ)).sum ≤ excess θ row := sum_take_le_excess
    rw [sum_map_sub, List.length_take, min_eq_left hm, sub_le_iff_le_add] at hle
    simp only [prefixSum, List.zipWith_cons_cons, List.sum_cons, List.map_cons, add_nsmul]
    calc (row.take m).sum + prefixSum rows ms
        ≤ (excess θ row + m • θ) + ((rows.map (excess θ)).sum + ms.sum • θ) := add_le_add hle ih
      _ = excess θ row + (rows.map (excess θ)).sum + (m • θ + ms.sum • θ) := by abel

/-- Prefixes that end among the entries equal to the threshold add all of it. -/
lemma prefixSum_eq_excess (hrows : ∀ row ∈ rows, row.Pairwise (· ≥ ·))
    (hn : List.Forall₂ (fun row n => row.countP (fun x => decide (θ < x)) ≤ n ∧
      n ≤ row.countP (fun x => decide (θ ≤ x))) rows ns) :
    prefixSum rows ns = (rows.map (excess θ)).sum + ns.sum • θ := by
  induction hn with
  | nil => simp [prefixSum]
  | @cons row n rows ns hn _ ih =>
    obtain ⟨hrow, hrows⟩ := List.forall_mem_cons.1 hrows
    have heq := sum_take_eq_excess hrow hn.1 hn.2
    rw [sum_map_sub, List.length_take, min_eq_left (hn.2.trans List.countP_le_length),
      sub_eq_iff_eq_add] at heq
    simp only [prefixSum, List.zipWith_cons_cons, List.sum_cons, List.map_cons, add_nsmul]
    calc (row.take n).sum + prefixSum rows ns
        = (excess θ row + n • θ) + ((rows.map (excess θ)).sum + ns.sum • θ) := by rw [heq, ih hrows]
      _ = excess θ row + (rows.map (excess θ)).sum + (n • θ + ns.sum • θ) := by abel

/-- Of all prefixes with as many entries, those cut by one threshold have the largest sum. -/
theorem prefixSum_le (hrows : ∀ row ∈ rows, row.Pairwise (· ≥ ·))
    (hn : List.Forall₂ (fun row n => row.countP (fun x => decide (θ < x)) ≤ n ∧
      n ≤ row.countP (fun x => decide (θ ≤ x))) rows ns)
    (hm : List.Forall₂ (fun row m => m ≤ row.length) rows ms) (hsum : ms.sum = ns.sum) :
    prefixSum rows ms ≤ prefixSum rows ns := by
  rw [prefixSum_eq_excess hrows hn, ← hsum]
  exact prefixSum_le_excess hm

end

/-- Give a number out over counts, each in full as long as it lasts. -/
def fill (left : ℕ) : List ℕ → List ℕ
  | [] => []
  | count :: counts => min left count :: fill (left - count) counts

/-- The entries kept of each row: all of one count, and of another what is given out. -/
lemma fill_between {α : Type} (above ties : α → ℕ) (left : ℕ) (rows : List α) :
    List.Forall₂ (fun row n => above row ≤ n ∧ n ≤ above row + ties row) rows
      (List.zipWith (· + ·) (rows.map above) (fill left (rows.map ties))) := by
  induction rows generalizing left with
  | nil => exact .nil
  | cons row rows ih =>
    refine .cons ⟨Nat.le_add_right _ _, ?_⟩ (ih _)
    exact Nat.add_le_add_left (Nat.min_le_right _ _) _

lemma sum_add_fill {α : Type} (above ties : α → ℕ) (left : ℕ) (rows : List α) :
    (List.zipWith (· + ·) (rows.map above) (fill left (rows.map ties))).sum =
      (rows.map above).sum + min left (rows.map ties).sum := by
  induction rows generalizing left with
  | nil => simp
  | cons row rows ih =>
    simp only [List.map_cons, fill, List.zipWith_cons_cons, List.sum_cons, ih]
    omega

end Threshold
