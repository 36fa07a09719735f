import Mathlib.Data.List.Sort
import Mathlib.Algebra.Order.BigOperators.Group.List
import Mathlib.Algebra.Order.Group.Nat
import Mathlib.Tactic.Common
import Mathlib.Algebra.GroupWithZero.Nat

/-!
# The smallest numbers of a list

The sum of the `k` smallest numbers of a list is the least sum of `k` or more of them.
-/

namespace Fewest

variable {α : Type}

/-- The sum of the smallest numbers of a list, `k` of them if it has that many. -/
def fewest (k : ℕ) (l : List ℕ) : ℕ := ((l.insertionSort (· ≤ ·)).take k).sum

/-- There are no more than all the numbers. -/
lemma fewest_min (k : ℕ) (l : List ℕ) : fewest (min k l.length) l = fewest k l := by
  unfold fewest
  refine congrArg List.sum (List.take_eq_take_iff.2 ?_)
  rw [List.length_insertionSort, Nat.min_assoc, Nat.min_self]

/-- Among sorted numbers the first have the least sum. -/
lemma sum_take_le {l s : List ℕ} (hl : l.Pairwise (· ≤ ·)) (hs : s.Sublist l) {k : ℕ}
    (hk : k ≤ s.length) : (l.take k).sum ≤ s.sum := by
  induction hs generalizing k with
  | slnil => simp
  | @cons s l a hs ih =>
    obtain ⟨ha, hl⟩ := List.pairwise_cons.1 hl
    cases k with
    | zero => simp
    | succ k =>
      -- the number left out is no larger than the last one taken without it
      have hlt : k < l.length := lt_of_lt_of_le hk hs.length_le
      have hsum := ih hl hk
      rw [List.take_succ_eq_append_getElem hlt, List.sum_append, List.sum_singleton] at hsum
      rw [List.take_succ_cons, List.sum_cons]
      have hle : a ≤ l[k] := ha _ (List.getElem_mem hlt)
      omega
  | @cons_cons s l a hs ih =>
    obtain ⟨-, hl⟩ := List.pairwise_cons.1 hl
    cases k with
    | zero => simp
    | succ k =>
      rw [List.take_succ_cons, List.sum_cons, List.sum_cons]
      exact Nat.add_le_add_left (ih hl (by simpa using hk)) a

/-- Some of the numbers, at least `k`, sum to no less than the `k` smallest. -/
lemma fewest_le {l s : List ℕ} (hs : s.Subperm l) {k : ℕ} (hk : k ≤ s.length) : fewest k l ≤ s.sum := by
  have hsub : (s.insertionSort (· ≤ ·)).Sublist (l.insertionSort (· ≤ ·)) := by
    refine List.sublist_of_subperm_of_pairwise ?_ (List.pairwise_insertionSort _ _)
      (List.pairwise_insertionSort _ _)
    exact ((List.perm_insertionSort _ s).subperm.trans hs).trans
      (List.perm_insertionSort _ l).symm.subperm
  rw [← (List.perm_insertionSort (· ≤ ·) s).sum_eq]
  exact sum_take_le (List.pairwise_insertionSort _ _) hsub (by rwa [List.length_insertionSort])

/-- What is made of some of the elements. -/
lemma subperm_map {β : Type} (f : α → β) {l s : List α} (hs : s.Subperm l) :
    (s.map f).Subperm (l.map f) := by
  obtain ⟨s', hperm, hsub⟩ := hs
  exact ⟨s'.map f, hperm.map f, hsub.map f⟩

/-- Some of the numbers sum to no more than all. -/
lemma sum_le_sum {l s : List ℕ} (hs : s.Subperm l) : s.sum ≤ l.sum := by
  obtain ⟨s', hperm, hsub⟩ := hs
  rw [← hperm.sum_eq]
  exact hsub.sum_le_sum fun _ _ => Nat.zero_le _

/-- Some `k` of the numbers, or all, sum to that. -/
lemma exists_fewest (f : α → ℕ) (l : List α) (k : ℕ) :
    ∃ s : List α, s.Subperm l ∧ s.length = min k l.length ∧ (s.map f).sum = fewest k (l.map f) := by
  let sorted := l.insertionSort fun a b => f a ≤ f b
  have hperm : sorted.Perm l := List.perm_insertionSort _ l
  have hmap : sorted.map f = (l.map f).insertionSort (· ≤ ·) := by
    refine List.Perm.eq_of_pairwise' (r := (· ≤ ·)) ?_ ?_ ?_
    · exact (List.pairwise_map).2 (List.pairwise_insertionSort _ l)
    · exact List.pairwise_insertionSort _ _
    · exact (hperm.map f).trans (List.perm_insertionSort _ _).symm
  refine ⟨sorted.take k, (List.take_sublist _ _).subperm.trans hperm.subperm, ?_, ?_⟩
  · rw [List.length_take, hperm.length_eq]
  · rw [List.map_take, hmap, fewest]

end Fewest
