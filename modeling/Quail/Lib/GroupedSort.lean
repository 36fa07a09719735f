import Quail.Lib.Argsort
import Mathlib.Data.List.Dedup

/-!
# Sorting by group

A stable sort by the place of each element's key puts the elements of one key together, in their own order, and the
keys in the order of their places. The place of a key in a list is its last index there.
-/

namespace GroupedSort
open Argsort

variable {α κ : Type} [DecidableEq κ]

/-! ## Places -/

/-- The last index of a key in a list that is counted from `n`. -/
def lastIndex (n : ℕ) : List κ → κ → ℕ
  | [], _ => n
  | _ :: rest, key => if key ∈ rest then lastIndex (n + 1) rest key else n

lemma le_lastIndex {keys : List κ} {key : κ} : ∀ {n : ℕ}, n ≤ lastIndex n keys key := by
  induction keys with
  | nil => exact fun {n} => Nat.le_refl n
  | cons first rest ih =>
    intro n
    rw [lastIndex]
    split
    · exact Nat.le_of_succ_le ih
    · exact Nat.le_refl n

/-- A list's keys, each where it comes last, come in the order of their last indices. -/
theorem pairwise_lastIndex {keys : List κ} : ∀ n : ℕ,
    keys.dedup.Pairwise fun a b => lastIndex n keys a < lastIndex n keys b := by
  induction keys with
  | nil => exact fun _ => List.Pairwise.nil
  | cons first rest ih =>
    intro n
    have hrest : rest.dedup.Pairwise fun a b => lastIndex n (first :: rest) a < lastIndex n (first :: rest) b := by
      refine (ih (n + 1)).imp_of_mem fun ha hb h => ?_
      rw [lastIndex, lastIndex, if_pos (List.mem_dedup.1 ha), if_pos (List.mem_dedup.1 hb)]
      exact h
    by_cases hfirst : first ∈ rest
    · rwa [List.dedup_cons_of_mem hfirst]
    · rw [List.dedup_cons_of_notMem hfirst]
      refine List.pairwise_cons.2 ⟨fun b hb => ?_, hrest⟩
      rw [lastIndex, lastIndex, if_neg hfirst, if_pos (List.mem_dedup.1 hb)]
      exact le_lastIndex

/-! ## Groups -/

variable {key : α → κ} {place : κ → ℕ}

/-- In a sorted list the elements with the first place come first. -/
lemma first_group {k : κ} {xs : List α} (hsorted : xs.Pairwise fun x y => place (key x) ≤ place (key y))
    (hfirst : ∀ x ∈ xs, key x ≠ k → place k < place (key x)) :
    xs = xs.filter (fun x => key x = k) ++ xs.filter fun x => !decide (key x = k) := by
  induction xs with
  | nil => rfl
  | cons x xs ih =>
    obtain ⟨hx, hsorted⟩ := List.pairwise_cons.1 hsorted
    obtain ⟨hplace, hfirst⟩ := List.forall_mem_cons.1 hfirst
    by_cases hk : key x = k
    · rw [List.filter_cons_of_pos (by simpa using hk), List.filter_cons_of_neg (by simpa using hk), List.cons_append,
        ← ih hsorted hfirst]
    · -- nothing with the first place follows an element with a later one
      have hlater : ∀ y ∈ xs, key y ≠ k := by
        rintro y hy rfl
        exact absurd (hplace hk) (not_lt.2 (hx y hy))
      have hnone : xs.filter (fun x => key x = k) = [] :=
        List.filter_eq_nil_iff.2 fun y hy h => hlater y hy (of_decide_eq_true h)
      have hall : xs.filter (fun x => !decide (key x = k)) = xs :=
        List.filter_eq_self.2 fun y hy => by simpa using hlater y hy
      rw [List.filter_cons_of_neg (by simpa using hk), List.filter_cons_of_pos (by simpa using hk), hnone, hall]
      rfl

/-- A sorted list is its groups, in the order of their places. -/
lemma groups_of_sorted {order : List κ} {xs : List α} (horder : order.Pairwise fun a b => place a < place b)
    (hsorted : xs.Pairwise fun x y => place (key x) ≤ place (key y)) (hmem : ∀ x ∈ xs, key x ∈ order) :
    xs = order.flatMap fun k => xs.filter fun x => key x = k := by
  induction order generalizing xs with
  | nil =>
    cases xs with
    | nil => rfl
    | cons x xs => cases hmem x List.mem_cons_self
  | cons k order ih =>
    obtain ⟨hk, horder⟩ := List.pairwise_cons.1 horder
    have hplaces : ∀ x ∈ xs, key x ≠ k → place k < place (key x) := fun x hx hne =>
      hk _ ((List.mem_cons.1 (hmem x hx)).resolve_left hne)
    have hothers : ∀ x ∈ xs.filter fun x => !decide (key x = k), key x ∈ order := by
      intro x hx
      obtain ⟨hx, hne⟩ := List.mem_filter.1 hx
      exact (List.mem_cons.1 (hmem x hx)).resolve_left (by simpa using hne)
    have hrest := ih horder (hsorted.sublist List.filter_sublist) hothers
    rw [List.flatMap_cons]
    refine (first_group hsorted hplaces).trans (congrArg (xs.filter (fun x => key x = k) ++ ·) (hrest.trans ?_))
    refine List.flatMap_congr fun k' hk' => ?_
    rw [List.filter_filter]
    refine List.filter_congr fun x _ => ?_
    by_cases hx : key x = k'
    · have hne : k' ≠ k := fun h => absurd (hk k' hk') (h ▸ lt_irrefl _)
      simp [hx, hne]
    · simp [hx]

/-- Taking a list at the positions of a stable sort by place gives its groups, in the order of their places. -/
theorem take_sorted {order : List κ} {xs : List α} (horder : order.Pairwise fun a b => place a < place b)
    (hmem : ∀ x ∈ xs, key x ∈ order) : take xs (sortIndices (· ≤ ·) (xs.map fun x => place (key x))) =
      order.flatMap fun k => xs.filter fun x => key x = k := by
  have : IsTrans α fun x y => place (key x) ≤ place (key y) := ⟨fun _ _ _ h h' => h.trans h'⟩
  have : Std.Total fun x y : α => place (key x) ≤ place (key y) := ⟨fun _ _ => le_total _ _⟩
  rw [sortIndices_map, take_sortIndices]
  have hgroups := groups_of_sorted horder (List.pairwise_insertionSort (fun x y => place (key x) ≤ place (key y)) xs)
    fun x hx => hmem x ((List.mem_insertionSort _).1 hx)
  refine hgroups.trans (List.flatMap_congr fun k _ => filter_insertionSort ?_)
  refine List.pairwise_of_forall_mem_list fun x hx y hy => ?_
  rw [of_decide_eq_true (List.mem_filter.1 hx).2, of_decide_eq_true (List.mem_filter.1 hy).2]

end GroupedSort
