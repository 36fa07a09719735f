import Quail.Lib.Sequencing
import Mathlib.Data.List.FinRange
import Mathlib.Data.List.MinMax
import Mathlib.Data.List.Sort
import Mathlib.Data.Prod.Lex
import Mathlib.Order.WithBot

/-!
# Filter order

`order_filters_indexed` of `planner/search/filter_order.py`: every predicate that rejects something is tried
first, the others follow by their cost per expected rejection, and the cheapest of these orders is taken.
-/

namespace Quail.Planner
open Sequencing

variable {K R : Type}

/-- A predicate's costs at a number of documents when it is first and when it is later, its selectivity,
and its reuse key. -/
structure PredicateCost (K R : Type) where
  first : K → K
  later : K → K
  selectivity : K
  reuseKey : Option R

/-- The order rules. -/
inductive OrderRule where
  | byCost | asWritten
  deriving Repr, DecidableEq

/-- The cost per expected rejection; free predicates first, and last those that reject nothing. -/
def rejectionRank [Field K] [LinearOrder K] (seconds rejected : K) : WithTop K :=
  if 0 < rejected then (seconds / rejected : K) else if seconds = 0 then 0 else ⊤

/-- An order so far: its predicates and cost, the documents left, the reuse keys computed, the predicate
before, and the predicates still to come. -/
structure FilterSequence (K R : Type) (n : ℕ) where
  ordered : List (Fin n)
  total : K
  expectedRows : K
  scored : List R
  previous : Fin n
  remaining : List (Fin n)

section
variable [Field K] [LinearOrder K] [DecidableEq R] (predicates : List (PredicateCost K R))
  (resident : Option (PredicateCost K R → PredicateCost K R → Bool))

/-- Whether a predicate reads no KV the predicate before it left. -/
def fresh (previous i : Fin predicates.length) : Bool :=
  match resident with
  | none => false
  | some resident => !resident (predicates.get previous) (predicates.get i)

namespace FilterSequence
variable (s : FilterSequence K R predicates.length)

/-- A predicate's cost at the documents left, or at one document where none is left. -/
def seconds (i : Fin predicates.length) : K :=
  let p := predicates.get i
  if p.reuseKey.any (· ∈ s.scored) then 0
  else (if fresh predicates resident s.previous i then p.first else p.later)
    (if 0 < s.expectedRows then s.expectedRows else 1)

/-- The rank of a predicate among those to come. -/
def rank (i : Fin predicates.length) : WithTop K :=
  rejectionRank (s.seconds predicates resident i) (1 - (predicates.get i).selectivity)

/-- A predicate appended. -/
def choose (selected : Fin predicates.length) : FilterSequence K R predicates.length where
  ordered := s.ordered ++ [selected]
  total := s.total + if 0 < s.expectedRows then s.seconds predicates resident selected else 0
  expectedRows := s.expectedRows * (predicates.get selected).selectivity
  scored := s.scored ++ (predicates.get selected).reuseKey.toList
  previous := selected
  remaining := s.remaining.erase selected

/-- Append the predicates to come, each time the one of the least rank. -/
def complete : ℕ → FilterSequence K R predicates.length → FilterSequence K R predicates.length
  | 0, s => s
  | fuel + 1, s =>
    match s.remaining.argmin fun i => toLex (s.rank predicates resident i, i) with
    | none => s
    | some selected => complete fuel (s.choose predicates resident selected)

end FilterSequence

/-- The order that starts with a predicate. -/
def candidate (count : K) (first : Fin predicates.length) : FilterSequence K R predicates.length :=
  let p := predicates.get first
  let remaining := (List.finRange predicates.length).erase first
  FilterSequence.complete predicates resident remaining.length
    ⟨[first], p.first count, count * p.selectivity, p.reuseKey.toList, first, remaining⟩

/-- `order_filters_indexed`. -/
def orderFiltersIndexed (rule : OrderRule) (count : K) : List (Fin predicates.length) :=
  let indices := List.finRange predicates.length
  if rule = .asWritten ∨ indices.length < 2 then indices
  else
    -- a predicate that rejects nothing never starts a sequence
    let starters := indices.filter fun i => (predicates.get i).selectivity < 1
    match starters.argmin fun first => toLex ((candidate predicates resident count first).total, first) with
    | none => indices
    | some first => (candidate predicates resident count first).ordered

/-- The expected cost of the predicates after the first, from the documents left. -/
def laterCost (rows : K) : List (Fin predicates.length) → K
  | [] => 0
  | i :: order => (predicates.get i).later rows +
      laterCost (rows * (predicates.get i).selectivity) order

/-- The expected cost of an order. -/
def expectedCost (count : K) : List (Fin predicates.length) → K
  | [] => 0
  | i :: order => (predicates.get i).first count +
      laterCost predicates (count * (predicates.get i).selectivity) order

end

/-! ## Permutations -/

section
variable [Field K] [LinearOrder K] [DecidableEq R] {predicates : List (PredicateCost K R)}
  {resident : Option (PredicateCost K R → PredicateCost K R → Bool)}

lemma FilterSequence.complete_perm {fuel : ℕ} {s : FilterSequence K R predicates.length}
    (h : s.remaining.length = fuel) :
    (s.complete predicates resident fuel).ordered.Perm (s.ordered ++ s.remaining) := by
  induction fuel generalizing s with
  | zero =>
    rw [List.length_eq_zero_iff.1 h, List.append_nil]
    exact .refl _
  | succ fuel ih =>
    unfold FilterSequence.complete
    cases hmin : s.remaining.argmin fun i => toLex (s.rank predicates resident i, i) with
    | none =>
      rw [List.argmin_eq_none.1 hmin] at h
      cases h
    | some selected =>
      have hmem := List.argmin_mem hmin
      refine (ih (by simp [FilterSequence.choose, List.length_erase_of_mem hmem, h])).trans ?_
      simp only [FilterSequence.choose, List.append_assoc, List.singleton_append]
      exact (List.perm_cons_erase hmem).symm.append_left _

lemma candidate_perm (count : K) (first : Fin predicates.length) :
    (candidate predicates resident count first).ordered.Perm (List.finRange predicates.length) := by
  unfold candidate
  dsimp only
  refine (FilterSequence.complete_perm ?_).trans (List.perm_cons_erase (List.mem_finRange first)).symm
  rfl

/-- The order is one of all predicates. -/
lemma orderFiltersIndexed_perm (rule : OrderRule) (count : K) :
    (orderFiltersIndexed predicates resident rule count).Perm (List.finRange predicates.length) := by
  unfold orderFiltersIndexed
  dsimp only
  split_ifs
  · exact .refl _
  · split
    · exact .refl _
    · exact candidate_perm _ _

end

/-! ## Costs -/

section
variable [Field K] [LinearOrder K] (predicates : List (PredicateCost K R))

/-- Predicates without reuse keys whose cost is a constant for each document, and the same constant more
for each document when they are first. -/
structure LinearCosts (cost : Fin predicates.length → K) (extra : K) : Prop where
  unkeyed : ∀ i, (predicates.get i).reuseKey = none
  nonneg : ∀ i, 0 ≤ cost i
  later : ∀ i rows, 0 ≤ rows → (predicates.get i).later rows = rows * cost i
  first : ∀ i rows, 0 ≤ rows → (predicates.get i).first rows = rows * cost i + rows * extra
  selectivity : ∀ i, 0 ≤ (predicates.get i).selectivity ∧ (predicates.get i).selectivity ≤ 1

end

section
variable [Field K] [LinearOrder K] [IsStrictOrderedRing K]

/-- The rank of a predicate says which of two is cheaper for each rejection. -/
lemma cheaper_of_rank {rows c c' s s' : K} (hrows : 0 < rows) (hc' : 0 ≤ c') (hs : s ≤ 1) (hs' : s' ≤ 1)
    (h : rejectionRank (rows * c) (1 - s) ≤ rejectionRank (rows * c') (1 - s')) :
    c * (1 - s') ≤ c' * (1 - s) := by
  unfold rejectionRank at h
  obtain hlt | heq := hs.lt_or_eq
  · have hpos : 0 < 1 - s := sub_pos.2 hlt
    obtain hlt' | heq' := hs'.lt_or_eq
    · have hpos' : 0 < 1 - s' := sub_pos.2 hlt'
      rw [if_pos hpos, if_pos hpos', WithTop.coe_le_coe, div_le_div_iff₀ hpos hpos', mul_assoc,
        mul_assoc] at h
      exact le_of_mul_le_mul_left h hrows
    · rw [heq', sub_self, mul_zero]
      exact mul_nonneg hc' hpos.le
  · -- a predicate that rejects nothing is no later than another only if it is free, or neither rejects
    rw [heq, sub_self, mul_zero]
    rw [heq, sub_self, if_neg (lt_irrefl _)] at h
    obtain hlt' | heq' := hs'.lt_or_eq
    · rw [if_pos (sub_pos.2 hlt')] at h
      split_ifs at h with hzero
      · obtain hrows' | hc := mul_eq_zero.1 hzero
        · exact absurd hrows' hrows.ne'
        · rw [hc, zero_mul]
      · exact absurd h (not_le.2 (WithTop.coe_lt_top _))
    · rw [heq', sub_self, mul_zero]

variable {predicates : List (PredicateCost K R)} {cost : Fin predicates.length → K} {extra : K}

/-- The selectivity of a predicate. -/
def selectivity (predicates : List (PredicateCost K R)) (i : Fin predicates.length) : K :=
  (predicates.get i).selectivity

lemma laterCost_eq (h : LinearCosts predicates cost extra) {rows : K} (hrows : 0 ≤ rows)
    (order : List (Fin predicates.length)) :
    laterCost predicates rows order = rows * total cost (selectivity predicates) order := by
  induction order generalizing rows with
  | nil => simp [laterCost, total]
  | cons i order ih =>
    rw [laterCost, h.later i rows hrows, ih (mul_nonneg hrows (h.selectivity i).1), total, selectivity]
    ring

/-- The expected cost of an order is that of its sequence, and the constant more for the first. -/
lemma expectedCost_eq (h : LinearCosts predicates cost extra) {count : K} (hcount : 0 ≤ count)
    {order : List (Fin predicates.length)} (hne : order ≠ []) :
    expectedCost predicates count order =
      count * extra + count * total cost (selectivity predicates) order := by
  cases order with
  | nil => exact absurd rfl hne
  | cons i order =>
    rw [expectedCost, h.first i count hcount,
      laterCost_eq h (mul_nonneg hcount (h.selectivity i).1), total, selectivity]
    ring

variable [DecidableEq R] {resident : Option (PredicateCost K R → PredicateCost K R → Bool)}

/-- What one choice adds: a predicate cheaper for each rejection than all to come, at its expected cost. -/
lemma FilterSequence.choose_spec (h : LinearCosts predicates cost extra)
    (hresident : ∀ r ∈ resident, ∀ p q, r p q = true) {s : FilterSequence K R predicates.length}
    (hrows : 0 ≤ s.expectedRows) {selected : Fin predicates.length}
    (hmin : selected ∈ s.remaining.argmin fun i => toLex (s.rank predicates resident i, i)) :
    (s.choose predicates resident selected).total = s.total + s.expectedRows * cost selected ∧
    ∀ i ∈ s.remaining, Cheaper cost (selectivity predicates) selected i := by
  set rows := if 0 < s.expectedRows then s.expectedRows else 1 with hrowsdef
  have hpos : 0 < rows := by
    rw [hrowsdef]
    split_ifs with hlt
    · exact hlt
    · exact one_pos
  have hfresh : ∀ i, fresh predicates resident s.previous i = false := by
    intro i
    unfold fresh
    cases hr : resident with
    | none => rfl
    | some r => simp [hresident r hr]
  have hseconds : ∀ i, s.seconds predicates resident i = rows * cost i := by
    intro i
    unfold FilterSequence.seconds
    dsimp only
    rw [h.unkeyed i, hfresh i]
    simp only [Option.any_none, Bool.false_eq_true, if_false]
    exact h.later i rows hpos.le
  refine ⟨?_, fun i hi => ?_⟩
  · simp only [FilterSequence.choose, hseconds]
    split_ifs with hlt
    · rw [hrowsdef, if_pos hlt]
    · rw [le_antisymm (not_lt.1 hlt) hrows, zero_mul]
  · have hle := List.not_lt_of_mem_argmin hi hmin
    rw [not_lt, Prod.Lex.le_iff] at hle
    have hrank : s.rank predicates resident selected ≤ s.rank predicates resident i := by
      obtain hlt | heq := hle
      · exact hlt.le
      · exact heq.1.le
    unfold FilterSequence.rank at hrank
    rw [hseconds, hseconds] at hrank
    exact cheaper_of_rank hpos (h.nonneg i) (h.selectivity selected).2 (h.selectivity i).2 hrank

/-- The rest of an order is sorted by cost per rejection and adds its expected cost. -/
lemma FilterSequence.complete_spec (h : LinearCosts predicates cost extra)
    (hresident : ∀ r ∈ resident, ∀ p q, r p q = true) {fuel : ℕ}
    {s : FilterSequence K R predicates.length} (hfuel : s.remaining.length = fuel)
    (hrows : 0 ≤ s.expectedRows) :
    ∃ rest, (s.complete predicates resident fuel).ordered = s.ordered ++ rest ∧
      rest.Perm s.remaining ∧ rest.Pairwise (Cheaper cost (selectivity predicates)) ∧
      (s.complete predicates resident fuel).total =
        s.total + s.expectedRows * Sequencing.total cost (selectivity predicates) rest := by
  induction fuel generalizing s with
  | zero =>
    rw [List.length_eq_zero_iff.1 hfuel]
    exact ⟨[], by rw [List.append_nil]; rfl, .refl _, .nil, by
      rw [Sequencing.total, mul_zero, add_zero]; rfl⟩
  | succ fuel ih =>
    unfold FilterSequence.complete
    cases hmin : s.remaining.argmin fun i => toLex (s.rank predicates resident i, i) with
    | none =>
      rw [List.argmin_eq_none.1 hmin] at hfuel
      cases hfuel
    | some selected =>
      have hmem := List.argmin_mem hmin
      obtain ⟨htotal, hcheaper⟩ := choose_spec h hresident hrows hmin
      obtain ⟨rest, hordered, hperm, hsorted, hrest⟩ := ih (s := s.choose predicates resident selected)
        (by simp [choose, List.length_erase_of_mem hmem, hfuel])
        (mul_nonneg hrows (h.selectivity selected).1)
      have hperm' : (selected :: rest).Perm s.remaining :=
        (hperm.cons selected).trans (List.perm_cons_erase hmem).symm
      refine ⟨selected :: rest, ?_, hperm', ?_, ?_⟩
      · rw [hordered]
        simp [choose]
      · refine List.pairwise_cons.2 ⟨fun i hi => hcheaper i ?_, hsorted⟩
        exact hperm'.subset (List.mem_cons_of_mem _ hi)
      · rw [hrest, htotal, Sequencing.total]
        simp only [choose, selectivity]
        ring

/-- A candidate starts with its predicate, then sorts the others, and its cost is the order's. -/
lemma candidate_spec (h : LinearCosts predicates cost extra)
    (hresident : ∀ r ∈ resident, ∀ p q, r p q = true) {count : K} (hcount : 0 ≤ count)
    (first : Fin predicates.length) :
    ∃ rest, (candidate predicates resident count first).ordered = first :: rest ∧
      rest.Pairwise (Cheaper cost (selectivity predicates)) ∧
      (candidate predicates resident count first).total = expectedCost predicates count (first :: rest) := by
  obtain ⟨rest, hordered, -, hsorted, htotal⟩ := FilterSequence.complete_spec h hresident
    (s := ⟨[first], (predicates.get first).first count, count * (predicates.get first).selectivity,
      (predicates.get first).reuseKey.toList, first, (List.finRange predicates.length).erase first⟩)
    rfl (mul_nonneg hcount (h.selectivity first).1)
  refine ⟨rest, hordered, hsorted, htotal.trans ?_⟩
  rw [expectedCost, laterCost_eq h (mul_nonneg hcount (h.selectivity first).1)]

/-- Some predicate that rejects something starts an order no dearer than a given one. -/
lemma exists_candidate_le (h : LinearCosts predicates cost extra)
    (hresident : ∀ r ∈ resident, ∀ p q, r p q = true) {count : K} (hcount : 0 ≤ count)
    {starters : List (Fin predicates.length)}
    (hstarters : ∀ i, i ∈ starters ↔ (predicates.get i).selectivity < 1) (hne : starters ≠ [])
    {order : List (Fin predicates.length)} (horder : order.Perm (List.finRange predicates.length)) :
    ∃ first ∈ starters, (candidate predicates resident count first).total ≤
      expectedCost predicates count order := by
  -- the starter with the least cost per rejection
  obtain ⟨first, hfirst⟩ : ∃ first, starters.argmin
      (fun i => rejectionRank (1 * cost i) (1 - selectivity predicates i)) = some first :=
    Option.ne_none_iff_exists'.1 fun hnone => hne (List.argmin_eq_none.1 hnone)
  have hcheaper : ∀ i, Cheaper cost (selectivity predicates) first i := by
    intro i
    obtain hlt | heq := (h.selectivity i).2.lt_or_eq
    · have hle := not_lt.1 (List.not_lt_of_mem_argmin ((hstarters i).2 hlt) hfirst)
      exact cheaper_of_rank one_pos (h.nonneg i) (h.selectivity first).2 (h.selectivity i).2 hle
    · unfold Cheaper selectivity
      rw [heq, sub_self, mul_zero]
      exact mul_nonneg (h.nonneg i) (sub_nonneg.2 (h.selectivity first).2)
  refine ⟨first, List.argmin_mem hfirst, ?_⟩
  obtain ⟨rest, hordered, hsorted, htotal⟩ := candidate_spec h hresident hcount first
  obtain ⟨front, back, rfl⟩ := List.append_of_mem (horder.mem_iff.2 (List.mem_finRange first))
  have hpass : ∀ i, 0 ≤ selectivity predicates i := fun i => (h.selectivity i).1
  have hperm : (front ++ back).Perm rest := by
    have hall : (first :: rest).Perm (List.finRange predicates.length) := hordered ▸ candidate_perm count first
    exact (List.perm_middle.symm.trans (horder.trans hall.symm)).cons_inv
  rw [htotal, expectedCost_eq h hcount (List.cons_ne_nil _ _), expectedCost_eq h hcount (by simp)]
  refine add_le_add_right (mul_le_mul_of_nonneg_left ?_ hcount) _
  calc Sequencing.total cost (selectivity predicates) (first :: rest)
      ≤ Sequencing.total cost (selectivity predicates) (first :: (front ++ back)) := by
        have hle := total_le_of_pairwise (fun i _ => hpass i) hsorted hperm
        have hmul := mul_le_mul_of_nonneg_left hle (hpass first)
        simp only [Sequencing.total]
        linarith
    _ ≤ Sequencing.total cost (selectivity predicates) (front ++ first :: back) :=
        total_move_le (fun i _ => hpass i) fun i _ => hcheaper i

/-- The order is one of all predicates under either rule; and by cost, where the predicates have no reuse
keys and linear costs and every later predicate is resident, no order has a lower expected cost. -/
theorem orderFiltersIndexed_optimal (predicates : List (PredicateCost K R))
    (resident : Option (PredicateCost K R → PredicateCost K R → Bool)) (count : K) :
    (∀ rule, (orderFiltersIndexed predicates resident rule count).Perm (List.finRange predicates.length)) ∧
    ∀ cost extra, LinearCosts predicates cost extra → (∀ r ∈ resident, ∀ p q, r p q = true) → 0 ≤ count →
      ∀ order : List (Fin predicates.length), order.Perm (List.finRange predicates.length) →
        expectedCost predicates count (orderFiltersIndexed predicates resident .byCost count) ≤
          expectedCost predicates count order := by
  refine ⟨fun rule => orderFiltersIndexed_perm rule count, ?_⟩
  intro cost extra h hresident hcount order horder
  unfold orderFiltersIndexed
  dsimp only
  by_cases hshort : (List.finRange predicates.length).length < 2
  · rw [if_pos (.inr hshort)]
    -- at most one predicate has one order
    have heq : order = List.finRange predicates.length := by
      match hall : List.finRange predicates.length with
      | [] => exact (hall ▸ horder).eq_nil
      | [i] => exact List.perm_singleton.1 (hall ▸ horder)
      | _ :: _ :: _ =>
        rw [hall, List.length_cons, List.length_cons] at hshort
        omega
    rw [heq]
  · rw [if_neg (by simpa using hshort)]
    have hstarters : ∀ i, i ∈ (List.finRange predicates.length).filter
        (fun i => (predicates.get i).selectivity < 1) ↔ (predicates.get i).selectivity < 1 := by
      intro i
      simp
    cases hfirst : List.argmin (fun first => toLex ((candidate predicates resident count first).total, first))
        ((List.finRange predicates.length).filter fun i => (predicates.get i).selectivity < 1) with
    | none =>
      have hone : ∀ i, selectivity predicates i = 1 := by
        intro i
        have hnot := (hstarters i).not.1 (by rw [List.argmin_eq_none.1 hfirst]; exact List.not_mem_nil)
        exact le_antisymm (h.selectivity i).2 (not_lt.1 hnot)
      have hne : List.finRange predicates.length ≠ [] := fun hnil => by simp [hnil] at hshort
      have hne' : order ≠ [] := fun hnil => hne (hnil ▸ horder).symm.eq_nil
      dsimp only
      rw [expectedCost_eq h hcount hne, expectedCost_eq h hcount hne']
      refine add_le_add_right (mul_le_mul_of_nonneg_left ?_ hcount) _
      refine total_le_of_pairwise (fun i _ => (h.selectivity i).1) ?_ horder
      refine List.pairwise_of_forall fun i j => ?_
      unfold Cheaper
      rw [hone i, hone j, sub_self, mul_zero, mul_zero]
    | some first =>
      have hne : (List.finRange predicates.length).filter
          (fun i => (predicates.get i).selectivity < 1) ≠ [] := List.ne_nil_of_mem (List.argmin_mem hfirst)
      obtain ⟨best, hbest, hle⟩ := exists_candidate_le h hresident hcount hstarters hne horder
      obtain ⟨rest, hordered, -, htotal⟩ := candidate_spec h hresident hcount first
      dsimp only
      rw [hordered, ← htotal]
      refine le_trans ?_ hle
      have hmin := List.not_lt_of_mem_argmin hbest hfirst
      rw [not_lt, Prod.Lex.le_iff] at hmin
      obtain hlt | heq := hmin
      · exact hlt.le
      · exact heq.1.le

/-- A predicate that costs three for each document and passes half, and one that costs one and passes three
quarters. -/
def filterPair : List (PredicateCost ℚ String) :=
  [⟨fun rows => rows * 3 + rows * 2, fun rows => rows * 3, 1 / 2, none⟩,
    ⟨fun rows => rows * 1 + rows * 2, fun rows => rows * 1, 3 / 4, none⟩]

theorem orderFiltersIndexed_optimal_pair :
    expectedCost filterPair 10 (orderFiltersIndexed filterPair none .byCost 10) ≤
      expectedCost filterPair 10 (List.finRange filterPair.length) := by
  refine (orderFiltersIndexed_optimal filterPair none 10).2 (fun i => if i.1 = 0 then 3 else 1) 2 ?_ (by simp)
    (by norm_num) _ (.refl _)
  constructor
  · decide
  · decide +kernel
  · intro i rows _
    match i with
    | ⟨0, _⟩ => rfl
    | ⟨1, _⟩ => rfl
  · intro i rows _
    match i with
    | ⟨0, _⟩ => rfl
    | ⟨1, _⟩ => rfl
  · decide +kernel

end

end Quail.Planner
