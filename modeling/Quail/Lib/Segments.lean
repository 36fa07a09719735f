import Mathlib.Algebra.Order.BigOperators.Group.List
import Mathlib.Algebra.Order.Monoid.WithTop

/-!
# Segments

A run of items split into consecutive segments, each at a price. The least cost of the first items comes
from a last segment and the least cost of the items before it, so that a table with that recurrence holds
the least costs, and the segments it was made from are a split of that cost.
-/

namespace Segments

/-- A split of the first items into consecutive segments, each from its first item up to the item after
its last. -/
inductive Split : ℕ → List (ℕ × ℕ) → Prop
  | nil : Split 0 []
  | snoc {a b bounds} : Split a bounds → a < b → Split b (bounds ++ [(a, b)])

/-- A segment holds an item, and ends by the last item split. -/
lemma Split.lt_le {b : ℕ} {bounds : List (ℕ × ℕ)} (h : Split b bounds) : ∀ e ∈ bounds, e.1 < e.2 ∧ e.2 ≤ b := by
  induction h with
  | nil => exact fun _ he => absurd he List.not_mem_nil
  | snoc h hlt ih =>
    intro e he
    rcases List.mem_append.1 he with he | he
    · have := ih e he
      omega
    · obtain rfl := List.mem_singleton.1 he
      exact ⟨hlt, le_rfl⟩

section
variable {K : Type} [AddCommMonoid K] (price : ℕ → ℕ → K)

/-- The cost of a split. -/
def cost (bounds : List (ℕ × ℕ)) : K := (bounds.map fun e => price e.1 e.2).sum

lemma cost_snoc (bounds : List (ℕ × ℕ)) (e : ℕ × ℕ) :
    cost price (bounds ++ [e]) = cost price bounds + price e.1 e.2 := by
  simp [cost]

/-- A table whose entries are no dearer than any last segment after an earlier entry bounds every split. -/
lemma le_cost [LinearOrder K] [IsOrderedAddMonoid K] {fits : ℕ → ℕ → Prop} {best : ℕ → WithTop K} {m : ℕ}
    (hzero : best 0 ≤ 0) (hstep : ∀ a b, a < b → b ≤ m → fits a b → best b ≤ best a + price a b)
    {b : ℕ} {bounds : List (ℕ × ℕ)} (h : Split b bounds) (hb : b ≤ m) (hfits : ∀ e ∈ bounds, fits e.1 e.2) :
    best b ≤ ((cost price bounds : K) : WithTop K) := by
  induction h with
  | nil => exact hzero
  | @snoc a b bounds h hlt ih =>
    have hrest := ih (by omega) fun e he => hfits e (List.mem_append_left _ he)
    have hlast := hstep a b hlt hb (hfits (a, b) (by simp))
    calc best b ≤ best a + price a b := hlast
      _ ≤ ((cost price bounds : K) : WithTop K) + price a b := add_le_add_left hrest _
      _ = ((cost price (bounds ++ [(a, b)]) : K) : WithTop K) := by rw [cost_snoc, WithTop.coe_add]

end

/-- The segments that end at an item, by where each last segment starts, the last first. -/
def trace (start : ℕ → ℕ) : ℕ → ℕ → List (ℕ × ℕ)
  | 0, _ => []
  | fuel + 1, b => if b = 0 then [] else (start b, b) :: trace start fuel (start b)

variable {start : ℕ → ℕ} {m : ℕ}

/-- The segments traced back are a split. -/
lemma split_trace (hstart : ∀ b, 0 < b → b ≤ m → start b < b) {fuel b : ℕ} (hfuel : b ≤ fuel) (hb : b ≤ m) :
    Split b (trace start fuel b).reverse := by
  induction fuel generalizing b with
  | zero =>
    obtain rfl := Nat.le_zero.1 hfuel
    exact .nil
  | succ fuel ih =>
    unfold trace
    split_ifs with hzero
    · rw [hzero]
      exact .nil
    · have hlt := hstart b (Nat.pos_of_ne_zero hzero) hb
      rw [List.reverse_cons]
      exact .snoc (ih (by omega) (by omega)) hlt

/-- What holds of every segment the table was made from holds of those traced back. -/
lemma forall_trace {P : ℕ → ℕ → Prop} (hP : ∀ b, 0 < b → b ≤ m → P (start b) b ∧ start b < b) {fuel b : ℕ}
    (hb : b ≤ m) : ∀ e ∈ trace start fuel b, P e.1 e.2 := by
  induction fuel generalizing b with
  | zero => exact fun _ he => absurd he List.not_mem_nil
  | succ fuel ih =>
    unfold trace
    split_ifs with hzero
    · exact fun _ he => absurd he List.not_mem_nil
    · obtain ⟨hPb, hlt⟩ := hP b (Nat.pos_of_ne_zero hzero) hb
      exact List.forall_mem_cons.2 ⟨hPb, ih (by omega)⟩

/-- The cost of the segments traced back is the table's. -/
lemma cost_trace {K : Type} [AddCommMonoid K] {price : ℕ → ℕ → K} {best : ℕ → WithTop K} (hzero : best 0 = 0)
    (hbest : ∀ b, 0 < b → b ≤ m → best b = best (start b) + price (start b) b ∧ start b < b) {fuel b : ℕ}
    (hfuel : b ≤ fuel) (hb : b ≤ m) : ((cost price (trace start fuel b).reverse : K) : WithTop K) = best b := by
  induction fuel generalizing b with
  | zero =>
    obtain rfl := Nat.le_zero.1 hfuel
    exact hzero.symm
  | succ fuel ih =>
    unfold trace
    split_ifs with hempty
    · rw [hempty]
      exact hzero.symm
    · obtain ⟨heq, hlt⟩ := hbest b (Nat.pos_of_ne_zero hempty) hb
      rw [List.reverse_cons, cost_snoc, WithTop.coe_add, ih (by omega) (by omega), heq]

end Segments
