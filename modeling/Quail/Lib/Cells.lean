import Quail.Lib.Cumulative
import Quail.Lib.NearestCut

/-!
# Cells laid end to end

Cells of positive sizes laid end to end. A range of positions reaches from the cell its first position is in to
the first cell end at or past its own end; for a range that is not empty this is the smallest range of cells that
holds it. Positions in a part of the cells are those of the part alone, after the cells before it.
-/

namespace Cells
open Cumulative Bisect

variable {sizes before cells after : List ℕ} {p q a b i x : ℕ}

/-- The first cell boundary that is not before a position. -/
def reach (sizes : List ℕ) (x : ℕ) : ℕ := cut (· < x) (cumulative sizes)

/-- A range of cells holds some positions. -/
def Holds (sizes : List ℕ) (p q a b : ℕ) : Prop :=
  ∀ x, p ≤ x → x < q → ∃ i, a ≤ i ∧ i < b ∧ (sizes.take i).sum ≤ x ∧ x < (sizes.take (i + 1)).sum

/-- No smaller range of cells holds the positions. -/
def Smallest (sizes : List ℕ) (p q a b : ℕ) : Prop :=
  Holds sizes p q a b ∧ ∀ a' b', Holds sizes p q a' b' → a' ≤ a ∧ b ≤ b'

lemma reach_spec (h : x ≤ sizes.sum) : reach sizes x ≤ sizes.length ∧ x ≤ (sizes.take (reach sizes x)).sum ∧
    ∀ i < reach sizes x, (sizes.take i).sum < x := by
  have hlength : (cumulative sizes).length = sizes.length + 1 := List.length_scanl
  have hle : reach sizes x ≤ sizes.length := by
    by_contra hgt
    have hlast := of_lt_cut (Nat.not_le.1 hgt) (getElem?_eq le_rfl)
    rw [List.take_length, decide_eq_true_eq] at hlast
    omega
  refine ⟨hle, ?_, fun i hi => ?_⟩
  · have hnot := not_of_cut (getElem?_eq hle)
    rw [decide_eq_false_iff_not, not_lt] at hnot
    exact hnot
  · have hbelow := of_lt_cut hi (getElem?_eq (hi.le.trans hle))
    rwa [decide_eq_true_eq] at hbelow

lemma reach_eq (h : i ≤ sizes.length) (hle : x ≤ (sizes.take i).sum) (hlt : ∀ j < i, (sizes.take j).sum < x) :
    reach sizes x = i := by
  have hsum : x ≤ sizes.sum := hle.trans ((sum_take_mono h).trans (le_of_eq (by rw [List.take_length])))
  obtain ⟨-, hreach, hbelow⟩ := reach_spec hsum
  rcases Nat.lt_trichotomy (reach sizes x) i with h' | h' | h'
  · exact absurd hreach (Nat.not_le.2 (hlt _ h'))
  · exact h'
  · exact absurd hle (Nat.not_le.2 (hbelow _ h'))

/-- The cell of a position. -/
lemma fit_cell (h : x < sizes.sum) : fit sizes x < sizes.length ∧ (sizes.take (fit sizes x)).sum ≤ x ∧
    x < (sizes.take (fit sizes x + 1)).sum := by
  obtain ⟨hle, hsum, hlt⟩ := fit_spec (l := sizes) (x := x)
  have hfit : fit sizes x < sizes.length := by
    by_contra hge
    rw [le_antisymm hle (Nat.not_lt.1 hge), List.take_length] at hsum
    omega
  exact ⟨hfit, hsum, hlt hfit⟩

lemma fit_mono (h : p ≤ q) : fit sizes p ≤ fit sizes q := le_fit fit_le (sum_fit.trans h)

/-- From the cell of the first position to where the cells reach the end is the smallest range. -/
theorem smallest (h : p < q) (hq : q ≤ sizes.sum) : Smallest sizes p q (fit sizes p) (reach sizes q) := by
  obtain ⟨hreach, hend, hbelow⟩ := reach_spec hq
  constructor
  · intro x hp hx
    obtain ⟨-, hlow, hhigh⟩ := fit_cell (hx.trans_le hq)
    refine ⟨fit sizes x, fit_mono hp, ?_, hlow, hhigh⟩
    by_contra hge
    have hmono := sum_take_mono (l := sizes) (Nat.not_lt.1 hge)
    omega
  · intro a b hholds
    constructor
    · obtain ⟨i, ha, -, hlow, hhigh⟩ := hholds p le_rfl h
      refine ha.trans (le_fit ?_ hlow)
      by_contra hgt
      rw [List.take_of_length_le (by omega)] at hlow
      omega
    · obtain ⟨i, -, hb, -, hhigh⟩ := hholds (q - 1) (by omega) (by omega)
      by_contra hlt
      have hlast := hbelow (i + 1) (by omega)
      omega

/-- There is only one smallest range. -/
lemma Smallest.unique {a' b' : ℕ} (h : Smallest sizes p q a b) (h' : Smallest sizes p q a' b') : a = a' ∧ b = b' := by
  obtain ⟨hle, hge⟩ := h.2 a' b' h'.1
  obtain ⟨hle', hge'⟩ := h'.2 a b h.1
  exact ⟨le_antisymm hle' hle, le_antisymm hge hge'⟩

/-- A boundary is rounded to itself. -/
lemma fit_boundary (hpos : ∀ size ∈ sizes, 0 < size) (h : i ≤ sizes.length) :
    fit sizes (sizes.take i).sum = i ∧ reach sizes (sizes.take i).sum = i :=
  ⟨fit_eq h le_rfl fun hi => sum_take_lt hpos (Nat.lt_succ_self i) hi,
    reach_eq h le_rfl fun _ hj => sum_take_lt hpos hj h⟩

lemma fit_le_reach (hpos : ∀ size ∈ sizes, 0 < size) (h : p ≤ q) (hq : q ≤ sizes.sum) : fit sizes p ≤ reach sizes q := by
  obtain ⟨-, hend, -⟩ := reach_spec hq
  by_contra hgt
  have hlt := sum_take_lt hpos (Nat.not_le.1 hgt) fit_le
  have hsum := sum_fit (l := sizes) (x := p)
  omega

/-- The range of no positions is empty at a boundary, and the cell around them inside one. -/
lemma reach_eq_fit (hpos : ∀ size ∈ sizes, 0 < size) (h : x ≤ sizes.sum) : reach sizes x = fit sizes x ∨
    reach sizes x = fit sizes x + 1 ∧ (sizes.take (fit sizes x)).sum < x ∧ x < (sizes.take (fit sizes x + 1)).sum := by
  obtain ⟨hfit, hsum, hnext⟩ := fit_spec (l := sizes) (x := x)
  rcases hsum.lt_or_eq with hlt | heq
  · have hin : fit sizes x < sizes.length := by
      by_contra hge
      rw [le_antisymm hfit (Nat.not_lt.1 hge), List.take_length] at hlt
      omega
    refine Or.inr ⟨reach_eq hin (hnext hin).le fun j hj => ?_, hlt, hnext hin⟩
    exact (sum_take_mono (Nat.lt_succ_iff.1 hj)).trans_lt hlt
  · refine Or.inl (reach_eq hfit heq.ge fun j hj => ?_)
    exact (sum_take_lt hpos hj hfit).trans_le hsum

/-! ## Cells among others -/

lemma sum_take_append (h : i ≤ cells.length) :
    ((before ++ cells ++ after).take (before.length + i)).sum = before.sum + (cells.take i).sum := by
  rw [List.append_assoc, List.take_length_add_append, List.sum_append, List.take_append_of_le_length h]

lemma fit_append (hpos : ∀ size ∈ after, 0 < size) (h : p ≤ cells.sum) :
    fit (before ++ cells ++ after) (before.sum + p) = before.length + fit cells p := by
  obtain ⟨hle, hsum, hlt⟩ := fit_spec (l := cells) (x := p)
  refine fit_eq ?_ ?_ fun hnext => ?_
  · rw [List.length_append, List.length_append]
    omega
  · rw [sum_take_append hle]
    omega
  · rcases hle.lt_or_eq with hin | hend
    · have hcell := hlt hin
      rw [Nat.add_assoc, sum_take_append (i := fit cells p + 1) hin]
      omega
    · -- the cells end at the position, and the next cell is after them
      cases after with
      | nil =>
        rw [List.append_nil, List.length_append] at hnext
        omega
      | cons size after =>
        have hsize := hpos size List.mem_cons_self
        rw [hend, Nat.add_assoc, List.append_assoc, List.take_length_add_append, List.sum_append,
          List.take_length_add_append, List.sum_append, List.take_succ_cons, List.sum_cons]
        omega

lemma reach_append (hpos : ∀ size ∈ before, 0 < size) (h : q ≤ cells.sum) :
    reach (before ++ cells ++ after) (before.sum + q) = before.length + reach cells q := by
  obtain ⟨hle, hsum, hlt⟩ := reach_spec h
  refine reach_eq ?_ ?_ fun j hj => ?_
  · rw [List.length_append, List.length_append]
    omega
  · rw [sum_take_append hle]
    omega
  · rcases Nat.lt_or_ge j before.length with hin | hge
    · have hbefore := sum_take_lt hpos hin le_rfl
      rw [List.take_length] at hbefore
      rw [List.append_assoc, List.take_append_of_le_length hin.le]
      omega
    · obtain ⟨k, rfl⟩ := Nat.exists_eq_add_of_le hge
      have := hlt k (by omega)
      rw [sum_take_append (by omega)]
      omega

lemma sum_ones (hone : ∀ size ∈ sizes, size = 1) : sizes.sum = sizes.length := by
  have hones := List.eq_replicate_of_mem (a := 1) hone
  rw [hones, List.sum_replicate_nat, List.length_replicate, Nat.mul_one]

lemma reach_zero : reach sizes 0 = 0 := reach_eq (Nat.zero_le _) (Nat.zero_le _) fun _ hj => absurd hj (Nat.not_lt_zero _)

/-- Cells of size one are positions. -/
lemma fit_ones (hone : ∀ size ∈ sizes, size = 1) (h : x ≤ sizes.length) : fit sizes x = x ∧ reach sizes x = x := by
  have hsum : ∀ i ≤ sizes.length, (sizes.take i).sum = i := by
    intro i hi
    rw [sum_ones fun size hsize => hone size (List.mem_of_mem_take hsize), List.length_take, Nat.min_eq_left hi]
  constructor
  · refine fit_eq h (hsum x h).le fun hlt => ?_
    rw [hsum (x + 1) hlt]
    omega
  · refine reach_eq h (hsum x h).ge fun j hj => ?_
    rw [hsum j (by omega)]
    omega

end Cells
