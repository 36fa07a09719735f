import Quail.Lib.Cumulative
import Mathlib.Data.List.Flatten
import Mathlib.Algebra.BigOperators.Group.List.Basic

/-!
# Rows cut out of one list

An array of lists holds its rows back to back in one list of values, with an offset where each row starts and
one where the last row ends. A slice of such an array keeps the values and a part of the offsets, so that the
first offset need not be zero.
-/

variable {α β : Type}

/-- The rows between consecutive offsets. -/
def cutRows (values : List α) (offsets : List ℕ) : List (List α) :=
  (offsets.zip offsets.tail).map fun bounds => (values.take bounds.2).drop bounds.1

/-- Values and offsets in order within them. -/
structure Ragged (α : Type) where
  values : List α
  first : ℕ
  rest : List ℕ
  sorted : (first :: rest).Pairwise (· ≤ ·)
  bounded : ∀ offset ∈ first :: rest, offset ≤ values.length

namespace Ragged

/-- All offsets. -/
def offsets (array : Ragged α) : List ℕ := array.first :: array.rest

/-- The rows. -/
def rows (array : Ragged α) : List (List α) := cutRows array.values array.offsets

/-- The values of all rows (`flatten`). -/
def flat (array : Ragged α) : List α := (array.values.take (array.rest.getLastD array.first)).drop array.first

/-- The offsets from the first one on. -/
def relative (array : Ragged α) : List ℕ := array.offsets.map (· - array.first)

/-! ## Cutting rows -/

lemma cutRows_append (before : List α) (rows : List (List α)) :
    cutRows (before ++ rows.flatten) ((rows.map List.length).scanl (· + ·) before.length) = rows := by
  induction rows generalizing before with
  | nil => rfl
  | cons row rows ih =>
    have hrest := ih (before ++ row)
    rw [List.length_append, List.append_assoc] at hrest
    have hhead : ((before ++ (row ++ rows.flatten)).take (before.length + row.length)).drop before.length = row := by
      rw [List.take_length_add_append, List.drop_left, List.take_left]
    rw [cutRows, List.map_cons, List.scanl_cons, List.tail_cons, List.flatten_cons, Cumulative.scanl_eq_cons,
      List.zip_cons_cons, ← Cumulative.scanl_eq_cons, List.map_cons, hhead]
    exact congrArg (row :: ·) hrest

/-- Rows back to back are cut at the sums of their lengths. -/
lemma cutRows_flatten (rows : List (List α)) : cutRows rows.flatten (cumulative (rows.map List.length)) = rows :=
  cutRows_append [] rows

lemma getElem?_cutRows (values : List α) {lengths : List ℕ} {d : ℕ} (h : d < lengths.length) :
    (cutRows values (cumulative lengths))[d]?
      = some ((values.take (lengths.take (d + 1)).sum).drop (lengths.take d).sum) := by
  rw [cutRows, List.getElem?_map, (List.getElem?_zip_eq_some
    (z := ((lengths.take d).sum, (lengths.take (d + 1)).sum))).2 
      ⟨Cumulative.getElem?_eq h.le, by rw [List.getElem?_tail, Cumulative.getElem?_eq h]⟩]
  rfl

lemma cutRows_map (f : α → β) (values : List α) (offsets : List ℕ) :
    cutRows (values.map f) offsets = (cutRows values offsets).map (List.map f) := by
  rw [cutRows, cutRows, List.map_map]
  simp only [Function.comp_def, List.map_drop, List.map_take]

/-! ## The rows of an array -/

variable {values : List α} {first : ℕ} {rest : List ℕ}

lemma slice_append {a b c : ℕ} (hab : a ≤ b) (hbc : b ≤ c) :
    (values.take b).drop a ++ (values.take c).drop b = (values.take c).drop a := by
  have hcut : values.take b = (values.take c).take b := by rw [List.take_take, Nat.min_eq_left hbc]
  rw [hcut, List.drop_take]
  conv_rhs => rw [← List.take_append_drop (b - a) ((values.take c).drop a)]
  rw [List.drop_drop, Nat.add_sub_cancel' hab]

lemma le_getLastD (sorted : (first :: rest).Pairwise (· ≤ ·)) : first ≤ rest.getLastD first := by
  rcases List.mem_cons.1 (List.getLastD_mem_cons (l := rest) (a := first)) with h | h
  · exact h.ge
  · exact List.rel_of_pairwise_cons sorted h

/-- The rows back to back are the values between the ends. -/
lemma cutRows_flat (sorted : (first :: rest).Pairwise (· ≤ ·)) :
    (cutRows values (first :: rest)).flatten = (values.take (rest.getLastD first)).drop first := by
  induction rest generalizing first with
  | nil => simp [cutRows, List.drop_take]
  | cons next rest ih =>
    have hrest := sorted.tail
    have hcut : cutRows values (first :: next :: rest) = (values.take next).drop first :: cutRows values (next :: rest) := rfl
    rw [hcut, List.flatten_cons, ih hrest, List.getLastD_cons,
      slice_append (List.rel_of_pairwise_cons sorted List.mem_cons_self) (le_getLastD hrest)]

/-- The offsets are the sums of the rows' lengths. -/
lemma cutRows_lengths {base : ℕ} (sorted : (first :: rest).Pairwise (· ≤ ·)) (hbase : base ≤ first)
    (bounded : ∀ offset ∈ rest, offset ≤ values.length) : (first :: rest).map (· - base)
      = ((cutRows values (first :: rest)).map List.length).scanl (· + ·) (first - base) := by
  induction rest generalizing first with
  | nil => rfl
  | cons next rest ih =>
    have hle : first ≤ next := List.rel_of_pairwise_cons sorted List.mem_cons_self
    have hlength : ((values.take next).drop first).length = next - first := by
      rw [List.length_drop, List.length_take, Nat.min_eq_left (bounded next List.mem_cons_self)]
    have hcut : cutRows values (first :: next :: rest) = (values.take next).drop first :: cutRows values (next :: rest) := rfl
    have hnext : first - base + (next - first) = next - base := by omega
    rw [List.map_cons, ih sorted.tail (hbase.trans hle) fun offset hoffset => bounded offset (List.mem_cons_of_mem next hoffset),
      hcut, List.map_cons, List.scanl_cons, hlength, hnext]

variable {array : Ragged α}

lemma flat_eq (array : Ragged α) : array.flat = array.rows.flatten := (cutRows_flat array.sorted).symm

lemma relative_eq (array : Ragged α) : array.relative = cumulative (array.rows.map List.length) := by
  have hlengths := cutRows_lengths array.sorted le_rfl fun offset hoffset =>
    array.bounded offset (List.mem_cons_of_mem array.first hoffset)
  rw [Nat.sub_self] at hlengths
  exact hlengths

end Ragged
