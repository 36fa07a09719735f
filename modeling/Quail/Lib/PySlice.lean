import Quail.Lib.Python
import Mathlib.Data.List.Range
import Mathlib.Algebra.Order.Group.Int
import Mathlib.Order.Lattice

/-!
# Slices and items of a Python sequence

`slice.indices`, the list slice `xs[start:stop:step]` with any bounds and step, and the list item `xs[index]`.
A slice of step one is the part between its clamped ends, and is empty where these are out of order.
-/

/-- A slice: its start, stop and step, each may be left out. -/
structure PySlice where
  start : Option ℤ
  stop : Option ℤ
  step : Option ℤ
  deriving Repr, DecidableEq

namespace PySlice

variable {α : Type} {s : PySlice} {n : ℕ} {start stop : ℤ} {xs : List α}

/-- A bound in a sequence of `n` elements, clamped to `lower` and `upper`. -/
def clamp (n : ℕ) (lower upper : ℤ) (bound : ℤ) : ℤ :=
  if bound < 0 then max (bound + n) lower else min bound upper

/-- `slice.indices`. -/
def indices (s : PySlice) (n : ℕ) : Except PyError (ℤ × ℤ × ℤ) :=
  let step := s.step.getD 1
  if step = 0 then .error (.value "slice step cannot be zero")
  else
    let lower : ℤ := if step < 0 then -1 else 0
    let upper : ℤ := if step < 0 then n - 1 else n
    .ok ((s.start.map (clamp n lower upper)).getD (if step < 0 then upper else lower),
      (s.stop.map (clamp n lower upper)).getD (if step < 0 then lower else upper), step)

/-- `range(start, stop, step)`. -/
def range (start stop step : ℤ) : List ℤ :=
  let count := if 0 < step then (stop - start + step - 1) / step else (start - stop - step - 1) / -step
  (List.range count.toNat).map fun k : ℕ => start + k * step

/-- The elements at some positions. -/
def elements (xs : List α) (positions : List ℤ) : List α := positions.filterMap fun i => xs[i.toNat]?

/-- `xs[start:stop:step]`. -/
def get (s : PySlice) (xs : List α) : Except PyError (List α) :=
  (s.indices xs.length).map fun r => elements xs (range r.1 r.2.1 r.2.2)

/-- The position of an index in a sequence of `n` elements; a negative one counts from the end. -/
def position (n : ℕ) (index : ℤ) : ℤ := if index < 0 then index + n else index

/-- `xs[index]`. -/
def item (xs : List α) (index : ℤ) : Except PyError α :=
  if position xs.length index < 0 then .error (.index "list index out of range")
  else match xs[(position xs.length index).toNat]? with
    | some x => .ok x
    | none => .error (.index "list index out of range")

/-- Both give the same element, or both raise an IndexError. -/
def SameItem (r r' : Except PyError α) : Prop :=
  (∃ x, r = .ok x ∧ r' = .ok x) ∨ ∃ text text', r = .error (.index text) ∧ r' = .error (.index text')

lemma get_error {e : PyError} (h : s.indices xs.length = .error e) : s.get xs = .error e := by
  rw [get, h]
  rfl

lemma get_ok {step : ℤ} (h : s.indices xs.length = .ok (start, stop, step)) :
    s.get xs = .ok (elements xs (range start stop step)) := by
  rw [get, h]
  rfl

/-! ## Step one -/

lemma clamp_mem (bound : ℤ) : 0 ≤ clamp n 0 n bound ∧ clamp n 0 n bound ≤ n := by
  rw [clamp]
  split <;> omega

/-- The ends of a slice of step one are positions of the sequence. -/
lemma indices_mem (h : s.indices n = .ok (start, stop, 1)) : (0 ≤ start ∧ start ≤ n) ∧ 0 ≤ stop ∧ stop ≤ n := by
  rw [indices] at h
  dsimp only at h
  split at h
  · cases h
  · rename_i hstep
    simp only [Except.ok.injEq, Prod.mk.injEq] at h
    obtain ⟨hstart, hstop, hone⟩ := h
    rw [hone, if_neg (by decide), if_neg (by decide), if_neg (by decide)] at hstart hstop
    constructor
    · rw [← hstart]
      cases s.start with
      | none => exact ⟨le_rfl, Int.natCast_nonneg n⟩
      | some bound => exact clamp_mem bound
    · rw [← hstop]
      cases s.stop with
      | none => exact ⟨Int.natCast_nonneg n, le_rfl⟩
      | some bound => exact clamp_mem bound

lemma filterMap_range {a k : ℕ} : (List.range k).filterMap (fun i => xs[a + i]?) = (xs.drop a).take k := by
  induction k with
  | zero => rfl
  | succ k ih =>
    rw [List.range_succ, List.filterMap_append, ih, List.take_add_one, List.getElem?_drop]
    cases h : xs[a + k]? <;> simp [h]

lemma range_one : range start stop 1 = (List.range (stop - start).toNat).map fun k : ℕ => start + k := by
  have hcount : (stop - start + 1 - 1) / 1 = stop - start := by
    rw [Int.ediv_one]
    omega
  rw [range, if_pos Int.one_pos, hcount]
  simp only [mul_one]

lemma mem_range_one {i : ℤ} : i ∈ range start stop 1 ↔ start ≤ i ∧ i < stop := by
  rw [range_one, List.mem_map]
  constructor
  · rintro ⟨k, hk, rfl⟩
    have := List.mem_range.1 hk
    omega
  · rintro ⟨hlow, hhigh⟩
    exact ⟨(i - start).toNat, List.mem_range.2 (by omega), by omega⟩

lemma elements_range_one (hstart : 0 ≤ start) :
    elements xs (range start stop 1) = (xs.take stop.toNat).drop start.toNat := by
  have hposition : ∀ k : ℕ, (start + k).toNat = start.toNat + k := by
    intro k
    omega
  rw [elements, range_one, List.filterMap_map]
  simp only [Function.comp_def, hposition]
  rw [filterMap_range, List.drop_take]
  congr 1
  omega

/-- A slice of step one is the part between its ends. -/
lemma get_of_indices (h : s.indices xs.length = .ok (start, stop, 1)) :
    s.get xs = .ok ((xs.take stop.toNat).drop start.toNat) := by
  rw [get_ok h, elements_range_one (indices_mem h).1.1]

/-- The slice `xs[a:b]` between two positions, of which the second may be past the end. -/
lemma indices_natCast {a b : ℕ} : (PySlice.mk (some a) (some b) none).indices n
    = .ok (((min a n : ℕ) : ℤ), ((min b n : ℕ) : ℤ), 1) := by
  have hclamp : ∀ k : ℕ, clamp n 0 n k = (min k n : ℕ) := by
    intro k
    rw [clamp, if_neg (by omega)]
    omega
  rw [indices]
  simp [hclamp]

lemma take_drop_min {a b : ℕ} : (xs.take (min b xs.length)).drop (min a xs.length) = (xs.take b).drop a := by
  rw [List.drop_take, List.drop_take]
  rcases Nat.le_total a xs.length with ha | ha
  · rw [Nat.min_eq_left ha]
    rcases Nat.le_total b xs.length with hb | hb
    · rw [Nat.min_eq_left hb]
    · rw [Nat.min_eq_right hb, List.take_of_length_le (by simp), List.take_of_length_le (by simp; omega)]
  · rw [Nat.min_eq_right ha, List.drop_length, List.drop_of_length_le ha, List.take_nil, List.take_nil]

/-- `xs[a:b]`. -/
lemma get_natCast {a b : ℕ} : (PySlice.mk (some (a : ℤ)) (some (b : ℤ)) none).get xs = .ok ((xs.take b).drop a) := by
  rw [get_of_indices indices_natCast, Int.toNat_natCast, Int.toNat_natCast, take_drop_min]

/-! ## Items -/

variable {index : ℤ}

lemma position_of_nonneg (h : 0 ≤ index) : position n index = index := if_neg (not_lt.2 h)

lemma item_of_mem (xs : List α) (h : 0 ≤ position xs.length index) (hlt : position xs.length index < xs.length) :
    ∃ x, item xs index = .ok x ∧ xs[(position xs.length index).toNat]? = some x := by
  have hnat : (position xs.length index).toNat < xs.length := by omega
  refine ⟨xs[(position xs.length index).toNat], ?_, List.getElem?_eq_getElem hnat⟩
  rw [item, if_neg (not_lt.2 h), List.getElem?_eq_getElem hnat]

lemma item_of_lt (xs : List α) (h : 0 ≤ index) (hlt : index < xs.length) : ∃ x, item xs index = .ok x ∧ xs[index.toNat]? = some x := by
  have hposition := position_of_nonneg (n := xs.length) h
  obtain ⟨x, hx, hget⟩ := item_of_mem xs (hposition.symm ▸ h) (hposition.symm ▸ hlt)
  exact ⟨x, hx, hposition ▸ hget⟩

lemma item_error (h : ¬(0 ≤ position xs.length index ∧ position xs.length index < xs.length)) :
    item xs index = .error (.index "list index out of range") := by
  rw [item]
  split
  · rfl
  · rename_i hlow
    have := not_lt.1 fun hhigh => h ⟨not_lt.1 hlow, hhigh⟩
    rw [List.getElem?_eq_none (by omega)]

/-- An item is an element, or there is an IndexError. -/
lemma sameItem_item : SameItem (item xs index) (item xs index) := by
  by_cases h : 0 ≤ position xs.length index ∧ position xs.length index < xs.length
  · obtain ⟨x, hx, -⟩ := item_of_mem xs h.1 h.2
    exact Or.inl ⟨x, hx, hx⟩
  · exact Or.inr ⟨_, _, item_error h, item_error h⟩

/-- An item is the one at its position. -/
lemma item_position (h : 0 ≤ position xs.length index) : item xs (position xs.length index) = item xs index := by
  rw [item, item, position_of_nonneg h]

lemma item_natCast {i : ℕ} {x : α} (h : xs[i]? = some x) : item xs i = .ok x := by
  obtain ⟨hlt, -⟩ := List.getElem?_eq_some_iff.1 h
  obtain ⟨y, hy, hget⟩ := item_of_lt xs (Int.natCast_nonneg i) (Int.ofNat_lt.2 hlt)
  rw [Int.toNat_natCast, h] at hget
  rw [hy, Option.some.inj hget]

lemma mapM_item {positions : List ℕ} {f : ℕ → α} (h : ∀ i ∈ positions, xs[i]? = some (f i)) :
    (positions.map (Nat.cast : ℕ → ℤ)).mapM (item xs) = .ok (positions.map f) := by
  induction positions with
  | nil => rfl
  | cons i positions ih =>
    rw [List.map_cons, List.mapM_cons, item_natCast (h i List.mem_cons_self), ok_bind,
      ih fun j hj => h j (List.mem_cons_of_mem i hj)]
    rfl

/-- The items at consecutive positions. -/
lemma mapM_item_range' {b k : ℕ} (h : b + k ≤ xs.length) :
    ((List.range' b k).map (Nat.cast : ℕ → ℤ)).mapM (item xs) = .ok ((xs.drop b).take k) := by
  induction k generalizing b with
  | zero => rfl
  | succ k ih =>
    have hlt : b < xs.length := by omega
    rw [List.range'_succ, List.map_cons, List.mapM_cons, item_natCast (List.getElem?_eq_getElem hlt), ok_bind,
      ih (by omega), ok_bind, List.drop_eq_getElem_cons hlt, List.take_succ_cons]
    rfl

end PySlice
