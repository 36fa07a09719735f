import Mathlib

/-!
# Least loaded bins

Items with weights are put into bins one at a time, each into a least loaded bin and none heavier than those
before it. No bin is then heavier than another and any one item of its own: moving an item gains nothing.
-/

namespace LeastLoaded

variable {α : Type} (weight : α → ℕ)

/-- The weight of a bin. -/
def load (xs : List α) : ℕ := (xs.map weight).sum

/-- No bin is heavier than another bin and an item of its own. -/
def Level (bins : List (List α)) : Prop :=
  ∀ xs ∈ bins, ∀ ys ∈ bins, ∀ x ∈ xs, load weight xs ≤ load weight ys + weight x

/-- Put an item into a bin. -/
def put (bins : List (List α)) (i : ℕ) (x : α) : List (List α) := bins.modify i (· ++ [x])

variable {weight}

lemma load_append (xs ys : List α) : load weight (xs ++ ys) = load weight xs + load weight ys := by
  rw [load, List.map_append, List.sum_append]
  rfl

lemma load_perm {xs ys : List α} (h : xs.Perm ys) : load weight xs = load weight ys := (h.map weight).sum_eq

/-- A bin is an old one, or the one an item was put into. -/
lemma mem_put {bins : List (List α)} {i : ℕ} {x : α} {ys zs : List α} (hi : bins[i]? = some ys)
    (h : zs ∈ put bins i x) : zs ∈ bins ∨ zs = ys ++ [x] := by
  obtain ⟨j, hj⟩ := List.mem_iff_getElem?.1 h
  rw [put, List.getElem?_modify] at hj
  obtain ⟨xs, hxs, rfl⟩ := Option.map_eq_some_iff.1 hj
  split
  · rename_i heq
    rw [← heq, hi] at hxs
    exact .inr (congrArg (· ++ [x]) (Option.some.inj hxs).symm)
  · exact .inl (List.mem_of_getElem? hxs)

lemma length_put {bins : List (List α)} {i : ℕ} {x : α} : (put bins i x).length = bins.length :=
  List.length_modify _ _ _

lemma loads_put {bins : List (List α)} {i : ℕ} {x : α} :
    (put bins i x).map (load weight) = (bins.map (load weight)).modify i (· + weight x) := by
  refine List.ext_getElem? fun j => ?_
  rw [put, List.getElem?_map, List.getElem?_modify, List.getElem?_modify, List.getElem?_map]
  cases bins[j]? with
  | none => rfl
  | some xs =>
    by_cases hij : i = j
    · simp [hij, load]
    · simp [hij]

/-- The items are those from before and the one put in. -/
lemma flatten_put {bins : List (List α)} {i : ℕ} {x : α} (hi : i < bins.length) :
    (put bins i x).flatten.Perm (bins.flatten ++ [x]) := by
  induction bins generalizing i with
  | nil => cases hi
  | cons xs bins ih =>
    cases i with
    | zero =>
      rw [put, List.modify_zero_cons, List.flatten_cons, List.flatten_cons, List.append_assoc, List.append_assoc]
      exact List.perm_append_comm.append_left xs
    | succ i =>
      rw [put, List.modify_succ_cons, List.flatten_cons, List.flatten_cons, List.append_assoc]
      exact (ih (Nat.lt_of_succ_lt_succ hi)).append_left xs

/-- An item no heavier than those before it keeps the bins level, in a least loaded bin. -/
theorem Level.put {bins : List (List α)} {i : ℕ} {x : α} {ys : List α} (h : Level weight bins) (hi : bins[i]? = some ys)
    (hleast : ∀ zs ∈ bins, load weight ys ≤ load weight zs) (hlight : ∀ zs ∈ bins, ∀ z ∈ zs, weight x ≤ weight z) :
    Level weight (put bins i x) := by
  have hys : ys ∈ bins := List.mem_of_getElem? hi
  have hnew : load weight (ys ++ [x]) = load weight ys + weight x := by
    rw [load_append]
    exact congrArg (load weight ys + ·) (Nat.add_zero _)
  intro xs hxs zs hzs z hz
  obtain hxs | rfl := mem_put hi hxs
  · obtain hzs | rfl := mem_put hi hzs
    · exact h xs hxs zs hzs z hz
    · have hbefore := h xs hxs ys hys z hz
      omega
  · -- the bin that grew: it was least loaded, and the new item is the lightest
    have hweight : weight x ≤ weight z := by
      obtain hz | hz := List.mem_append.1 hz
      · exact hlight ys hys z hz
      · exact Nat.le_of_eq (congrArg weight (List.mem_singleton.1 hz)).symm
    obtain hzs | rfl := mem_put hi hzs
    · have hload := hleast zs hzs
      omega
    · omega

/-- A load that exceeds each of the others by at most `extra` exceeds an equal share by less than that. -/
lemma share_le {loads : List ℕ} {l extra : ℕ} (hl : l ∈ loads) (h : ∀ l' ∈ loads, l ≤ l' + extra) :
    loads.length * l ≤ loads.sum + (loads.length - 1) * extra := by
  have hrest : ∀ rest : List ℕ, (∀ l' ∈ rest, l ≤ l' + extra) → rest.length * l ≤ rest.sum + rest.length * extra := by
    intro rest
    induction rest with
    | nil => simp
    | cons l' rest ih =>
      intro hrest
      obtain ⟨hl', hrest⟩ := List.forall_mem_cons.1 hrest
      rw [List.length_cons, Nat.succ_mul, Nat.succ_mul, List.sum_cons]
      have hrest := ih hrest
      omega
  obtain ⟨before, after, rfl⟩ := List.append_of_mem hl
  have hothers := hrest (before ++ after) fun l' hl' => h l' (by
    obtain hl' | hl' := List.mem_append.1 hl'
    · exact List.mem_append_left _ hl'
    · exact List.mem_append_right _ (List.mem_cons_of_mem l hl'))
  have hlength : (before ++ l :: after).length = (before ++ after).length + 1 := by simp [Nat.add_assoc]
  have hsum : (before ++ l :: after).sum = (before ++ after).sum + l := by simp [Nat.add_comm, Nat.add_left_comm]
  rw [hlength, hsum, Nat.succ_mul, Nat.add_sub_cancel]
  omega

end LeastLoaded
