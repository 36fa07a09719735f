import Mathlib.Data.List.Sort
import Mathlib.Data.List.Nodup
import Mathlib.Data.List.Perm.Basic

/-!
# Sort indices

The positions of a stable sort, and what taking a list at positions gives. The positions of the sorted
positions put a list back in its own order.
-/

namespace Argsort

variable {α β : Type}

/-- The elements at the positions, in that order. -/
def take (xs : List α) (positions : List ℕ) : List α := positions.filterMap (xs[·]?)

/-- The positions of a stable sort. -/
def sortIndices (r : α → α → Prop) [DecidableRel r] (xs : List α) : List ℕ :=
  (xs.zipIdx.insertionSort fun x y => r x.1 y.1).map Prod.snd

lemma getElem?_take {xs : List α} {positions : List ℕ} (h : ∀ p ∈ positions, p < xs.length) (k : ℕ) :
    (take xs positions)[k]? = positions[k]?.bind (xs[·]?) := by
  induction positions generalizing k with
  | nil => rfl
  | cons p positions ih =>
    obtain ⟨hp, h⟩ := List.forall_mem_cons.1 h
    have hrest : take xs (p :: positions) = xs[p] :: take xs positions := by
      rw [take, List.filterMap_cons_some (List.getElem?_eq_getElem hp)]
      rfl
    rw [hrest]
    cases k with
    | zero => exact (List.getElem?_eq_getElem hp).symm
    | succ k => exact ih h k

lemma length_take {xs : List α} {positions : List ℕ} (h : ∀ p ∈ positions, p < xs.length) :
    (take xs positions).length = positions.length := by
  induction positions with
  | nil => rfl
  | cons p positions ih =>
    obtain ⟨hp, h⟩ := List.forall_mem_cons.1 h
    rw [take, List.filterMap_cons_some (List.getElem?_eq_getElem hp), List.length_cons,
      List.length_cons]
    exact congrArg (· + 1) (ih h)

/-- Every position in order takes the whole list. -/
lemma take_range (xs : List α) : take xs (List.range xs.length) = xs := by
  refine List.ext_getElem? fun k => ?_
  rw [getElem?_take fun p hp => List.mem_range.1 hp]
  by_cases hk : k < xs.length
  · rw [List.getElem?_range hk]
    rfl
  · rw [List.getElem?_eq_none (by simpa using hk), List.getElem?_eq_none (by simpa using hk)]
    rfl

/-- Related lists are related at the same positions. -/
lemma take_forall₂ {R : α → β → Prop} {xs : List α} {ys : List β} (h : List.Forall₂ R xs ys)
    (positions : List ℕ) : List.Forall₂ R (take xs positions) (take ys positions) := by
  induction positions with
  | nil => exact .nil
  | cons p positions ih =>
    by_cases hp : p < xs.length
    · have hp' : p < ys.length := h.length_eq ▸ hp
      rw [take, take, List.filterMap_cons_some (List.getElem?_eq_getElem hp),
        List.filterMap_cons_some (List.getElem?_eq_getElem hp')]
      exact .cons (h.get hp hp') ih
    · have hp' : ¬ p < ys.length := h.length_eq ▸ hp
      rw [take, take, List.filterMap_cons_none (List.getElem?_eq_none (not_lt.1 hp)),
        List.filterMap_cons_none (List.getElem?_eq_none (not_lt.1 hp'))]
      exact ih

section
variable {r : α → α → Prop} [DecidableRel r]

/-- The sort indices are the positions. -/
lemma sortIndices_perm (xs : List α) : (sortIndices r xs).Perm (List.range xs.length) := by
  refine ((List.perm_insertionSort _ _).map _).trans ?_
  rw [List.zipIdx_map_snd, List.range_eq_range']

lemma sortIndices_lt {xs : List α} {p : ℕ} (h : p ∈ sortIndices r xs) : p < xs.length :=
  List.mem_range.1 ((sortIndices_perm xs).mem_iff.1 h)

/-- Taking a list at its sort indices sorts it. -/
lemma take_sortIndices (xs : List α) : take xs (sortIndices r xs) = xs.insertionSort r := by
  have hfst : (xs.zipIdx.insertionSort fun x y => r x.1 y.1).map Prod.fst = xs.insertionSort r := by
    rw [List.map_insertionSort _ r _ _ fun _ _ _ _ => Iff.rfl, List.zipIdx_map_fst]
  rw [← hfst, take, sortIndices, List.filterMap_map, ← List.filterMap_eq_map]
  refine List.filterMap_congr fun x hx => ?_
  exact List.mem_zipIdx_iff_getElem?.1 ((List.mem_insertionSort _).1 hx)

/-- A sorted list keeps its order. -/
lemma sortIndices_of_pairwise {xs : List α} (h : xs.Pairwise r) :
    sortIndices r xs = List.range xs.length := by
  have hsorted : xs.zipIdx.Pairwise fun x y => r x.1 y.1 := by
    rw [← List.pairwise_map (f := Prod.fst), List.zipIdx_map_fst]
    exact h
  rw [sortIndices, hsorted.insertionSort_eq, List.zipIdx_map_snd, List.range_eq_range']

/-- Sorting by a function of the elements gives the positions of sorting its values. -/
lemma sortIndices_map {f : β → α} (ys : List β) :
    sortIndices r (ys.map f) = sortIndices (fun x y => r (f x) (f y)) ys := by
  have hzip : (ys.map f).zipIdx = ys.zipIdx.map (Prod.map f id) := List.zipIdx_map
  rw [sortIndices, sortIndices, hzip,
    ← List.map_insertionSort (fun x y : β × ℕ => r (f x.1) (f y.1)) _ (Prod.map f id) _ fun _ _ _ _ => Iff.rfl,
    List.map_map]
  rfl

/-- A stable sort keeps the order of the elements with a property, when none of them must follow another. -/
lemma filter_insertionSort {q : α → Bool} {xs : List α} (h : (xs.filter q).Pairwise r) :
    (xs.insertionSort r).filter q = xs.filter q := by
  have hsub := (List.sublist_insertionSort h List.filter_sublist).filter q
  rw [List.filter_filter] at hsub
  simp only [Bool.and_self] at hsub
  exact (hsub.eq_of_length ((List.perm_insertionSort r xs).filter q).length_eq.symm).symm

lemma orderedInsert_of_le {a : α} {xs : List α} (h : ∀ b ∈ xs, r a b) : xs.orderedInsert r a = a :: xs := by
  cases xs with
  | nil => rfl
  | cons b xs => exact if_pos (h b List.mem_cons_self)

lemma filter_orderedInsert [IsTrans α r] {q : α → Bool} {a : α} {xs : List α} (h : xs.Pairwise r) :
    (xs.orderedInsert r a).filter q = if q a then (xs.filter q).orderedInsert r a else xs.filter q := by
  induction xs with
  | nil =>
    rw [List.orderedInsert_nil, List.filter_cons]
    rfl
  | cons b xs ih =>
    obtain ⟨hb, h⟩ := List.pairwise_cons.1 h
    rw [List.orderedInsert_cons]
    by_cases hab : r a b
    · have hle : ∀ c ∈ (b :: xs).filter q, r a c := by
        intro c hc
        rcases List.mem_cons.1 (List.mem_filter.1 hc).1 with rfl | hc
        · exact hab
        · exact Trans.trans hab (hb c hc)
      rw [if_pos hab, orderedInsert_of_le hle, List.filter_cons]
    · rw [if_neg hab, List.filter_cons, List.filter_cons, ih h]
      by_cases hqb : q b
      · rw [if_pos hqb, if_pos hqb, List.orderedInsert_cons, if_neg hab]
        split_ifs
        · rfl
        · rfl
      · rw [if_neg hqb, if_neg hqb]

/-- Sorting and then leaving elements out is leaving them out and then sorting. -/
lemma insertionSort_filter [IsTrans α r] [Std.Total r] (q : α → Bool) (xs : List α) :
    (xs.insertionSort r).filter q = (xs.filter q).insertionSort r := by
  induction xs with
  | nil => rfl
  | cons a xs ih =>
    rw [List.insertionSort_cons, filter_orderedInsert (List.pairwise_insertionSort r xs), ih, List.filter_cons]
    split_ifs
    · rfl
    · rfl

/-- The positions come in the order of their elements. -/
lemma pairwise_sortIndices [IsTrans α r] [Std.Total r] (xs : List α) :
    (sortIndices r xs).Pairwise fun i j => ∀ a b, xs[i]? = some a → xs[j]? = some b → r a b := by
  have : IsTrans (α × ℕ) fun x y => r x.1 y.1 := ⟨fun _ _ _ h h' => Trans.trans h h'⟩
  have : Std.Total fun x y : α × ℕ => r x.1 y.1 := ⟨fun x y => Std.Total.total x.1 y.1⟩
  have hmem : ∀ x ∈ xs.zipIdx.insertionSort fun x y => r x.1 y.1, xs[x.2]? = some x.1 := fun x hx =>
    List.mem_zipIdx_iff_getElem?.1 ((List.mem_insertionSort _).1 hx)
  rw [sortIndices, List.pairwise_map]
  refine (List.pairwise_insertionSort (fun x y : α × ℕ => r x.1 y.1) xs.zipIdx).imp_of_mem fun hx hy hle a b ha hb => ?_
  rw [hmem _ hx] at ha
  rw [hmem _ hy] at hb
  rwa [← Option.some.inj ha, ← Option.some.inj hb]

/-- Two orders that agree on the elements at some positions give these the same order. -/
lemma filter_sortIndices [IsTrans α r] [Std.Total r] {r' : α → α → Prop} [DecidableRel r'] [IsTrans α r'] [Std.Total r']
    {xs : List α} {q : ℕ → Bool}
    (h : ∀ i j a b, q i → q j → xs[i]? = some a → xs[j]? = some b → (r a b ↔ r' a b)) :
    (sortIndices r xs).filter q = (sortIndices r' xs).filter q := by
  have : IsTrans (α × ℕ) fun x y => r x.1 y.1 := ⟨fun _ _ _ h h' => Trans.trans h h'⟩
  have : Std.Total fun x y : α × ℕ => r x.1 y.1 := ⟨fun x y => Std.Total.total x.1 y.1⟩
  have : IsTrans (α × ℕ) fun x y => r' x.1 y.1 := ⟨fun _ _ _ h h' => Trans.trans h h'⟩
  have : Std.Total fun x y : α × ℕ => r' x.1 y.1 := ⟨fun x y => Std.Total.total x.1 y.1⟩
  rw [sortIndices, sortIndices, List.filter_map, List.filter_map, insertionSort_filter, insertionSort_filter]
  refine congrArg (List.map Prod.snd) ?_
  have hsame := List.map_insertionSort (fun x y : α × ℕ => r x.1 y.1) (fun x y : α × ℕ => r' x.1 y.1) id
    (xs.zipIdx.filter (q ∘ Prod.snd)) ?_
  · rwa [List.map_id, List.map_id] at hsame
  · intro x hx y hy
    obtain ⟨hx, hqx⟩ := List.mem_filter.1 hx
    obtain ⟨hy, hqy⟩ := List.mem_filter.1 hy
    exact h x.2 y.2 x.1 y.1 hqx hqy (List.mem_zipIdx_iff_getElem?.1 hx) (List.mem_zipIdx_iff_getElem?.1 hy)

end

lemma take_map {f : β → α} (ys : List β) (positions : List ℕ) :
    take (ys.map f) positions = (take ys positions).map f := by
  unfold take
  rw [List.map_filterMap]
  exact List.filterMap_congr fun p _ => List.getElem?_map

/-- What holds of the elements at the positions holds of what is taken. -/
lemma forall₂_take_positions {P : ℕ → β → Prop} {ys : List β} {positions : List ℕ}
    (h : ∀ p ∈ positions, ∃ y, ys[p]? = some y ∧ P p y) : List.Forall₂ P positions (take ys positions) := by
  induction positions with
  | nil => exact .nil
  | cons p positions ih =>
    obtain ⟨⟨y, hy, hP⟩, h⟩ := List.forall_mem_cons.1 h
    rw [take, List.filterMap_cons_some hy]
    exact .cons hP (ih h)

/-- A running range of positions takes a slice. -/
lemma take_range' (xs : List α) (s c : ℕ) : take xs (List.range' s c) = (xs.take (s + c)).drop s := by
  induction c with
  | zero => rw [Nat.add_zero, List.drop_eq_nil_of_le (by rw [List.length_take]; omega)]; rfl
  | succ c ih =>
    unfold take at ih ⊢
    rw [List.range'_concat, List.filterMap_append, ih, Nat.one_mul, ← Nat.add_assoc]
    by_cases hlt : s + c < xs.length
    · rw [List.take_succ_eq_append_getElem hlt, List.drop_append_of_le_length (by rw [List.length_take]; omega),
        List.filterMap_cons_some (List.getElem?_eq_getElem hlt)]
      rfl
    · rw [List.take_of_length_le (by omega), List.take_of_length_le (by omega),
        List.filterMap_cons_none (List.getElem?_eq_none (by omega)), List.filterMap_nil, List.append_nil]

/-- Taken back at the sort indices of the positions, what was taken at them is in its own order. -/
lemma take_restore {positions : List ℕ} {ys : List β}
    (h : positions.Perm (List.range ys.length)) :
    take (take ys (sortIndices (· ≤ ·) positions)) positions = ys := by
  have hlen : positions.length = ys.length := by rw [h.length_eq, List.length_range]
  have hsorted : take positions (sortIndices (· ≤ ·) positions) = List.range ys.length := by
    rw [take_sortIndices]
    exact ((List.perm_insertionSort _ _).trans h).eq_of_pairwise'
      (List.pairwise_insertionSort _ _) List.pairwise_le_range
  have hrestore : ∀ p ∈ sortIndices (· ≤ ·) positions, p < ys.length := fun p hp =>
    hlen ▸ sortIndices_lt hp
  have hpositions : ∀ p ∈ positions, p < (take ys (sortIndices (· ≤ ·) positions)).length := by
    intro p hp
    rw [length_take hrestore, (sortIndices_perm positions).length_eq, List.length_range, hlen]
    exact List.mem_range.1 (h.mem_iff.1 hp)
  refine List.ext_getElem? fun k => ?_
  rw [getElem?_take hpositions]
  by_cases hk : k < positions.length
  · rw [List.getElem?_eq_getElem hk, Option.bind_some, getElem?_take hrestore]
    -- the element at `k` is restored from the position that holds it, which is `k`
    have hmem : positions[k] < ys.length := List.mem_range.1 (h.mem_iff.1 (List.getElem_mem hk))
    have hget := congrArg (·[positions[k]]?) hsorted
    rw [getElem?_take fun p hp => sortIndices_lt hp, List.getElem?_range hmem] at hget
    obtain ⟨j, hj, hjk⟩ := Option.bind_eq_some_iff.1 hget
    obtain ⟨hlt, hjk⟩ := List.getElem?_eq_some_iff.1 hjk
    have hnodup : positions.Nodup := h.nodup_iff.2 List.nodup_range
    obtain rfl : j = k := (hnodup.getElem_inj_iff).1 hjk
    rw [hj]
    rfl
  · rw [List.getElem?_eq_none (not_lt.1 hk), List.getElem?_eq_none (hlen ▸ not_lt.1 hk)]
    rfl

end Argsort
