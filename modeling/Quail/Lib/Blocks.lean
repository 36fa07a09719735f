import Quail.Lib.Cumulative
import Mathlib.Data.List.Enum
import Mathlib.Data.List.Range

/-!
# Blocks laid end to end

Blocks of varying sizes laid end to end: the block and the position within it of each element, as the
array operations `repeat` and `cumsum` compute them, and where a block's elements are in the whole.
-/

namespace Blocks

variable {α β : Type} {sizes : List ℕ}

/-- Each element, as often as its block is large. -/
def repeatEach (xs : List α) (sizes : List ℕ) : List α :=
  (xs.zip sizes).flatMap fun e => List.replicate e.2 e.1

/-- Where each block starts: the cumulative sums less the sizes. -/
def starts (sizes : List ℕ) : List ℕ := List.zipWith (· - ·) (cumulative sizes).tail sizes

/-- The position of each element within its block. -/
def positions (sizes : List ℕ) : List ℕ :=
  List.zipWith (· - ·) (List.range sizes.sum) (repeatEach (starts sizes) sizes)

/-- The block and the position of each element, from some block on. -/
def indexFrom : ℕ → List ℕ → List (ℕ × ℕ)
  | _, [] => []
  | i, size :: sizes => (List.range size).map (fun k => (i, k)) ++ indexFrom (i + 1) sizes

/-- Where each block starts, from some place on. -/
def startsFrom : ℕ → List ℕ → List ℕ
  | _, [] => []
  | b, size :: sizes => b :: startsFrom (b + size) sizes

lemma starts_eq (sizes : List ℕ) : starts sizes = startsFrom 0 sizes := by
  have hfrom : ∀ b, List.zipWith (· - ·) (sizes.scanl (· + ·) b).tail sizes = startsFrom b sizes := by
    induction sizes with
    | nil => exact fun _ => rfl
    | cons size sizes ih =>
      intro b
      rw [List.scanl_cons, List.tail_cons, startsFrom, ← ih (b + size)]
      cases sizes with
      | nil => simp
      | cons next sizes => rw [List.scanl_cons, List.zipWith_cons_cons, List.tail_cons, Nat.add_sub_cancel]
  exact hfrom 0

lemma getElem?_startsFrom (b i : ℕ) (h : i < sizes.length) :
    (startsFrom b sizes)[i]? = some (b + (sizes.take i).sum) := by
  induction sizes generalizing b i with
  | nil => simp at h
  | cons size sizes ih =>
    cases i with
    | zero => simp [startsFrom]
    | succ i =>
      rw [startsFrom, List.getElem?_cons_succ, ih _ _ (by simpa using h), List.take_succ_cons,
        List.sum_cons, Nat.add_assoc]

/-- The blocks of the elements. -/
lemma repeatEach_range (i : ℕ) :
    repeatEach (List.range' i sizes.length) sizes = (indexFrom i sizes).map Prod.fst := by
  induction sizes generalizing i with
  | nil => rfl
  | cons size sizes ih =>
    have hrest := ih (i + 1)
    unfold repeatEach at hrest ⊢
    rw [List.length_cons, List.range'_succ, List.zip_cons_cons, List.flatMap_cons, hrest, indexFrom,
      List.map_append, List.map_map]
    congr 1
    simp [Function.comp_def]

/-- The positions of the elements within their blocks. -/
lemma positions_eq : positions sizes = (indexFrom 0 sizes).map Prod.snd := by
  have hfrom : ∀ b i, List.zipWith (· - ·) (List.range' b sizes.sum)
      (repeatEach (startsFrom b sizes) sizes) = (indexFrom i sizes).map Prod.snd := by
    induction sizes with
    | nil => exact fun _ _ => rfl
    | cons size sizes ih =>
      intro b i
      have hrest := ih (b + size) (i + 1)
      unfold repeatEach at hrest ⊢
      rw [startsFrom, List.zip_cons_cons, List.flatMap_cons, List.sum_cons, ← List.range'_append_1,
        List.zipWith_append (by simp), hrest, indexFrom, List.map_append, List.map_map]
      congr 1
      refine List.ext_getElem (by simp) fun k hk _ => ?_
      simp
  rw [positions, starts_eq, List.range_eq_range']
  exact hfrom 0 0

/-- An element of a block, in the whole. -/
lemma getElem?_flatten {lists : List (List α)} {i k : ℕ} {list : List α} (hi : lists[i]? = some list)
    (hk : k < list.length) :
    lists.flatten[((lists.map List.length).take i).sum + k]? = list[k]? := by
  induction lists generalizing i with
  | nil => simp at hi
  | cons first lists ih =>
    cases i with
    | zero =>
      obtain rfl : first = list := by simpa using hi
      rw [List.take_zero, List.sum_nil, Nat.zero_add, List.flatten_cons, List.getElem?_append_left hk]
    | succ i =>
      rw [List.map_cons, List.take_succ_cons, List.sum_cons, List.flatten_cons,
        List.getElem?_append_right (by omega), Nat.add_assoc, Nat.add_sub_cancel_left]
      exact ih (by simpa using hi)

lemma mem_indexFrom {i : ℕ} {e : ℕ × ℕ} (h : e ∈ indexFrom i sizes) : i ≤ e.1 ∧ e.1 < i + sizes.length := by
  induction sizes generalizing i with
  | nil => simp [indexFrom] at h
  | cons size sizes ih =>
    rw [List.length_cons]
    obtain h | h := List.mem_append.1 h
    · obtain ⟨k, -, rfl⟩ := List.mem_map.1 h
      omega
    · have := ih h
      omega

/-- What each element of a list makes of each position of its block, by block and position. -/
lemma flatMap_eq_map (xs : List α) (size : α → ℕ) (g : α → ℕ → Option β) :
    (xs.flatMap fun x => (List.range (size x)).map (g x)) =
      (indexFrom 0 (xs.map size)).map fun e => (xs[e.1]?).bind (g · e.2) := by
  have hfrom : ∀ i, ∀ rest : List α, xs.drop i = rest →
      (rest.flatMap fun x => (List.range (size x)).map (g x)) =
        (indexFrom i (rest.map size)).map fun e => (xs[e.1]?).bind (g · e.2) := by
    intro i rest
    induction rest generalizing i with
    | nil => exact fun _ => rfl
    | cons x rest ih =>
      intro hrest
      have hx : xs[i]? = some x := by rw [← List.head?_drop, hrest, List.head?_cons]
      have hnext : xs.drop (i + 1) = rest := by
        rw [← List.drop_drop, hrest, List.drop_one, List.tail_cons]
      rw [List.flatMap_cons, ih (i + 1) hnext, List.map_cons, indexFrom, List.map_append, List.map_map]
      congr 1
      exact List.map_congr_left fun k _ => by simp [hx]
  exact hfrom 0 xs List.drop_zero

/-- One running range, less where each block starts in it and shifted to a start of the block's own, runs
through each block from that start. -/
lemma shifted_range_cast {begins : List ℕ} (h : begins.length = sizes.length) :
    List.zipWith (· + ·) (repeatEach (List.zipWith (fun s e : ℕ => (s : ℤ) - e) begins (starts sizes)) sizes)
        ((List.range sizes.sum).map Nat.cast) =
      ((begins.zip sizes).flatMap fun e => List.range' e.1 e.2).map Nat.cast := by
  rw [starts_eq, List.range_eq_range']
  have hfrom : ∀ e, List.zipWith (· + ·)
      (repeatEach (List.zipWith (fun s e : ℕ => (s : ℤ) - e) begins (startsFrom e sizes)) sizes)
      ((List.range' e sizes.sum).map Nat.cast) =
        ((begins.zip sizes).flatMap fun e => List.range' e.1 e.2).map Nat.cast := by
    induction sizes generalizing begins with
    | nil =>
      intro e
      simp [repeatEach]
    | cons size sizes ih =>
      intro e
      cases begins with
      | nil => cases h
      | cons s begins =>
        have hblock : List.zipWith (· + ·) (List.replicate size ((s : ℤ) - e)) ((List.range' e size).map Nat.cast)
            = (List.range' s size).map Nat.cast := by
          refine List.ext_getElem (by simp) fun k hk hk' => ?_
          rw [List.getElem_zipWith, List.getElem_replicate, List.getElem_map, List.getElem_map, List.getElem_range',
            List.getElem_range']
          omega
        rw [startsFrom, List.zipWith_cons_cons, repeatEach, List.zip_cons_cons, List.flatMap_cons,
          List.sum_cons, List.range'_append_1.symm, List.map_append, List.zipWith_append (by simp), hblock,
          List.zip_cons_cons, List.flatMap_cons, List.map_append]
        exact congrArg ((List.range' s size).map Nat.cast ++ ·) (ih (Nat.succ.inj h) (e + size))
  exact hfrom 0

lemma shifted_range {begins : List ℕ} (h : begins.length = sizes.length) :
    List.zipWith (fun (shift : ℤ) (i : ℕ) => (shift + i).toNat)
        (repeatEach (List.zipWith (fun (s e : ℕ) => (s : ℤ) - e) begins (starts sizes)) sizes)
        (List.range sizes.sum) =
      (begins.zip sizes).flatMap fun e => List.range' e.1 e.2 := by
  have hcast := congrArg (List.map Int.toNat) (shifted_range_cast h)
  rw [List.map_map, List.map_zipWith, List.zipWith_map_right] at hcast
  simpa [Function.comp_def] using hcast

/-- The whole lists the elements of the blocks. -/
lemma flatten_eq_map {lists : List (List α)} :
    lists.flatten.map some =
      (indexFrom 0 (lists.map List.length)).map fun e => (lists[e.1]?).bind (·[e.2]?) := by
  rw [← flatMap_eq_map lists List.length fun list k => list[k]?, List.map_flatten, List.flatMap_def]
  congr 1
  refine List.map_congr_left fun list _ => List.ext_getElem (by simp) fun k hk _ => ?_
  have hlt : k < list.length := by simpa using hk
  simp [hlt]

end Blocks
