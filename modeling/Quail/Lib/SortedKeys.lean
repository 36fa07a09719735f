import Quail.Lib.Argsort
import Quail.Lib.Blocks

/-!
# Sorted keys

A sorted list of keys falls apart into runs of equal keys. `runStarts` computes where the runs start from
the places where neighbours differ, `searchSorted` finds a key's place by bisection, and a run's elements are
the slice between its start and the next.
-/

namespace SortedKeys

variable {α : Type}

/-- Where a value would be inserted into a sorted list, before its equals. -/
def searchSorted (xs : List ℕ) (x : ℕ) : ℕ := (xs.takeWhile (· < x)).length

/-- The positions of the true values. -/
def flatNonzero (flags : List Bool) : List ℕ := (List.range flags.length).filter fun i => flags.getD i false

/-- Where the runs of equal neighbours start. -/
def runStarts (xs : List ℕ) : List ℕ :=
  if xs = [] then []
  else flatNonzero (true :: List.zipWith (fun x y => decide (x ≠ y)) xs.tail xs.dropLast)

/-! ## Bisection -/

/-- Bisection of a sorted list finds the values it holds, and no other. -/
lemma getElem?_searchSorted {xs : List ℕ} (h : xs.Pairwise (· ≤ ·)) {x : ℕ} :
    xs[searchSorted xs x]? = some x ↔ x ∈ xs := by
  refine ⟨fun hget => List.mem_of_getElem? hget, fun hmem => ?_⟩
  induction xs with
  | nil => cases hmem
  | cons y ys ih =>
    obtain ⟨hy, hys⟩ := List.pairwise_cons.1 h
    unfold searchSorted
    by_cases hlt : y < x
    · simp only [List.takeWhile_cons, hlt, decide_true, if_true, List.length_cons, List.getElem?_cons_succ]
      exact ih hys ((List.mem_cons.1 hmem).resolve_left (ne_of_gt hlt))
    · simp only [List.takeWhile_cons, hlt, decide_false, Bool.false_eq_true, if_false]
      obtain rfl | hmem := List.mem_cons.1 hmem
      · rfl
      · exact congrArg some (le_antisymm (hy x hmem) (not_lt.1 hlt))

/-! ## Runs -/

lemma pairwise_runStarts (xs : List ℕ) : (runStarts xs).Pairwise (· < ·) := by
  unfold runStarts
  split
  · exact .nil
  · exact List.pairwise_lt_range.filter _

/-- A run starts at the first position, and wherever a value differs from the one before. -/
lemma mem_runStarts {xs : List ℕ} {i : ℕ} :
    i ∈ runStarts xs ↔ ∃ h : i < xs.length, ∀ k (hk : i = k + 1), xs[k] ≠ xs[i] := by
  cases xs with
  | nil => simp [runStarts]
  | cons x xs =>
    have hlen : (true :: List.zipWith (fun x y => decide (x ≠ y)) (x :: xs).tail (x :: xs).dropLast).length =
        (x :: xs).length := by simp
    rw [runStarts, if_neg (List.cons_ne_nil _ _), flatNonzero, List.mem_filter, List.mem_range, hlen]
    constructor
    · rintro ⟨hi, hflag⟩
      refine ⟨hi, fun k hk => ?_⟩
      subst hk
      have hk : k < xs.length := Nat.lt_of_succ_lt_succ hi
      rw [List.getD_cons_succ, List.getD_eq_getElem?_getD, List.getElem?_eq_getElem (by simpa using hk),
        Option.getD_some, List.getElem_zipWith] at hflag
      have hne := of_decide_eq_true hflag
      simpa using Ne.symm hne
    · rintro ⟨hi, hne⟩
      refine ⟨hi, ?_⟩
      cases i with
      | zero => rfl
      | succ k =>
        have hk : k < xs.length := Nat.lt_of_succ_lt_succ hi
        rw [List.getD_cons_succ, List.getD_eq_getElem?_getD, List.getElem?_eq_getElem (by simpa using hk),
          Option.getD_some, List.getElem_zipWith]
        refine decide_eq_true ?_
        simpa using Ne.symm (hne k rfl)

section
variable {xs : List ℕ} {p a b : ℕ}

/-- The ends of a run are a start and the next start, or the end of the list. -/
lemma run_ends (ha : (runStarts xs)[p]? = some a) (hb : (runStarts xs ++ [xs.length])[p + 1]? = some b) :
    a < xs.length ∧ a < b ∧ b ≤ xs.length ∧ (b < xs.length → b ∈ runStarts xs) ∧
      ∀ j, a < j → j < b → j ∉ runStarts xs := by
  obtain ⟨hp, rfl⟩ := List.getElem?_eq_some_iff.1 ha
  have hsorted := List.pairwise_iff_getElem.1 (pairwise_runStarts xs)
  obtain ⟨halt, -⟩ := mem_runStarts.1 (List.mem_of_getElem? ha)
  -- a start after the one at `p` is at `p + 1` or later
  have hlater : ∀ q (hq : q < (runStarts xs).length), (runStarts xs)[p] < (runStarts xs)[q] → p + 1 ≤ q := by
    intro q hq hlt
    by_contra hle
    obtain rfl | hqp : q = p ∨ q < p := by omega
    · exact absurd hlt (lt_irrefl _)
    · exact absurd (hsorted q p hq hp hqp) (by omega)
  by_cases hnext : p + 1 < (runStarts xs).length
  · rw [List.getElem?_append_left hnext, List.getElem?_eq_getElem hnext, Option.some_inj] at hb
    subst hb
    obtain ⟨hblt, -⟩ := mem_runStarts.1 (List.getElem_mem hnext)
    refine ⟨halt, hsorted p (p + 1) hp hnext (Nat.lt_succ_self p), hblt.le, fun _ => List.getElem_mem hnext,
      fun j haj hjb hmem => ?_⟩
    obtain ⟨q, hq, rfl⟩ := List.getElem_of_mem hmem
    obtain heq | hlt : p + 1 = q ∨ p + 1 < q := by
      have := hlater q hq haj
      omega
    · subst heq
      exact absurd hjb (lt_irrefl _)
    · exact absurd (hsorted (p + 1) q hnext hq hlt) (by omega)
  · have hlast : p + 1 = (runStarts xs).length := by omega
    rw [List.getElem?_append_right (by omega), hlast, Nat.sub_self, List.getElem?_cons_zero,
      Option.some_inj] at hb
    subst hb
    refine ⟨halt, halt, le_rfl, fun h => absurd h (lt_irrefl _), fun j haj _ hmem => ?_⟩
    obtain ⟨q, hq, rfl⟩ := List.getElem_of_mem hmem
    have := hlater q hq haj
    omega

/-- Between the start of a run and the next, and nowhere else, a sorted list holds the run's value. -/
lemma run_iff (h : xs.Pairwise (· ≤ ·)) (ha : (runStarts xs)[p]? = some a)
    (hb : (runStarts xs ++ [xs.length])[p + 1]? = some b) {i : ℕ} (hi : i < xs.length) :
    xs[i]? = xs[a]? ↔ a ≤ i ∧ i < b := by
  have hmono : ∀ j k (hjk : j ≤ k) (hk : k < xs.length), xs[j] ≤ xs[k] := fun j k hjk hk => by
    obtain rfl | hlt := Nat.eq_or_lt_of_le hjk
    · exact le_rfl
    · exact List.pairwise_iff_getElem.1 h j k _ hk hlt
  -- a value before the start of a run is less than one from there on
  have hstart : ∀ s ∈ runStarts xs, ∀ j k (hjs : j < s) (hsk : s ≤ k) (hk : k < xs.length), xs[j] < xs[k] := by
    intro s hs j k hjs hsk hk
    obtain ⟨r, rfl⟩ := Nat.exists_eq_add_one_of_ne_zero (Nat.ne_of_gt (by omega : 0 < s))
    obtain ⟨hslt, hne⟩ := mem_runStarts.1 hs
    have h1 := hmono j r (by omega) (by omega)
    have h2 := hmono r (r + 1) (by omega) hslt
    have h3 := hmono (r + 1) k hsk hk
    have h4 := hne r rfl
    omega
  obtain ⟨halt, hab, hble, hbmem, hinner⟩ := run_ends ha hb
  rw [List.getElem?_eq_getElem hi, List.getElem?_eq_getElem halt, Option.some_inj]
  constructor
  · intro heq
    constructor
    · by_contra hlt
      exact absurd (hstart a (List.mem_of_getElem? ha) i a (by omega) le_rfl halt) (by omega)
    · by_contra hge
      exact absurd (hstart b (hbmem (by omega)) a i hab (by omega) hi) (by omega)
  · rintro ⟨hai, hib⟩
    clear hmono hstart
    induction i, hai using Nat.le_induction with
    | base => rfl
    | succ j haj ih =>
      have hj := ih (by omega) (by omega)
      by_contra hne
      refine hinner (j + 1) (by omega) hib (mem_runStarts.2 ⟨hi, fun k hk heq => hne ?_⟩)
      obtain rfl : j = k := by omega
      rw [← heq, hj]

end

lemma runStarts_lt {xs : List ℕ} {i : ℕ} (h : i ∈ runStarts xs) : i < xs.length := (mem_runStarts.1 h).1

/-- The values at the run starts are sorted as the list is. -/
lemma pairwise_take_runStarts {xs : List ℕ} (h : xs.Pairwise (· ≤ ·)) :
    (Argsort.take xs (runStarts xs)).Pairwise (· ≤ ·) := by
  refine List.Pairwise.filterMap _ ?_ (pairwise_runStarts xs)
  intro i j hij x hx y hy
  obtain ⟨hi, rfl⟩ := List.getElem?_eq_some_iff.1 hx
  obtain ⟨hj, rfl⟩ := List.getElem?_eq_some_iff.1 hy
  exact List.pairwise_iff_getElem.1 h i j hi hj hij

/-- Every value of a list is the value at a run start. -/
lemma mem_take_runStarts {xs : List ℕ} {x : ℕ} : x ∈ Argsort.take xs (runStarts xs) ↔ x ∈ xs := by
  constructor
  · intro h
    obtain ⟨i, _, hi⟩ := List.mem_filterMap.1 h
    exact List.mem_of_getElem? hi
  · intro h
    -- the first position that holds the value starts its run
    have hex : ∃ i, xs[i]? = some x := List.mem_iff_getElem?.1 h
    obtain ⟨hi, hx⟩ := List.getElem?_eq_some_iff.1 (Nat.find_spec hex)
    refine List.mem_filterMap.2 ⟨Nat.find hex, mem_runStarts.2 ⟨hi, fun k hk heq => ?_⟩, Nat.find_spec hex⟩
    refine Nat.find_min hex (m := k) (by omega) (List.getElem?_eq_some_iff.2 ⟨by omega, ?_⟩)
    exact heq.trans hx

/-! ## Slices -/

/-- The elements with a property are a slice, when they are those between two positions. -/
lemma filter_eq_slice {xs : List α} {q : α → Bool} {a b : ℕ} (hab : a ≤ b) (hb : b ≤ xs.length)
    (h : ∀ i (hi : i < xs.length), q xs[i] ↔ a ≤ i ∧ i < b) : xs.filter q = (xs.take b).drop a := by
  have hsplit : xs = xs.take a ++ ((xs.take b).drop a ++ xs.drop b) := by
    have htake : (xs.take b).take a = xs.take a := by rw [List.take_take, Nat.min_eq_left hab]
    rw [← htake, ← List.append_assoc, List.take_append_drop, List.take_append_drop]
  have hbefore : (xs.take a).filter q = [] := by
    refine List.filter_eq_nil_iff.2 fun x hx hq => ?_
    obtain ⟨i, hi, rfl⟩ := List.getElem_of_mem hx
    rw [List.getElem_take] at hq
    rw [List.length_take] at hi
    have := (h i (by omega)).1 hq
    omega
  have hwithin : ((xs.take b).drop a).filter q = (xs.take b).drop a := by
    refine List.filter_eq_self.2 fun x hx => ?_
    obtain ⟨i, hi, rfl⟩ := List.getElem_of_mem hx
    rw [List.length_drop, List.length_take] at hi
    rw [List.getElem_drop, List.getElem_take]
    exact (h (a + i) (by omega)).2 (by omega)
  have hafter : (xs.drop b).filter q = [] := by
    refine List.filter_eq_nil_iff.2 fun x hx hq => ?_
    obtain ⟨i, hi, rfl⟩ := List.getElem_of_mem hx
    rw [List.getElem_drop] at hq
    rw [List.length_drop] at hi
    have := (h (b + i) (by omega)).1 hq
    omega
  conv_lhs => rw [hsplit]
  rw [List.filter_append, List.filter_append, hbefore, hwithin, hafter, List.nil_append, List.append_nil]

end SortedKeys
