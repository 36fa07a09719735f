import Quail.Lib.Python
import Mathlib.Data.List.Sort
import Mathlib.Data.List.Perm.Basic

/-!
# Arrays

Indexing a list by a list of positions (`pick`), the sorted distinct elements with the positions
`numpy.unique` returns beside them, and the positions at which two lists hold equal elements, as an
inner join of tables finds them. An inner join does not promise the order of its rows; `matched`
sorts them by the left position, and `matched_spec` says what elements the positions stand for.
-/

namespace Arrays

variable {α β γ : Type}

/-! ## Indexing -/

/-- `xs[positions]`. -/
def pick (xs : List α) (positions : List ℕ) : Except PyError (List α) :=
  positions.mapM fun i =>
    match xs[i]? with
    | none => .error (.index "index out of range")
    | some x => .ok x

lemma pick_map {xs : List α} {es : List β} {g : β → ℕ} {f : β → α}
    (h : ∀ e ∈ es, xs[g e]? = some (f e)) : pick xs (es.map g) = .ok (es.map f) := by
  unfold pick
  induction es with
  | nil => rfl
  | cons e es ih =>
    rw [List.map_cons, List.mapM_cons, h e (List.mem_cons_self ..),
      ih fun e' he' => h e' (List.mem_cons_of_mem _ he')]
    rfl

/-! ## Distinct elements -/

/-- The distinct elements, sorted. -/
def unique (xs : List ℕ) : List ℕ := xs.dedup.insertionSort (· ≤ ·)

/-- The position each distinct element is first at. -/
def uniqueFirst (xs : List ℕ) : List ℕ := (unique xs).map xs.idxOf

/-- The position of each element among the distinct ones. -/
def uniqueInverse (xs : List ℕ) : List ℕ := xs.map (unique xs).idxOf

@[simp] lemma mem_unique {xs : List ℕ} {x : ℕ} : x ∈ unique xs ↔ x ∈ xs := by
  rw [unique, List.mem_insertionSort, List.mem_dedup]

lemma nodup_unique (xs : List ℕ) : (unique xs).Nodup :=
  (List.perm_insertionSort ..).nodup_iff.2 (List.nodup_dedup _)

/-- `first[inverse]` is the first position of each element. -/
lemma pick_first_inverse (xs : List ℕ) :
    pick (uniqueFirst xs) (uniqueInverse xs) = .ok (xs.map xs.idxOf) := by
  apply pick_map
  intro x hx
  rw [uniqueFirst, List.getElem?_map, List.getElem?_idxOf (mem_unique.2 hx)]
  rfl

/-! ## Equal elements of two lists -/

/-- The positions `(i, j)` with `wanted[i] = answered[j]`. -/
def innerJoin (wanted answered : List ℕ) : List (ℕ × ℕ) :=
  wanted.zipIdx.flatMap fun w => (answered.zipIdx.filter fun a => a.1 = w.1).map fun a => (w.2, a.2)

/-- A join of tables on one key finds these positions, in an order of its own. -/
def IsInnerJoin (join : List ℕ → List ℕ → List (ℕ × ℕ)) : Prop :=
  ∀ wanted answered, (join wanted answered).Perm (innerJoin wanted answered)

/-- The positions sorted by the left one; equal left positions stay in the order they are in. -/
def byLeft (positions : List (ℕ × ℕ)) : List (ℕ × ℕ) := positions.insertionSort fun x y => x.1 ≤ y.1

/-- The positions of equal keys with the elements there, by the left position and then the right. -/
def matched (key : α → ℕ) (key' : β → ℕ) (xs : List α) (ys : List β) : List ((ℕ × ℕ) × α × β) :=
  xs.zipIdx.flatMap fun x =>
    (ys.zipIdx.filter fun y => key' y.1 = key x.1).map fun y => ((x.2, y.2), x.1, y.1)

variable {key : α → ℕ} {key' : β → ℕ} {xs : List α} {ys : List β}

lemma innerJoin_map : innerJoin (xs.map key) (ys.map key') = (matched key key' xs ys).map Prod.fst := by
  simp only [innerJoin, matched, List.zipIdx_map, List.flatMap_map, List.map_flatMap, List.filter_map,
    List.map_map]
  rfl

lemma getElem?_of_mem_matched {e : (ℕ × ℕ) × α × β} (h : e ∈ matched key key' xs ys) :
    xs[e.1.1]? = some e.2.1 ∧ ys[e.1.2]? = some e.2.2 := by
  obtain ⟨x, hx, hin⟩ := List.mem_flatMap.1 h
  obtain ⟨y, hy, rfl⟩ := List.mem_map.1 hin
  exact ⟨List.mem_zipIdx_iff_getElem?.1 hx, List.mem_zipIdx_iff_getElem?.1 (List.mem_filter.1 hy).1⟩

/-- The elements at the positions. -/
lemma map_snd_matched (key : α → ℕ) (key' : β → ℕ) (xs : List α) (ys : List β) :
    (matched key key' xs ys).map Prod.snd =
      xs.flatMap fun x => (ys.filter fun y => key' y = key x).map fun y => (x, y) := by
  have hright : ∀ x : α, (ys.zipIdx.filter fun y => key' y.1 = key x).map (fun y => (x, y.1)) =
      (ys.filter fun y => key' y = key x).map fun y => (x, y) := by
    intro x
    conv_rhs => rw [← List.zipIdx_map_fst 0 ys, List.filter_map, List.map_map]
    rfl
  rw [matched, List.map_flatMap]
  simp only [List.map_map, Function.comp_def]
  conv_rhs => rw [← List.zipIdx_map_fst 0 xs, List.flatMap_map]
  simp only [hright]

/-- The matched positions are in order: by the left one, then by the right one. -/
lemma pairwise_matched : (matched key key' xs ys).Pairwise fun e e' =>
    e.1.1 < e'.1.1 ∨ e.1.1 = e'.1.1 ∧ e.1.2 < e'.1.2 := by
  have hidx : ∀ {δ : Type} (l : List δ), l.zipIdx.Pairwise fun e e' => e.2 < e'.2 := by
    intro δ l
    rw [← List.pairwise_map, List.zipIdx_map_snd]
    exact List.pairwise_lt_range'
  rw [matched, List.pairwise_flatMap]
  constructor
  · intro x _
    rw [List.pairwise_map]
    exact ((hidx ys).filter _).imp fun h => .inr ⟨rfl, h⟩
  · refine (hidx xs).imp fun hlt e he e' he' => ?_
    obtain ⟨y, _, rfl⟩ := List.mem_map.1 he
    obtain ⟨y', _, rfl⟩ := List.mem_map.1 he'
    exact .inl hlt

/-- Where the keys on the right are distinct, one left position is matched once. -/
lemma matched_left_injective (hnodup : (ys.map key').Nodup) {e e' : (ℕ × ℕ) × α × β}
    (he : e ∈ matched key key' xs ys) (he' : e' ∈ matched key key' xs ys) (heq : e.1.1 = e'.1.1) :
    e = e' := by
  obtain ⟨x, hx, hin⟩ := List.mem_flatMap.1 he
  obtain ⟨x', hx', hin'⟩ := List.mem_flatMap.1 he'
  obtain ⟨y, hy, rfl⟩ := List.mem_map.1 hin
  obtain ⟨y', hy', rfl⟩ := List.mem_map.1 hin'
  obtain ⟨hy, hkey⟩ := List.mem_filter.1 hy
  obtain ⟨hy', hkey'⟩ := List.mem_filter.1 hy'
  rw [List.mem_zipIdx_iff_getElem?] at hx hx' hy hy'
  have hsame : x.1 = x'.1 := by
    rw [show x.2 = x'.2 from heq, hx'] at hx
    exact (Option.some.inj hx).symm
  have hkeys : (ys.map key')[y.2]? = (ys.map key')[y'.2]? := by
    rw [List.getElem?_map, List.getElem?_map, hy, hy', Option.map_some, Option.map_some,
      of_decide_eq_true hkey, of_decide_eq_true hkey', hsame]
  have hlt : y.2 < (ys.map key').length := by
    rw [List.length_map]
    exact (List.getElem?_eq_some_iff.1 hy).1
  have hpos : y.2 = y'.2 := (List.getElem?_inj hlt hnodup).1 hkeys
  have hel : y.1 = y'.1 := by
    rw [hpos, hy'] at hy
    exact (Option.some.inj hy).symm
  rw [hsame, hpos, hel, show x.2 = x'.2 from heq]

/-- What a sorted join finds: the matched positions, in their order where the keys on the right are
distinct, and by the left position in any case. -/
theorem matched_spec {join : List ℕ → List ℕ → List (ℕ × ℕ)} (hjoin : IsInnerJoin join)
    (key : α → ℕ) (key' : β → ℕ) (xs : List α) (ys : List β) :
    ∃ es, byLeft (join (xs.map key) (ys.map key')) = es.map Prod.fst ∧
      es.Perm (matched key key' xs ys) ∧
      ((ys.map key').Nodup → es = matched key key' xs ys) := by
  have hperm : (byLeft (join (xs.map key) (ys.map key'))).Perm
      ((matched key key' xs ys).map Prod.fst) :=
    (List.perm_insertionSort ..).trans (innerJoin_map ▸ hjoin _ _)
  -- each position is put back together with its elements
  let lift : ℕ × ℕ → Option ((ℕ × ℕ) × α × β) := fun e =>
    xs[e.1]?.bind fun x => ys[e.2]?.map fun y => (e, x, y)
  have hlift : ∀ e ∈ matched key key' xs ys, lift e.1 = some e := by
    intro e he
    obtain ⟨hx, hy⟩ := getElem?_of_mem_matched he
    simp only [lift, hx, hy, Option.bind_some, Option.map_some]
  have hback : ((matched key key' xs ys).map Prod.fst).filterMap lift = matched key key' xs ys := by
    rw [List.filterMap_map]
    refine (List.filterMap_congr (g := some) fun e he => hlift e he).trans ?_
    exact List.filterMap_some
  have hes : ((byLeft (join (xs.map key) (ys.map key'))).filterMap lift).Perm
      (matched key key' xs ys) := hback ▸ hperm.filterMap lift
  have hfst : byLeft (join (xs.map key) (ys.map key')) =
      ((byLeft (join (xs.map key) (ys.map key'))).filterMap lift).map Prod.fst := by
    rw [List.map_filterMap]
    refine (List.filterMap_some).symm.trans (List.filterMap_congr fun e he => ?_)
    obtain ⟨e', he', rfl⟩ := List.mem_map.1 (hperm.mem_iff.1 he)
    rw [hlift e' he']
    rfl
  refine ⟨_, hfst, hes, fun hnodup => ?_⟩
  have hanti : ∀ e e', e ∈ (byLeft (join (xs.map key) (ys.map key'))).filterMap lift →
      e' ∈ matched key key' xs ys → e.1.1 ≤ e'.1.1 → e'.1.1 ≤ e.1.1 → e = e' :=
    fun e e' he he' hle hle' =>
      matched_left_injective hnodup (hes.mem_iff.1 he) he' (le_antisymm hle hle')
  have hsorted : (byLeft (join (xs.map key) (ys.map key'))).Pairwise fun e e' => e.1 ≤ e'.1 :=
    List.pairwise_insertionSort _ _
  rw [hfst, List.pairwise_map] at hsorted
  refine List.Perm.eq_of_pairwise hanti hsorted (pairwise_matched.imp fun h => ?_) hes
  cases h with
  | inl hlt => exact hlt.le
  | inr heq => exact heq.1.le

end Arrays
