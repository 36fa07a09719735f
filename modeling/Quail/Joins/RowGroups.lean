import Quail.Lib.SortedKeys

/-!
# Row groups

`RowGroups` of `catalog/pairs.py`: rows grouped by a sorted key column, with the arrays it keeps and the
index arithmetic of `take`. The file proves that `get` gives the rows of a key in their own order, and `take`
those of each key one after another.
-/

namespace Quail.Joins
open SortedKeys Argsort Blocks

/-- `RowGroups`: the distinct keys, where each one's rows start and end, and the rows by key. -/
structure RowGroups where
  keys : List ℕ
  offsets : List ℕ
  rows : List ℕ

namespace RowGroups

/-- The constructor, from a key column and a row column. -/
def ofColumns (keys rows : List ℕ) : RowGroups :=
  let order := sortIndices (· ≤ ·) keys
  let sortedKeys := take keys order
  let starts := runStarts sortedKeys
  { keys := take sortedKeys starts
    offsets := starts ++ [keys.length]
    rows := take rows order }

/-- The rows between two offsets. -/
def slice (g : RowGroups) (position : ℕ) : List ℕ :=
  (g.rows.take (g.offsets.getD (position + 1) 0)).drop (g.offsets.getD position 0)

/-- `get`: one key's rows, or none. -/
def get (g : RowGroups) (key : ℕ) : List ℕ :=
  let position := searchSorted g.keys key
  if g.keys[position]? = some key then g.slice position else []

/-- The positions of the keys that are there. -/
def found (g : RowGroups) (keys : List ℕ) : List ℕ :=
  (keys.filter fun key => g.keys[searchSorted g.keys key]? = some key).map (searchSorted g.keys)

/-- `take`: the rows of each key, including repeated keys. The indices of a key's rows are its start and
the positions within the group, computed as one running range less where the group starts in the result. -/
def take (g : RowGroups) (keys : List ℕ) : List ℕ :=
  let positions := g.found keys
  let starts := positions.map fun position => g.offsets.getD position 0
  let counts := positions.map fun position => g.offsets.getD (position + 1) 0 - g.offsets.getD position 0
  let shifts := List.zipWith (fun (s e : ℕ) => (s : ℤ) - e) starts (Blocks.starts counts)
  let indices := List.zipWith (fun (shift : ℤ) (i : ℕ) => (shift + i).toNat) (repeatEach shifts counts)
    (List.range counts.sum)
  Argsort.take g.rows indices

section
variable {keys rows : List ℕ}

/-- The rows of a key, in the order of the columns. -/
def rowsOf (keys rows : List ℕ) (key : ℕ) : List ℕ :=
  ((keys.zip rows).filter fun e => e.1 = key).map Prod.snd

lemma mem_rowsOf {key row : ℕ} : row ∈ rowsOf keys rows key ↔ (key, row) ∈ keys.zip rows := by
  rw [rowsOf, List.mem_map]
  constructor
  · rintro ⟨e, he, rfl⟩
    obtain ⟨he, hkey⟩ := List.mem_filter.1 he
    exact of_decide_eq_true hkey ▸ he
  · intro h
    exact ⟨_, List.mem_filter.2 ⟨h, decide_eq_true rfl⟩, rfl⟩

lemma nodup_rowsOf (h : (keys.zip rows).Nodup) (key : ℕ) : (rowsOf keys rows key).Nodup := by
  refine (h.filter _).map_on fun x hx y hy heq => ?_
  have hxk := of_decide_eq_true (List.mem_filter.1 hx).2
  have hyk := of_decide_eq_true (List.mem_filter.1 hy).2
  exact Prod.ext (hxk.trans hyk.symm) heq

/-- The two columns sorted by key, rows of one key in their own order. -/
def sortedRows (keys rows : List ℕ) : List (ℕ × ℕ) := (keys.zip rows).insertionSort fun x y => x.1 ≤ y.1

lemma pairwise_sortedRows : ((sortedRows keys rows).map Prod.fst).Pairwise (· ≤ ·) := by
  rw [List.pairwise_map]
  exact List.pairwise_insertionSort (fun x y : ℕ × ℕ => x.1 ≤ y.1) _

/-- What the constructor keeps, by the sorted columns. -/
lemma ofColumns_eq (hlen : keys.length = rows.length) :
    ofColumns keys rows =
      { keys := Argsort.take ((sortedRows keys rows).map Prod.fst)
          (runStarts ((sortedRows keys rows).map Prod.fst))
        offsets := runStarts ((sortedRows keys rows).map Prod.fst) ++ [(sortedRows keys rows).length]
        rows := (sortedRows keys rows).map Prod.snd } := by
  have hkeys : (keys.zip rows).map Prod.fst = keys := List.map_fst_zip (le_of_eq hlen)
  have hrows : (keys.zip rows).map Prod.snd = rows := List.map_snd_zip (ge_of_eq hlen)
  have horder : sortIndices (· ≤ ·) keys =
      sortIndices (fun x y : ℕ × ℕ => x.1 ≤ y.1) (keys.zip rows) := by
    have hmap := sortIndices_map (r := (· ≤ ·)) (f := Prod.fst) (keys.zip rows)
    rwa [hkeys] at hmap
  have hsortedKeys : Argsort.take keys (sortIndices (· ≤ ·) keys) = (sortedRows keys rows).map Prod.fst := by
    rw [horder, ← hkeys, take_map, hkeys, take_sortIndices]
    rfl
  have hsortedRows : Argsort.take rows (sortIndices (· ≤ ·) keys) = (sortedRows keys rows).map Prod.snd := by
    rw [horder, ← hrows, take_map, hrows, take_sortIndices]
    rfl
  have hlength : (sortedRows keys rows).length = keys.length := by
    rw [sortedRows, List.length_insertionSort, List.length_zip, ← hlen, Nat.min_self]
  rw [ofColumns, hsortedKeys, hsortedRows, hlength]

/-- The keys are sorted. -/
lemma pairwise_keys (hlen : keys.length = rows.length) : (ofColumns keys rows).keys.Pairwise (· ≤ ·) := by
  rw [ofColumns_eq hlen]
  exact pairwise_take_runStarts pairwise_sortedRows

/-- The keys are those of the column. -/
lemma mem_keys (hlen : keys.length = rows.length) {key : ℕ} :
    key ∈ (ofColumns keys rows).keys ↔ key ∈ keys := by
  rw [ofColumns_eq hlen, mem_take_runStarts, sortedRows, List.mem_map]
  constructor
  · rintro ⟨e, he, rfl⟩
    exact (List.of_mem_zip ((List.mem_insertionSort _).1 he)).1
  · intro h
    rw [← (List.map_fst_zip (le_of_eq hlen) : (keys.zip rows).map Prod.fst = keys)] at h
    obtain ⟨e, he, rfl⟩ := List.mem_map.1 h
    exact ⟨e, (List.mem_insertionSort _).2 he, rfl⟩

/-- A key at a position has the rows between its offsets, which are in order. -/
lemma slice_eq (hlen : keys.length = rows.length) {key position : ℕ}
    (h : (ofColumns keys rows).keys[position]? = some key) :
    (ofColumns keys rows).slice position = rowsOf keys rows key ∧
      (ofColumns keys rows).offsets.getD position 0 ≤ (ofColumns keys rows).offsets.getD (position + 1) 0 := by
  rw [ofColumns_eq hlen] at h ⊢
  set sorted := sortedRows keys rows with hsorted
  have hlt : ∀ i ∈ runStarts (sorted.map Prod.fst), i < (sorted.map Prod.fst).length := fun i hi => runStarts_lt hi
  rw [getElem?_take hlt] at h
  obtain ⟨a, ha, hkey⟩ := Option.bind_eq_some_iff.1 h
  have hposition : position < (runStarts (sorted.map Prod.fst)).length := (List.getElem?_eq_some_iff.1 ha).1
  obtain ⟨b, hb⟩ : ∃ b, (runStarts (sorted.map Prod.fst) ++ [sorted.length])[position + 1]? = some b :=
    ⟨_, List.getElem?_eq_getElem (by rw [List.length_append, List.length_singleton]; omega)⟩
  have hb' : (runStarts (sorted.map Prod.fst) ++ [(sorted.map Prod.fst).length])[position + 1]? = some b := by
    rw [List.length_map]
    exact hb
  obtain ⟨-, hab, hble, -, -⟩ := run_ends ha hb'
  rw [List.length_map] at hble
  have hsplit : sorted.filter (fun e => e.1 = key) = (sorted.take b).drop a := by
    refine filter_eq_slice hab.le hble fun i hi => ?_
    have hrun := run_iff pairwise_sortedRows ha hb' (i := i) (by rw [List.length_map]; exact hi)
    rw [hkey, List.getElem?_map, List.getElem?_eq_getElem hi, Option.map_some, Option.some_inj] at hrun
    rw [decide_eq_true_iff]
    exact hrun
  have hstable : sorted.filter (fun e => e.1 = key) = (keys.zip rows).filter fun e => e.1 = key := by
    refine filter_insertionSort ?_
    refine List.pairwise_of_forall_mem_list fun x hx y hy => ?_
    rw [of_decide_eq_true (List.mem_filter.1 hx).2, of_decide_eq_true (List.mem_filter.1 hy).2]
  have hoffset : (runStarts (sorted.map Prod.fst) ++ [sorted.length])[position]? = some a := by
    rw [List.getElem?_append_left hposition]
    exact ha
  simp only [slice, List.getD_eq_getElem?_getD, hoffset, hb, Option.getD_some]
  refine ⟨?_, hab.le⟩
  rw [rowsOf, ← hstable, hsplit, List.map_drop, List.map_take]

/-- `get` gives the rows of the key. -/
theorem get_eq (hlen : keys.length = rows.length) (key : ℕ) :
    (ofColumns keys rows).get key = rowsOf keys rows key := by
  simp only [get]
  split_ifs with hfound
  · exact (slice_eq hlen hfound).1
  · rw [getElem?_searchSorted (pairwise_keys hlen), mem_keys hlen] at hfound
    rw [rowsOf, List.filter_eq_nil_iff.2, List.map_nil]
    intro e he hkey
    exact hfound (of_decide_eq_true hkey ▸ (List.of_mem_zip he).1)

/-- `take` gives the rows of each key, one key after another. -/
theorem take_eq (hlen : keys.length = rows.length) (ks : List ℕ) :
    (ofColumns keys rows).take ks = ks.flatMap (rowsOf keys rows) := by
  set g := ofColumns keys rows with hg
  have hget : ∀ ks : List ℕ, ks.flatMap (rowsOf keys rows) =
      (ks.filter fun key => g.keys[searchSorted g.keys key]? = some key).flatMap (rowsOf keys rows) := by
    intro ks
    induction ks with
    | nil => rfl
    | cons key ks ih =>
      rw [List.flatMap_cons, List.filter_cons, ih]
      split_ifs with hfound
      · rw [List.flatMap_cons]
      · simp only [decide_eq_true_eq] at hfound
        rw [← get_eq hlen]
        simp only [get, ← hg, if_neg hfound, List.nil_append]
  have hindices : g.take ks = (g.found ks).flatMap fun position =>
      Argsort.take g.rows (List.range' (g.offsets.getD position 0)
        (g.offsets.getD (position + 1) 0 - g.offsets.getD position 0)) := by
    simp only [take]
    rw [shifted_range (by rw [List.length_map, List.length_map]), List.zip_map', List.flatMap_map,
      Argsort.take, List.filterMap_flatMap]
    rfl
  rw [hindices, hget, found, List.flatMap_map]
  refine List.flatMap_congr fun key hkey => ?_
  obtain ⟨hslice, hle⟩ := slice_eq hlen (of_decide_eq_true (List.mem_filter.1 hkey).2)
  rw [take_range', ← hslice, slice, Nat.add_sub_cancel' hle]

end

end RowGroups

end Quail.Joins
