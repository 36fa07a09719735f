import Quail.Lib.Contiguous
import Quail.Relational.Integers
import Quail.Relational.Rewrites

/-!
# The columns of a window

What the calls of a window compute over integer columns, against the rows of each row's partition taken by
themselves in the call's order: every column is as defined there, but that a running sum wraps in its column's
type.
-/

namespace Quail.Relational
open Argsort Contiguous

variable {C V : Type}

/-! ## The calls, partition by partition -/

/-- The cell of a column in the row at a position. -/
def cellAt (rows : List (Row C V)) (name : C) (i : ℕ) : Cell V := (rows[i]?.map fun row => row name).getD .null

section Reference
variable (rows : List (Row C Scalar)) (call : WindowCall C) (i : ℕ)

/-- The positions of a row's partition in the call's order, ties in the order of the rows. -/
def partitionRows : List ℕ :=
  (sortIndices (fun r s => rowLe call.order r s) rows).filter fun j =>
    decide (∀ name ∈ call.partition, cellAt rows name j = cellAt rows name i)

/-- A row's place in its partition, from zero. -/
def place : ℕ := (partitionRows rows call i).idxOf i

/-- The rows of the partition up to the row. -/
def upTo : List ℕ := (partitionRows rows call i).take (place rows call i + 1)

/-- The cell of the call's argument in the row at a place of the partition. -/
def neighbor (p : ℕ) : Cell ℤ :=
  match (partitionRows rows call i)[p]?, call.argument with
  | some j, some argument => (cellAt rows argument j).integer
  | _, _ => .null

/-- The sum of the non-null values up to the row. -/
def runningSum (argument : C) : ℤ := ((upTo rows call i).map fun j => (cellAt rows argument j).amount).sum

/-- The count of the non-null values up to the row, or of the rows. -/
def runningCount : ℕ :=
  match call.argument with
  | none => (upTo rows call i).length
  | some argument => (upTo rows call i).countP fun j => !(cellAt rows argument j).isNull

/-- What a call is for a row. -/
def windowValue : Cell ℤ :=
  match call.function, call.argument with
  | .rowNumber, _ => .value (place rows call i + 1 : ℕ)
  | .lag, _ => if place rows call i = 0 then .null else neighbor rows call i (place rows call i - 1)
  | .lead, _ => neighbor rows call i (place rows call i + 1)
  | .count, _ => .value (runningCount rows call i)
  | .sum, some argument => .value (runningSum rows call i argument)
  | .sum, none => .null

end Reference

/-! ## Partitions of the sorted rows -/

section Partitions
variable [LinearOrder V]

/-- A list without NaN. -/
def NoNan (cells : List (Cell V)) : Prop := ∀ c ∈ cells, c ≠ .nan

omit [LinearOrder V] in
lemma differs_iff [LinearOrder V] {c c' : Cell V} (h : c ≠ .nan) (h' : c' ≠ .nan) : differs c c' = decide (c ≠ c') := by
  cases c with
  | nan => exact absurd rfl h
  | null =>
    cases c' with
    | nan => exact absurd rfl h'
    | null => rfl
    | value w => rfl
  | value v =>
    cases c' with
    | nan => exact absurd rfl h'
    | null => rfl
    | value w => simp [differs, Cell.notEqual, Cell.isNull]

/-- The rows where a key changes. -/
lemma keyStarts_eq {column : List (Cell V)} (h : NoNan column) :
    (true :: column.tail.zipWith differs column.dropLast).take column.length = runStarts column := by
  refine List.ext_getElem ?_ fun k hk hk' => ?_
  · rw [length_runStarts, List.length_take, List.length_cons, List.length_zipWith, List.length_tail, List.length_dropLast]
    omega
  · have hlt : k < column.length := by rwa [length_runStarts] at hk'
    have hright := getElem?_runStarts hlt
    rw [List.getElem?_eq_getElem hk'] at hright
    rw [Option.some.inj hright, List.getElem_take]
    cases k with
    | zero => rfl
    | succ k =>
      have hk : k < column.length := by omega
      rw [List.getElem_cons_succ, List.getElem_zipWith, List.getElem_tail, List.getElem_dropLast,
        differs_iff (h _ (List.getElem_mem _)) (h _ (List.getElem_mem _)), Nat.add_sub_cancel,
        List.getElem?_eq_getElem hlt, List.getElem?_eq_getElem hk]
      simp

/-- The rows where any key changes start the partitions. -/
lemma partitionStarts_eq {rows : List (Row C V)} {partition : List C} {positions : List ℕ}
    (h : ∀ name ∈ partition, ∀ j, cellAt rows name j ≠ .nan) :
    partitionStarts (partition.map fun name => positions.map (cellAt rows name)) positions.length =
      runStarts (positions.map fun j => partition.map fun name => cellAt rows name j) := by
  have hfold : ∀ done : List C, (partition.map fun name => positions.map (cellAt rows name)).foldl
      (fun starts column => starts.zipWith (· || ·)
        ((true :: column.tail.zipWith differs column.dropLast).take positions.length))
      (runStarts (positions.map fun j => done.map fun name => cellAt rows name j)) =
      runStarts (positions.map fun j => (done ++ partition).map fun name => cellAt rows name j) := by
    induction partition with
    | nil => exact fun done => by rw [List.append_nil]; rfl
    | cons name partition ih =>
      intro done
      obtain ⟨hname, h⟩ := List.forall_mem_cons.1 h
      have hnan : NoNan (positions.map (cellAt rows name)) := by
        intro c hc
        obtain ⟨j, -, rfl⟩ := List.mem_map.1 hc
        exact hname j
      have hkey := keyStarts_eq hnan
      rw [List.length_map] at hkey
      have hboth : ∀ i j : ℕ, ((done ++ [name]).map fun name => cellAt rows name i) =
          ((done ++ [name]).map fun name => cellAt rows name j) ↔
          (done.map fun name => cellAt rows name i) = (done.map fun name => cellAt rows name j) ∧
            cellAt rows name i = cellAt rows name j := by
        intro i j
        simp only [List.map_inj_left, List.mem_append, List.mem_singleton, or_imp, forall_and, forall_eq]
      rw [List.map_cons, List.foldl_cons, hkey, zipWith_runStarts hboth, ih h, List.append_assoc]
      rfl
  rw [partitionStarts, ← runStarts_const positions ([] : List (Cell V))]
  exact hfold []

omit [LinearOrder V] in
lemma foldl_count (starts : List Bool) (count : ℕ) :
    starts.foldl (fun count start => count + start.toNat) count = count + starts.count true := by
  induction starts generalizing count with
  | nil => rfl
  | cons start starts ih =>
    rw [List.foldl_cons, ih, List.count_cons]
    cases start
    · simp
    · rw [Bool.toNat_true, beq_self_eq_true, if_pos rfl]
      omega

omit [LinearOrder V] in
/-- The rows from a start up to the next are in the partition that starts there. -/
lemma getElem?_partitionFirsts {before rest : List Bool} {m j : ℕ} (hj : j ≤ m) :
    (partitionFirsts (before ++ (true :: List.replicate m false) ++ rest))[before.length + j]? = some before.length := by
  set starts := before ++ (true :: List.replicate m false) ++ rest with hstarts
  have hlength : ∀ l : List Bool, ((l.zipIdx.filter Prod.fst).map Prod.snd).length = l.count true := by
    intro l
    rw [List.length_map, ← List.countP_eq_length_filter, ← List.zipIdx_map_fst 0 l, List.count, List.countP_map,
      List.zipIdx_map_fst]
    exact List.countP_congr fun x _ => by simp
  have hnonzero : ((starts.zipIdx.filter Prod.fst).map Prod.snd)[before.count true]? = some before.length := by
    rw [hstarts, List.append_assoc, List.zipIdx_append, List.filter_append, List.map_append,
      List.getElem?_append_right (hlength before).le, hlength, Nat.sub_self, List.cons_append, List.zipIdx_cons,
      List.filter_cons_of_pos rfl]
    simp
  have hlt : before.length + j < starts.length := by
    rw [hstarts]
    simp only [List.length_append, List.length_cons, List.length_replicate]
    omega
  have hone : 1 ≤ starts.count true := List.one_le_count_iff.2 (by simp [hstarts])
  have hcount : starts.take (before.length + j + 1) = before ++ true :: List.replicate j false := by
    rw [hstarts, List.append_assoc, List.take_append, List.take_of_length_le (by omega), List.take_append_of_le_length
      (by simp; omega)]
    congr 1
    have : before.length + j + 1 - before.length = j + 1 := by omega
    rw [this, List.take_succ_cons, List.take_replicate, Nat.min_eq_left hj]
  unfold partitionFirsts
  dsimp only
  rw [getElem?_take, List.getElem?_map]
  · rw [List.getElem?_tail, List.getElem?_scanl, if_pos (by omega), hcount, foldl_count, List.count_append,
      List.count_cons_self, List.count_replicate]
    simpa using hnonzero
  · intro p hp
    obtain ⟨k, hk, rfl⟩ := List.mem_map.1 hp
    have hle := count_le (List.mem_of_mem_tail hk)
    rw [hlength]
    omega

omit [LinearOrder V] in
/-- A row in the run from a start is in the partition that starts there. -/
lemma partitionFirsts_of_run {starts : List Bool} {b j : ℕ} (hlt : b + j < starts.length) (hstart : starts[b]? = some true)
    (hrun : ∀ i, 0 < i → i ≤ j → starts[b + i]? = some false) : (partitionFirsts starts)[b + j]? = some b := by
  have hmiddle : (starts.drop b).take (j + 1) = true :: List.replicate j false := by
    refine List.ext_getElem? fun i => ?_
    rw [List.getElem?_take, List.getElem?_drop]
    cases i with
    | zero => simpa using hstart
    | succ i =>
      rw [List.getElem?_cons_succ, List.getElem?_replicate]
      by_cases hi : i < j
      · rw [if_pos (by omega), if_pos hi, hrun (i + 1) (by omega) (by omega)]
      · rw [if_neg (by omega), if_neg hi]
  have hsplit : starts = starts.take b ++ (true :: List.replicate j false) ++ starts.drop (b + (j + 1)) := by
    rw [← hmiddle, List.append_assoc, ← List.drop_drop, List.take_append_drop, List.take_append_drop]
  have hfirst := @getElem?_partitionFirsts (starts.take b) (starts.drop (b + (j + 1))) j j le_rfl
  rwa [← hsplit, List.length_take, Nat.min_eq_left (by omega)] at hfirst

end Partitions

/-! ## Running columns -/

section Running
variable {R : Cell V → ℤ → Prop} [Add V] [Sub V] [NatCast V]

omit [Sub V] in
/-- A running sum stands for the total of what its cells stand for. -/
lemma cumulativeSum_total (hzero : R (.value ((0 : ℕ) : V)) 0) (hadd : ∀ c c' a b, R c a → R c' b → R (c.add c') (a + b))
    {cells : List (Cell V)} {amounts : List ℤ} (h : List.Forall₂ R cells amounts) {k : ℕ} (hk : k < cells.length) :
    ∃ cell, (cumulativeSum cells)[k]? = some cell ∧ R cell (amounts.take (k + 1)).sum := by
  have hfold : ∀ {cells : List (Cell V)} {amounts : List ℤ} {c : Cell V} {a : ℤ}, List.Forall₂ R cells amounts → R c a →
      R (cells.foldl Cell.add c) (a + amounts.sum) := by
    intro cells amounts c a h hc
    induction h generalizing c a with
    | nil => simpa using hc
    | cons hcell _ ih =>
      rw [List.foldl_cons, List.sum_cons, ← add_assoc]
      exact ih (hadd _ _ _ _ hc hcell)
  refine ⟨(cells.take (k + 1)).foldl Cell.add (.value ((0 : ℕ) : V)), ?_, ?_⟩
  · rw [cumulativeSum, List.getElem?_tail, List.getElem?_scanl, if_pos (by omega)]
  · have := hfold (List.forall₂_take (k + 1) h) hzero
    rwa [zero_add] at this

/-- The running sum less the one before a row's partition is the sum over the partition up to the row. -/
lemma running_total (hzero : R (.value ((0 : ℕ) : V)) 0) (hadd : ∀ c c' a b, R c a → R c' b → R (c.add c') (a + b))
    (hsub : ∀ c c' a b, R c a → R c' b → R (c.sub c') (a - b)) {cells : List (Cell V)} {amounts : List ℤ}
    (h : List.Forall₂ R cells amounts) {firsts : List ℕ} {first k : ℕ} (hfirst : firsts[k]? = some first)
    (hle : first ≤ k) (hk : k < cells.length) :
    ∃ cell, ((cumulativeSum cells).zipWith Cell.sub (firsts.map fun first : ℕ =>
        if first = 0 then .value ((0 : ℕ) : V) else ((cumulativeSum cells)[first - 1]?).getD .null))[k]? = some cell ∧
      R cell ((amounts.take (k + 1)).drop first).sum := by
  obtain ⟨cell, hcell, hrunning⟩ := cumulativeSum_total hzero hadd h hk
  have hsplit : (amounts.take (k + 1)).sum - (amounts.take first).sum = ((amounts.take (k + 1)).drop first).sum := by
    have hparts := List.sum_take_add_sum_drop (amounts.take (k + 1)) first
    rw [List.take_take, Nat.min_eq_left (by omega)] at hparts
    omega
  have hbefore : R (if first = 0 then .value ((0 : ℕ) : V) else ((cumulativeSum cells)[first - 1]?).getD .null)
      (amounts.take first).sum := by
    split_ifs with hfirst
    · rw [hfirst]
      exact hzero
    · obtain ⟨before, hbefore, hR⟩ := cumulativeSum_total hzero hadd h (show first - 1 < cells.length by omega)
      rw [hbefore]
      rwa [Nat.sub_add_cancel (by omega)] at hR
  refine ⟨_, ?_, hsplit ▸ hsub _ _ _ _ hrunning hbefore⟩
  rw [List.getElem?_zipWith, hcell, List.getElem?_map, hfirst]
  rfl

end Running

/-! ## A call's column -/

section Column
variable {rows : List (Row C Scalar)} {call : WindowCall C} {i q : ℕ}

/-- The rows in the order that a group of calls sorts them in. -/
def sortedRows (rows : List (Row C Scalar)) (call : WindowCall C) : List ℕ :=
  sortIndices (fun r s => rowLe (windowSortKeys call.partition call.order) r s) rows

/-- The partition key of a row. -/
def partitionKey (rows : List (Row C Scalar)) (call : WindowCall C) (i : ℕ) : List (Cell Scalar) :=
  call.partition.map fun name => cellAt rows name i

lemma sortedRows_lt {p : ℕ} (h : p ∈ sortedRows rows call) : p < rows.length := sortIndices_lt h

lemma sortedRows_perm (rows : List (Row C Scalar)) (call : WindowCall C) :
    (sortedRows rows call).Perm (List.range rows.length) := sortIndices_perm rows

/-- Rows that each come no later than the other have the same cells in the keys' columns. -/
lemma rowLe_antisymm {V : Type} [LinearOrder V] {ks : List (SortKey C)} {r s : Row C V} (h : rowLe ks r s)
    (h' : rowLe ks s r) : ∀ k ∈ ks, r k.column = s k.column := by
  induction ks with
  | nil => exact fun _ hk => absurd hk List.not_mem_nil
  | cons k ks ih =>
    rw [rowLe] at h h'
    by_cases heq : r k.column = s k.column
    · rw [if_pos heq] at h
      rw [if_pos heq.symm] at h'
      exact List.forall_mem_cons.2 ⟨heq, ih h h'⟩
    · rw [if_neg heq] at h
      rw [if_neg (Ne.symm heq)] at h'
      exact absurd (k.antisymm h h') heq

lemma rowLe_append {V : Type} [LinearOrder V] {ks ks' : List (SortKey C)} {r s : Row C V}
    (h : ∀ k ∈ ks, r k.column = s k.column) : rowLe (ks ++ ks') r s = rowLe ks' r s := by
  induction ks with
  | nil => rfl
  | cons k ks ih =>
    obtain ⟨hk, h⟩ := List.forall_mem_cons.1 h
    rw [List.cons_append, rowLe, if_pos hk, ih h]

/-- The rows of a partition, in the order of the sort. -/
lemma filter_sortedRows (rows : List (Row C Scalar)) (call : WindowCall C) (i : ℕ) :
    (sortedRows rows call).filter (fun j => partitionKey rows call j = partitionKey rows call i) =
      partitionRows rows call i := by
  have htotal : ∀ ks : List (SortKey C), Std.Total fun r s : Row C Scalar => (rowLe ks r s : Prop) := fun ks => ⟨rowLe_total ks⟩
  have htrans : ∀ ks : List (SortKey C), IsTrans (Row C Scalar) fun r s => (rowLe ks r s : Prop) :=
    fun ks => ⟨fun _ _ _ => rowLe_trans⟩
  have hkey : ∀ j, partitionKey rows call j = partitionKey rows call i ↔
      ∀ name ∈ call.partition, cellAt rows name j = cellAt rows name i := fun j => List.map_inj_left
  rw [partitionRows, sortedRows]
  simp only [hkey]
  have := htotal (windowSortKeys call.partition call.order)
  have := htotal call.order
  have := htrans (windowSortKeys call.partition call.order)
  have := htrans call.order
  refine filter_sortIndices fun j j' a b hj hj' ha hb => ?_
  rw [windowSortKeys, rowLe_append]
  simp only [List.forall_mem_map]
  intro name hname
  have hsame := (of_decide_eq_true hj name hname).trans (of_decide_eq_true hj' name hname).symm
  rwa [cellAt, cellAt, ha, hb] at hsame

/-- The rows of a partition stand together. -/
lemma together_sortedRows (rows : List (Row C Scalar)) (call : WindowCall C) :
    Together (partitionKey rows call) (sortedRows rows call) := by
  intro a b c hsub hkey
  have htotal : Std.Total fun r s : Row C Scalar => (rowLe (windowSortKeys call.partition call.order) r s : Prop) :=
    ⟨rowLe_total _⟩
  have htrans : IsTrans (Row C Scalar) fun r s => (rowLe (windowSortKeys call.partition call.order) r s : Prop) :=
    ⟨fun _ _ _ => rowLe_trans⟩
  have hpairs := (pairwise_sortIndices rows).sublist hsub
  simp only [List.pairwise_cons, List.mem_cons, List.not_mem_nil, or_false, forall_eq_or_imp, forall_eq] at hpairs
  obtain ⟨⟨hab, -⟩, hbc, -⟩ := hpairs
  have hrow : ∀ p ∈ [a, b, c], ∃ row, rows[p]? = some row := fun p hp =>
    ⟨_, List.getElem?_eq_getElem (sortedRows_lt (hsub.subset hp))⟩
  obtain ⟨ra, ha⟩ := hrow a (by simp)
  obtain ⟨rb, hb⟩ := hrow b (by simp)
  obtain ⟨rc, hc⟩ := hrow c (by simp)
  have hprefix := List.prefix_append (call.partition.map fun name => (⟨name, false, false⟩ : SortKey C)) call.order
  have hle := rowLe_of_prefix hprefix (hab ra rb ha hb)
  have hle' := rowLe_of_prefix hprefix (hbc rb rc hb hc)
  have hcell : ∀ name ∈ call.partition, ra name = rc name := by
    intro name hname
    have := List.map_inj_left.1 hkey name hname
    rwa [cellAt, cellAt, ha, hc] at this
  rw [← rowLe_congr (fun _ _ => rfl) (by simpa using hcell)] at hle'
  have hsame := rowLe_antisymm hle hle'
  refine List.map_inj_left.2 fun name hname => ?_
  rw [cellAt, cellAt, ha, hb]
  exact (hsame ⟨name, false, false⟩ (List.mem_map_of_mem hname)).symm

/-- A column in the order of the sort. -/
lemma take_column (rows : List (Row C Scalar)) (call : WindowCall C) (name : C) :
    take (column rows name) (sortedRows rows call) = (sortedRows rows call).map (cellAt rows name) := by
  rw [take, ← List.filterMap_eq_map]
  refine List.filterMap_congr fun p hp => ?_
  rw [column, List.getElem?_map, Function.comp, cellAt, List.getElem?_eq_getElem (sortedRows_lt hp)]
  rfl

/-- Where a row's partition is in the sorted rows. -/
structure Placed (rows : List (Row C Scalar)) (call : WindowCall C) (i b : ℕ) (after : List ℕ) : Prop where
  before : ∃ before, before.length = b ∧ sortedRows rows call = before ++ partitionRows rows call i ++ after ∧
    ∀ p ∈ before, partitionKey rows call p ≠ partitionKey rows call i
  after : ∀ p ∈ after, partitionKey rows call p ≠ partitionKey rows call i

lemma exists_placed (rows : List (Row C Scalar)) (call : WindowCall C) (i : ℕ) : ∃ b after, Placed rows call i b after := by
  obtain ⟨before, after, hsplit, hbefore, hafter⟩ :=
    (together_sortedRows rows call).exists_block (partitionKey rows call i)
  rw [filter_sortedRows] at hsplit
  exact ⟨before.length, after, ⟨before, rfl, hsplit, hbefore⟩, hafter⟩

lemma mem_partitionRows (hi : i < rows.length) : i ∈ partitionRows rows call i := by
  rw [← filter_sortedRows, List.mem_filter]
  exact ⟨(sortedRows_perm rows call).mem_iff.2 (List.mem_range.2 hi), decide_eq_true rfl⟩

lemma partitionKey_of_mem {p : ℕ} (h : p ∈ partitionRows rows call i) :
    partitionKey rows call p = partitionKey rows call i := by
  rw [← filter_sortedRows] at h
  exact of_decide_eq_true (List.mem_filter.1 h).2

lemma place_lt (hi : i < rows.length) : place rows call i < (partitionRows rows call i).length :=
  List.idxOf_lt_length_iff.2 (mem_partitionRows hi)

lemma getElem?_place (hi : i < rows.length) : (partitionRows rows call i)[place rows call i]? = some i := by
  rw [List.getElem?_eq_getElem (place_lt hi)]
  exact congrArg some (List.getElem_idxOf (place_lt hi))

namespace Placed
variable {b : ℕ} {after : List ℕ}

/-- A row of the partition in the sorted rows. -/
lemma getElem?_sortedRows (h : Placed rows call i b after) {j : ℕ} (hj : j < (partitionRows rows call i).length) :
    (sortedRows rows call)[b + j]? = (partitionRows rows call i)[j]? := by
  obtain ⟨before, rfl, hsplit, -⟩ := h.before
  rw [hsplit, List.append_assoc, List.getElem?_append_right (Nat.le_add_right _ _), Nat.add_sub_cancel_left,
    List.getElem?_append_left hj]

/-- The row is at its place in its partition. -/
lemma eq_place (h : Placed rows call i b after) (hq : (sortedRows rows call)[q]? = some i) :
    q = b + place rows call i := by
  have hi : i < rows.length := sortedRows_lt (List.mem_of_getElem? hq)
  have hplace := (h.getElem?_sortedRows (place_lt hi)).trans (getElem?_place hi)
  have hnodup : (sortedRows rows call).Nodup := (sortedRows_perm rows call).nodup_iff.2 List.nodup_range
  obtain ⟨hlt, heq⟩ := List.getElem?_eq_some_iff.1 hq
  obtain ⟨hlt', heq'⟩ := List.getElem?_eq_some_iff.1 hplace
  exact hnodup.getElem_inj_iff.1 (heq.trans heq'.symm)

/-- The keys of the sorted rows, with the partition's in the middle. -/
lemma keys (h : Placed rows call i b after) : ∃ before : List (List (Cell Scalar)), before.length = b ∧
    (sortedRows rows call).map (partitionKey rows call) =
      before ++ (partitionRows rows call i).map (partitionKey rows call) ++ after.map (partitionKey rows call) ∧
    ∀ k ∈ before, k ≠ partitionKey rows call i := by
  obtain ⟨before, rfl, hsplit, hbefore⟩ := h.before
  exact ⟨before.map (partitionKey rows call), List.length_map _, by rw [hsplit, List.map_append, List.map_append],
    List.forall_mem_map.2 hbefore⟩

lemma starts (h : Placed rows call i b after) {j : ℕ} (hj : j < (partitionRows rows call i).length) :
    (runStarts ((sortedRows rows call).map (partitionKey rows call)))[b + j]? = some (decide (j = 0)) := by
  obtain ⟨before, rfl, hkeys, hbefore⟩ := h.keys
  rw [hkeys]
  exact getElem?_runStarts_block hbefore (List.forall_mem_map.2 fun p hp => partitionKey_of_mem hp)
    (by rwa [List.length_map])

lemma starts_after (h : Placed rows call i b after) (hi : i < rows.length) (hafter : after ≠ []) :
    (runStarts ((sortedRows rows call).map (partitionKey rows call)))[b + (partitionRows rows call i).length]? =
      some true := by
  obtain ⟨before, rfl, hkeys, hbefore⟩ := h.keys
  have hne : (partitionRows rows call i).map (partitionKey rows call) ≠ [] := fun hnil =>
    List.ne_nil_of_mem (mem_partitionRows hi) (List.map_eq_nil_iff.1 hnil)
  have hsame : ∀ k ∈ (partitionRows rows call i).map (partitionKey rows call), k = partitionKey rows call i :=
    List.forall_mem_map.2 fun p hp => partitionKey_of_mem hp
  have := @getElem?_runStarts_after _ _ before _ _ _ hsame (List.forall_mem_map.2 h.after) hne (by simpa using hafter)
  rwa [List.length_map, ← hkeys] at this

lemma length (h : Placed rows call i b after) :
    rows.length = b + (partitionRows rows call i).length + after.length := by
  obtain ⟨before, rfl, hsplit, -⟩ := h.before
  have := congrArg List.length hsplit
  rwa [(sortedRows_perm rows call).length_eq, List.length_range, List.length_append, List.length_append] at this

lemma firsts (h : Placed rows call i b after) {j : ℕ} (hj : j < (partitionRows rows call i).length) :
    (partitionFirsts (runStarts ((sortedRows rows call).map (partitionKey rows call))))[b + j]? = some b := by
  have hlength := h.length
  have hlt : b + j < (runStarts ((sortedRows rows call).map (partitionKey rows call))).length := by
    rw [length_runStarts, List.length_map, (sortedRows_perm rows call).length_eq, List.length_range]
    omega
  refine partitionFirsts_of_run hlt (h.starts (j := 0) (by omega)) fun k hk hkj => ?_
  rw [h.starts (by omega), decide_eq_false (by omega)]

/-- The rows of the partition up to a place. -/
lemma upTo (h : Placed rows call i b after) {j : ℕ} (hj : j < (partitionRows rows call i).length) :
    ((sortedRows rows call).take (b + j + 1)).drop b = (partitionRows rows call i).take (j + 1) := by
  obtain ⟨before, rfl, hsplit, -⟩ := h.before
  rw [hsplit, List.append_assoc, List.take_append, List.take_of_length_le (by omega), List.drop_left,
    List.take_append_of_le_length (by omega)]
  congr 1
  omega

end Placed

/-- A count of the partition's rows, as a literal. -/
def Counts (c : Cell Scalar) (n : ℤ) : Prop := c = .value ⟨none, n⟩

lemma Counts.add {c c' : Cell Scalar} {m n : ℤ} (h : Counts c m) (h' : Counts c' n) : Counts (c.add c') (m + n) := by
  obtain rfl := h
  obtain rfl := h'
  rfl

lemma Counts.sub {c c' : Cell Scalar} {m n : ℤ} (h : Counts c m) (h' : Counts c' n) : Counts (c.sub c') (m - n) := by
  obtain rfl := h
  obtain rfl := h'
  rfl

/-- What a call's cell for a row stands for: a sum wraps in the type of its column, and any other is as defined. -/
def Stands (types : C → IntType) (rows : List (Row C Scalar)) (call : WindowCall C) (i : ℕ) (cell : Cell Scalar) : Prop :=
  match call.function, call.argument with
  | .sum, some argument => Totals (types argument) cell (runningSum rows call i argument)
  | _, _ => cell.integer = windowValue rows call i

/-- Columns of integers of the given types, or nulls. -/
def Typed (types : C → IntType) (projected : List C) (rows : List (Row C Scalar)) : Prop :=
  ∀ row ∈ rows, ∀ name ∈ projected, OfType (types name) (row name)

lemma Typed.cellAt {types : C → IntType} {projected : List C} (h : Typed types projected rows) {name : C}
    (hname : name ∈ projected) (j : ℕ) : OfType (types name) (cellAt rows name j) := by
  unfold Relational.cellAt
  cases hrow : rows[j]? with
  | none => exact .inl rfl
  | some row => exact h row (List.mem_of_getElem? hrow) name hname

variable {types : C → IntType} {projected : List C} {b : ℕ} {after : List ℕ}

/-- The sum over the partition up to a row. -/
lemma sum_upTo (h : Placed rows call i b after) (hi : i < rows.length) (f : ℕ → ℤ) :
    ((((sortedRows rows call).map f).take (b + place rows call i + 1)).drop b).sum = ((upTo rows call i).map f).sum := by
  rw [← List.map_take, ← List.map_drop, h.upTo (place_lt hi), upTo]

/-- The running columns over the sorted rows. -/
lemma running_at {R : Cell Scalar → ℤ → Prop} (hzero : R (.value ((0 : ℕ) : Scalar)) 0)
    (hadd : ∀ c c' a b, R c a → R c' b → R (c.add c') (a + b))
    (hsub : ∀ c c' a b, R c a → R c' b → R (c.sub c') (a - b)) (h : Placed rows call i b after) (hi : i < rows.length)
    {cells : List (Cell Scalar)} {f : ℕ → ℤ} (hcells : List.Forall₂ R cells ((sortedRows rows call).map f)) :
    ∃ cell, ((cumulativeSum cells).zipWith Cell.sub
        ((partitionFirsts (runStarts ((sortedRows rows call).map (partitionKey rows call)))).map fun first : ℕ =>
          if first = 0 then .value ((0 : ℕ) : Scalar) else ((cumulativeSum cells)[first - 1]?).getD .null))[
        b + place rows call i]? = some cell ∧ R cell ((upTo rows call i).map f).sum := by
  have hlength := h.length
  have hplace : place rows call i < (partitionRows rows call i).length := place_lt hi
  have hcount : cells.length = rows.length := by
    rw [hcells.length_eq, List.length_map, (sortedRows_perm rows call).length_eq, List.length_range]
  have := running_total hzero hadd hsub hcells (h.firsts hplace) (Nat.le_add_right b _) (by omega)
  rwa [sum_upTo h hi] at this

lemma sum_toNat (p : ℕ → Bool) (xs : List ℕ) : (xs.map fun x => ((p x).toNat : ℤ)).sum = (xs.countP p : ℕ) := by
  induction xs with
  | nil => rfl
  | cons x xs ih =>
    rw [List.map_cons, List.sum_cons, ih, List.countP_cons]
    cases p x
    · simp
    · simp [add_comm]

/-- The starts of the partitions of the sorted rows. -/
def sortedStarts (rows : List (Row C Scalar)) (call : WindowCall C) : List Bool :=
  runStarts ((sortedRows rows call).map (partitionKey rows call))

lemma length_sortedRows (rows : List (Row C Scalar)) (call : WindowCall C) :
    (sortedRows rows call).length = rows.length := by
  rw [(sortedRows_perm rows call).length_eq, List.length_range]

lemma length_sortedStarts (rows : List (Row C Scalar)) (call : WindowCall C) :
    (sortedStarts rows call).length = rows.length := by
  rw [sortedStarts, length_runStarts, List.length_map, length_sortedRows]

/-- A neighbor in the partition, by its place in the sorted rows. -/
lemma neighbor_eq (h : Placed rows call i b after) {argument : C} (hargument : call.argument = some argument) {p : ℕ}
    (hp : p < (partitionRows rows call i).length) : ∃ cell,
      ((sortedRows rows call).map (cellAt rows argument))[b + p]? = some cell ∧ cell.integer = neighbor rows call i p := by
  refine ⟨cellAt rows argument (partitionRows rows call i)[p], ?_, ?_⟩
  · rw [List.getElem?_map, h.getElem?_sortedRows hp, List.getElem?_eq_getElem hp]
    rfl
  · rw [neighbor, List.getElem?_eq_getElem hp, hargument]

lemma rowNumber_at (h : Placed rows call i b after) (hi : i < rows.length) (hfunction : call.function = .rowNumber) :
    ∃ cell, (callColumn call.function none (sortedStarts rows call) rows.length)[b + place rows call i]? = some cell ∧
      Stands types rows call i cell := by
  have hlength := h.length
  have hplace : place rows call i < (partitionRows rows call i).length := place_lt hi
  refine ⟨.value (((place rows call i + 1 : ℕ)) : Scalar), ?_, ?_⟩
  · rw [hfunction, callColumn, List.getElem?_zipWith, List.getElem?_range (by omega), sortedStarts, h.firsts hplace]
    dsimp only [Option.map₂, Option.bind, Option.map]
    rw [Nat.add_sub_cancel_left]
  · unfold Stands windowValue
    rw [hfunction]
    rfl

lemma lag_at (h : Placed rows call i b after) (hi : i < rows.length) (hfunction : call.function = .lag) {argument : C}
    (hargument : call.argument = some argument) :
    ∃ cell, (callColumn call.function (some ((sortedRows rows call).map (cellAt rows argument))) (sortedStarts rows call)
      rows.length)[b + place rows call i]? = some cell ∧ Stands types rows call i cell := by
  have hlength := h.length
  have hplace : place rows call i < (partitionRows rows call i).length := place_lt hi
  have hstart : (sortedStarts rows call)[b + place rows call i]? = _ := h.starts hplace
  have hstands : ∀ cell : Cell Scalar, Stands types rows call i cell ↔ cell.integer =
      if place rows call i = 0 then .null else neighbor rows call i (place rows call i - 1) := fun cell => by
    unfold Stands windowValue
    rw [hfunction]
  simp only [hfunction, callColumn, Option.getD_some, hstands, List.getElem?_zipWith, List.getElem?_take,
    if_pos (show b + place rows call i < rows.length by omega), hstart]
  cases hp : place rows call i with
  | zero =>
    have hlt : b + 0 < (Cell.null :: ((sortedRows rows call).map (cellAt rows argument)).dropLast).length := by
      rw [List.length_cons, List.length_dropLast, List.length_map, length_sortedRows]
      omega
    rw [List.getElem?_eq_getElem hlt]
    exact ⟨.null, rfl, rfl⟩
  | succ p =>
    obtain ⟨cell, hcell, hneighbor⟩ := neighbor_eq h hargument (show p < (partitionRows rows call i).length by omega)
    refine ⟨cell, ?_, by rw [if_neg (by omega), Nat.add_sub_cancel, hneighbor]⟩
    have hlt : b + p < ((sortedRows rows call).map (cellAt rows argument)).length - 1 := by
      rw [List.length_map, length_sortedRows]
      omega
    rw [← Nat.add_assoc, List.getElem?_cons_succ, List.getElem?_dropLast, if_pos hlt, hcell]
    rfl

lemma lead_at (h : Placed rows call i b after) (hi : i < rows.length) (hfunction : call.function = .lead) {argument : C}
    (hargument : call.argument = some argument) :
    ∃ cell, (callColumn call.function (some ((sortedRows rows call).map (cellAt rows argument))) (sortedStarts rows call)
      rows.length)[b + place rows call i]? = some cell ∧ Stands types rows call i cell := by
  have hlength := h.length
  have hplace : place rows call i < (partitionRows rows call i).length := place_lt hi
  have hstands : ∀ cell : Cell Scalar, Stands types rows call i cell ↔ cell.integer =
      neighbor rows call i (place rows call i + 1) := fun cell => by
    unfold Stands windowValue
    rw [hfunction]
  have hstarts := length_sortedStarts rows call
  have hvalues : ((sortedRows rows call).map (cellAt rows argument)).length = rows.length := by
    rw [List.length_map, length_sortedRows]
  simp only [hfunction, callColumn, Option.getD_some, hstands, List.getElem?_zipWith, List.getElem?_take,
    if_pos (show b + place rows call i < rows.length by omega)]
  by_cases hmore : place rows call i + 1 < (partitionRows rows call i).length
  · obtain ⟨cell, hcell, hneighbor⟩ := neighbor_eq h hargument hmore
    have hstart : (sortedStarts rows call)[b + (place rows call i + 1)]? = _ := h.starts hmore
    refine ⟨cell, ?_, hneighbor⟩
    rw [List.getElem?_append_left (by rw [List.length_tail]; omega), List.getElem?_tail, Nat.add_assoc, hstart,
      List.getElem?_append_left (by rw [List.length_tail]; omega), List.getElem?_tail, Nat.add_assoc, hcell]
    rfl
  -- the last row of its partition is the last of all, or a partition starts after it
  · refine ⟨.null, ?_, ?_⟩
    · have hedge : ((sortedStarts rows call).tail ++ [true])[b + place rows call i]? = some true := by
        by_cases hafter : after = []
        · have hlast : b + place rows call i = (sortedStarts rows call).tail.length := by
            rw [hafter, List.length_nil] at hlength
            rw [List.length_tail]
            omega
          rw [hlast, List.getElem?_append_right le_rfl, Nat.sub_self]
          rfl
        · have hpos := List.length_pos_iff.2 hafter
          have hnext : b + place rows call i + 1 = b + (partitionRows rows call i).length := by omega
          rw [List.getElem?_append_left (by rw [List.length_tail]; omega), List.getElem?_tail, hnext]
          exact h.starts_after hi hafter
      have hlt : b + place rows call i < (((sortedRows rows call).map (cellAt rows argument)).tail ++ [Cell.null]).length := by
        rw [List.length_append, List.length_tail, List.length_singleton]
        omega
      rw [hedge, List.getElem?_eq_getElem hlt]
      rfl
    · rw [neighbor, List.getElem?_eq_none (by omega)]
      rfl

lemma sum_at (h : Placed rows call i b after) (hi : i < rows.length) (hfunction : call.function = .sum) {argument : C}
    (hargument : call.argument = some argument) (htyped : ∀ j, OfType (types argument) (cellAt rows argument j)) :
    ∃ cell, (callColumn call.function (some ((sortedRows rows call).map (cellAt rows argument))) (sortedStarts rows call)
      rows.length)[b + place rows call i]? = some cell ∧ Stands types rows call i cell := by
  have hcells : List.Forall₂ (Totals (types argument)) (counted .sum
      (some ((sortedRows rows call).map (cellAt rows argument))) rows.length)
      ((sortedRows rows call).map fun j => (cellAt rows argument j).amount) := by
    rw [counted, if_neg (by decide), List.map_map, List.forall₂_map_left_iff, List.forall₂_map_right_iff,
      List.forall₂_same]
    intro j _
    obtain hnull | ⟨n, hfits, hvalue⟩ := htyped j
    · rw [Function.comp, hnull]
      exact Totals.zero _
    · rw [Function.comp, hvalue]
      refine .inr ?_
      rw [Cell.amount, IntType.wrap_eq_iff.2 hfits]
      rfl
  obtain ⟨cell, hcell, htotal⟩ := running_at (Totals.zero _) (fun _ _ _ _ => Totals.add) (fun _ _ _ _ => Totals.sub)
    h hi hcells
  refine ⟨cell, ?_, ?_⟩
  · rw [hfunction, callColumn]
    exact hcell
  · unfold Stands
    rw [hfunction, hargument]
    exact htotal

lemma count_at (h : Placed rows call i b after) (hi : i < rows.length) (hfunction : call.function = .count) :
    ∃ cell, (callColumn call.function (call.argument.map fun argument => (sortedRows rows call).map (cellAt rows argument))
      (sortedStarts rows call) rows.length)[b + place rows call i]? = some cell ∧ Stands types rows call i cell := by
  have hcells : List.Forall₂ Counts (counted .count
      (call.argument.map fun argument => (sortedRows rows call).map (cellAt rows argument)) rows.length)
      ((sortedRows rows call).map fun j =>
        ((call.argument.elim true fun argument => !(cellAt rows argument j).isNull).toNat : ℤ)) := by
    cases call.argument with
    | none =>
      have hrows : counted (V := Scalar) .count none rows.length =
          (sortedRows rows call).map fun _ => Cell.value ((1 : ℕ) : Scalar) := by
        rw [List.map_const', length_sortedRows, counted]
      rw [Option.map_none, hrows, List.forall₂_map_left_iff, List.forall₂_map_right_iff, List.forall₂_same]
      exact fun _ _ => rfl
    | some argument =>
      rw [Option.map_some, counted, if_pos rfl, List.map_map, List.forall₂_map_left_iff, List.forall₂_map_right_iff,
        List.forall₂_same]
      exact fun _ _ => rfl
  obtain ⟨cell, hcell, htotal⟩ := running_at rfl (fun _ _ _ _ => Counts.add) (fun _ _ _ _ => Counts.sub) h hi hcells
  refine ⟨cell, ?_, ?_⟩
  · rw [hfunction, callColumn]
    exact hcell
  · unfold Stands windowValue runningCount
    rw [hfunction]
    rw [sum_toNat (fun j => call.argument.elim true fun argument => !(cellAt rows argument j).isNull)] at htotal
    obtain rfl := htotal
    cases call.argument with
    | none => exact congrArg (fun n : ℕ => Cell.value (n : ℤ)) (congrFun List.countP_true _)
    | some argument => rfl

/-- Every cell of a call's column stands for what the call is for its row. -/
lemma callColumn_at {calls : List (WindowCall C)} (hv : ValidWindow projected calls) (hcall : call ∈ calls)
    (htyped : Typed types projected rows) (hq : (sortedRows rows call)[q]? = some i) :
    ∃ cell, (callColumn call.function (call.argument.map fun argument => take (column rows argument) (sortedRows rows call))
      (partitionStarts (call.partition.map fun name => take (column rows name) (sortedRows rows call)) rows.length)
      rows.length)[q]? = some cell ∧ Stands types rows call i cell := by
  have hi : i < rows.length := sortedRows_lt (List.mem_of_getElem? hq)
  obtain ⟨b, after, h⟩ := exists_placed rows call i
  obtain rfl := h.eq_place hq
  have hnan : ∀ name ∈ call.partition, ∀ j, cellAt rows name j ≠ .nan := by
    intro name hname j
    obtain hnull | ⟨n, -, hvalue⟩ := htyped.cellAt (hv.partition call hcall name hname) j
    · rw [hnull]
      exact nofun
    · rw [hvalue]
      exact nofun
  have hstarts : partitionStarts (call.partition.map fun name => (sortedRows rows call).map (cellAt rows name))
      (sortedRows rows call).length = sortedStarts rows call := by
    rw [partitionStarts_eq hnan, sortedStarts]
    -- the two ways to decide whether keys are equal
    congr
  rw [length_sortedRows] at hstarts
  simp only [take_column, hstarts]
  cases hfunction : call.function with
  | rowNumber =>
    have : ∃ cell, _ ∧ Stands types rows call i cell := rowNumber_at h hi hfunction
    rw [hv.takesNone call hcall hfunction]
    rwa [hfunction] at this
  | lag =>
    obtain ⟨argument, hargument⟩ := Option.isSome_iff_exists.1 (hv.needsColumn call hcall (by simp [hfunction]))
    have : ∃ cell, _ ∧ Stands types rows call i cell := lag_at h hi hfunction hargument
    rw [hargument, Option.map_some]
    rwa [hfunction] at this
  | lead =>
    obtain ⟨argument, hargument⟩ := Option.isSome_iff_exists.1 (hv.needsColumn call hcall (by simp [hfunction]))
    have : ∃ cell, _ ∧ Stands types rows call i cell := lead_at h hi hfunction hargument
    rw [hargument, Option.map_some]
    rwa [hfunction] at this
  | sum =>
    obtain ⟨argument, hargument⟩ := Option.isSome_iff_exists.1 (hv.needsColumn call hcall (by simp [hfunction]))
    have := sum_at h hi hfunction hargument (htyped.cellAt (hv.argument call hcall argument hargument))
    rw [hargument, Option.map_some]
    rwa [hfunction] at this
  | count =>
    have : ∃ cell, _ ∧ Stands types rows call i cell := count_at h hi hfunction
    rwa [hfunction] at this

end Column

/-! ## The rows of a window -/

section Rows
variable [DecidableEq C] {rows : List (Row C Scalar)} {types : C → IntType} {projected : List C}
  {calls : List (WindowCall C)}

/-- A call's column, in the order of the rows. -/
def columnOf (rows : List (Row C Scalar)) (call : WindowCall C) : List (Cell Scalar) :=
  take (callColumn call.function (call.argument.map fun argument => take (column rows argument) (sortedRows rows call))
    (partitionStarts (call.partition.map fun name => take (column rows name) (sortedRows rows call)) rows.length)
    rows.length) (sortIndices (· ≤ ·) (sortedRows rows call))

omit [DecidableEq C] in
lemma columnOf_at (hv : ValidWindow projected calls) {call : WindowCall C} (hcall : call ∈ calls)
    (htyped : Typed types projected rows) {i : ℕ} (hi : i < rows.length) :
    ∃ cell, (columnOf rows call)[i]? = some cell ∧ Stands types rows call i cell := by
  have hsorted : take (sortedRows rows call) (sortIndices (· ≤ ·) (sortedRows rows call)) = List.range rows.length := by
    rw [take_sortIndices]
    exact ((List.perm_insertionSort _ _).trans (sortedRows_perm rows call)).eq_of_pairwise'
      (List.pairwise_insertionSort _ _) List.pairwise_le_range
  -- the row is put back from where the sort left it
  have hget := congrArg (·[i]?) hsorted
  rw [getElem?_take fun p hp => sortIndices_lt hp, List.getElem?_range hi] at hget
  obtain ⟨q, hq, hqi⟩ := Option.bind_eq_some_iff.1 hget
  obtain ⟨cell, hcell, hstands⟩ := callColumn_at hv hcall htyped hqi
  refine ⟨cell, ?_, hstands⟩
  have hlength : ∀ p ∈ sortIndices (· ≤ ·) (sortedRows rows call), p < (callColumn call.function
      (call.argument.map fun argument => take (column rows argument) (sortedRows rows call))
      (partitionStarts (call.partition.map fun name => take (column rows name) (sortedRows rows call)) rows.length)
      rows.length).length := by
    intro p hp
    have hlt := sortIndices_lt hp
    obtain ⟨cell, hcell, -⟩ := callColumn_at hv hcall htyped (List.getElem?_eq_getElem hlt)
    exact (List.getElem?_eq_some_iff.1 hcell).1
  rw [columnOf, getElem?_take hlength, hq]
  exact hcell

/-- Columns set in turn: each row has every one of them, and is as before elsewhere. -/
lemma foldl_setColumn {members : List (WindowCall C)} (hnodup : (members.map WindowCall.name).Nodup)
    {done : List (Row C Scalar)} {i : ℕ} {row : Row C Scalar} (hrow : done[i]? = some row)
    (hcells : ∀ call ∈ members, ∃ cell, (columnOf rows call)[i]? = some cell) :
    ∃ row', (members.foldl (fun done call => setColumn call.name (columnOf rows call) done) done)[i]? = some row' ∧
      (∀ c, c ∉ members.map WindowCall.name → row' c = row c) ∧
      ∀ call ∈ members, (columnOf rows call)[i]? = some (row' call.name) := by
  induction members generalizing done row with
  | nil => exact ⟨row, hrow, fun _ _ => rfl, fun _ hcall => absurd hcall List.not_mem_nil⟩
  | cons call members ih =>
    rw [List.map_cons, List.nodup_cons] at hnodup
    obtain ⟨⟨cell, hcell⟩, hcells⟩ := List.forall_mem_cons.1 hcells
    have hset : (setColumn call.name (columnOf rows call) done)[i]? = some (Function.update row call.name cell) := by
      rw [setColumn, List.getElem?_zipWith, hrow, hcell]
    obtain ⟨row', hrow', hother, hall⟩ := ih hnodup.2 hset hcells
    refine ⟨row', hrow', fun c hc => ?_, List.forall_mem_cons.2 ⟨?_, hall⟩⟩
    · rw [List.map_cons, List.mem_cons, not_or] at hc
      rw [hother c hc.2, Function.update_of_ne hc.1]
    · rw [hother _ hnodup.1, Function.update_self, hcell]

/-- The calls, group by group. -/
def groupedCalls (calls : List (WindowCall C)) : List (WindowCall C) := (groupCalls calls).entries.flatMap Prod.snd

lemma mem_group {group : (List C × List (SortKey C)) × List (WindowCall C)} (h : group ∈ (groupCalls calls).entries) :
    group.2 = calls.filter fun call => decide (call.key = group.1) := by
  have hget := Dict.mem_entries_iff.1 h
  rw [get?_groupCalls] at hget
  split_ifs at hget
  exact (Option.some.inj hget).symm

lemma mem_groupedCalls {call : WindowCall C} : call ∈ groupedCalls calls ↔ call ∈ calls := by
  rw [groupedCalls, List.mem_flatMap]
  constructor
  · rintro ⟨group, hgroup, hcall⟩
    rw [mem_group hgroup] at hcall
    exact (List.mem_filter.1 hcall).1
  · intro hcall
    have hget := get?_groupCalls calls call.key
    rw [if_pos (List.mem_map_of_mem hcall)] at hget
    exact ⟨_, Dict.mem_entries_iff.2 hget, List.mem_filter.2 ⟨hcall, decide_eq_true rfl⟩⟩

lemma nodup_groupedCalls (h : (calls.map WindowCall.name).Nodup) : ((groupedCalls calls).map WindowCall.name).Nodup := by
  have hinj : ∀ call ∈ calls, ∀ call' ∈ calls, call.name = call'.name → call = call' := fun call hcall call' hcall' =>
    List.inj_on_of_nodup_map h hcall hcall'
  refine List.Nodup.map_on (fun call hcall call' hcall' =>
    hinj call (mem_groupedCalls.1 hcall) call' (mem_groupedCalls.1 hcall')) ?_
  rw [groupedCalls, List.nodup_flatMap]
  refine ⟨fun group hgroup => ?_, ?_⟩
  · rw [mem_group hgroup]
    exact h.of_map.filter _
  · have hkeys := (groupCalls calls).nodup
    rw [List.Nodup, List.pairwise_map] at hkeys
    refine hkeys.imp_of_mem fun hgroup hgroup' hne call hcall hcall' => hne ?_
    rw [mem_group hgroup] at hcall
    rw [mem_group hgroup'] at hcall'
    exact (of_decide_eq_true (List.mem_filter.1 hcall).2).symm.trans (of_decide_eq_true (List.mem_filter.1 hcall').2)

lemma windowRows_eq (rows : List (Row C Scalar)) (calls : List (WindowCall C)) :
    windowRows rows calls = (groupedCalls calls).foldl (fun done call => setColumn call.name (columnOf rows call) done) rows := by
  have hfold : ∀ (groups : List ((List C × List (SortKey C)) × List (WindowCall C))) (done),
      (∀ group ∈ groups, ∀ call ∈ group.2, call.key = group.1) → (groups.foldl (windowGroup rows) done).1 =
        (groups.flatMap Prod.snd).foldl (fun done call => setColumn call.name (columnOf rows call) done) done.1 := by
    intro groups
    induction groups with
    | nil => exact fun _ _ => rfl
    | cons group groups ih =>
      intro done hkeys
      obtain ⟨hkey, hkeys⟩ := List.forall_mem_cons.1 hkeys
      rw [List.foldl_cons, ih _ hkeys, List.flatMap_cons, List.foldl_append]
      congr 1
      unfold windowGroup windowColumns
      dsimp only
      rw [List.foldl_map]
      refine List.foldl_ext _ _ _ fun done call hcall => ?_
      have hgroup := hkey call hcall
      rw [← hgroup]
      rfl
  refine hfold _ _ fun group hgroup call hcall => ?_
  rw [mem_group hgroup] at hcall
  exact of_decide_eq_true (List.mem_filter.1 hcall).2

omit [DecidableEq C] in
lemma exists_of_mem {α β : Type} {P : α → β → Prop} {xs : List α} {ys : List β} (h : List.Forall₂ P xs ys) {x : α}
    (hx : x ∈ xs) : ∃ y ∈ ys, P x y := by
  induction h with
  | nil => exact absurd hx List.not_mem_nil
  | cons hxy _ ih =>
    rcases List.mem_cons.1 hx with rfl | hx
    · exact ⟨_, List.mem_cons_self, hxy⟩
    · obtain ⟨y, hy, hP⟩ := ih hx
      exact ⟨y, List.mem_cons_of_mem _ hy, hP⟩

/-- A row of the result: of the row at a position, with what its calls' columns stand for. -/
def StandsFor (types : C → IntType) (rows : List (Row C Scalar)) (calls : List (WindowCall C)) (i : ℕ)
    (row : Row C Scalar) : Prop :=
  i < rows.length ∧ (∀ c, c ∉ calls.map WindowCall.name → row c = cellAt rows c i) ∧
    ∀ call ∈ calls, Stands types rows call i (row call.name)

lemma windowRows_at (hv : ValidWindow projected calls) (htyped : Typed types projected rows) {i : ℕ}
    (hi : i < rows.length) : ∃ row, (windowRows rows calls)[i]? = some row ∧ StandsFor types rows calls i row := by
  have hnames : ∀ {name : C}, name ∈ (groupedCalls calls).map WindowCall.name ↔ name ∈ calls.map WindowCall.name := by
    simp only [List.mem_map, mem_groupedCalls, implies_true]
  have hcells : ∀ call ∈ groupedCalls calls, ∃ cell, (columnOf rows call)[i]? = some cell := by
    intro call hcall
    obtain ⟨cell, hcell, -⟩ := columnOf_at hv (mem_groupedCalls.1 hcall) htyped hi
    exact ⟨cell, hcell⟩
  have hunique := (List.nodup_append'.1 hv.unique).2.1
  obtain ⟨row, hrow, hother, hall⟩ :=
    foldl_setColumn (nodup_groupedCalls hunique) (List.getElem?_eq_getElem hi) hcells
  rw [← windowRows_eq] at hrow
  refine ⟨row, hrow, hi, fun c hc => ?_, fun call hcall => ?_⟩
  · rw [hother c (mt hnames.1 hc), cellAt, List.getElem?_eq_getElem hi]
    rfl
  · obtain ⟨cell, hcell, hstands⟩ := columnOf_at hv hcall htyped hi
    have := (hall call (mem_groupedCalls.2 hcall)).symm.trans hcell
    rwa [Option.some.inj this]

/-- The result has the rows in some order. -/
lemma windowTable_stands (hv : ValidWindow projected calls) (table : Table C Scalar)
    (htyped : Typed types projected table.rows) (columns : List C) :
    ∃ positions, positions.Perm (List.range table.rows.length) ∧
      List.Forall₂ (StandsFor types table.rows calls) positions (windowTable table calls columns).rows := by
  have hall : ∀ {positions : List ℕ}, (∀ p ∈ positions, p < table.rows.length) →
      List.Forall₂ (StandsFor types table.rows calls) positions (take (windowRows table.rows calls) positions) :=
    fun hlt => forall₂_take_positions fun p hp => windowRows_at hv htyped (hlt p hp)
  cases hlast : lastGroup calls with
  | none =>
    -- no calls: the table as it is
    have hnil : calls = [] := by
      cases calls with
      | nil => rfl
      | cons call calls =>
        rw [lastGroup, List.getLast?_eq_none_iff, List.map_cons, List.eraseDups_cons] at hlast
        cases hlast
    subst hnil
    refine ⟨List.range table.rows.length, .refl _, ?_⟩
    have := hall fun p hp => List.mem_range.1 hp
    rwa [show windowRows table.rows [] = table.rows from rfl, take_range] at this
  | some κ =>
    refine ⟨sortIndices (fun r s => rowLe (windowSortKeys κ.1 κ.2) r s) table.rows, sortIndices_perm table.rows, ?_⟩
    rw [windowTable_rows hlast]
    refine hall fun p hp => ?_
    exact sortIndices_lt hp

omit [DecidableEq C] in
/-- A cell is what its call is for the row, unless a sum is past the integers of its column's type. -/
lemma Stands.integer_eq_iff (hv : ValidWindow projected calls) {call : WindowCall C} (hcall : call ∈ calls) {i : ℕ}
    {cell : Cell Scalar} (h : Stands types rows call i cell) : cell.integer = windowValue rows call i ↔
      (call.function = .sum → ∀ argument ∈ call.argument, (types argument).Fits (runningSum rows call i argument)) := by
  unfold Stands at h
  cases hfunction : call.function with
  | sum =>
    obtain ⟨argument, hargument⟩ := Option.isSome_iff_exists.1 (hv.needsColumn call hcall (by simp [hfunction]))
    rw [hfunction, hargument] at h
    unfold windowValue
    rw [hfunction, hargument]
    simpa using h.integer_eq_iff
  | rowNumber | lag | lead | count =>
    rw [hfunction] at h
    exact iff_of_true h nofun

/-- The result is right: it has the rows in some order, each with what its calls are for it. -/
def Exact (rows : List (Row C Scalar)) (calls : List (WindowCall C)) (out : List (Row C Scalar)) : Prop :=
  ∃ positions, positions.Perm (List.range rows.length) ∧ List.Forall₂ (fun i row =>
    (∀ c, c ∉ calls.map WindowCall.name → row c = cellAt rows c i) ∧
      ∀ call ∈ calls, (row call.name).integer = windowValue rows call i) positions out

end Rows

/-! ### A sum past its type -/

/-- The integers of 8 bits. -/
def int8 : IntType := ⟨true, 8, by decide⟩

/-- Two rows of a column of 8 bits. -/
def hundreds : Table ℕ Scalar := ⟨[0], [fun _ => .value ⟨some int8, 100⟩, fun _ => .value ⟨some int8, 100⟩]⟩

/-- The running sum of the column. -/
def runningHundreds : WindowCall ℕ := ⟨.sum, some 0, [], [], 1⟩

end Quail.Relational
