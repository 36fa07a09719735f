import Quail.Relational.Window

/-!
# The rules at the end of a graph

A window's rows come out in the order of its last group of calls, which is the order of the sort that
`ShouldEliminateWindowSort` drops exactly when the sort's decisive keys begin the group's. The limit
that `ShouldPushDownLimitThroughWindow` moves under a window changes nothing: the calls read earlier
rows only.
-/

namespace Quail.Relational
open Argsort

variable {C V : Type} [LinearOrder V] [Add V] [Sub V] [NatCast V]

/-! ## Columns of a window -/

omit [Add V] [Sub V] [NatCast V] in
lemma length_partitionStarts {keys : List (List (Cell V))} {n : ℕ} (h : ∀ k ∈ keys, k.length = n) :
    (partitionStarts keys n).length = n := by
  have hfold : ∀ starts : List Bool, starts.length = n → (keys.foldl (fun starts column =>
      starts.zipWith (· || ·) ((true :: column.tail.zipWith differs column.dropLast).take n))
      starts).length = n := by
    induction keys with
    | nil => exact fun _ hstarts => hstarts
    | cons column keys ih =>
      obtain ⟨hcolumn, hkeys⟩ := List.forall_mem_cons.1 h
      intro starts hstarts
      refine ih hkeys _ ?_
      simp only [List.length_zipWith, List.length_take, List.length_cons, List.length_tail,
        List.length_dropLast]
      omega
  refine hfold _ ?_
  simp only [List.length_append, List.length_replicate]
  omega

omit [Add V] [Sub V] [NatCast V] in
/-- The first row starts a partition. -/
lemma head_partitionStarts (keys : List (List (Cell V))) {n : ℕ} (hn : 0 < n)
    (h : ∀ k ∈ keys, k.length = n) : ∃ rest, partitionStarts keys n = true :: rest := by
  obtain ⟨n, rfl⟩ := Nat.exists_eq_succ_of_ne_zero hn.ne'
  have hfold : ∀ rest : List Bool, ∃ rest', keys.foldl (fun starts column =>
      starts.zipWith (· || ·) ((true :: column.tail.zipWith differs column.dropLast).take (n + 1)))
      (true :: rest) = true :: rest' := by
    induction keys with
    | nil => exact fun rest => ⟨rest, rfl⟩
    | cons column keys ih => exact fun rest => ih (fun k hk => h k (List.mem_cons_of_mem _ hk)) _
  have hone : min (n + 1) 1 = 1 := by omega
  rw [partitionStarts, Nat.succ_eq_add_one, hone]
  exact hfold _

omit [LinearOrder V] [Add V] [Sub V] [NatCast V] in
/-- No more partitions start up to a row than start. -/
lemma count_le {starts : List Bool} {count k : ℕ}
    (h : k ∈ starts.scanl (fun count start => count + start.toNat) count) :
    k ≤ count + starts.count true := by
  induction starts generalizing count with
  | nil =>
    obtain rfl := List.mem_singleton.1 h
    exact Nat.le_add_right _ _
  | cons start starts ih =>
    rw [List.scanl_cons] at h
    obtain rfl | h := List.mem_cons.1 h
    · exact Nat.le_add_right _ _
    · have hle := ih h
      rw [List.count_cons]
      cases start
      · simpa using hle
      · rw [Bool.toNat_true] at hle
        simp only [beq_self_eq_true, if_true]
        omega

/-- Every row has the start of its partition. -/
lemma length_partitionFirsts (rest : List Bool) :
    (partitionFirsts (true :: rest)).length = rest.length + 1 := by
  have hnonzero : ((List.zipIdx (true :: rest)).filter Prod.fst).length = (true :: rest).count true := by
    rw [← List.countP_eq_length_filter, ← List.zipIdx_map_fst 0 (true :: rest), List.count,
      List.countP_map, List.zipIdx_map_fst]
    exact List.countP_congr fun x _ => by simp
  unfold partitionFirsts
  dsimp only
  rw [length_take]
  · simp
  · intro p hp
    obtain ⟨k, hk, rfl⟩ := List.mem_map.1 hp
    have hle := count_le (List.mem_of_mem_tail hk)
    rw [List.length_map, hnonzero]
    rw [List.count_cons_self] at hle ⊢
    omega

omit [LinearOrder V] [Sub V] in
lemma length_cumulativeSum (values : List (Cell V)) : (cumulativeSum values).length = values.length := by
  simp [cumulativeSum]

omit [LinearOrder V] [Add V] [Sub V] in
lemma length_counted {function : WindowFunction} {values : Option (List (Cell V))} {n : ℕ}
    (h : ∀ cells ∈ values, cells.length = n) : (counted function values n).length = n := by
  cases values with
  | none => exact List.length_replicate
  | some cells =>
    unfold counted
    dsimp only
    split_ifs
    · rw [List.length_map, h cells rfl]
    · rw [List.length_map, h cells rfl]

omit [LinearOrder V] in
/-- A call's column has a cell for each row. -/
lemma length_callColumn {function : WindowFunction} {values : Option (List (Cell V))}
    {starts : List Bool} {n : ℕ} (hvalues : ∀ cells ∈ values, cells.length = n)
    (hargument : function = .lag ∨ function = .lead → values.isSome) (hlength : starts.length = n)
    (hhead : 0 < n → ∃ rest, starts = true :: rest) :
    (callColumn function values starts n).length = n := by
  have hfirst : (partitionFirsts starts).length = n := by
    cases n with
    | zero =>
      rw [List.length_eq_zero_iff.1 hlength]
      rfl
    | succ n =>
      obtain ⟨rest, rfl⟩ := hhead n.succ_pos
      rw [length_partitionFirsts]
      exact hlength
  cases function with
  | rowNumber => simp [callColumn, hfirst]
  | lag =>
    obtain ⟨cells, rfl⟩ := Option.isSome_iff_exists.1 (hargument (.inl rfl))
    have := hvalues cells rfl
    simp [callColumn]
    omega
  | lead =>
    obtain ⟨cells, rfl⟩ := Option.isSome_iff_exists.1 (hargument (.inr rfl))
    have := hvalues cells rfl
    simp [callColumn]
    omega
  | sum => simp [callColumn, hfirst, length_cumulativeSum, length_counted hvalues]
  | count => simp [callColumn, hfirst, length_cumulativeSum, length_counted hvalues]

/-! ## The groups of calls -/

/-- The partition and order of a call. -/
def WindowCall.key (call : WindowCall C) : List C × List (SortKey C) := (call.partition, call.order)

variable [DecidableEq C]

omit [LinearOrder V] [Add V] [Sub V] [NatCast V] in
lemma groupCalls_concat (calls : List (WindowCall C)) (call : WindowCall C) :
    groupCalls (calls ++ [call]) = (groupCalls calls).set call.key
      (((groupCalls calls).get? call.key).getD [] ++ [call]) := by
  rw [groupCalls, List.foldl_append]
  rfl

/-- A group holds the calls of its partition and order. -/
lemma get?_groupCalls (calls : List (WindowCall C)) (κ : List C × List (SortKey C)) :
    (groupCalls calls).get? κ = if κ ∈ calls.map WindowCall.key then
      some (calls.filter fun call => decide (call.key = κ)) else none := by
  induction calls using List.reverseRecOn generalizing κ with
  | nil => rfl
  | append_singleton calls call ih =>
    rw [groupCalls_concat, Dict.get?_set, ih, ih]
    by_cases hκ : call.key = κ
    · subst hκ
      have hin : call.key ∈ (calls ++ [call]).map WindowCall.key := by simp
      rw [if_pos rfl, if_pos hin, List.filter_append, List.filter_cons_of_pos (by simp),
        List.filter_nil]
      by_cases hmem : call.key ∈ calls.map WindowCall.key
      · rw [if_pos hmem]
        rfl
      · have hnone : calls.filter (fun other => decide (other.key = call.key)) = [] := by
          refine List.filter_eq_nil_iff.2 fun other hother hkey => hmem ?_
          exact of_decide_eq_true hkey ▸ List.mem_map_of_mem hother
        rw [if_neg hmem, hnone]
        rfl
    · rw [if_neg hκ, List.filter_append, List.filter_cons_of_neg (by simpa using hκ), List.filter_nil,
        List.append_nil]
      simp [Ne.symm hκ]

/-- The groups, in the order of their first calls. -/
lemma keys_groupCalls (calls : List (WindowCall C)) :
    (groupCalls calls).keys = (calls.map WindowCall.key).eraseDups := by
  induction calls using List.reverseRecOn with
  | nil => rfl
  | append_singleton calls call ih =>
    rw [groupCalls_concat, Dict.keys_set, ih, List.map_append, List.eraseDups_append,
      List.map_singleton]
    by_cases hmem : call.key ∈ calls.map WindowCall.key
    · rw [if_pos (List.mem_eraseDups.2 hmem)]
      have hgone : [call.key].removeAll (calls.map WindowCall.key) = [] := by
        simpa [List.removeAll] using hmem
      rw [hgone, List.eraseDups_nil, List.append_nil]
    · rw [if_neg fun h => hmem (List.mem_eraseDups.1 h)]
      have hkept : [call.key].removeAll (calls.map WindowCall.key) = [call.key] := by
        simpa [List.removeAll] using hmem
      rw [hkept]
      rfl

/-- The partition and order the rows come out in: the last one that the calls are first to use. -/
def lastGroup (calls : List (WindowCall C)) : Option (List C × List (SortKey C)) :=
  (calls.map WindowCall.key).eraseDups.getLast?

/-! ## The rows of a window -/

/-- Rows alike off some columns. -/
def SameOff (names : List C) (r r' : Row C V) : Prop := ∀ c, c ∉ names → r c = r' c

omit [LinearOrder V] [Add V] [Sub V] [NatCast V] in
lemma setColumn_same {names : List C} {rows done : List (Row C V)} {name : C}
    {values : List (Cell V)} (h : List.Forall₂ (SameOff names) rows done) (hname : name ∈ names)
    (hlength : values.length = rows.length) :
    List.Forall₂ (SameOff names) rows (setColumn name values done) := by
  induction h generalizing values with
  | nil => exact .nil
  | cons hrow _ ih =>
    cases values with
    | nil => cases hlength
    | cons value values =>
      refine .cons (fun c hc => ?_) (ih (Nat.succ.inj hlength))
      exact (hrow c hc).trans (Function.update_of_ne (ne_of_mem_of_not_mem hname hc).symm ..).symm

/-- A group's columns are new: off the calls' names the rows stay as they are. -/
lemma windowGroup_same {projected : List C} {calls : List (WindowCall C)}
    (hv : ValidWindow projected calls) {rows : List (Row C V)}
    {done : List (Row C V) × Option (List ℕ)}
    (h : List.Forall₂ (SameOff (calls.map WindowCall.name)) rows done.1)
    {group : (List C × List (SortKey C)) × List (WindowCall C)} (hgroup : ∀ call ∈ group.2, call ∈ calls) :
    List.Forall₂ (SameOff (calls.map WindowCall.name)) rows (windowGroup rows done group).1 := by
  obtain ⟨⟨partition, order⟩, members⟩ := group
  unfold windowGroup windowColumns
  dsimp only
  set indices := sortIndices (fun r s => rowLe (windowSortKeys partition order) r s) rows
  have hperm : indices.Perm (List.range rows.length) := sortIndices_perm rows
  have hlt : ∀ p ∈ indices, p < rows.length := fun p hp => List.mem_range.1 (hperm.mem_iff.1 hp)
  have hindices : indices.length = rows.length := by rw [hperm.length_eq, List.length_range]
  have hcolumn : ∀ name : C, (take (column rows name) indices).length = rows.length := by
    intro name
    rw [length_take, hindices]
    intro p hp
    rw [column, List.length_map]
    exact hlt p hp
  rw [List.foldl_map]
  refine List.foldlRecOn _ _ (motive := List.Forall₂ (SameOff (calls.map WindowCall.name)) rows) h ?_
  intro done hdone call hcall
  have hkeys : ∀ k ∈ partition.map (fun name => take (column rows name) indices),
      k.length = rows.length := by
    intro k hk
    obtain ⟨name, -, rfl⟩ := List.mem_map.1 hk
    exact hcolumn name
  refine setColumn_same hdone (List.mem_map_of_mem (hgroup call hcall)) ?_
  have hcells : ∀ cells ∈ call.argument.map (fun argument => take (column rows argument) indices),
      cells.length = rows.length := by
    intro cells hcells
    obtain ⟨name, -, rfl⟩ := Option.map_eq_some_iff.1 hcells
    exact hcolumn name
  rw [length_take, (sortIndices_perm indices).length_eq, List.length_range, hindices]
  rw [length_callColumn hcells ?_ (length_partitionStarts hkeys)
    (fun hn => head_partitionStarts _ hn hkeys)]
  · intro p hp
    rw [← hindices]
    exact sortIndices_lt hp
  · intro hfunction
    rw [Option.isSome_map]
    refine hv.needsColumn call (hgroup call hcall) ?_
    obtain h | h := hfunction <;> simp [h]

/-- The rows with the window columns added. -/
def windowRows (rows : List (Row C V)) (calls : List (WindowCall C)) : List (Row C V) :=
  ((groupCalls calls).entries.foldl (windowGroup rows) (rows, none)).1

lemma windowRows_same {projected : List C} {calls : List (WindowCall C)}
    (hv : ValidWindow projected calls) (rows : List (Row C V)) :
    List.Forall₂ (SameOff (calls.map WindowCall.name)) rows (windowRows rows calls) := by
  refine List.foldlRecOn _ _ (motive := fun done : List (Row C V) × Option (List ℕ) =>
    List.Forall₂ (SameOff (calls.map WindowCall.name)) rows done.1) ?_ ?_
  · exact List.forall₂_same.2 fun _ _ _ _ => rfl
  · intro done hdone group hgroup
    refine windowGroup_same hv hdone fun call hcall => ?_
    have hget := Dict.mem_entries_iff.1 hgroup
    rw [get?_groupCalls] at hget
    split_ifs at hget with hmem
    exact (List.mem_filter.1 (Option.some.inj hget ▸ hcall)).1

/-- The rows come out in the order of the last group. -/
lemma windowTable_rows {calls : List (WindowCall C)} {κ : List C × List (SortKey C)}
    (hκ : lastGroup calls = some κ) (table : Table C V) (columns : List C) :
    (windowTable table calls columns).rows = take (windowRows table.rows calls)
      (sortIndices (fun r s => rowLe (windowSortKeys κ.1 κ.2) r s) table.rows) := by
  unfold windowTable windowRows
  dsimp only
  rw [lastGroup, ← keys_groupCalls, Dict.keys, List.getLast?_map] at hκ
  obtain ⟨group, hlast, rfl⟩ := Option.map_eq_some_iff.1 hκ
  obtain ⟨groups, hgroups⟩ := List.getLast?_eq_some_iff.1 hlast
  rw [hgroups, List.foldl_append]
  rfl

omit [Add V] [Sub V] [NatCast V] [DecidableEq C] in
/-- Rows alike in the keys' columns are in order together. -/
lemma pairwise_same {names : List C} {ks : List (SortKey C)} (hks : ∀ k ∈ ks, k.column ∉ names)
    {rows rows' : List (Row C V)} (h : List.Forall₂ (SameOff names) rows rows') :
    rows.Pairwise (fun r s => rowLe ks r s) ↔ rows'.Pairwise (fun r s => rowLe ks r s) := by
  have hcells {i : ℕ} (hi : i < rows.length) (hi' : i < rows'.length) :
      ∀ k ∈ ks, rows[i] k.column = rows'[i] k.column := fun k hk => h.get hi hi' _ (hks k hk)
  rw [List.pairwise_iff_getElem, List.pairwise_iff_getElem]
  constructor
  · intro hle i j hi hj hij
    have hi' : i < rows.length := h.length_eq ▸ hi
    have hj' : j < rows.length := h.length_eq ▸ hj
    rw [← rowLe_congr (hcells hi' hi) (hcells hj' hj)]
    exact hle i j hi' hj' hij
  · intro hle i j hi hj hij
    have hi' : i < rows'.length := h.length_eq ▸ hi
    have hj' : j < rows'.length := h.length_eq ▸ hj
    rw [rowLe_congr (hcells hi hi') (hcells hj hj')]
    exact hle i j hi' hj' hij

omit [Add V] [Sub V] [NatCast V] [DecidableEq C] in
lemma pairwise_sort (ks : List (SortKey C)) (rows : List (Row C V)) :
    (rows.insertionSort fun r s => rowLe ks r s).Pairwise fun r s => rowLe ks r s := by
  have : Std.Total fun r s : Row C V => (rowLe ks r s : Prop) := ⟨rowLe_total ks⟩
  have : IsTrans (Row C V) fun r s => (rowLe ks r s : Prop) := ⟨fun _ _ _ => rowLe_trans⟩
  exact List.pairwise_insertionSort _ rows

/-- The window's rows are in a sort's order, for every table, exactly when the sort's decisive keys
begin those of the last group. -/
lemma window_sorted_iff [Nontrivial V] {projected : List C} {calls : List (WindowCall C)}
    (hv : ValidWindow projected calls) {κ : List C × List (SortKey C)} (hκ : lastGroup calls = some κ)
    {ks : List (SortKey C)} (hks : ∀ k ∈ ks, k.column ∈ projected) (columns : List C) :
    (∀ rows : List (Row C V),
      (windowTable ⟨projected, rows⟩ calls columns).rows.Pairwise fun r s => rowLe ks r s) ↔
      decisiveKeys [] ks <+: decisiveKeys [] (windowSortKeys κ.1 κ.2) := by
  have hnames : ∀ k ∈ ks, k.column ∉ calls.map WindowCall.name := fun k hk hmem =>
    (List.nodup_append.1 hv.unique).2.2 _ (hks k hk) _ hmem rfl
  rw [← rowLe_imp_iff (V := V)]
  constructor
  · intro hsorted r s hle
    have hpair : [r, s].Pairwise fun r s : Row C V => rowLe (windowSortKeys κ.1 κ.2) r s :=
      List.pairwise_pair.2 hle
    have hsame := windowRows_same hv [r, s]
    have hrows := hsorted [r, s]
    rw [windowTable_rows hκ, sortIndices_of_pairwise hpair, hsame.length_eq, take_range,
      ← pairwise_same hnames hsame] at hrows
    exact List.rel_of_pairwise_cons hrows List.mem_cons_self
  · intro himp rows
    rw [windowTable_rows hκ, ← pairwise_same hnames (take_forall₂ (windowRows_same hv rows) _),
      take_sortIndices]
    exact (pairwise_sort _ rows).imp (himp _ _)

/-! ## A limit under a window -/

/-- The flags of one partition: the first row starts it. -/
def oneStart (n : ℕ) : List Bool := List.replicate (min n 1) true ++ List.replicate (n - 1) false

omit [Add V] [Sub V] [NatCast V] in
lemma partitionStarts_nil (n : ℕ) : (partitionStarts ([] : List (List (Cell V))) n) = oneStart n := rfl

lemma scanl_replicate_false (n count : ℕ) :
    (List.replicate n false).scanl (fun count start => count + start.toNat) count =
      List.replicate (n + 1) count := by
  induction n with
  | zero => rfl
  | succ n ih =>
    rw [List.replicate_succ, List.scanl_cons, Bool.toNat_false, Nat.add_zero, ih]
    rfl

lemma length_oneStart (n : ℕ) : (oneStart n).length = n := by
  simp only [oneStart, List.length_append, List.length_replicate]
  omega

lemma oneStart_succ (n : ℕ) : oneStart (n + 1) = true :: List.replicate n false := by
  have hone : min (n + 1) 1 = 1 := by omega
  rw [oneStart, hone]
  rfl

lemma head_oneStart {n : ℕ} (hn : 0 < n) : ∃ rest, oneStart n = true :: rest := by
  obtain ⟨n, rfl⟩ := Nat.exists_eq_succ_of_ne_zero hn.ne'
  exact ⟨_, oneStart_succ n⟩

/-- In one partition, every row's partition starts at the first row. -/
lemma partitionFirsts_oneStart (n : ℕ) : partitionFirsts (oneStart n) = List.replicate n 0 := by
  cases n with
  | zero => rfl
  | succ n =>
    have hnonzero : (((true :: List.replicate n false).zipIdx.filter Prod.fst).map Prod.snd) = [0] := by
      rw [List.zipIdx_cons, List.filter_cons_of_pos rfl, List.map_cons, List.filter_eq_nil_iff.2]
      · rfl
      · intro x hx
        simp [List.eq_of_mem_replicate (List.fst_mem_of_mem_zipIdx hx)]
    rw [oneStart_succ, partitionFirsts, hnonzero, List.scanl_cons, List.tail_cons, Bool.toNat_true,
      scanl_replicate_false, List.map_replicate, take, List.filterMap_replicate]
    rfl

omit [LinearOrder V] [Add V] [Sub V] [NatCast V] [DecidableEq C] in
/-- A column shifted by a row, cut to its length, is the shifted column of a cut. -/
lemma shift_take (cells : List (Cell V)) (k : ℕ) :
    (Cell.null :: (cells.take k).dropLast).take (min k cells.length) =
      ((Cell.null :: cells.dropLast).take cells.length).take k := by
  have hshift : ∀ l : List (Cell V), (Cell.null :: l.dropLast).take l.length =
      (Cell.null :: l).take l.length := by
    intro l
    cases l with
    | nil => rfl
    | cons c l =>
      rw [List.length_cons, List.take_succ_cons, List.take_succ_cons, List.dropLast_eq_take]
      simp
  have hlength : (cells.take k).length = min k cells.length := List.length_take
  rw [← hlength, hshift, hshift, hlength, List.take_take, ← List.take_succ_cons, List.take_take]
  congr 1
  omega

omit [LinearOrder V] [Sub V] [DecidableEq C] in
lemma cumulativeSum_take (values : List (Cell V)) (k : ℕ) :
    cumulativeSum (values.take k) = (cumulativeSum values).take k := by
  rw [cumulativeSum, cumulativeSum, ← List.take_scanl]
  cases List.scanl Cell.add (Cell.value ((0 : ℕ) : V)) values with
  | nil => simp
  | cons c cells => rfl

omit [LinearOrder V] [Add V] [Sub V] [DecidableEq C] in
lemma counted_take {function : WindowFunction} (values : Option (List (Cell V))) (n k : ℕ) :
    counted function (values.map (List.take k)) (min k n) = (counted function values n).take k := by
  cases values with
  | none => exact List.take_replicate.symm
  | some cells =>
    rw [Option.map_some, counted, counted]
    split_ifs <;> exact List.map_take

lemma oneStart_take (n k : ℕ) : oneStart (min k n) = (oneStart n).take k := by
  rw [oneStart, oneStart, List.take_append, List.take_replicate, List.take_replicate,
    List.length_replicate]
  congr 2 <;> omega

omit [LinearOrder V] [DecidableEq C] in
/-- A call other than `lead` reads earlier rows only. -/
lemma callColumn_take {function : WindowFunction} (hlead : function ≠ .lead)
    {values : Option (List (Cell V))} {n : ℕ} (hvalues : ∀ cells ∈ values, cells.length = n)
    (hargument : function = .lag → values.isSome) (k : ℕ) :
    callColumn function (values.map (List.take k)) (oneStart (min k n)) (min k n) =
      (callColumn function values (oneStart n) n).take k := by
  cases function with
  | rowNumber =>
    rw [callColumn, callColumn, partitionFirsts_oneStart, partitionFirsts_oneStart, List.take_zipWith,
      List.take_range, List.take_replicate]
  | lag =>
    obtain ⟨cells, rfl⟩ := Option.isSome_iff_exists.1 (hargument rfl)
    obtain rfl := hvalues cells rfl
    have hstarts : (oneStart (min k cells.length)).take (min k cells.length) =
        ((oneStart cells.length).take cells.length).take k := by
      rw [oneStart_take, List.take_take, List.take_take]
      congr 1
      omega
    rw [callColumn, callColumn, List.take_zipWith, Option.map_some, Option.getD_some, Option.getD_some,
      shift_take, hstarts]
  | lead => exact absurd rfl hlead
  | sum | count =>
    rw [callColumn, callColumn, partitionFirsts_oneStart, partitionFirsts_oneStart, List.take_zipWith,
      counted_take, cumulativeSum_take, List.map_replicate, List.map_replicate, List.take_replicate,
      if_pos rfl, if_pos rfl]

/-! ## A window without partitions -/

/-- The window columns of one order, added to the sorted rows. -/
def windowSorted (sorted : List (Row C V)) (calls : List (WindowCall C)) : List (Row C V) :=
  calls.foldl (fun done call => setColumn call.name (callColumn call.function
    (call.argument.map (column sorted)) (oneStart sorted.length) sorted.length) done) sorted

omit [LinearOrder V] [Add V] [Sub V] [NatCast V] in
lemma setColumn_take (name : C) (values : List (Cell V)) (rows : List (Row C V)) (k : ℕ) :
    setColumn name (values.take k) (rows.take k) = (setColumn name values rows).take k :=
  List.take_zipWith.symm

omit [LinearOrder V] in
/-- The columns of the first rows are the first cells of the columns. -/
lemma windowSorted_take {projected : List C} {calls : List (WindowCall C)}
    (hv : ValidWindow projected calls) (hlead : ∀ call ∈ calls, call.function ≠ .lead)
    (sorted : List (Row C V)) (k : ℕ) :
    windowSorted (sorted.take k) calls = (windowSorted sorted calls).take k := by
  have hfold : ∀ rest ⊆ calls, ∀ done : List (Row C V),
      rest.foldl (fun done call => setColumn call.name (callColumn call.function
        (call.argument.map (column (sorted.take k))) (oneStart (sorted.take k).length)
        (sorted.take k).length) done) (done.take k) =
      (rest.foldl (fun done call => setColumn call.name (callColumn call.function
        (call.argument.map (column sorted)) (oneStart sorted.length) sorted.length) done)
        done).take k := by
    intro rest hrest
    induction rest with
    | nil => exact fun _ => rfl
    | cons call rest ih =>
      obtain ⟨hcall, hrest⟩ := List.cons_subset.1 hrest
      intro done
      have hcolumn : call.argument.map (column (sorted.take k)) =
          (call.argument.map (column sorted)).map (List.take k) := by
        rw [Option.map_map]
        exact congrArg (call.argument.map ·) (funext fun name => List.map_take)
      have hcells : ∀ cells ∈ call.argument.map (column sorted), cells.length = sorted.length := by
        intro cells hcells
        obtain ⟨name, -, rfl⟩ := Option.map_eq_some_iff.1 hcells
        exact List.length_map _
      have hargument : call.function = .lag → (call.argument.map (column sorted)).isSome := by
        intro hlag
        rw [Option.isSome_map]
        exact hv.needsColumn call hcall (by simp [hlag])
      rw [List.foldl_cons, List.foldl_cons, ← ih hrest, hcolumn, List.length_take,
        callColumn_take (hlead call hcall) hcells hargument, setColumn_take]
  exact hfold calls (fun _ h => h) sorted

omit [LinearOrder V] [Add V] [Sub V] [NatCast V] in
/-- Columns taken at positions are the columns of the rows taken. -/
lemma take_setColumn {name : C} {values : List (Cell V)} {rows : List (Row C V)} {positions : List ℕ}
    (hvalues : ∀ p ∈ positions, p < values.length) (hrows : ∀ p ∈ positions, p < rows.length) :
    take (setColumn name values rows) positions =
      setColumn name (take values positions) (take rows positions) := by
  refine List.ext_getElem? fun k => ?_
  have hboth : ∀ p ∈ positions, p < (setColumn name values rows).length := by
    intro p hp
    rw [setColumn, List.length_zipWith, lt_min_iff]
    exact ⟨hrows p hp, hvalues p hp⟩
  rw [getElem?_take hboth, setColumn, setColumn, List.getElem?_zipWith, getElem?_take hvalues,
    getElem?_take hrows]
  cases positions[k]? with
  | none => rfl
  | some p => rw [Option.bind_some, Option.bind_some, Option.bind_some, List.getElem?_zipWith]

omit [LinearOrder V] [Add V] [Sub V] [NatCast V] in
/-- Calls of one partition and order are one group. -/
lemma groupCalls_of_key {calls : List (WindowCall C)} {κ : List C × List (SortKey C)} (hne : calls ≠ [])
    (hkey : ∀ call ∈ calls, call.key = κ) : (groupCalls calls).entries = [(κ, calls)] := by
  induction calls using List.reverseRecOn with
  | nil => exact absurd rfl hne
  | append_singleton calls call ih =>
    obtain rfl : call.key = κ := hkey call (by simp)
    rw [groupCalls_concat]
    cases calls with
    | nil => rfl
    | cons first calls =>
      have hentries := ih (List.cons_ne_nil _ _) fun other hother =>
        hkey other (List.mem_append_left _ hother)
      simp [Dict.set, Dict.get?, hentries, Dict.put, Dict.find]

/-- Calls of one order and no partition: their columns, added to the sorted rows. -/
lemma windowTable_ordered {projected : List C} {calls : List (WindowCall C)}
    (hv : ValidWindow projected calls) (hne : calls ≠ []) {order : List (SortKey C)}
    (hkey : ∀ call ∈ calls, call.key = ([], order)) (table : Table C V) (columns : List C) :
    windowTable table calls columns =
      ⟨columns, windowSorted (table.rows.insertionSort fun r s => rowLe order r s) calls⟩ := by
  obtain ⟨_, rows⟩ := table
  unfold windowTable
  rw [groupCalls_of_key hne hkey]
  dsimp only [List.foldl_cons, List.foldl_nil]
  unfold windowGroup windowColumns
  dsimp only [windowSortKeys, List.map_nil, List.nil_append]
  set sorted := rows.insertionSort fun r s => rowLe order r s
  set indices := sortIndices (fun r s => rowLe order r s) rows
  have hperm : indices.Perm (List.range rows.length) := sortIndices_perm rows
  have hlt : ∀ p ∈ indices, p < rows.length := fun p hp => List.mem_range.1 (hperm.mem_iff.1 hp)
  have hsorted : take rows indices = sorted := take_sortIndices rows
  have hlength : sorted.length = rows.length := List.length_insertionSort _ _
  have hcolumn : ∀ name : C, take (column rows name) indices = column sorted name := by
    intro name
    rw [← hsorted, column, column, take, take, List.map_filterMap]
    exact List.filterMap_congr fun p _ => List.getElem?_map
  -- a call's column is put in the rows' order and taken back
  have hfold : ∀ rest ⊆ calls, ∀ done : List (Row C V), done.length = rows.length →
      take ((rest.map fun call => (call.name, callColumn call.function
        (call.argument.map fun argument => take (column rows argument) indices)
        (partitionStarts ([] : List (List (Cell V))) rows.length) rows.length)).foldl (fun done c =>
          setColumn c.1 (take c.2 (sortIndices (· ≤ ·) indices)) done) done) indices =
      rest.foldl (fun done call => setColumn call.name (callColumn call.function
        (call.argument.map (column sorted)) (oneStart sorted.length) sorted.length) done)
        (take done indices) := by
    intro rest hrest
    induction rest with
    | nil => exact fun _ _ => rfl
    | cons call rest ih =>
      obtain ⟨hcall, hrest⟩ := List.cons_subset.1 hrest
      intro done hdone
      have hvalues : call.argument.map (fun argument => take (column rows argument) indices) =
          call.argument.map (column sorted) := congrArg (call.argument.map ·) (funext hcolumn)
      have hcells : (callColumn call.function (call.argument.map (column sorted))
          (oneStart rows.length) rows.length).length = rows.length := by
        refine length_callColumn ?_ ?_ (length_oneStart _) (fun hn => head_oneStart hn)
        · intro cells hcells
          obtain ⟨name, -, rfl⟩ := Option.map_eq_some_iff.1 hcells
          rw [column, List.length_map, hlength]
        · intro hfunction
          rw [Option.isSome_map]
          refine hv.needsColumn call hcall ?_
          obtain h | h := hfunction <;> simp [h]
      have hrestored : ∀ p ∈ sortIndices (· ≤ ·) indices, p < rows.length := by
        intro p hp
        rw [← List.length_range (n := rows.length), ← hperm.length_eq]
        exact sortIndices_lt hp
      have htaken : (take (callColumn call.function (call.argument.map (column sorted))
          (oneStart rows.length) rows.length) (sortIndices (· ≤ ·) indices)).length = rows.length := by
        rw [length_take fun p hp => hcells.symm ▸ hrestored p hp, (sortIndices_perm indices).length_eq,
          List.length_range, hperm.length_eq, List.length_range]
      rw [List.map_cons, List.foldl_cons, List.foldl_cons, ih hrest, hvalues, partitionStarts_nil,
        hlength, take_setColumn, take_restore]
      · rw [hcells]
        exact hperm
      · rwa [htaken]
      · rwa [hdone]
      · rw [setColumn, List.length_zipWith, hvalues, partitionStarts_nil, htaken, hdone, min_self]
  exact congrArg _ ((hfold calls (fun _ h => h) rows rfl).trans (by rw [hsorted]; rfl))

/-! ## The rules -/

omit [LinearOrder V] [Add V] [Sub V] [NatCast V] in
/-- The calls of a window that the limit's rule rewrites. -/
lemma pushDownLimit_cases {count : ℕ} {calls : List (WindowCall C)} {columns : List C}
    {input g : Plan C}
    (h : pushDownLimitThroughWindow (.limit count (.window calls columns input)) = some g) :
    ∃ order, order ≠ [] ∧ calls ≠ [] ∧ (∀ call ∈ calls, call.key = ([], order)) ∧
      (∀ call ∈ calls, call.function ≠ .lead) ∧
      g = .window calls columns (.sort order input.schema false 0 (some count) input) := by
  unfold pushDownLimitThroughWindow at h
  dsimp only at h
  split_ifs at h
  cases calls with
  | nil => cases h
  | cons call rest =>
    dsimp only at h
    split_ifs at h with hkeep
    cases h
    simp only [Bool.or_eq_true, List.any_eq_true, not_or, not_exists, not_and, decide_eq_true_eq,
      List.isEmpty_iff, Bool.not_eq_true', List.isEmpty_eq_false_iff, not_not] at hkeep
    obtain ⟨⟨hrest, horder⟩, hcalls⟩ := hkeep
    refine ⟨call.order, horder, List.cons_ne_nil _ _, fun other hother => ?_,
      fun other hother => (hcalls other hother).2, rfl⟩
    have hsame : other.order = call.order := by
      obtain rfl | hmem := List.mem_cons.1 hother
      · rfl
      · exact hrest other hmem
    rw [WindowCall.key, (hcalls other hother).1, hsame]

/-- The limit's rule changes neither the rows nor their order. -/
lemma pushDownLimit_run {count : ℕ} {calls : List (WindowCall C)} {columns projected : List C}
    {input g : Plan C} (hv : ValidWindow projected calls)
    (h : pushDownLimitThroughWindow (.limit count (.window calls columns input)) = some g)
    (rows : List (Row C V)) :
    g.run rows = Plan.run rows (.limit count (.window calls columns input)) := by
  obtain ⟨order, horder, hne, hkey, hlead, rfl⟩ := pushDownLimit_cases h
  have hempty : order.isEmpty = false := List.isEmpty_eq_false_iff.2 horder
  rw [Plan.run, Plan.run, Plan.run, Plan.run, windowTable_ordered hv hne hkey,
    windowTable_ordered hv hne hkey]
  unfold sortTable
  dsimp only
  rw [hempty, if_neg Bool.false_ne_true, if_neg Bool.false_ne_true, take_sortIndices, Nat.zero_add,
    List.drop_zero]
  have hfirst := (pairwise_sort order (input.run rows).rows).sublist (List.take_sublist count _)
  rw [hfirst.insertionSort_eq, windowSorted_take hv hlead]

omit [Add V] [Sub V] [NatCast V] [LinearOrder V] in
/-- The calls of a window whose sort the rule drops. -/
lemma eliminateWindowSort_cases {keys : List (SortKey C)} {columns windowColumns schema : List C}
    {distinct : Bool} {offset : ℕ} {fetch : Option ℕ} {calls : List (WindowCall C)} {g : Plan C}
    (h : eliminateWindowSort (.sort keys columns distinct offset fetch
      (.window calls windowColumns (.source schema))) = some g) :
    distinct = false ∧ offset = 0 ∧ fetch = none ∧
      (∃ call ∈ calls, keys = windowSortKeys call.partition call.order) ∧
      g = .window calls columns (.source schema) := by
  unfold eliminateWindowSort at h
  have hsort : (Plan.source schema).hasSort = false := rfl
  dsimp only at h
  rw [hsort, if_neg Bool.false_ne_true] at h
  split_ifs at h with hplain
  simp only [Bool.or_eq_true, not_or, Bool.not_eq_true, bne_iff_ne, ne_eq, not_not,
    Option.isSome_eq_false_iff, Option.isNone_iff_eq_none] at hplain
  obtain ⟨⟨rfl, rfl⟩, rfl⟩ := hplain
  cases hlast : calls.getLast? with
  | none => rw [hlast] at h; cases h
  | some call =>
    rw [hlast] at h
    dsimp only at h
    split_ifs at h with hkeys
    cases h
    exact ⟨rfl, rfl, rfl, ⟨call, List.mem_of_getLast? hlast, hkeys⟩, rfl⟩

omit [Add V] [Sub V] [NatCast V] [DecidableEq C] in
/-- A plain sort keeps the rows. -/
lemma sortTable_perm (table : Table C V) (keys : List (SortKey C)) (columns : List C) :
    (sortTable table keys columns false 0 none).rows.Perm table.rows := by
  unfold sortTable
  dsimp only
  rw [List.drop_zero, if_neg Bool.false_ne_true]
  split_ifs
  · exact .refl _
  · rw [take_sortIndices]
    exact List.perm_insertionSort _ _

omit [LinearOrder V] [Add V] [Sub V] [NatCast V] in
lemma lastGroup_of_mem {calls : List (WindowCall C)} {call : WindowCall C} (h : call ∈ calls) :
    ∃ κ, lastGroup calls = some κ := by
  have hmem : call.key ∈ (calls.map WindowCall.key).eraseDups :=
    List.mem_eraseDups.2 (List.mem_map_of_mem h)
  exact ⟨_, List.getLast?_eq_some_getLast (List.ne_nil_of_mem hmem)⟩

/-- Whether the rows of a window come out in a sort's order: the sort's decisive keys begin those of the
last partition and order that the calls are first to use. -/
def ComesSorted (calls : List (WindowCall C)) (keys : List (SortKey C)) : Prop :=
  ∀ κ ∈ lastGroup calls, decisiveKeys [] keys <+: decisiveKeys [] (windowSortKeys κ.1 κ.2)

/-- For every window, a graph without its dropped sort gives, for all rows, the same rows in the sort's
order exactly when the window comes sorted; and a graph with its limit moved under the window gives the
same rows in the same order. -/
theorem window_rewrites [Nontrivial V] {projected : List C} {calls : List (WindowCall C)}
    (hv : ValidWindow projected calls) :
    (∀ (keys : List (SortKey C)) (columns windowColumns : List C) (distinct : Bool) (offset : ℕ)
        (fetch : Option ℕ) (g : Plan C),
      eliminateWindowSort (.sort keys columns distinct offset fetch
        (.window calls windowColumns (.source projected))) = some g →
      ((∀ rows : List (Row C V),
          (g.run rows).columns = columns ∧
          (g.run rows).rows.Perm (Plan.run rows (.sort keys columns distinct offset fetch
            (.window calls windowColumns (.source projected)))).rows ∧
          (g.run rows).rows.Pairwise fun r s => rowLe keys r s) ↔
        ComesSorted calls keys)) ∧
    ∀ (count : ℕ) (columns : List C) (input g : Plan C),
      pushDownLimitThroughWindow (.limit count (.window calls columns input)) = some g →
      ∀ rows : List (Row C V), g.run rows = Plan.run rows (.limit count (.window calls columns input)) := by
  refine ⟨?_, fun count columns input g h => pushDownLimit_run hv h⟩
  intro keys columns windowColumns distinct offset fetch g h
  obtain ⟨rfl, rfl, rfl, ⟨call, hcall, hkeys⟩, rfl⟩ := eliminateWindowSort_cases h
  obtain ⟨κ, hκ⟩ := lastGroup_of_mem hcall
  have hprojected : ∀ k ∈ keys, k.column ∈ projected := by
    rw [hkeys]
    intro k hk
    obtain hk | hk := List.mem_append.1 hk
    · obtain ⟨name, hname, rfl⟩ := List.mem_map.1 hk
      exact hv.partition call hcall name hname
    · exact hv.order call hcall k hk
  have hcomes : ComesSorted calls keys ↔
      decisiveKeys [] keys <+: decisiveKeys [] (windowSortKeys κ.1 κ.2) := by
    rw [ComesSorted, hκ]
    exact ⟨fun hall => hall κ rfl, fun hprefix _ heq => Option.some.inj heq ▸ hprefix⟩
  rw [hcomes, ← window_sorted_iff (V := V) hv hκ hprojected columns]
  exact forall_congr' fun rows => ⟨fun hrun => hrun.2.2, fun hsorted =>
    ⟨rfl, (sortTable_perm (windowTable ⟨projected, rows⟩ calls windowColumns) keys columns).symm, hsorted⟩⟩

/-- The row number by a descending column, sorted by it, and limited to two rows. -/
theorem window_rewrites_row_number :
    ((∀ rows : List (Row ℕ ℤ),
        ((Plan.window [⟨.rowNumber, none, [], [⟨0, true, false⟩], 1⟩] [0, 1] (.source [0])).run rows).columns =
            [0, 1] ∧
          ((Plan.window [⟨.rowNumber, none, [], [⟨0, true, false⟩], 1⟩] [0, 1]
            (.source [0])).run rows).rows.Perm (Plan.run rows (.sort [⟨0, true, false⟩] [0, 1] false 0 none
              (.window [⟨.rowNumber, none, [], [⟨0, true, false⟩], 1⟩] [0, 1] (.source [0])))).rows ∧
          ((Plan.window [⟨.rowNumber, none, [], [⟨0, true, false⟩], 1⟩] [0, 1]
            (.source [0])).run rows).rows.Pairwise fun r s => rowLe [⟨0, true, false⟩] r s) ↔
      ComesSorted [⟨.rowNumber, none, [], [⟨0, true, false⟩], 1⟩] [⟨0, true, false⟩]) ∧
    ∀ rows : List (Row ℕ ℤ),
      (Plan.window [⟨.rowNumber, none, [], [⟨0, true, false⟩], 1⟩] [0, 1]
        (.sort [⟨0, true, false⟩] [0] false 0 (some 2) (.source [0]))).run rows =
      Plan.run rows (.limit 2 (.window [⟨.rowNumber, none, [], [⟨0, true, false⟩], 1⟩] [0, 1]
        (.source [0]))) := by
  have hv : ValidWindow [0] [(⟨.rowNumber, none, [], [⟨0, true, false⟩], 1⟩ : WindowCall ℕ)] :=
    ⟨by decide, by decide, by decide, by decide, by decide, by decide, by decide⟩
  exact ⟨(window_rewrites hv).1 _ _ [0, 1] false 0 none _ rfl, (window_rewrites hv).2 2 _ _ _ rfl⟩

/-- Row numbers by one column, by another, and a count by the first again: the rows come out in the
second one's order, and the sort by the first that the rule drops was not idle. -/
theorem window_rewrites_repeated_order :
    let calls : List (WindowCall ℕ) := [⟨.rowNumber, none, [], [⟨0, false, false⟩], 2⟩,
      ⟨.rowNumber, none, [], [⟨1, false, false⟩], 3⟩, ⟨.count, none, [], [⟨0, false, false⟩], 4⟩]
    let rows : List (Row ℕ ℤ) := [fun c => if c = 0 then .value 1 else .value 2,
      fun c => if c = 0 then .value 2 else .value 1]
    ValidWindow [0, 1] calls ∧
      ∃ g, eliminateWindowSort (.sort [⟨0, false, false⟩] [0, 1, 2, 3, 4] false 0 none
        (.window calls [0, 1, 2, 3, 4] (.source [0, 1]))) = some g ∧
        ¬ (g.run rows).rows.Pairwise fun r s => rowLe [⟨0, false, false⟩] r s := by
  refine ⟨⟨by decide, by decide, by decide, by decide, by decide, by decide, by decide⟩, _, rfl, ?_⟩
  decide

end Quail.Relational
