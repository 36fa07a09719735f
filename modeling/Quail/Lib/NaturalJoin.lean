import Mathlib.Data.List.Count
import Mathlib.Data.List.Nodup
import Mathlib.Data.List.Perm.Basic
import Mathlib.Algebra.BigOperators.Group.List.Basic
import Mathlib.Algebra.BigOperators.Ring.List
import Mathlib.Algebra.Ring.Nat
import Mathlib.Algebra.GroupWithZero.Nat
import Mathlib.Logic.Relation
import Mathlib.Tactic.Common

/-!
# Natural joins

Tables of rows over named columns, and their inner join on the columns they share. A row of the join is an
assignment of values to the columns of both tables: it occurs as often as its parts do, multiplied. So a join
of several tables holds the assignments that are in each of them, in whatever order they are joined.
-/

namespace NaturalJoin

variable {κ ν : Type} [DecidableEq κ] [DecidableEq ν]

/-- A table: its columns, and its rows with a value for each of them. -/
structure Table (κ ν : Type) where
  columns : List κ
  rows : List (List ν)
  nodup : columns.Nodup
  aligned : ∀ row ∈ rows, row.length = columns.length

/-- The value of a row in a column. -/
def cell (columns : List κ) (row : List ν) (k : κ) : Option ν := row[columns.idxOf k]?

/-- The values of a row in some columns. -/
def pick (columns : List κ) (row : List ν) (ks : List κ) : List ν := ks.filterMap (cell columns row)

/-- The rows of an inner join on some keys: each left row with the other columns of each right row that has
its keys. -/
def innerRows (left right : Table κ ν) (keys : List κ) : List (List ν) :=
  left.rows.flatMap fun l =>
    (right.rows.filter fun r => decide (∀ k ∈ keys, cell left.columns l k = cell right.columns r k)).map
      fun r => l ++ pick right.columns r (right.columns.filter fun c => decide (c ∉ keys))

/-- A hash join: the rows of an inner join, in an order of its own. -/
structure HashJoin (κ ν : Type) [DecidableEq κ] [DecidableEq ν] where
  rows : Table κ ν → Table κ ν → List κ → List (List ν)
  spec : ∀ left right keys, (rows left right keys).Perm (innerRows left right keys)

/-- The inner join by its definition. -/
def HashJoin.inner : HashJoin κ ν := ⟨innerRows, fun _ _ _ => .refl _⟩

/-- An assignment of values to columns is a row of a table. -/
def Table.Holds (t : Table κ ν) (f : κ → ν) : Prop := t.columns.map f ∈ t.rows

/-- How often an assignment is a row of a table. -/
def Table.times (t : Table κ ν) (f : κ → ν) : ℕ := t.rows.count (t.columns.map f)

/-! ## Rows as assignments -/

variable {columns : List κ} {row : List ν} {f : κ → ν}

omit [DecidableEq ν] in
lemma cell_map {k : κ} (h : k ∈ columns) : cell columns (columns.map f) k = some (f k) := by
  rw [cell, List.getElem?_map, List.getElem?_idxOf h, Option.map_some]

omit [DecidableEq ν] in
lemma exists_cell {k : κ} (hrow : row.length = columns.length) (h : k ∈ columns) :
    ∃ v, cell columns row k = some v := by
  rw [cell, ← Option.isSome_iff_exists, isSome_getElem?, hrow]
  exact List.idxOf_lt_length_of_mem h

omit [DecidableEq ν] in
/-- The values of an aligned row in some of its columns. -/
lemma pick_eq_map {ks : List κ} (hcell : ∀ k ∈ ks, cell columns row k = some (f k)) :
    pick columns row ks = ks.map f := by
  unfold pick
  induction ks with
  | nil => rfl
  | cons k ks ih =>
    obtain ⟨hk, hks⟩ := List.forall_mem_cons.1 hcell
    rw [List.filterMap_cons_some hk, ih hks, List.map_cons]

omit [DecidableEq ν] in
lemma length_pick {ks : List κ} (hrow : row.length = columns.length) (h : ∀ k ∈ ks, k ∈ columns) :
    (pick columns row ks).length = ks.length := by
  unfold pick
  induction ks with
  | nil => rfl
  | cons k ks ih =>
    obtain ⟨hk, hks⟩ := List.forall_mem_cons.1 h
    obtain ⟨v, hv⟩ := exists_cell hrow hk
    rw [List.filterMap_cons_some hv, List.length_cons, ih hks, List.length_cons]

omit [DecidableEq ν] in
/-- An aligned row is an assignment when its cells are. -/
lemma eq_map_iff (hnodup : columns.Nodup) (hrow : row.length = columns.length) :
    row = columns.map f ↔ ∀ k ∈ columns, cell columns row k = some (f k) := by
  constructor
  · rintro rfl k hk
    exact cell_map hk
  · intro h
    refine List.ext_getElem (by rw [hrow, List.length_map]) fun i hi hi' => ?_
    rw [List.length_map] at hi'
    have hcell := h columns[i] (List.getElem_mem hi')
    rw [cell, hnodup.idxOf_getElem i hi', List.getElem?_eq_getElem hi] at hcell
    rw [List.getElem_map]
    exact Option.some.inj hcell

omit [DecidableEq ν] in
/-- Every row is an assignment. -/
lemma exists_eq_map [Inhabited ν] (hnodup : columns.Nodup) (hrow : row.length = columns.length) :
    ∃ f : κ → ν, row = columns.map f := by
  refine ⟨fun k => (cell columns row k).getD default, (eq_map_iff hnodup hrow).2 fun k hk => ?_⟩
  obtain ⟨v, hv⟩ := exists_cell hrow hk
  rw [hv, Option.getD_some]

/-! ## The join of two tables -/

variable {left right : Table κ ν} {keys : List κ}

/-- A right row's other columns are an assignment's, and its keys are the left row's, when the row is. -/
lemma count_right (hkeys : ∀ k, k ∈ keys ↔ k ∈ left.columns ∧ k ∈ right.columns) (f : κ → ν) :
    ((right.rows.filter fun r => decide (∀ k ∈ keys,
        cell left.columns (left.columns.map f) k = cell right.columns r k)).map
      fun r => left.columns.map f ++ pick right.columns r (right.columns.filter fun c => decide (c ∉ keys))).count
        (left.columns.map f ++ (right.columns.filter fun c => decide (c ∉ keys)).map f) =
      right.times f := by
  rw [Table.times, List.count_eq_countP, List.count_eq_countP, List.countP_map, List.countP_filter]
  refine List.countP_congr fun r hr => ?_
  rw [Bool.and_eq_true, decide_eq_true_iff, Function.comp_apply, beq_iff_eq, beq_iff_eq,
    List.append_cancel_left_eq, eq_map_iff right.nodup (right.aligned r hr)]
  constructor
  · rintro ⟨hpick, hagree⟩ k hk
    by_cases hkey : k ∈ keys
    · rw [← hagree k hkey]
      exact cell_map ((hkeys k).1 hkey).1
    · obtain ⟨v, hv⟩ := exists_cell (right.aligned r hr) hk
      have hall : ∀ c ∈ right.columns.filter (fun c => decide (c ∉ keys)), c ∈ right.columns :=
        fun c hc => (List.mem_filter.1 hc).1
      -- the picked cells are the assignment's one by one
      have hcells : ∀ ks : List κ, (∀ c ∈ ks, c ∈ right.columns) → pick right.columns r ks = ks.map f →
          ∀ c ∈ ks, cell right.columns r c = some (f c) := by
        intro ks
        induction ks with
        | nil => exact fun _ _ _ h => absurd h List.not_mem_nil
        | cons c ks ih =>
          intro hmem heq
          obtain ⟨hc, hks⟩ := List.forall_mem_cons.1 hmem
          obtain ⟨w, hw⟩ := exists_cell (right.aligned r hr) hc
          rw [pick, List.filterMap_cons_some hw, List.map_cons, List.cons.injEq] at heq
          exact List.forall_mem_cons.2 ⟨heq.1 ▸ hw, ih hks heq.2⟩
      exact hcells _ hall hpick k (List.mem_filter.2 ⟨hk, decide_eq_true hkey⟩)
  · intro h
    refine ⟨pick_eq_map fun k hk => h k (List.mem_filter.1 hk).1, fun k hk => ?_⟩
    obtain ⟨hl, hr⟩ := (hkeys k).1 hk
    rw [cell_map hl, h k hr]

lemma sum_map_ite {α : Type} [BEq α] [LawfulBEq α] [DecidableEq α] (xs : List α) (x : α) (n : ℕ) :
    (xs.map fun y => if y = x then n else 0).sum = xs.count x * n := by
  induction xs with
  | nil => simp
  | cons y xs ih =>
    rw [List.map_cons, List.sum_cons, ih, List.count_cons, Nat.add_mul, Nat.add_comm]
    by_cases heq : y = x
    · simp [heq]
    · simp [heq]

/-- An assignment is a row of the join as often as it is one of both tables. -/
lemma count_innerRows (hkeys : ∀ k, k ∈ keys ↔ k ∈ left.columns ∧ k ∈ right.columns) (f : κ → ν) :
    (innerRows left right keys).count
        ((left.columns ++ right.columns.filter fun c => decide (c ∉ keys)).map f) =
      left.times f * right.times f := by
  rw [innerRows, List.count_flatMap, List.map_append]
  have hleft : ∀ l ∈ left.rows, (List.count (left.columns.map f ++
      (right.columns.filter fun c => decide (c ∉ keys)).map f) ∘ fun l =>
        (right.rows.filter fun r => decide (∀ k ∈ keys, cell left.columns l k = cell right.columns r k)).map
          fun r => l ++ pick right.columns r (right.columns.filter fun c => decide (c ∉ keys))) l =
      if l = left.columns.map f then right.times f else 0 := by
    intro l hl
    rw [Function.comp_apply]
    split_ifs with heq
    · rw [heq]
      exact count_right hkeys f
    · refine List.count_eq_zero_of_not_mem fun hmem => heq ?_
      obtain ⟨r, -, happend⟩ := List.mem_map.1 hmem
      exact (List.append_inj happend (by rw [left.aligned l hl, List.length_map])).1
  rw [List.map_congr_left hleft, sum_map_ite]
  rfl

/-- The join of two tables on keys that hold every column they share. -/
def Table.join (j : HashJoin κ ν) (left right : Table κ ν) (keys : List κ)
    (hkeys : ∀ k ∈ left.columns, k ∈ right.columns → k ∈ keys) : Table κ ν where
  columns := left.columns ++ right.columns.filter fun c => decide (c ∉ keys)
  rows := j.rows left right keys
  nodup := by
    refine List.nodup_append.2 ⟨left.nodup, right.nodup.filter _, fun a ha b hb heq => ?_⟩
    obtain ⟨hb, hnot⟩ := List.mem_filter.1 hb
    exact of_decide_eq_true hnot (hkeys b (heq ▸ ha) hb)
  aligned := by
    intro row hrow
    obtain ⟨l, hl, hrow⟩ := List.mem_flatMap.1 ((j.spec left right keys).mem_iff.1 hrow)
    obtain ⟨r, hr, rfl⟩ := List.mem_map.1 hrow
    rw [List.length_append, List.length_append, left.aligned l hl,
      length_pick (right.aligned r (List.mem_filter.1 hr).1) fun k hk => (List.mem_filter.1 hk).1]

variable {j : HashJoin κ ν}

/-- The columns of a join are those of both tables. -/
lemma Table.mem_join_columns {hkeys : ∀ k ∈ left.columns, k ∈ right.columns → k ∈ keys}
    (hleft : ∀ k ∈ keys, k ∈ left.columns) {k : κ} :
    k ∈ (left.join j right keys hkeys).columns ↔ k ∈ left.columns ∨ k ∈ right.columns := by
  change k ∈ left.columns ++ right.columns.filter (fun c => decide (c ∉ keys)) ↔ _
  rw [List.mem_append, List.mem_filter, decide_eq_true_iff]
  constructor
  · exact Or.imp_right And.left
  · rintro (h | h)
    · exact .inl h
    · by_cases hkey : k ∈ keys
      · exact .inl (hleft k hkey)
      · exact .inr ⟨h, hkey⟩

/-- An assignment is a row of the join as often as it is one of both tables. -/
lemma Table.times_join {hkeys : ∀ k ∈ left.columns, k ∈ right.columns → k ∈ keys}
    (hboth : ∀ k ∈ keys, k ∈ left.columns ∧ k ∈ right.columns) (f : κ → ν) :
    (left.join j right keys hkeys).times f = left.times f * right.times f := by
  rw [← count_innerRows fun k => ⟨hboth k, fun h => hkeys k h.1 h.2⟩]
  exact (j.spec left right keys).count_eq _

omit [DecidableEq κ] in
lemma Table.holds_iff {t : Table κ ν} : t.Holds f ↔ 0 < t.times f := List.count_pos_iff.symm

/-- A table without repeated rows holds each assignment once. -/
lemma Table.nodup_rows [Inhabited ν] {t : Table κ ν} (h : ∀ f, t.times f ≤ 1) : t.rows.Nodup := by
  rw [List.nodup_iff_count_le_one]
  intro row
  by_cases hmem : row ∈ t.rows
  · obtain ⟨f, rfl⟩ := exists_eq_map t.nodup (t.aligned row hmem)
    exact h f
  · rw [List.count_eq_zero_of_not_mem hmem]
    exact Nat.zero_le _

/-! ## The join of several tables -/

/-- A table is the join of some tables: it has their columns, and holds each assignment as often as they do
together. -/
structure Joins (tables : List (Table κ ν)) (t : Table κ ν) : Prop where
  columns : ∀ k, k ∈ t.columns ↔ ∃ u ∈ tables, k ∈ u.columns
  times : ∀ f, t.times f = (tables.map fun u => u.times f).prod

variable {tables tables' : List (Table κ ν)} {t u : Table κ ν}

omit [DecidableEq κ] in
lemma Joins.single (t : Table κ ν) : Joins [t] t :=
  ⟨fun k => by simp, fun f => by simp⟩

omit [DecidableEq κ] in
/-- The order of the tables does not matter. -/
lemma Joins.perm (h : Joins tables t) (hp : tables.Perm tables') : Joins tables' t :=
  ⟨fun k => by simp only [h.columns, hp.mem_iff], fun f => by rw [h.times, (hp.map _).prod_eq]⟩

/-- One more table. -/
lemma Joins.join (h : Joins tables left) {hkeys : ∀ k ∈ left.columns, k ∈ right.columns → k ∈ keys}
    (hboth : ∀ k ∈ keys, k ∈ left.columns ∧ k ∈ right.columns) :
    Joins (right :: tables) (left.join j right keys hkeys) := by
  constructor
  · intro k
    rw [Table.mem_join_columns fun k hk => (hboth k hk).1, h.columns, List.exists_mem_cons_iff, or_comm]
  · intro f
    rw [Table.times_join hboth, h.times, List.map_cons, List.prod_cons, Nat.mul_comm]

omit [DecidableEq κ] in
/-- The join holds the assignments that are in every table. -/
lemma Joins.holds (h : Joins tables t) (f : κ → ν) : t.Holds f ↔ ∀ u ∈ tables, u.Holds f := by
  rw [Table.holds_iff, h.times, Nat.pos_iff_ne_zero, Ne, List.prod_eq_zero_iff, List.mem_map, not_exists]
  refine forall_congr' fun u => ?_
  rw [not_and, Table.holds_iff, Nat.pos_iff_ne_zero]

omit [DecidableEq κ] in
/-- The join of tables without repeated rows has none. -/
lemma Joins.nodup [DecidableEq κ] [Inhabited ν] (h : Joins tables t) (hnodup : ∀ u ∈ tables, u.rows.Nodup) :
    t.rows.Nodup := by
  refine Table.nodup_rows fun f => ?_
  rw [h.times]
  clear h
  induction tables with
  | nil => exact Nat.le_refl 1
  | cons u tables ih =>
    obtain ⟨hu, hnodup⟩ := List.forall_mem_cons.1 hnodup
    rw [List.map_cons, List.prod_cons]
    exact Nat.mul_le_mul (List.nodup_iff_count_le_one.1 hu _) (ih hnodup)

/-! ## Connected tables -/

/-- Two tables share a column. -/
def Shares (t u : Table κ ν) : Prop := ∃ k, k ∈ t.columns ∧ k ∈ u.columns

/-- A table is reached from another through tables that share columns. -/
def Reaches (tables : List (Table κ ν)) : Table κ ν → Table κ ν → Prop :=
  Relation.ReflTransGen fun x y => y ∈ tables ∧ Shares x y

/-- Tables with columns, all of which reach one another. -/
structure Connected (tables : List (Table κ ν)) : Prop where
  nonempty : ∀ t ∈ tables, t.columns ≠ []
  reaches : ∀ t ∈ tables, ∀ u ∈ tables, Reaches tables t u

omit [DecidableEq κ] [DecidableEq ν] in
lemma Reaches.mono (h : Reaches tables t u) (hsub : tables ⊆ tables') : Reaches tables' t u :=
  Relation.ReflTransGen.mono (fun _ _ hstep => ⟨hsub hstep.1, hstep.2⟩) _ _ h

omit [DecidableEq κ] [DecidableEq ν] in
lemma Connected.single (h : t.columns ≠ []) : Connected [t] := by
  refine ⟨fun u hu => List.mem_singleton.1 hu ▸ h, fun u hu w hw => ?_⟩
  rw [List.mem_singleton.1 hu, List.mem_singleton.1 hw]
  exact .refl

omit [DecidableEq κ] [DecidableEq ν] in
/-- Connected tables of which two share a column are connected together. -/
lemma Connected.append (h : Connected tables) (h' : Connected tables') (ht : t ∈ tables) (hu : u ∈ tables')
    (hs : Shares t u) : Connected (tables ++ tables') := by
  have hleft : tables ⊆ tables ++ tables' := List.subset_append_left _ _
  have hright : tables' ⊆ tables ++ tables' := List.subset_append_right _ _
  refine ⟨fun x hx => (List.mem_append.1 hx).elim (h.nonempty x) (h'.nonempty x), fun x hx y hy => ?_⟩
  have hcross : Reaches (tables ++ tables') t u := .single ⟨hright hu, hs⟩
  have hback : Reaches (tables ++ tables') u t := .single ⟨hleft ht, hs.imp fun _ => And.symm⟩
  obtain hx | hx := List.mem_append.1 hx <;> obtain hy | hy := List.mem_append.1 hy
  · exact (h.reaches x hx y hy).mono hleft
  · exact (((h.reaches x hx t ht).mono hleft).trans hcross).trans ((h'.reaches u hu y hy).mono hright)
  · exact (((h'.reaches x hx u hu).mono hright).trans hback).trans ((h.reaches t ht y hy).mono hleft)
  · exact (h'.reaches x hx y hy).mono hright

omit [DecidableEq κ] [DecidableEq ν] in
lemma Connected.perm (h : Connected tables) (hp : tables.Perm tables') : Connected tables' :=
  ⟨fun t ht => h.nonempty t (hp.mem_iff.2 ht), fun t ht u hu =>
    (h.reaches t (hp.mem_iff.2 ht) u (hp.mem_iff.2 hu)).mono hp.subset⟩

omit [DecidableEq κ] [DecidableEq ν] in
/-- However connected tables are split in two, tables of the two parts share a column. -/
lemma Connected.exists_shares (h : Connected (tables ++ tables')) (ht : t ∈ tables) (hu : u ∈ tables') :
    ∃ x ∈ tables, ∃ y ∈ tables', Shares x y := by
  by_contra hnone
  have hall : ∀ z, Reaches (tables ++ tables') t z → z ∈ tables := by
    intro z hz
    induction hz with
    | refl => exact ht
    | tail _ hstep ih =>
      refine (List.mem_append.1 hstep.1).resolve_right fun hmem => hnone ⟨_, ih, _, hmem, hstep.2⟩
  have hmem : u ∈ tables :=
    hall u (h.reaches t (List.mem_append_left _ ht) u (List.mem_append_right _ hu))
  obtain ⟨k, hk⟩ := List.exists_mem_of_ne_nil _ (h.nonempty u (List.mem_append_right _ hu))
  exact hnone ⟨u, hmem, u, hu, k, hk, hk⟩

end NaturalJoin
