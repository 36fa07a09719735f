import Mathlib.Order.Basic
import Mathlib.Order.Defs.LinearOrder
import Mathlib.Logic.Nontrivial.Basic
import Mathlib.Data.List.Infix
import Mathlib.Tactic.Common
import Mathlib.Order.Lattice

/-!
# Sort keys

How a table's rows compare under sort keys, with nulls and NaN placed as Arrow places them, and when an
order by one list of keys is an order by another.
-/

namespace Quail.Relational

/-- A cell of a column: null, NaN, or a value. -/
inductive Cell (V : Type)
  | null
  | nan
  | value (v : V)
  deriving DecidableEq

/-- A row: the cell of each column. -/
abbrev Row (C V : Type) := C → Cell V

/-- A key of a sort: its column, whether it is descending, and where nulls go. -/
structure SortKey (C : Type) where
  column : C
  descending : Bool
  nullsFirst : Bool
  deriving DecidableEq

variable {C V : Type} [LinearOrder V]

/-- The place of the nulls, the NaNs and the values under a null placement. -/
def Cell.place (nullsFirst : Bool) : Cell V → ℕ
  | .value _ => if nullsFirst then 2 else 0
  | .nan => 1
  | .null => if nullsFirst then 0 else 2

/-- A cell comes no later than another under a key. -/
def SortKey.le (k : SortKey C) : Cell V → Cell V → Bool
  | .value v, .value w => if k.descending then decide (w ≤ v) else decide (v ≤ w)
  | c, c' => decide (c.place k.nullsFirst ≤ c'.place k.nullsFirst)

/-- A row comes no later than another: the first key they differ on decides. -/
def rowLe : List (SortKey C) → Row C V → Row C V → Bool
  | [], _, _ => true
  | k :: ks, r, s =>
    if r k.column = s k.column then rowLe ks r s else k.le (r k.column) (s k.column)

/-! ## The order -/

namespace SortKey

lemma total (k : SortKey C) (c c' : Cell V) : k.le c c' ∨ k.le c' c := by
  obtain ⟨column, descending, nullsFirst⟩ := k
  cases c <;> cases c' <;> cases descending <;> cases nullsFirst <;>
    simp [SortKey.le, Cell.place, le_total]

lemma antisymm {k : SortKey C} {c c' : Cell V} (h : k.le c c') (h' : k.le c' c) : c = c' := by
  obtain ⟨column, descending, nullsFirst⟩ := k
  cases c with
  | value v =>
    cases c' with
    | value w =>
      cases descending
      · exact congrArg _ (le_antisymm (of_decide_eq_true h) (of_decide_eq_true h'))
      · exact congrArg _ (le_antisymm (of_decide_eq_true h') (of_decide_eq_true h))
    | null | nan => cases nullsFirst <;> simp [SortKey.le, Cell.place] at h h'
  | null | nan => cases c' <;> cases nullsFirst <;> simp [SortKey.le, Cell.place] at h h' ⊢

lemma trans {k : SortKey C} {c c' c'' : Cell V} (h : k.le c c') (h' : k.le c' c'') : k.le c c'' := by
  obtain ⟨column, descending, nullsFirst⟩ := k
  cases c <;> cases c' <;> cases c'' <;> cases descending <;> cases nullsFirst <;>
    simp_all [SortKey.le, Cell.place]
  all_goals exact le_trans ‹_› ‹_›

end SortKey

lemma rowLe_total (ks : List (SortKey C)) (r s : Row C V) : rowLe ks r s ∨ rowLe ks s r := by
  induction ks with
  | nil => exact .inl rfl
  | cons k ks ih =>
    by_cases h : r k.column = s k.column
    · rw [rowLe, rowLe, if_pos h, if_pos h.symm]
      exact ih
    · rw [rowLe, rowLe, if_neg h, if_neg (Ne.symm h)]
      exact k.total _ _

lemma rowLe_trans {ks : List (SortKey C)} {r s t : Row C V} (h : rowLe ks r s) (h' : rowLe ks s t) :
    rowLe ks r t := by
  induction ks with
  | nil => rfl
  | cons k ks ih =>
    rw [rowLe] at h h' ⊢
    split_ifs at h h' with hrs hst hst
    · rw [if_pos (hrs.trans hst)]
      exact ih h h'
    · rw [if_neg (hrs ▸ hst), hrs]
      exact h'
    · rw [← hst, if_neg hrs]
      exact h
    · have hle := k.trans h h'
      by_cases hrt : r k.column = t k.column
      · exact absurd (k.antisymm h (hrt ▸ h')) hrs
      · rw [if_neg hrt]
        exact hle

/-- Rows with the same cells in the keys' columns compare alike. -/
lemma rowLe_congr {ks : List (SortKey C)} {r s r' s' : Row C V}
    (hr : ∀ k ∈ ks, r k.column = r' k.column) (hs : ∀ k ∈ ks, s k.column = s' k.column) :
    rowLe ks r s = rowLe ks r' s' := by
  induction ks with
  | nil => rfl
  | cons k ks ih =>
    obtain ⟨hr, hr'⟩ := List.forall_mem_cons.1 hr
    obtain ⟨hs, hs'⟩ := List.forall_mem_cons.1 hs
    rw [rowLe, rowLe, hr, hs, ih hr' hs']

/-! ## Orders by other keys -/

/-- An order by more keys is an order by fewer. -/
lemma rowLe_of_prefix {ks ks' : List (SortKey C)} (h : ks' <+: ks) {r s : Row C V}
    (hle : rowLe ks r s) : rowLe ks' r s := by
  induction ks' generalizing ks with
  | nil => rfl
  | cons k ks' ih =>
    obtain ⟨rest, rfl⟩ := h
    rw [List.cons_append, rowLe] at hle
    rw [rowLe]
    split_ifs at hle ⊢ with heq
    · exact ih (List.prefix_append _ _) hle
    · exact hle

variable [DecidableEq C]

/-- The keys of columns not named before, which alone decide. -/
def decisiveKeys : List C → List (SortKey C) → List (SortKey C)
  | _, [] => []
  | named, k :: ks =>
    if k.column ∈ named then decisiveKeys named ks
    else k :: decisiveKeys (k.column :: named) ks

/-- Rows alike in the columns named compare as by the decisive keys. -/
lemma rowLe_decisive {named : List C} {ks : List (SortKey C)} {r s : Row C V}
    (h : ∀ c ∈ named, r c = s c) : rowLe (decisiveKeys named ks) r s = rowLe ks r s := by
  induction ks generalizing named with
  | nil => rfl
  | cons k ks ih =>
    rw [decisiveKeys]
    split_ifs with hk
    · rw [ih h, rowLe, if_pos (h _ hk)]
    · rw [rowLe, rowLe]
      split_ifs with heq
      · exact ih (List.forall_mem_cons.2 ⟨heq, h⟩)
      · rfl

/-- The decisive keys name distinct columns, none of those named before. -/
lemma decisiveKeys_columns (named : List C) (ks : List (SortKey C)) :
    ((decisiveKeys named ks).map SortKey.column).Nodup ∧
      ∀ k ∈ decisiveKeys named ks, k.column ∉ named := by
  induction ks generalizing named with
  | nil => exact ⟨List.nodup_nil, fun _ h => absurd h List.not_mem_nil⟩
  | cons k ks ih =>
    rw [decisiveKeys]
    split_ifs with hk
    · exact ih named
    · obtain ⟨hnodup, hfresh⟩ := ih (k.column :: named)
      refine ⟨List.nodup_cons.2 ⟨fun hmem => ?_, hnodup⟩, List.forall_mem_cons.2 ⟨hk, ?_⟩⟩
      · obtain ⟨k', hk', hcolumn⟩ := List.mem_map.1 hmem
        exact hfresh k' hk' (hcolumn ▸ List.mem_cons_self)
      · exact fun k' hk' hmem => hfresh k' hk' (List.mem_cons_of_mem _ hmem)

variable [Nontrivial V]

omit [DecidableEq C] in
/-- Some pair of cells is strictly out of order under a key. -/
lemma SortKey.exists_gt (k : SortKey C) : ∃ c c' : Cell V, c ≠ c' ∧ k.le c c' = false := by
  obtain ⟨v, w, hlt⟩ := exists_pair_lt V
  cases hk : k.descending
  · exact ⟨.value w, .value v, by simp [hlt.ne'], by simp [SortKey.le, hk, hlt]⟩
  · exact ⟨.value v, .value w, by simp [hlt.ne], by simp [SortKey.le, hk, hlt]⟩

omit [DecidableEq C] in
/-- Two keys of one column with other flags disagree on some pair of cells. -/
lemma SortKey.exists_disagree {k k' : SortKey C} (hcolumn : k.column = k'.column) (hne : k ≠ k') :
    ∃ c c' : Cell V, c ≠ c' ∧ k.le c c' ∧ k'.le c c' = false := by
  obtain ⟨v, w, hlt⟩ := exists_pair_lt V
  obtain ⟨column, descending, nullsFirst⟩ := k
  obtain ⟨column', descending', nullsFirst'⟩ := k'
  by_cases hd : descending = descending'
  · -- the flags differ in where the nulls go
    have hn : nullsFirst ≠ nullsFirst' := fun hn => hne (by simp_all)
    cases nullsFirst
    · refine ⟨.value v, .null, by simp, rfl, ?_⟩
      simp [SortKey.le, Cell.place, hn.symm]
    · refine ⟨.null, .value v, by simp, rfl, ?_⟩
      simp [SortKey.le, Cell.place, hn.symm]
  · cases descending
    · refine ⟨.value v, .value w, by simp [hlt.ne], ?_, ?_⟩ <;>
        simp [SortKey.le, Ne.symm hd, hlt, hlt.le]
    · refine ⟨.value w, .value v, by simp [hlt.ne'], ?_, ?_⟩ <;>
        simp [SortKey.le, Ne.symm hd, hlt, hlt.le]

/-- Keys that are no prefix of others order some rows the other way. -/
lemma exists_disorder {named : List C} {ks ks' : List (SortKey C)}
    (hks : (ks.map SortKey.column).Nodup ∧ ∀ k ∈ ks, k.column ∉ named)
    (hks' : (ks'.map SortKey.column).Nodup ∧ ∀ k ∈ ks', k.column ∉ named) (h : ¬ ks' <+: ks) :
    ∃ r s : Row C V, (∀ c ∈ named, r c = s c) ∧ rowLe ks r s ∧ rowLe ks' r s = false := by
  induction ks' generalizing ks named with
  | nil => exact absurd List.nil_prefix h
  | cons k' ks' ih =>
    obtain ⟨hcolumns', hall'⟩ := hks'
    obtain ⟨hk', hfresh'⟩ := List.forall_mem_cons.1 hall'
    obtain ⟨hnew', hnodup'⟩ := List.nodup_cons.1 hcolumns'
    obtain ⟨c, c', hne, hgt⟩ := k'.exists_gt (V := V)
    cases ks with
    | nil =>
      -- the order says nothing: the rows differ in the column of the first key alone
      refine ⟨Function.update (fun _ => .null) k'.column c, Function.update (fun _ => .null) k'.column c',
        fun x hx => ?_, rfl, ?_⟩
      · rw [Function.update_of_ne (ne_of_mem_of_not_mem hx hk'),
          Function.update_of_ne (ne_of_mem_of_not_mem hx hk')]
      · rw [rowLe, Function.update_self, Function.update_self, if_neg hne, hgt]
    | cons k ks =>
      obtain ⟨hcolumns, hall⟩ := hks
      obtain ⟨hk, hfresh⟩ := List.forall_mem_cons.1 hall
      obtain ⟨hnew, hnodup⟩ := List.nodup_cons.1 hcolumns
      by_cases hcolumn : k.column = k'.column
      · by_cases heq : k = k'
        · -- the first keys agree: the rows are alike in their column
          subst heq
          have hnew_of {l : List (SortKey C)} (hnew : k.column ∉ l.map SortKey.column)
              (hfresh : ∀ x ∈ l, x.column ∉ named) : ∀ x ∈ l, x.column ∉ k.column :: named := by
            intro x hx hmem
            obtain hmem | hmem := List.mem_cons.1 hmem
            · exact hnew (hmem ▸ List.mem_map_of_mem hx)
            · exact hfresh x hx hmem
          obtain ⟨r, s, hsame, hle, hgt⟩ := ih ⟨hnodup, hnew_of hnew hfresh⟩
            ⟨hnodup', hnew_of hnew' hfresh'⟩ (fun hp => h (List.cons_prefix_cons.2 ⟨rfl, hp⟩))
          obtain ⟨hcell, hsame⟩ := List.forall_mem_cons.1 hsame
          exact ⟨r, s, hsame, by rw [rowLe, if_pos hcell, hle], by rw [rowLe, if_pos hcell, hgt]⟩
        · -- the first keys are of one column, with other flags
          obtain ⟨d, d', hne, hle, hgt⟩ := SortKey.exists_disagree (V := V) hcolumn heq
          refine ⟨Function.update (fun _ => .null) k.column d,
            Function.update (fun _ => .null) k.column d', fun x hx => ?_, ?_, ?_⟩
          · rw [Function.update_of_ne (ne_of_mem_of_not_mem hx hk),
              Function.update_of_ne (ne_of_mem_of_not_mem hx hk)]
          · rw [rowLe, Function.update_self, Function.update_self, if_neg hne, hle]
          · rw [rowLe, ← hcolumn, Function.update_self, Function.update_self, if_neg hne, hgt]
      · -- the first keys are of two columns: the rows are in order in one and not in the other
        obtain ⟨d', d, hne', hgt'⟩ := k.exists_gt (V := V)
        have hle : k.le d d' := (k.total d d').resolve_right (by simp [hgt'])
        refine ⟨Function.update (Function.update (fun _ => .null) k.column d) k'.column c,
          Function.update (Function.update (fun _ => .null) k.column d') k'.column c',
          fun x hx => ?_, ?_, ?_⟩
        · rw [Function.update_of_ne (ne_of_mem_of_not_mem hx hk'),
            Function.update_of_ne (ne_of_mem_of_not_mem hx hk),
            Function.update_of_ne (ne_of_mem_of_not_mem hx hk'),
            Function.update_of_ne (ne_of_mem_of_not_mem hx hk)]
        · rw [rowLe, Function.update_of_ne hcolumn, Function.update_self,
            Function.update_of_ne hcolumn, Function.update_self, if_neg hne'.symm, hle]
        · rw [rowLe, Function.update_self, Function.update_self, if_neg hne, hgt]

/-- An order by one list of keys is an order by another exactly when the other's decisive keys are the
first of its own. -/
lemma rowLe_imp_iff {ks ks' : List (SortKey C)} :
    (∀ r s : Row C V, rowLe ks r s → rowLe ks' r s) ↔ decisiveKeys [] ks' <+: decisiveKeys [] ks := by
  constructor
  · intro himp
    by_contra h
    obtain ⟨r, s, -, hle, hgt⟩ := exists_disorder (V := V) (decisiveKeys_columns [] ks)
      (decisiveKeys_columns [] ks') h
    have hnone : ∀ c ∈ ([] : List C), r c = s c := fun _ hc => absurd hc List.not_mem_nil
    rw [rowLe_decisive hnone] at hle hgt
    rw [himp r s hle] at hgt
    cases hgt
  · intro h r s hle
    have hnone : ∀ c ∈ ([] : List C), r c = s c := fun _ hc => absurd hc List.not_mem_nil
    rw [← rowLe_decisive hnone] at hle ⊢
    exact rowLe_of_prefix h hle

end Quail.Relational
