import Mathlib.Algebra.Order.Floor.Ring
import Mathlib.Algebra.Order.Round
import Mathlib.Data.Rat.Floor
import Mathlib.Order.WithBot
import Mathlib.Tactic.Linarith

/-!
# Literals

`compare_literal` and `membership` of `logical/predicates.py`, which compare a column with literals of
another type without rounding the column's values: the bound moves, and the comparison with it.
-/

namespace Quail.Logical

/-- `VALUE_COMPARISONS`. -/
inductive ValueComparison where
  | equal | notEqual | less | lessEqual | greater | greaterEqual
  deriving Repr, DecidableEq

/-- Arrow's kernel of a comparison, over ordered values. -/
def ValueComparison.kernel {α : Type} [LinearOrder α] (comparison : ValueComparison) (x y : α) : Bool :=
  match comparison with
  | .equal => x = y
  | .notEqual => x ≠ y
  | .less => x < y
  | .lessEqual => x ≤ y
  | .greater => y < x
  | .greaterEqual => y ≤ x

/-- The numbers between the two infinities. -/
abbrev Extended := WithBot (WithTop ℚ)

/-- A float by its value. -/
inductive FloatValue where
  | finite (q : ℚ)
  | infinity (negative : Bool)
  | nan
  deriving Repr, DecidableEq

/-- A numeric literal: an integer of any size, or a float. -/
inductive Number where
  | int (n : ℤ)
  | float (x : FloatValue)
  deriving Repr, DecidableEq

/-- The number a float is; NaN is none. -/
def FloatValue.extended : FloatValue → Option Extended
  | finite q => some ((q : WithTop ℚ) : Extended)
  | infinity true => some ⊥
  | infinity false => some ⊤
  | nan => none

def Number.extended : Number → Option Extended
  | int n => some (((n : ℚ) : WithTop ℚ) : Extended)
  | float x => x.extended

@[simp] lemma Number.extended_float (x : FloatValue) : (Number.float x).extended = x.extended := rfl

/-- The comparison of two numbers; NaN is unequal to everything, and neither above nor below. -/
def ValueComparison.exactly (comparison : ValueComparison) : Option Extended → Option Extended → Bool
  | some x, some y => comparison.kernel x y
  | _, _ => comparison = .notEqual

/-- An integer type: its width and whether it is signed. -/
structure IntegerType where
  bitWidth : ℕ
  signed : Bool
  deriving Repr, DecidableEq

namespace IntegerType

/-- `_integer_bounds`, the least value. -/
def lower (kind : IntegerType) : ℤ := if kind.signed then -2 ^ (kind.bitWidth - 1) else 0

/-- `_integer_bounds`, the greatest value. -/
def upper (kind : IntegerType) : ℤ := 2 ^ (kind.bitWidth - kind.signed.toNat) - 1

/-- The values of an integer type. -/
abbrev Value (kind : IntegerType) := {n : ℤ // kind.lower ≤ n ∧ n ≤ kind.upper}

end IntegerType

/-- A column of numbers with nulls: integers of one type, or floats. -/
inductive Column where
  | integer (kind : IntegerType) (values : List (Option kind.Value))
  | floating (values : List (Option FloatValue))

/-- `_every_value`: one outcome for every value that is not null. -/
def everyValue {α : Type} (values : List (Option α)) (accepted : Bool) : List (Option Bool) :=
  values.map fun v => v.map fun _ => accepted

/-- The comparison of an integer column with an integer; one outside the range decides it. -/
def compareInteger (kind : IntegerType) (values : List (Option kind.Value)) (comparison : ValueComparison)
    (value : ℤ) : List (Option Bool) :=
  if value < kind.lower then
    everyValue values (comparison ∈ [ValueComparison.greater, .greaterEqual, .notEqual])
  else if kind.upper < value then
    everyValue values (comparison ∈ [ValueComparison.less, .lessEqual, .notEqual])
  else values.map fun v => v.map fun v => comparison.kernel v.1 value

section
-- `float(value)`, none where it raises `OverflowError`
variable (float : ℤ → Option ℚ)

/-- `_as_float` of an integer. -/
def asFloat (value : ℤ) : FloatValue :=
  match float value with
  | some q => .finite q
  | none => .infinity (!decide (0 < value))

/-- The comparison of a float column with a float: Arrow's kernel. -/
def compareFloats (values : List (Option FloatValue)) (comparison : ValueComparison) (value : FloatValue) :
    List (Option Bool) :=
  values.map fun v => v.map fun v => comparison.exactly v.extended value.extended

/-- `compare_literal`, of a column of numbers with a numeric literal. -/
def compareLiteral (column : Column) (comparison : ValueComparison) (value : Number) :
    List (Option Bool) :=
  match column, value with
  | .integer _ values, .float .nan => everyValue values (comparison = .notEqual)
  | .integer kind values, .float (.finite q) =>
    if comparison ∈ [ValueComparison.equal, .notEqual] ∧ q.den ≠ 1 then
      everyValue values (comparison = .notEqual)
    else compareInteger kind values comparison
      (if comparison ∈ [ValueComparison.less, .greaterEqual] then ⌈q⌉ else ⌊q⌋)
  -- an infinity is below the least value, or above the greatest
  | .integer _ values, .float (.infinity true) =>
    everyValue values (comparison ∈ [ValueComparison.greater, .greaterEqual, .notEqual])
  | .integer _ values, .float (.infinity false) =>
    everyValue values (comparison ∈ [ValueComparison.less, .lessEqual, .notEqual])
  | .integer kind values, .int n => compareInteger kind values comparison n
  | .floating values, .float x => compareFloats values comparison x
  | .floating values, .int n =>
    let rounded := asFloat float n
    if ValueComparison.notEqual.exactly rounded.extended (Number.int n).extended then
      let below := ValueComparison.less.exactly rounded.extended (Number.int n).extended
      match comparison with
      | .equal | .notEqual => everyValue values (comparison = .notEqual)
      | .less | .lessEqual => compareFloats values (if below then .lessEqual else .less) rounded
      | .greater | .greaterEqual => compareFloats values (if below then .greater else .greaterEqual) rounded
    else compareFloats values comparison rounded

/-- The integer a literal is in a type, if it has one there. -/
def IntegerType.held (kind : IntegerType) : Number → Option ℤ
  | .int n => if kind.lower ≤ n ∧ n ≤ kind.upper then some n else none
  | .float (.finite q) => if kind.lower ≤ q ∧ q ≤ kind.upper ∧ q.den = 1 then some q.num else none
  | .float _ => none

/-- The float a literal is, if a float holds it. -/
def heldFloat : Number → Option FloatValue
  | .int n =>
    if ValueComparison.equal.exactly (asFloat float n).extended (Number.int n).extended then
      some (asFloat float n)
    else none
  | .float x => some x

/-- `membership`, of a column of numbers in a list of numeric literals and nulls; `isIn` is Arrow's kernel
on floats. A null is in no list. -/
def membership (isIn : FloatValue → List FloatValue → Bool) (column : Column)
    (literals : List (Option Number)) : List Bool :=
  let literals := literals.filterMap id
  match column with
  | .integer kind values =>
    values.map fun v => v.any fun v => v.1 ∈ literals.filterMap kind.held
  | .floating values => values.map fun v => v.any fun v => isIn v (literals.filterMap (heldFloat float))

end

/-! ## Integer columns -/

section
variable {kind : IntegerType} {values : List (Option kind.Value)} {comparison : ValueComparison}

/-- One outcome for every value is right where each value has it. -/
lemma everyValue_eq {α : Type} {values : List (Option α)} {accepted : Bool} {f : α → Bool}
    (h : ∀ v, f v = accepted) : everyValue values accepted = values.map fun v => v.map f := by
  have hf : f = fun _ => accepted := funext h
  rw [hf, everyValue]

/-- The extended numbers of integers compare as the integers. -/
lemma exactly_int (v n : ℤ) :
    comparison.exactly (Number.int v).extended (Number.int n).extended = comparison.kernel v n := by
  cases comparison <;> simp [ValueComparison.exactly, ValueComparison.kernel, Number.extended]

lemma exactly_finite (v : ℤ) (q : ℚ) : comparison.exactly (Number.int v).extended
    (FloatValue.finite q).extended = comparison.kernel (v : ℚ) q := by
  cases comparison <;>
    simp [ValueComparison.exactly, ValueComparison.kernel, Number.extended, FloatValue.extended]

lemma compareInteger_eq {n : ℤ} :
    compareInteger kind values comparison n = values.map fun v => v.map fun v => comparison.kernel v.1 n := by
  unfold compareInteger
  split_ifs with hlow hhigh
  · refine everyValue_eq fun v => ?_
    have hv := v.2.1
    cases comparison <;> simp [ValueComparison.kernel] <;> omega
  · refine everyValue_eq fun v => ?_
    have hv := v.2.2
    cases comparison <;> simp [ValueComparison.kernel] <;> omega
  · rfl

lemma floor_of_den {q : ℚ} (h : q.den = 1) : ((⌊q⌋ : ℤ) : ℚ) = q := by
  have hq := Rat.coe_int_num_of_den_eq_one h
  rw [← hq, Int.floor_intCast]

/-- A bound that is no integer moves to the next one on the side the comparison leaves open. -/
lemma kernel_bound {q : ℚ} (v : ℤ) (h : ¬(comparison ∈ [ValueComparison.equal, .notEqual] ∧ q.den ≠ 1)) :
    comparison.kernel v (if comparison ∈ [ValueComparison.less, .greaterEqual] then ⌈q⌉ else ⌊q⌋) =
      comparison.kernel (v : ℚ) q := by
  cases comparison with
  | less => simp [ValueComparison.kernel, Int.lt_ceil]
  | lessEqual => simp [ValueComparison.kernel, Int.le_floor]
  | greater => simp [ValueComparison.kernel, Int.floor_lt]
  | greaterEqual => simp [ValueComparison.kernel, Int.ceil_le]
  | equal =>
    have hq := floor_of_den (q := q) (by simpa using h)
    simp only [ValueComparison.kernel]
    rw [← hq]
    simp
  | notEqual =>
    have hq := floor_of_den (q := q) (by simpa using h)
    simp only [ValueComparison.kernel]
    rw [← hq]
    simp

/-- An integer is not a number with a fraction. -/
lemma kernel_fraction {q : ℚ} (v : ℤ) (h : comparison ∈ [ValueComparison.equal, .notEqual] ∧ q.den ≠ 1) :
    comparison.kernel (v : ℚ) q = decide (comparison = .notEqual) := by
  have hne : (v : ℚ) ≠ q := by
    rintro rfl
    exact h.2 (Rat.den_intCast v)
  cases comparison <;> simp_all [ValueComparison.kernel]

/-- A value is outside an infinity on its finite side. -/
lemma exactly_infinity (v : ℤ) (negative : Bool) :
    comparison.exactly (Number.int v).extended (FloatValue.infinity negative).extended =
      if negative then decide (comparison ∈ [ValueComparison.greater, .greaterEqual, .notEqual])
      else decide (comparison ∈ [ValueComparison.less, .lessEqual, .notEqual]) := by
  have htop : (((v : ℚ) : WithTop ℚ) : Extended) < ⊤ := by
    exact WithBot.coe_lt_coe.2 (WithTop.coe_lt_top _)
  have hbot : (⊥ : Extended) < (((v : ℚ) : WithTop ℚ) : Extended) := WithBot.bot_lt_coe _
  cases negative <;> cases comparison <;>
    simp [ValueComparison.exactly, ValueComparison.kernel, Number.extended, FloatValue.extended,
      htop, htop.le, htop.ne, htop.not_ge, htop.not_gt, hbot, hbot.le, hbot.ne', hbot.not_ge, hbot.not_gt]

/-- An integer column keeps its precision against every literal. -/
lemma compareLiteral_integer {float : ℤ → Option ℚ} {value : Number} :
    compareLiteral float (.integer kind values) comparison value = values.map fun v => v.map fun v =>
      comparison.exactly (Number.int v.1).extended value.extended := by
  cases value with
  | int n =>
    refine compareInteger_eq.trans ?_
    simp only [exactly_int]
  | float x =>
    cases x with
    | nan => exact everyValue_eq fun v => rfl
    | infinity negative =>
      cases negative with
      | false => exact everyValue_eq fun v => exactly_infinity v.1 false
      | true => exact everyValue_eq fun v => exactly_infinity v.1 true
    | finite q =>
      by_cases hfraction : comparison ∈ [ValueComparison.equal, .notEqual] ∧ q.den ≠ 1
      · simp only [compareLiteral, if_pos hfraction]
        refine everyValue_eq fun v => ?_
        exact (exactly_finite v.1 q).trans (kernel_fraction v.1 hfraction)
      · simp only [compareLiteral, if_neg hfraction]
        refine compareInteger_eq.trans ?_
        simp only [kernel_bound _ hfraction, ← exactly_finite]
        rfl

/-- A type holds a literal as one of its values where the value equals it. -/
lemma held_eq (v : kind.Value) (l : Number) : kind.held l = some v.1 ↔
    ValueComparison.equal.exactly (Number.int v.1).extended l.extended = true := by
  cases l with
  | int n =>
    simp only [IntegerType.held, exactly_int, ValueComparison.kernel, decide_eq_true_eq]
    split_ifs with hrange
    · exact ⟨fun h => (Option.some_inj.1 h).symm, fun h => congrArg some h.symm⟩
    · refine ⟨nofun, fun h => ?_⟩
      subst h
      exact absurd v.2 hrange
  | float x =>
    cases x with
    | nan => simp [IntegerType.held, Number.extended, FloatValue.extended, ValueComparison.exactly]
    | infinity negative =>
      rw [Number.extended_float, exactly_infinity]
      cases negative <;> simp [IntegerType.held]
    | finite q =>
      rw [Number.extended_float, exactly_finite]
      simp only [IntegerType.held, ValueComparison.kernel, decide_eq_true_eq]
      split_ifs with hrange
      · have hq := Rat.coe_int_num_of_den_eq_one hrange.2.2
        constructor
        · intro h
          rw [← hq, Option.some_inj.1 h]
        · rintro rfl
          rw [Rat.num_intCast]
      · refine ⟨nofun, ?_⟩
        rintro rfl
        refine absurd ⟨?_, ?_, Rat.den_intCast v.1⟩ hrange
        · exact_mod_cast v.2.1
        · exact_mod_cast v.2.2

/-- An integer is in a list of literals where it equals one of them. -/
lemma membership_integer {float : ℤ → Option ℚ} {isIn : FloatValue → List FloatValue → Bool}
    {literals : List (Option Number)} :
    membership float isIn (.integer kind values) literals = values.map fun v => v.any fun v =>
      literals.any fun l => l.any fun l =>
        ValueComparison.equal.exactly (Number.int v.1).extended l.extended := by
  refine List.map_congr_left fun v _ => congrArg (Option.any · v) (funext fun v => ?_)
  rw [Bool.eq_iff_iff, decide_eq_true_eq, List.any_eq_true]
  constructor
  · intro h
    obtain ⟨l, hl, hheld⟩ := List.mem_filterMap.1 h
    obtain ⟨o, ho, heq⟩ := List.mem_filterMap.1 hl
    cases heq
    exact ⟨some l, ho, (held_eq v l).1 hheld⟩
  · rintro ⟨o, ho, hany⟩
    obtain ⟨l, rfl, heq⟩ := (Option.any_eq_true _ _).1 hany
    exact List.mem_filterMap.2 ⟨l, List.mem_filterMap.2 ⟨_, ho, rfl⟩, (held_eq v l).2 heq⟩

end

/-! ## Float columns -/

/-- Rounding to the nearest of the numbers a float holds, and past all of them to none. -/
def Nearest (representable : Set ℚ) (n : ℤ) : Option ℚ → Prop
  | some q => q ∈ representable ∧ ∀ r ∈ representable, |(n : ℚ) - q| ≤ |(n : ℚ) - r|
  | none => ∀ r ∈ representable, |r| < |(n : ℚ)|

/-- A finite float is one of the numbers a float holds. -/
def FloatValue.Held (representable : Set ℚ) (x : FloatValue) : Prop :=
  ∀ q, x = .finite q → q ∈ representable

section
variable {α : Type} [LinearOrder α] {x r n : α}

/-- With no value between a bound and the lower one it is rounded to, a value is below the bound, or up to
it, where it is up to the rounded one. -/
lemma le_rounded_iff (hr : r < n) (hx : x ≤ r ∨ n < x) : (x ≤ r ↔ x < n) ∧ (x ≤ r ↔ x ≤ n) := by
  obtain hx | hx := hx
  · exact ⟨iff_of_true hx (hx.trans_lt hr), iff_of_true hx (hx.trans hr.le)⟩
  · exact ⟨iff_of_false (hr.trans hx).not_ge hx.not_gt, iff_of_false (hr.trans hx).not_ge hx.not_ge⟩

/-- The same with the one it is rounded to above it. -/
lemma lt_rounded_iff (hr : n < r) (hx : x < n ∨ r ≤ x) : (x < r ↔ x < n) ∧ (x < r ↔ x ≤ n) := by
  obtain hx | hx := hx
  · exact ⟨iff_of_true (hx.trans hr) hx, iff_of_true (hx.trans hr) hx.le⟩
  · exact ⟨iff_of_false hx.not_gt (hr.trans_le hx).not_gt, iff_of_false hx.not_gt (hr.trans_le hx).not_ge⟩

end

section
variable {representable : Set ℚ} {float : ℤ → Option ℚ} {n : ℤ}

/-- No float lies between an integer and the float it is rounded to. -/
lemma Nearest.apart {rounded x : Extended} (hnear : Nearest representable n (float n))
    (hrounded : (asFloat float n).extended = some rounded) {v : FloatValue}
    (hv : v.Held representable) (hx : v.extended = some x) :
    (rounded < ((n : ℚ) : WithTop ℚ) → x ≤ rounded ∨ (((n : ℚ) : WithTop ℚ) : Extended) < x) ∧
    ((((n : ℚ) : WithTop ℚ) : Extended) < rounded → x < ((n : ℚ) : WithTop ℚ) ∨ rounded ≤ x) := by
  cases v with
  | nan => cases hx
  | infinity negative =>
    cases negative <;> cases hx
    · exact ⟨fun _ => .inr (WithBot.coe_lt_coe.2 (WithTop.coe_lt_top _)), fun _ => .inr le_top⟩
    · exact ⟨fun _ => .inl bot_le, fun _ => .inl (WithBot.bot_lt_coe _)⟩
  | finite p =>
    cases hx
    have hp := hv p rfl
    unfold asFloat at hrounded
    cases hfloat : float n with
    | some q =>
      rw [hfloat] at hrounded hnear
      cases hrounded
      -- the nearer of two floats on one side of the integer is the one next to it
      have hnearer := hnear.2 p hp
      simp only [WithBot.coe_lt_coe, WithTop.coe_lt_coe, WithBot.coe_le_coe, WithTop.coe_le_coe]
      constructor
      · intro hlt
        by_contra! hbetween
        rw [abs_of_pos (sub_pos.2 hlt), abs_of_nonneg (sub_nonneg.2 hbetween.2)] at hnearer
        linarith [hbetween.1]
      · intro hlt
        by_contra! hbetween
        rw [abs_of_neg (sub_neg.2 hlt), abs_of_nonpos (sub_nonpos.2 hbetween.1)] at hnearer
        linarith [hbetween.2]
    | none =>
      rw [hfloat] at hrounded hnear
      have hpast := hnear p hp
      by_cases hpos : 0 < n
      · have hn : |(n : ℚ)| = n := abs_of_pos (Int.cast_pos.2 hpos)
        have hlt : p < n := hn ▸ (le_abs_self p).trans_lt hpast
        refine ⟨fun hr => ?_, fun _ => .inl (WithBot.coe_lt_coe.2 (WithTop.coe_lt_coe.2 hlt))⟩
        rw [decide_eq_true hpos] at hrounded
        cases hrounded
        exact absurd hr not_top_lt
      · have hn : |(n : ℚ)| = -n := abs_of_nonpos (Int.cast_nonpos.2 (not_lt.1 hpos))
        have hlt : (n : ℚ) < p := by linarith [neg_abs_le p]
        refine ⟨fun _ => .inr (WithBot.coe_lt_coe.2 (WithTop.coe_lt_coe.2 hlt)), fun hr => ?_⟩
        rw [decide_eq_false hpos] at hrounded
        cases hrounded
        exact absurd hr not_lt_bot

lemma asFloat_extended : ∃ rounded : Extended, (asFloat float n).extended = some rounded := by
  unfold asFloat
  cases float n with
  | some q => exact ⟨_, rfl⟩
  | none =>
    cases !decide (0 < n)
    · exact ⟨_, rfl⟩
    · exact ⟨_, rfl⟩

/-- The comparison a bound no float holds is replaced by, on one value. -/
lemma exactly_rounded {comparison : ValueComparison} {rounded : Extended}
    (hnear : Nearest representable n (float n)) (hrounded : (asFloat float n).extended = some rounded)
    (hne : rounded ≠ ((n : ℚ) : WithTop ℚ)) {v : FloatValue} (hv : v.Held representable) :
    comparison.exactly v.extended (Number.int n).extended =
      match comparison with
      | .equal | .notEqual => decide (comparison = .notEqual)
      | .less | .lessEqual => (if rounded < ((n : ℚ) : WithTop ℚ) then ValueComparison.lessEqual
          else .less).exactly v.extended (asFloat float n).extended
      | .greater | .greaterEqual => (if rounded < ((n : ℚ) : WithTop ℚ) then ValueComparison.greater
          else .greaterEqual).exactly v.extended (asFloat float n).extended := by
  cases hx : v.extended with
  | none => cases comparison <;> simp [ValueComparison.exactly] <;> split_ifs <;> simp
  | some x =>
    obtain ⟨hbelow, habove⟩ := hnear.apart hrounded hv hx
    rw [hrounded]
    simp only [Number.extended, ValueComparison.exactly]
    obtain hlt | hgt := lt_or_gt_of_ne hne
    · obtain ⟨hl, hle⟩ := le_rounded_iff hlt (hbelow hlt)
      have hxn : x ≠ ((n : ℚ) : WithTop ℚ) := by
        rintro rfl
        exact absurd (hle.2 le_rfl) hlt.not_ge
      cases comparison with
      | equal => simp [ValueComparison.kernel, hxn]
      | notEqual => simp [ValueComparison.kernel, hxn]
      | less => simp only [if_pos hlt, ValueComparison.kernel, hl]
      | lessEqual => simp only [if_pos hlt, ValueComparison.kernel, hle]
      | greater =>
        simp only [if_pos hlt, ValueComparison.kernel]
        exact decide_eq_decide.2 (not_iff_not.1 (by rw [not_lt, not_lt, hle]))
      | greaterEqual =>
        simp only [if_pos hlt, ValueComparison.kernel]
        exact decide_eq_decide.2 (not_iff_not.1 (by rw [not_le, not_lt, hl]))
    · obtain ⟨hl, hle⟩ := lt_rounded_iff hgt (habove hgt)
      have hxn : x ≠ ((n : ℚ) : WithTop ℚ) := by
        rintro rfl
        exact absurd (hl.1 hgt) (lt_irrefl _)
      cases comparison with
      | equal => simp [ValueComparison.kernel, hxn]
      | notEqual => simp [ValueComparison.kernel, hxn]
      | less => simp only [if_neg hgt.not_gt, ValueComparison.kernel, hl]
      | lessEqual => simp only [if_neg hgt.not_gt, ValueComparison.kernel, hle]
      | greater =>
        simp only [if_neg hgt.not_gt, ValueComparison.kernel]
        exact decide_eq_decide.2 (not_iff_not.1 (by rw [not_lt, not_le, hle]))
      | greaterEqual =>
        simp only [if_neg hgt.not_gt, ValueComparison.kernel]
        exact decide_eq_decide.2 (not_iff_not.1 (by rw [not_le, not_le, hl]))

/-- A float column compares with an integer of any size as their values do. -/
lemma compareLiteral_floating {values : List (Option FloatValue)} {comparison : ValueComparison}
    (hnear : Nearest representable n (float n))
    (hvalues : ∀ v ∈ values, ∀ x ∈ v, x.Held representable) :
    compareLiteral float (.floating values) comparison (.int n) = values.map fun v => v.map fun v =>
      comparison.exactly v.extended (Number.int n).extended := by
  obtain ⟨rounded, hrounded⟩ : ∃ rounded : Extended, (asFloat float n).extended = some rounded :=
    asFloat_extended
  have hdiffers : ValueComparison.notEqual.exactly (asFloat float n).extended (Number.int n).extended =
      decide (rounded ≠ ((n : ℚ) : WithTop ℚ)) := by rw [hrounded]; rfl
  have hbelow : ValueComparison.less.exactly (asFloat float n).extended (Number.int n).extended =
      decide (rounded < ((n : ℚ) : WithTop ℚ)) := by rw [hrounded]; rfl
  unfold compareLiteral
  dsimp only
  rw [hdiffers, hbelow]
  simp only [decide_eq_true_eq]
  by_cases heq : rounded = ((n : ℚ) : WithTop ℚ)
  · rw [if_neg (not_not.2 heq), compareFloats, hrounded, heq]
    rfl
  · rw [if_pos heq]
    refine Eq.trans ?_ (List.map_congr_left fun v hv => Option.map_congr fun x hx =>
      (exactly_rounded hnear hrounded heq (hvalues v hv x hx)).symm)
    cases comparison <;> rfl

end

/-- A column of integers of any width and sign compares with every numeric literal, and is a member of
every list of them, as the exact numbers do; and a column of floats compares with an integer of any size as
the exact numbers do, where the integer is rounded to the nearest float. -/
theorem literals_exact (float : ℤ → Option ℚ) (isIn : FloatValue → List FloatValue → Bool) :
    (∀ (kind : IntegerType) (values : List (Option kind.Value)) comparison value,
      compareLiteral float (.integer kind values) comparison value = values.map fun v => v.map fun v =>
        comparison.exactly (Number.int v.1).extended value.extended) ∧
    (∀ (kind : IntegerType) (values : List (Option kind.Value)) literals,
      membership float isIn (.integer kind values) literals = values.map fun v => v.any fun v =>
        literals.any fun l => l.any fun l =>
          ValueComparison.equal.exactly (Number.int v.1).extended l.extended) ∧
    ∀ (representable : Set ℚ) (values : List (Option FloatValue)) comparison (n : ℤ),
      (∀ v ∈ values, ∀ x ∈ v, x.Held representable) → Nearest representable n (float n) →
      compareLiteral float (.floating values) comparison (.int n) = values.map fun v => v.map fun v =>
        comparison.exactly v.extended (Number.int n).extended := by
  refine ⟨?_, ?_, ?_⟩
  · intro kind values comparison value
    exact compareLiteral_integer
  · intro kind values literals
    exact membership_integer
  · intro representable values comparison n hvalues hnear
    exact compareLiteral_floating hnear hvalues

/-- The numbers a 64-bit float holds. -/
def binary64 : Set ℚ := {q | ∃ m e : ℤ, |m| < 2 ^ 53 ∧ -1074 ≤ e ∧ e ≤ 971 ∧ q = m * 2 ^ e}

/-- The first integer a 64-bit float does not hold is rounded to the even of its neighbours. -/
lemma nearest_binary64 : Nearest binary64 (2 ^ 53 + 1) (some (2 ^ 53)) := by
  refine ⟨⟨2 ^ 52, 1, by norm_num, by norm_num, by norm_num, by norm_num⟩, ?_⟩
  rintro r ⟨m, e, hm, -, -, rfl⟩
  have hone : |(((2 ^ 53 + 1 : ℤ) : ℚ)) - 2 ^ 53| = 1 := by norm_num
  rw [hone]
  obtain he | he := le_or_gt e 0
  · -- below the significand's width a float is smaller
    have hpow : (2 : ℚ) ^ e ≤ 1 := zpow_le_one_of_nonpos₀ (by norm_num) he
    have hm' : |(m : ℚ)| ≤ 2 ^ 53 - 1 := by
      have := Int.le_sub_one_of_lt hm
      exact_mod_cast this
    have hr : (m : ℚ) * 2 ^ e ≤ 2 ^ 53 - 1 := by
      calc (m : ℚ) * 2 ^ e ≤ |(m : ℚ)| * 2 ^ e :=
            mul_le_mul_of_nonneg_right (le_abs_self _) (zpow_nonneg (by norm_num) e)
        _ ≤ |(m : ℚ)| * 1 := by gcongr
        _ ≤ 2 ^ 53 - 1 := by linarith
    refine le_trans ?_ (le_abs_self _)
    push_cast
    linarith
  · -- above it a float is even
    obtain ⟨k, hk⟩ : ∃ k : ℕ, e = k + 1 := ⟨(e - 1).toNat, by omega⟩
    have hr : (((2 ^ 53 + 1 : ℤ) : ℚ)) - m * 2 ^ e = ((2 ^ 53 + 1 - m * 2 ^ k * 2 : ℤ) : ℚ) := by
      rw [hk, zpow_add_one₀ (by norm_num), zpow_natCast]
      push_cast
      ring
    rw [hr, ← Int.cast_abs]
    have hodd : (2 ^ 53 + 1 - m * 2 ^ k * 2 : ℤ) ≠ 0 := by omega
    exact_mod_cast Int.one_le_abs hodd

/-- An integer rounded to 53 bits, where 54 hold it: to the even of two neighbours. -/
def roundEven (n : ℤ) : Option ℚ :=
  some (if |n| ≤ 2 ^ 53 then n else (2 * ((n + n / 2 % 2) / 2) : ℤ))

/-- The floats on both sides of an integer between them, and a null. -/
theorem literals_exact_between :
    compareLiteral roundEven (.floating [some (.finite (2 ^ 53)), some (.finite (2 ^ 53 + 2)), none])
      .less (.int (2 ^ 53 + 1)) = [some true, some false, none] := by
  rw [(literals_exact roundEven fun _ _ => false).2.2 binary64]
  · decide +kernel
  · intro v hv x hx q hq
    subst hq
    simp only [List.mem_cons, List.not_mem_nil, or_false] at hv
    obtain rfl | rfl | rfl := hv
    · cases hx
      exact ⟨2 ^ 52, 1, by norm_num, by norm_num, by norm_num, by norm_num⟩
    · cases hx
      exact ⟨2 ^ 52 + 1, 1, by norm_num, by norm_num, by norm_num, by norm_num⟩
    · cases hx
  · have hround : roundEven (2 ^ 53 + 1) = some (2 ^ 53) := by decide +kernel
    rw [hround]
    exact nearest_binary64

end Quail.Logical
