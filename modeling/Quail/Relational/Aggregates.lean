import Quail.Lib.Rounding
import Quail.Logical.Literals
import Mathlib.Data.Nat.Digits.Defs
import Mathlib.Data.Nat.Size
import Mathlib.Tactic.FieldSimp

/-!
# Aggregates

`prepare_aggregate` of `execution/aggregates.py`, which picks an accumulator for a SUM or AVG that holds
every total on the way, and `_decimal_total`, which sums decimals in Python where no Arrow type is wide
enough.
-/

namespace Quail.Relational
open Logical Rounding

/-- A decimal type: its width in bits, its digits, and how many of them are fraction digits. -/
structure DecimalType where
  bitWidth : ℕ
  precision : ℕ
  scale : ℤ
  deriving Repr, DecidableEq

namespace DecimalType

/-- The values of a decimal type, by their digits. -/
abbrev Value (kind : DecimalType) := {c : ℤ // |c| < 10 ^ kind.precision}

/-- The number a value is. -/
def toRat (kind : DecimalType) (v : kind.Value) : ℚ := v.1 * 10 ^ (-kind.scale)

end DecimalType

/-- The types an aggregate reads and returns, as far as `prepare_aggregate` tells them apart. -/
inductive AggregateType where
  | integer (kind : IntegerType)
  | decimal (kind : DecimalType)
  | float64
  | other
  deriving Repr, DecidableEq

/-- The Arrow kernel asked for. -/
inductive AggregateKernel where
  | sum | mean | other
  deriving Repr, DecidableEq

/-- How an aggregate accumulates: in Arrow's own type, in a decimal type cast to the output in the end, or
in Python. -/
inductive Accumulator where
  | arrow
  | decimal (accumulator : DecimalType) (output : AggregateType)
  | python (output : AggregateType)
  deriving Repr, DecidableEq

/-- `len(str(n))`, of a positive number. -/
def digits (n : ℕ) : ℕ := (Nat.digits 10 n).length

/-- `prepare_aggregate`, of a column's type and length; `bounded` says whether a float column's largest value
is far enough from the largest float. -/
def prepareAggregate (dtype : AggregateType) (bounded : Bool) (kernel : AggregateKernel) (n : ℕ) :
    Accumulator :=
  if kernel = .other then .arrow
  else
    match dtype with
    | .integer kind =>
      if kernel = .sum then
        if kind.bitWidth + Nat.size n ≤ 64 then .arrow
        -- 38 digits hold any int64 times Arrow's largest row count
        else .decimal ⟨128, 38, 0⟩ (.integer ⟨64, kind.signed⟩)
      else .arrow
    | .decimal kind =>
      let output :=
        if kernel = .sum then
          if kind.bitWidth = 256 then ⟨256, 76, kind.scale⟩ else ⟨128, 38, kind.scale⟩
        else kind
      let precision := kind.precision + digits (max 1 n)
      if precision ≤ 76 then
        .decimal (if precision ≤ 38 then ⟨128, 38, kind.scale⟩ else ⟨256, 76, kind.scale⟩) (.decimal output)
      else .python (.decimal output)
    | .float64 => if bounded then .arrow else .python .float64
    | .other => .arrow

/-- The signals of decimal arithmetic that are raised. -/
inductive DecimalSignal where
  | invalidOperation
  deriving Repr, DecidableEq

/-- `quantize` to a scale, half up; the digits must fit the context. -/
def quantize (precision : ℕ) (scale : ℤ) (x : ℚ) : Except DecimalSignal ℚ :=
  let c := halfAway (x * 10 ^ scale)
  if |c| < 10 ^ precision then .ok (c * 10 ^ (-scale)) else .error .invalidOperation

/-- `_decimal_total`: every operation rounds to the context's significant digits. -/
def decimalTotal (kernel : AggregateKernel) (kind : DecimalType) (values : List kind.Value) :
    Except DecimalSignal (Option ℚ) :=
  match values with
  | [] => .ok none
  | values =>
    let precision := kind.precision + digits values.length + 2
    let total := values.foldl (fun total v => significant precision (total + kind.toRat v)) 0
    if kernel = .mean then
      (quantize precision kind.scale (significant precision (total / values.length))).map some
    else .ok (some total)

/-! ## Arrow's accumulators -/

/-- The values of a column that are not null. -/
def validValues {P : ℤ → Prop} (values : List (Option {n : ℤ // P n})) : List ℤ :=
  values.filterMap fun v => v.map Subtype.val

lemma length_validValues {P : ℤ → Prop} (values : List (Option {n : ℤ // P n})) :
    (validValues values).length ≤ values.length := List.length_filterMap_le _ _

lemma validValues_spec {P : ℤ → Prop} {values : List (Option {n : ℤ // P n})} :
    ∀ x ∈ validValues values, P x := by
  intro x hx
  obtain ⟨v, -, heq⟩ := List.mem_filterMap.1 hx
  obtain ⟨n, rfl, rfl⟩ := Option.map_eq_some_iff.1 heq
  exact n.2

/-- A sum of numbers within a bound is within as many times the bound. -/
lemma abs_sum_le {l : List ℤ} {b : ℤ} (h : ∀ x ∈ l, |x| ≤ b) : |l.sum| ≤ l.length * b := by
  induction l with
  | nil => simp
  | cons x l ih =>
    obtain ⟨hx, h⟩ := List.forall_mem_cons.1 h
    have hadd := abs_add_le x l.sum
    rw [List.sum_cons, List.length_cons]
    push_cast
    linarith [ih h]

/-- A sum of some of the values within a bound is below a bound on their number times it. -/
lemma abs_sum_lt {P : ℤ → Prop} {values : List (Option {n : ℤ // P n})} {part : List ℤ}
    (hpart : part.Subperm (validValues values)) (bound : ℤ) {count : ℤ} (hbound : 0 < bound)
    (hP : ∀ x, P x → |x| ≤ bound) (hcount : (values.length : ℤ) < count) : |part.sum| < count * bound := by
  have hle := abs_sum_le fun x hx => hP x (validValues_spec x (hpart.subset hx))
  have hlen : (part.length : ℤ) ≤ values.length :=
    Int.ofNat_le.2 (hpart.length_le.trans (length_validValues values))
  calc |part.sum| ≤ part.length * bound := hle
    _ < count * bound := mul_lt_mul_of_pos_right (hlen.trans_lt hcount) hbound

lemma lt_pow_digits (n : ℕ) : n < 10 ^ digits n := Nat.lt_base_pow_length_digits (by norm_num)

/-- Where Arrow's own sum is kept, 64 bits hold the sum of any of the values, in any order. -/
lemma arrow_sum_fits {kind : IntegerType} (hwidth : 0 < kind.bitWidth) {values : List (Option kind.Value)}
    {bounded : Bool} (h : prepareAggregate (.integer kind) bounded .sum values.length = .arrow)
    {part : List ℤ} (hpart : part.Subperm (validValues values)) :
    (⟨64, kind.signed⟩ : IntegerType).lower ≤ part.sum ∧ part.sum ≤ (⟨64, kind.signed⟩ : IntegerType).upper := by
  have hbits : kind.bitWidth + Nat.size values.length ≤ 64 := by
    by_contra hnot
    simp [prepareAggregate, hnot] at h
  have hcount : (values.length : ℤ) < 2 ^ Nat.size values.length := by
    exact_mod_cast Nat.lt_size_self values.length
  obtain ⟨width, signed⟩ := kind
  dsimp only at hwidth hbits ⊢
  cases signed with
  | true =>
    have hsum := abs_sum_lt hpart (2 ^ (width - 1)) (by positivity) (fun x hx => by
      simp only [IntegerType.lower, IntegerType.upper, Bool.toNat_true, if_true] at hx
      exact abs_le.2 ⟨hx.1, by omega⟩) hcount
    have hpow : (2 : ℤ) ^ Nat.size values.length * 2 ^ (width - 1) ≤ 2 ^ 63 := by
      rw [← pow_add]
      exact pow_le_pow_right₀ (by norm_num) (by omega)
    have hfits := abs_lt.1 (hsum.trans_le hpow)
    simp only [IntegerType.lower, IntegerType.upper, Bool.toNat_true, if_true]
    omega
  | false =>
    have hsum := abs_sum_lt hpart (2 ^ width) (by positivity) (fun x hx => by
      simp only [IntegerType.lower, IntegerType.upper, Bool.toNat_false, Bool.false_eq_true, if_false,
        Nat.sub_zero] at hx
      exact abs_le.2 ⟨by omega, by omega⟩) hcount
    have hpow : (2 : ℤ) ^ Nat.size values.length * 2 ^ width ≤ 2 ^ 64 := by
      rw [← pow_add]
      exact pow_le_pow_right₀ (by norm_num) (by omega)
    have hfits := abs_lt.1 (hsum.trans_le hpow)
    have hnonneg : 0 ≤ part.sum := List.sum_nonneg fun x hx => by
      have hx := validValues_spec x (hpart.subset hx)
      simpa [IntegerType.lower] using hx.1
    simp only [IntegerType.lower, IntegerType.upper, Bool.toNat_false, Bool.false_eq_true, if_false]
    omega

/-- The decimal accumulator holds the sum of any of the values, in any order. -/
lemma decimal_sum_fits {kind : DecimalType} {values : List (Option kind.Value)} {bounded : Bool}
    {kernel : AggregateKernel} {accumulator : DecimalType} {output : AggregateType}
    (h : prepareAggregate (.decimal kind) bounded kernel values.length = .decimal accumulator output)
    {part : List ℤ} (hpart : part.Subperm (validValues values)) :
    accumulator.scale = kind.scale ∧ |part.sum| < 10 ^ accumulator.precision := by
  have hcount : (values.length : ℤ) < 10 ^ digits (max 1 values.length) := by
    exact_mod_cast (le_max_right 1 values.length).trans_lt (lt_pow_digits _)
  have hsum := abs_sum_lt hpart (10 ^ kind.precision) (by positivity) (fun x hx => hx.le) hcount
  rw [← pow_add, Nat.add_comm] at hsum
  have hother : kernel ≠ .other := by
    rintro rfl
    cases h
  simp only [prepareAggregate, if_neg hother] at h
  by_cases hfits : kind.precision + digits (max 1 values.length) ≤ 76
  · rw [if_pos hfits] at h
    obtain ⟨rfl, -⟩ := Accumulator.decimal.inj h
    split_ifs with hsmall
    · exact ⟨rfl, hsum.trans_le (pow_le_pow_right₀ (by norm_num) hsmall)⟩
    · exact ⟨rfl, hsum.trans_le (pow_le_pow_right₀ (by norm_num) hfits)⟩
  · rw [if_neg hfits] at h
    cases h

/-! ## Decimals summed in Python -/

section
variable {kind : DecimalType} {values : List kind.Value}

/-- The sum of the values by their digits. -/
def unscaledSum (values : List kind.Value) : ℤ := (values.map Subtype.val).sum

lemma sum_toRat (values : List kind.Value) :
    (values.map kind.toRat).sum = (unscaledSum values : ℚ) * 10 ^ (-kind.scale) := by
  induction values with
  | nil => simp [unscaledSum]
  | cons v values ih =>
    simp only [unscaledSum, List.map_cons, List.sum_cons] at ih ⊢
    rw [ih, DecimalType.toRat]
    push_cast
    ring

lemma abs_unscaledSum_le (values : List kind.Value) :
    |unscaledSum values| ≤ values.length * (10 ^ kind.precision - 1) := by
  have hle := abs_sum_le (l := values.map Subtype.val) (b := 10 ^ kind.precision - 1) fun x hx => by
    obtain ⟨v, -, rfl⟩ := List.mem_map.1 hx
    exact Int.le_sub_one_of_lt v.2
  rwa [List.length_map] at hle

/-- No operation of the sum rounds. -/
lemma foldl_significant {precision : ℕ} (front back : List kind.Value)
    (h : (front ++ back).length * (10 ^ kind.precision - 1 : ℤ) < 10 ^ precision) :
    back.foldl (fun total v => significant precision (total + kind.toRat v))
      ((unscaledSum front : ℚ) * 10 ^ (-kind.scale)) =
      (unscaledSum (front ++ back) : ℚ) * 10 ^ (-kind.scale) := by
  induction back generalizing front with
  | nil => rw [List.append_nil]; rfl
  | cons v back ih =>
    have hsum : (unscaledSum front : ℚ) * 10 ^ (-kind.scale) + kind.toRat v =
        (unscaledSum (front ++ [v]) : ℚ) * 10 ^ (-kind.scale) := by
      rw [DecimalType.toRat, unscaledSum, unscaledSum, List.map_append, List.sum_append]
      simp only [List.map_cons, List.map_nil, List.sum_cons, List.sum_nil, add_zero]
      push_cast
      ring
    have hassoc : front ++ v :: back = front ++ [v] ++ back := by simp
    rw [hassoc] at h ⊢
    have hexact : significant precision ((unscaledSum front : ℚ) * 10 ^ (-kind.scale) + kind.toRat v) =
        (unscaledSum (front ++ [v]) : ℚ) * 10 ^ (-kind.scale) := by
      rw [hsum]
      refine significant_eq _ _ ((abs_unscaledSum_le _).trans_lt (lt_of_le_of_lt ?_ h))
      have hnonneg : (0 : ℤ) ≤ 10 ^ kind.precision - 1 := by
        have := pow_pos (show (0 : ℤ) < 10 by norm_num) kind.precision
        omega
      have hlen : (front ++ [v]).length ≤ (front ++ [v] ++ back).length :=
        (List.sublist_append_left _ _).length_le
      exact mul_le_mul_of_nonneg_right (Int.ofNat_le.2 hlen) hnonneg
    rw [List.foldl_cons, hexact]
    exact ih (front ++ [v]) h

/-- The context holds every sum on the way. -/
lemma sum_lt_context (values : List kind.Value) :
    values.length * (10 ^ kind.precision - 1 : ℤ) < 10 ^ (kind.precision + digits values.length + 2) := by
  have hdigits : (values.length : ℤ) < 10 ^ digits values.length := by
    exact_mod_cast lt_pow_digits values.length
  have hpos : (0 : ℤ) < 10 ^ kind.precision := by positivity
  calc (values.length * (10 ^ kind.precision - 1) : ℤ)
      ≤ values.length * 10 ^ kind.precision := mul_le_mul_of_nonneg_left (by omega) (Int.natCast_nonneg _)
    _ < 10 ^ digits values.length * 10 ^ kind.precision := mul_lt_mul_of_pos_right hdigits hpos
    _ = 10 ^ (kind.precision + digits values.length) := by rw [pow_add, mul_comm]
    _ ≤ 10 ^ (kind.precision + digits values.length + 2) := pow_le_pow_right₀ (by norm_num) (by omega)

lemma foldl_eq (values : List kind.Value) :
    values.foldl (fun total v =>
      significant (kind.precision + digits values.length + 2) (total + kind.toRat v)) 0 =
      (unscaledSum values : ℚ) * 10 ^ (-kind.scale) := by
  have hfold := foldl_significant [] values (sum_lt_context values)
  simpa [unscaledSum] using hfold

/-- A quotient by a number is away from every half it does not equal. -/
lemma half_apart {total : ℤ} {n : ℕ} (hn : 0 < n) {k : ℤ} (hne : (total : ℚ) / n ≠ k + 1 / 2) :
    1 / (2 * n) ≤ |(total : ℚ) / n - (k + 1 / 2)| := by
  have hnpos : (0 : ℚ) < n := Nat.cast_pos.2 hn
  have hdiff : (total : ℚ) / n - (k + 1 / 2) = ((2 * total - (2 * k + 1) * n : ℤ) : ℚ) / (2 * n) := by
    push_cast
    field_simp
  have hnum : 2 * total - (2 * k + 1) * n ≠ 0 := by
    intro hzero
    rw [hzero, Int.cast_zero, zero_div, sub_eq_zero] at hdiff
    exact hne hdiff
  rw [hdiff, abs_div, abs_of_pos (show (0 : ℚ) < 2 * n by positivity)]
  refine div_le_div_of_nonneg_right ?_ (by positivity)
  exact_mod_cast Int.one_le_abs hnum

/-- The quotient rounded to the context and then to the scale is rounded once. -/
lemma halfAway_significant {total : ℤ} {n p : ℕ} (scale : ℤ) (hn : 0 < n)
    (htotal : |total| < n * 10 ^ p) :
    halfAway (significant (p + digits n + 2) (total * 10 ^ (-scale) / n) * 10 ^ scale) =
      halfAway ((total : ℚ) / n) := by
  have hnpos : (0 : ℚ) < n := Nat.cast_pos.2 hn
  have hscale : (0 : ℚ) < 10 ^ scale := by positivity
  have hsmall : |(total : ℚ) / n| < 10 ^ p := by
    rw [abs_div, abs_of_pos hnpos, div_lt_iff₀ hnpos, mul_comm]
    exact_mod_cast htotal
  have hquotient : (total : ℚ) * 10 ^ (-scale) / n = total / n * 10 ^ (-scale) := by ring
  have hback : (total : ℚ) / n * 10 ^ (-scale) * 10 ^ scale = total / n := by
    rw [mul_assoc, ← zpow_add₀ (by norm_num), neg_add_cancel, zpow_zero, mul_one]
  rw [hquotient]
  by_cases htie : ∃ k : ℤ, (total : ℚ) / n = k + 1 / 2
  · -- a half has one digit more than the values and is not rounded
    obtain ⟨k, hk⟩ := htie
    have hdigits : (total : ℚ) / n * 10 ^ (-scale) = ((10 * k + 5 : ℤ) : ℚ) * 10 ^ (-scale - 1) := by
      rw [hk, zpow_sub_one₀ (by norm_num)]
      push_cast
      ring
    have hlt : |10 * k + 5| < 10 ^ (p + digits n + 2) := by
      have hten : ((10 * k + 5 : ℤ) : ℚ) = 10 * (total / n) := by
        rw [hk]
        push_cast
        ring
      have hle : (10 : ℚ) ^ (p + 1) ≤ 10 ^ (p + digits n + 2) := pow_le_pow_right₀ (by norm_num) (by omega)
      have hlt : |((10 * k + 5 : ℤ) : ℚ)| < 10 ^ (p + digits n + 2) := by
        rw [hten, abs_mul, abs_of_pos (by norm_num : (0 : ℚ) < 10)]
        rw [pow_succ] at hle
        linarith
      exact_mod_cast hlt
    rw [hdigits, significant_eq _ _ hlt, ← hdigits, hback]
  · refine halfAway_congr fun k => ?_
    have hbound : |(total : ℚ) / n * 10 ^ (-scale)| < 10 ^ ((p : ℤ) - scale) := by
      rw [abs_mul, abs_of_pos (show (0 : ℚ) < 10 ^ (-scale) by positivity), sub_eq_add_neg,
        zpow_add₀ (by norm_num), zpow_natCast]
      exact mul_lt_mul_of_pos_right hsmall (by positivity)
    have hmoved : |significant (p + digits n + 2) ((total : ℚ) / n * 10 ^ (-scale)) -
        total / n * 10 ^ (-scale)| * 10 ^ scale ≤ _ :=
      mul_le_mul_of_nonneg_right (abs_significant_sub_le hbound) hscale.le
    have hhalf := half_apart hn (k := k) fun heq => htie ⟨k, heq⟩
    rw [← abs_of_pos hscale, ← abs_mul, abs_of_pos hscale, sub_mul, hback] at hmoved
    refine (hmoved.trans_lt ?_).trans_le hhalf
    have hguard : (10 : ℚ) ^ ((p : ℤ) - scale - (p + digits n + 2 : ℕ)) / 2 * 10 ^ scale =
        1 / (2 * 10 ^ (digits n + 2)) := by
      rw [div_mul_eq_mul_div, ← zpow_add₀ (by norm_num), one_div, mul_inv, mul_comm, ← zpow_natCast,
        ← zpow_neg, div_eq_inv_mul, mul_comm]
      congr 2
      push_cast
      ring
    have hcount : (n : ℚ) < 10 ^ (digits n + 2) := by
      exact_mod_cast (lt_pow_digits n).trans_le (Nat.pow_le_pow_right (by norm_num) (by omega))
    rw [hguard]
    refine one_div_lt_one_div_of_lt (by positivity) ?_
    linarith

/-- The sum of decimals is exact, and their mean is the exact quotient rounded once, half away from zero, at
the column's scale. -/
lemma decimalTotal_spec (hne : values ≠ []) :
    decimalTotal .sum kind values = .ok (some (values.map kind.toRat).sum) ∧
    decimalTotal .mean kind values =
      .ok (some (halfAway ((unscaledSum values : ℚ) / values.length) * 10 ^ (-kind.scale))) := by
  have hlen : 0 < values.length := List.length_pos_iff.2 hne
  have hmodel : ∀ kernel, decimalTotal kernel kind values =
      if kernel = .mean then
        (quantize (kind.precision + digits values.length + 2) kind.scale
          (significant (kind.precision + digits values.length + 2)
            ((unscaledSum values : ℚ) * 10 ^ (-kind.scale) / values.length))).map some
      else .ok (some ((unscaledSum values : ℚ) * 10 ^ (-kind.scale))) := by
    intro kernel
    cases values with
    | nil => exact absurd rfl hne
    | cons v values =>
      unfold decimalTotal
      dsimp only
      rw [foldl_eq]
  have hcount : (0 : ℤ) < values.length := Int.natCast_pos.2 hlen
  have hle := abs_unscaledSum_le values
  refine ⟨?_, ?_⟩
  · rw [hmodel, if_neg nofun, sum_toRat]
  · have hlt : |unscaledSum values| < values.length * 10 ^ kind.precision :=
      hle.trans_lt (mul_lt_mul_of_pos_left (by omega) hcount)
    rw [hmodel, if_pos rfl, quantize, halfAway_significant kind.scale hlen hlt]
    -- the mean has no more digits than the values
    have hmean : |(unscaledSum values : ℚ) / values.length| ≤ ((10 ^ kind.precision - 1 : ℤ) : ℚ) := by
      rw [abs_div, abs_of_pos (show (0 : ℚ) < values.length from Nat.cast_pos.2 hlen),
        div_le_iff₀ (Nat.cast_pos.2 hlen), mul_comm]
      exact_mod_cast hle
    have hfits : |halfAway ((unscaledSum values : ℚ) / values.length)| <
        10 ^ (kind.precision + digits values.length + 2) := by
      refine (abs_halfAway_le hmean).trans_lt ?_
      have hpow : (10 : ℤ) ^ kind.precision ≤ 10 ^ (kind.precision + digits values.length + 2) :=
        pow_le_pow_right₀ (by norm_num) (by omega)
      omega
    rw [if_pos hfits]
    rfl

end

/-- Of every integer column whose 64-bit sum is kept, no partial sum in any order overflows 64 bits; of every
decimal column, the accumulator picked holds every partial sum; and the total computed in Python is the exact
sum, or the exact mean rounded once. -/
theorem aggregates_exact :
    (∀ (kind : IntegerType) (values : List (Option kind.Value)) bounded, 0 < kind.bitWidth →
      prepareAggregate (.integer kind) bounded .sum values.length = .arrow →
      ∀ part : List ℤ, part.Subperm (validValues values) →
        (⟨64, kind.signed⟩ : IntegerType).lower ≤ part.sum ∧
          part.sum ≤ (⟨64, kind.signed⟩ : IntegerType).upper) ∧
    (∀ (kind : DecimalType) (values : List (Option kind.Value)) bounded kernel accumulator output,
      prepareAggregate (.decimal kind) bounded kernel values.length = .decimal accumulator output →
      ∀ part : List ℤ, part.Subperm (validValues values) →
        accumulator.scale = kind.scale ∧ |part.sum| < 10 ^ accumulator.precision) ∧
    ∀ (kind : DecimalType) (values : List kind.Value), values ≠ [] →
      decimalTotal .sum kind values = .ok (some (values.map kind.toRat).sum) ∧
      decimalTotal .mean kind values =
        .ok (some (halfAway ((unscaledSum values : ℚ) / values.length) * 10 ^ (-kind.scale))) := by
  refine ⟨?_, ?_, ?_⟩
  · intro kind values bounded hwidth h part hpart
    exact arrow_sum_fits hwidth h hpart
  · intro kind values bounded kernel accumulator output h part hpart
    exact decimal_sum_fits h hpart
  · intro kind values hne
    exact decimalTotal_spec hne

/-- The mean of 0.01 and 0.02 is a half of the last digit and rounds up. -/
theorem aggregates_exact_half :
    decimalTotal .mean ⟨128, 3, 2⟩ [⟨1, by decide⟩, ⟨2, by decide⟩] = .ok (some (2 / 100)) := by
  rw [(aggregates_exact.2.2 ⟨128, 3, 2⟩ [⟨1, by decide⟩, ⟨2, by decide⟩] (by simp)).2]
  decide +kernel

end Quail.Relational
