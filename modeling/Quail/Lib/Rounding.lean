import Mathlib.Algebra.Order.Field.Power
import Mathlib.Algebra.Order.Round
import Mathlib.Data.Int.Log
import Mathlib.Data.Rat.Floor
import Mathlib.Tactic.Linarith
import Mathlib.Tactic.Positivity
import Mathlib.Tactic.Ring

/-!
# Decimal rounding

Rounding to a number of significant digits, half to even, and to an integer, half away from zero. What has
few enough digits is not rounded, and a number rounded twice is rounded once where the first rounding moves
it less than it is away from the nearest half.
-/

namespace Rounding

/-- The nearest integer; of two, the even one. -/
def halfEven (x : ℚ) : ℤ :=
  if Int.fract x < 1 / 2 then ⌊x⌋
  else if 1 / 2 < Int.fract x then ⌊x⌋ + 1
  else if Even ⌊x⌋ then ⌊x⌋ else ⌊x⌋ + 1

/-- The nearest integer; of two, the one away from zero. -/
def halfAway (x : ℚ) : ℤ := if 0 ≤ x then ⌊x + 1 / 2⌋ else -⌊-x + 1 / 2⌋

/-- The nearest number of some significant decimal digits; of two, the one whose last digit is even. -/
def significant (digits : ℕ) (x : ℚ) : ℚ :=
  if x = 0 then 0
  else
    let unit : ℚ := 10 ^ (Int.log 10 |x| + 1 - digits)
    halfEven (x / unit) * unit

variable {x y : ℚ}

lemma halfEven_intCast (n : ℤ) : halfEven n = n := by
  rw [halfEven, Int.fract_intCast, if_pos (by norm_num), Int.floor_intCast]

/-- An integer is at most half a unit away from what is rounded to it. -/
lemma abs_halfEven_sub_le (x : ℚ) : |(halfEven x : ℚ) - x| ≤ 1 / 2 := by
  have hfract := Int.self_sub_floor x
  have hpos := Int.fract_nonneg x
  have hlt := Int.fract_lt_one x
  unfold halfEven
  rw [abs_le]
  split_ifs with hlow hhigh heven
  · constructor <;> linarith
  · push_cast
    constructor <;> linarith
  · constructor <;> linarith
  · push_cast
    constructor <;> linarith

/-- What has as many significant digits is not rounded. -/
lemma significant_eq {digits : ℕ} (k e : ℤ) (hk : |k| < 10 ^ digits) :
    significant digits ((k : ℚ) * 10 ^ e) = k * 10 ^ e := by
  unfold significant
  dsimp only
  split_ifs with hzero
  · exact hzero.symm
  · have hpos : 0 < |(k : ℚ) * 10 ^ e| := abs_pos.2 hzero
    have hten : (0 : ℚ) < 10 ^ e := by positivity
    -- the unit of the last digit divides the number
    have hle : Int.log 10 |(k : ℚ) * 10 ^ e| + 1 - digits ≤ e := by
      have hlt : |(k : ℚ) * 10 ^ e| < ((10 : ℕ) : ℚ) ^ (digits + e : ℤ) := by
        rw [abs_mul, abs_of_pos hten, Nat.cast_ofNat, zpow_add₀ (by norm_num), zpow_natCast]
        refine mul_lt_mul_of_pos_right ?_ hten
        exact_mod_cast hk
      have := (Int.lt_zpow_iff_log_lt (by norm_num) hpos).1 hlt
      omega
    obtain ⟨n, hn⟩ := Int.eq_ofNat_of_zero_le (sub_nonneg.2 hle)
    have hunit : (k : ℚ) * 10 ^ e / 10 ^ (Int.log 10 |(k : ℚ) * 10 ^ e| + 1 - digits) =
        ((k * 10 ^ n : ℤ) : ℚ) := by
      rw [mul_div_assoc, ← zpow_sub₀ (by norm_num), hn]
      push_cast
      rw [zpow_natCast]
    rw [hunit, halfEven_intCast, ← hunit]
    exact div_mul_cancel₀ _ (by positivity)

/-- Rounding to significant digits moves a number at most half a unit of its last digit. -/
lemma abs_significant_sub_le {digits : ℕ} {m : ℤ} (h : |x| < 10 ^ m) :
    |significant digits x - x| ≤ 10 ^ (m - digits) / 2 := by
  unfold significant
  dsimp only
  split_ifs with hzero
  · rw [hzero, sub_zero, abs_zero]
    positivity
  · have hpos : 0 < |x| := abs_pos.2 hzero
    have hlog : Int.log 10 |x| < m := (Int.lt_zpow_iff_log_lt (by norm_num) hpos).1 (by simpa using h)
    set unit : ℚ := 10 ^ (Int.log 10 |x| + 1 - digits) with hunit
    have hunitpos : 0 < unit := by positivity
    have hle : unit ≤ 10 ^ (m - digits) := zpow_le_zpow_right₀ (by norm_num) (by omega)
    have hmul : (halfEven (x / unit) : ℚ) * unit - x = (halfEven (x / unit) - x / unit) * unit := by
      rw [sub_mul, div_mul_cancel₀ _ hunitpos.ne']
    rw [hmul, abs_mul, abs_of_pos hunitpos]
    calc |(halfEven (x / unit) : ℚ) - x / unit| * unit
        ≤ 1 / 2 * unit := mul_le_mul_of_nonneg_right (abs_halfEven_sub_le _) hunitpos.le
      _ ≤ 10 ^ (m - digits) / 2 := by linarith

/-- Away from the halves, a half rounds up as it rounds away from zero. -/
lemma halfAway_eq_floor (h : ∀ k : ℤ, x ≠ k + 1 / 2) : halfAway x = ⌊x + 1 / 2⌋ := by
  unfold halfAway
  split_ifs with hx
  · rfl
  · have hle := Int.floor_le (x + 1 / 2)
    have hlt := Int.lt_floor_add_one (x + 1 / 2)
    have hne : (⌊x + 1 / 2⌋ : ℚ) ≠ x + 1 / 2 := by
      intro heq
      refine h (⌊x + 1 / 2⌋ - 1) ?_
      push_cast
      linarith
    have hlt' := lt_of_le_of_ne hle hne
    rw [neg_eq_iff_eq_neg, Int.floor_eq_iff]
    push_cast
    constructor <;> linarith

/-- A number that is moved less than it is away from every half is rounded as before. -/
lemma halfAway_congr (h : ∀ k : ℤ, |y - x| < |x - (k + 1 / 2)|) : halfAway y = halfAway x := by
  have hx : ∀ k : ℤ, x ≠ k + 1 / 2 := by
    intro k heq
    have hlt := h k
    rw [heq, sub_self, abs_zero] at hlt
    exact absurd hlt (abs_nonneg _).not_gt
  have hy : ∀ k : ℤ, y ≠ k + 1 / 2 := by
    intro k heq
    have hlt := h k
    rw [← heq, abs_sub_comm] at hlt
    exact lt_irrefl _ hlt
  rw [halfAway_eq_floor hx, halfAway_eq_floor hy, Int.floor_eq_iff]
  have hle := Int.floor_le (x + 1 / 2)
  have hlt := Int.lt_floor_add_one (x + 1 / 2)
  -- else a half lies between the two numbers
  constructor
  · by_contra! hlow
    have hmoved := h (⌊x + 1 / 2⌋ - 1)
    push_cast at hmoved
    rw [abs_of_nonneg (show 0 ≤ x - ((⌊x + 1 / 2⌋ : ℚ) - 1 + 1 / 2) by linarith)] at hmoved
    linarith [neg_abs_le (y - x)]
  · by_contra! hhigh
    have hmoved := h ⌊x + 1 / 2⌋
    rw [abs_of_neg (show x - ((⌊x + 1 / 2⌋ : ℚ) + 1 / 2) < 0 by linarith)] at hmoved
    linarith [le_abs_self (y - x)]

/-- Rounding stays within a bound that is an integer. -/
lemma abs_halfAway_le {n : ℤ} (h : |x| ≤ n) : |halfAway x| ≤ n := by
  obtain ⟨hlow, hhigh⟩ := abs_le.1 h
  unfold halfAway
  split_ifs with hx
  · have hfloor : 0 ≤ ⌊x + 1 / 2⌋ := Int.floor_nonneg.2 (by linarith)
    have hlt : ⌊x + 1 / 2⌋ < n + 1 := Int.floor_lt.2 (by push_cast; linarith)
    rw [abs_of_nonneg hfloor]
    omega
  · have hfloor : 0 ≤ ⌊-x + 1 / 2⌋ := Int.floor_nonneg.2 (by linarith)
    have hlt : ⌊-x + 1 / 2⌋ < n + 1 := Int.floor_lt.2 (by push_cast; linarith)
    rw [abs_neg, abs_of_nonneg hfloor]
    omega

end Rounding
