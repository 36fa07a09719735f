import Quail.Relational.Window
import Mathlib.Data.Int.ModEq
import Mathlib.Data.Prod.Lex
import Mathlib.Algebra.Order.Ring.Int
import Mathlib.Tactic.Ring
import Mathlib.Tactic.Linarith

/-!
# Integer columns

The integers of Arrow's columns: a sum of integers of a column is of the column's own type, and wraps there.
-/

namespace Quail.Relational

/-- An integer type of Arrow. -/
structure IntType where
  signed : Bool
  bits : ℕ
  bits_pos : 0 < bits
  deriving DecidableEq

namespace IntType
variable {t : IntType} {m n : ℤ}

/-- The least integer of the type. -/
def low (t : IntType) : ℤ := if t.signed then -2 ^ (t.bits - 1) else 0

/-- An integer the type has. -/
def Fits (t : IntType) (n : ℤ) : Prop := t.low ≤ n ∧ n < t.low + 2 ^ t.bits

instance (t : IntType) (n : ℤ) : Decidable (t.Fits n) := inferInstanceAs (Decidable (_ ∧ _))

/-- The integer of the type that an operation comes out at. -/
def wrap (t : IntType) (n : ℤ) : ℤ := (n - t.low) % 2 ^ t.bits + t.low

lemma pow_pos (t : IntType) : (0 : ℤ) < 2 ^ t.bits := by positivity

lemma fits_wrap (t : IntType) (n : ℤ) : t.Fits (t.wrap n) := by
  have := Int.emod_nonneg (n - t.low) t.pow_pos.ne'
  have := Int.emod_lt_of_pos (n - t.low) t.pow_pos
  unfold Fits wrap
  constructor <;> linarith

lemma wrap_eq_iff : t.wrap n = n ↔ t.Fits n := by
  constructor
  · intro h
    rw [← h]
    exact t.fits_wrap n
  · rintro ⟨hlow, hhigh⟩
    rw [wrap, Int.emod_eq_of_lt (by linarith) (by linarith), sub_add_cancel]

lemma fits_zero (t : IntType) : t.Fits 0 := by
  have hhalf : (2 : ℤ) ^ t.bits = 2 * 2 ^ (t.bits - 1) := by
    rw [← pow_succ', Nat.sub_add_cancel t.bits_pos]
  have hpos : (0 : ℤ) < 2 ^ (t.bits - 1) := by positivity
  unfold Fits low
  split_ifs
  · rw [hhalf]
    constructor <;> linarith
  · rw [hhalf]
    constructor <;> linarith

lemma wrap_modEq (t : IntType) (n : ℤ) : t.wrap n ≡ n [ZMOD 2 ^ t.bits] := by
  have := (Int.mod_modEq (n - t.low) (2 ^ t.bits)).add_right t.low
  rwa [sub_add_cancel] at this

lemma wrap_congr (h : m ≡ n [ZMOD 2 ^ t.bits]) : t.wrap m = t.wrap n := by
  rw [wrap, wrap, (h.sub_right t.low : _ % _ = _)]

lemma wrap_add : t.wrap (t.wrap m + t.wrap n) = t.wrap (m + n) :=
  wrap_congr ((t.wrap_modEq m).add (t.wrap_modEq n))

lemma wrap_sub : t.wrap (t.wrap m - t.wrap n) = t.wrap (m - n) :=
  wrap_congr ((t.wrap_modEq m).sub (t.wrap_modEq n))

lemma wrap_wrap : t.wrap (t.wrap n) = t.wrap n := wrap_congr (t.wrap_modEq n)

/-- A number for each type. -/
def code (t : IntType) : ℕ := 2 * t.bits + t.signed.toNat + 1

lemma code_injective : Function.Injective code := by
  rintro ⟨signed, bits, hpos⟩ ⟨signed', bits', hpos'⟩ h
  have hcode : 2 * bits + signed.toNat + 1 = 2 * bits' + signed'.toNat + 1 := h
  cases signed <;> cases signed' <;> simp at hcode ⊢ <;> omega

end IntType

/-- An integer of a column, in the column's type. A literal has no type, and takes that of what it meets; counts
of rows are literals, since no table has more rows than 64 bits count. -/
structure Scalar where
  type : Option IntType
  value : ℤ
  deriving DecidableEq

namespace Scalar

/-- The result of an operation in a type. -/
def ofInt (type : Option IntType) (n : ℤ) : Scalar := ⟨type, type.elim n (·.wrap n)⟩

instance : Add Scalar := ⟨fun s s' => ofInt (s.type <|> s'.type) (s.value + s'.value)⟩

instance : Sub Scalar := ⟨fun s s' => ofInt (s.type <|> s'.type) (s.value - s'.value)⟩

instance : NatCast Scalar := ⟨fun n => ⟨none, n⟩⟩

/-- A number for each type, and for none. -/
def typeCode (s : Scalar) : ℕ := s.type.elim 0 IntType.code

/-- By value; of a column's integers all have one type. -/
instance : LinearOrder Scalar := LinearOrder.lift' (fun s => toLex (s.value, s.typeCode)) <| by
  rintro ⟨type, value⟩ ⟨type', value'⟩ h
  obtain ⟨rfl, hcode⟩ : value = value' ∧ type.elim 0 IntType.code = type'.elim 0 IntType.code :=
    Prod.mk.inj (toLex.injective h)
  cases type with
  | none =>
    cases type' with
    | none => rfl
    | some t => simp [IntType.code] at hcode
  | some t =>
    cases type' with
    | none => simp [IntType.code] at hcode
    | some t' => rw [IntType.code_injective hcode]

end Scalar

namespace Cell

/-- The cell of an integer, whatever its type. -/
def integer : Cell Scalar → Cell ℤ
  | value s => value s.value
  | null => null
  | nan => nan

/-- What a cell adds to a sum. -/
def amount : Cell Scalar → ℤ
  | value s => s.value
  | _ => 0

end Cell

/-- A cell of a column of integers. -/
def OfType (t : IntType) (c : Cell Scalar) : Prop := c = .null ∨ ∃ n, t.Fits n ∧ c = .value ⟨some t, n⟩

/-- A cell of a running sum in a type stands for a total: it wraps, or no value was added yet. -/
def Totals (t : IntType) (c : Cell Scalar) (total : ℤ) : Prop :=
  (c = .value ⟨none, 0⟩ ∧ total = 0) ∨ c = .value ⟨some t, t.wrap total⟩

namespace Totals
variable {t : IntType} {c c' : Cell Scalar} {a b : ℤ}

lemma zero (t : IntType) : Totals t (.value ((0 : ℕ) : Scalar)) 0 := .inl ⟨rfl, rfl⟩

/-- An operation of two integers of one type, one of which may still be a literal. -/
lemma ofInt_value {n : ℤ} (h : t.wrap n = t.wrap a) : Totals t (.value (Scalar.ofInt (some t) n)) a :=
  .inr (congrArg (fun m => Cell.value (Scalar.mk (some t) m)) h)

lemma add (h : Totals t c a) (h' : Totals t c' b) : Totals t (c.add c') (a + b) := by
  rcases h with ⟨rfl, rfl⟩ | rfl <;> rcases h' with ⟨rfl, rfl⟩ | rfl
  · exact .inl ⟨rfl, rfl⟩
  · apply ofInt_value
    rw [zero_add, zero_add, IntType.wrap_wrap]
  · apply ofInt_value
    rw [add_zero, add_zero, IntType.wrap_wrap]
  · apply ofInt_value
    rw [IntType.wrap_add]

lemma sub (h : Totals t c a) (h' : Totals t c' b) : Totals t (c.sub c') (a - b) := by
  rcases h with ⟨rfl, rfl⟩ | rfl <;> rcases h' with ⟨rfl, rfl⟩ | rfl
  · exact .inl ⟨rfl, rfl⟩
  · apply ofInt_value
    have := @IntType.wrap_sub t 0 b
    rwa [IntType.wrap_eq_iff.2 t.fits_zero] at this
  · apply ofInt_value
    rw [sub_zero, sub_zero, IntType.wrap_wrap]
  · apply ofInt_value
    rw [IntType.wrap_sub]

/-- A running sum is right exactly if the total is an integer of the type. -/
lemma integer_eq_iff (h : Totals t c a) : c.integer = .value a ↔ t.Fits a := by
  rcases h with ⟨rfl, rfl⟩ | rfl
  · exact iff_of_true rfl t.fits_zero
  · rw [← IntType.wrap_eq_iff]
    exact ⟨fun h => Cell.value.inj h, congrArg Cell.value⟩

/-- A running sum comes out at an integer of the type. -/
lemma fits (h : Totals t c a) {n : ℤ} (hn : c.integer = .value n) : t.Fits n := by
  rcases h with ⟨rfl, -⟩ | rfl
  · obtain rfl : 0 = n := Cell.value.inj hn
    exact t.fits_zero
  · obtain rfl : t.wrap a = n := Cell.value.inj hn
    exact t.fits_wrap a

end Totals

end Quail.Relational
