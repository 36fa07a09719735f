import Mathlib.Tactic.Basic
import Mathlib.Tactic.Common
import Mathlib.Algebra.Order.Floor.Div
import Mathlib.Data.List.Basic

/-!
# Python values

The built-in exceptions a program raises, and the list slices `xs[:i]`, `xs[i:]` and `xs[i:j]` for
bounds of either sign.
-/

/-- A raised exception and its text. -/
inductive PyError where
  | key (text : String)
  | index (text : String)
  | value (text : String)
  | type (text : String)
  | zeroDivision
  | runtime (text : String)
  | assertion (text : String)
  deriving Repr, DecidableEq

@[simp] lemma ok_bind {α β ε : Type} {a : α} {f : α → Except ε β} : (Except.ok a >>= f) = f a := rfl

@[simp] lemma error_bind {α β ε : Type} {e : ε} {f : α → Except ε β} :
    (Except.error e >>= f) = .error e := rfl

namespace Slice

variable {α : Type}

/-- The position a slice bound stands for in a list of `n` elements: a negative one counts from the
end, and one past either end is the end. -/
def bound (n : ℕ) (i : ℤ) : ℕ := if i < 0 then (i + n).toNat else min i.toNat n

/-- `xs[:i]`. -/
def before (xs : List α) (i : ℤ) : List α := xs.take (bound xs.length i)

/-- `xs[i:]`. -/
def after (xs : List α) (i : ℤ) : List α := xs.drop (bound xs.length i)

/-- `xs[i:j]`. -/
def between (xs : List α) (i j : ℤ) : List α :=
  (xs.take (bound xs.length j)).drop (bound xs.length i)

/-- `xs[:i] + xs[i:]` is `xs`. -/
lemma split (xs : List α) (i : ℤ) : before xs i ++ after xs i = xs := List.take_append_drop _ _

lemma before_sublist {xs : List α} {i : ℤ} : (before xs i).Sublist xs := List.take_sublist _ _

lemma after_sublist {xs : List α} {i : ℤ} : (after xs i).Sublist xs := List.drop_sublist _ _

lemma between_sublist {xs : List α} {i j : ℤ} : (between xs i j).Sublist xs :=
  (List.drop_sublist _ _).trans (List.take_sublist _ _)

@[simp] lemma bound_natCast {n i : ℕ} : bound n (i : ℤ) = min i n := by
  simp [bound]

end Slice
