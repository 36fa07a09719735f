import Mathlib.Tactic.Basic
import Mathlib.Tactic.Common
import Mathlib.Data.Fintype.Option

/-!
# Three-valued logic

Kleene's strong connectives on truth values that may be null, as Arrow's kernels compute them, and
`reduce`, the fold of a list from its first element. A fold by an associative operation may be taken
part by part (`reduce_flatten`) and commutes with every homomorphism (`reduce_map`), which is what De
Morgan's laws are for.
-/

variable {α β : Type}

/-- The fold of a list by a binary operation, from its first element. -/
def reduce (op : α → α → α) : List α → Option α
  | [] => none
  | x :: xs => some (xs.foldl op x)

@[simp] lemma reduce_nil {op : α → α → α} : reduce op [] = none := rfl

@[simp] lemma reduce_singleton {op : α → α → α} {x : α} : reduce op [x] = some x := rfl

/-- Two nonempty lists are folded one after the other. -/
lemma reduce_append {op : α → α → α} [Std.Associative op] {xs ys : List α} {a b : α}
    (hx : reduce op xs = some a) (hy : reduce op ys = some b) :
    reduce op (xs ++ ys) = some (op a b) := by
  cases xs with
  | nil => cases hx
  | cons x xs =>
    cases ys with
    | nil => cases hy
    | cons y ys =>
      obtain rfl : xs.foldl op x = a := Option.some.inj hx
      obtain rfl : ys.foldl op y = b := Option.some.inj hy
      show some ((xs ++ y :: ys).foldl op x) = _
      rw [List.foldl_append, List.foldl_cons, List.foldl_assoc]

/-- Parts folded each on its own and then together give the fold of the whole. -/
lemma reduce_flatten {op : α → α → α} [Std.Associative op] {parts : List (List α)} {rs : List α}
    (h : List.Forall₂ (fun part r => reduce op part = some r) parts rs) :
    reduce op parts.flatten = reduce op rs := by
  induction h with
  | nil => rfl
  | @cons part r parts rs hr h ih =>
    cases h with
    | nil => simpa using hr
    | @cons part' r' parts rs hr' h =>
      have hrest : reduce op (part' :: parts).flatten = some (rs.foldl op r') := ih
      have hwhole := reduce_append hr hrest
      have hfolded : reduce op ([r] ++ r' :: rs) = _ := reduce_append rfl rfl
      rw [List.flatten_cons, hwhole]
      exact hfolded.symm

/-- A homomorphism may be applied before or after the fold. -/
lemma reduce_map {op : α → α → α} {op' : β → β → β} {f : α → β}
    (hf : ∀ a b, f (op a b) = op' (f a) (f b)) {xs : List α} :
    reduce op' (xs.map f) = (reduce op xs).map f := by
  cases xs with
  | nil => rfl
  | cons x xs =>
    show some ((xs.map f).foldl op' (f x)) = some (f (xs.foldl op x))
    congr 1
    induction xs generalizing x with
    | nil => rfl
    | cons y xs ih => rw [List.map_cons, List.foldl_cons, List.foldl_cons, ← hf, ih]

/-- A truth value: true, false or null. -/
abbrev Kleene := Option Bool

namespace Kleene

/-- `NOT`: null stays null. -/
def invert : Kleene → Kleene
  | some b => some !b
  | none => none

/-- `AND`: false when either side is, whatever the other. -/
def andKleene : Kleene → Kleene → Kleene
  | some false, _ => some false
  | _, some false => some false
  | some true, some true => some true
  | _, _ => none

/-- `OR`: true when either side is, whatever the other. -/
def orKleene : Kleene → Kleene → Kleene
  | some true, _ => some true
  | _, some true => some true
  | some false, some false => some false
  | _, _ => none

@[simp] lemma invert_invert (a : Kleene) : invert (invert a) = a := by
  cases a with
  | none => rfl
  | some b => simp [invert]

/-- De Morgan's law for a conjunction. -/
lemma invert_andKleene (a b : Kleene) : invert (andKleene a b) = orKleene (invert a) (invert b) := by
  revert a b
  decide

/-- De Morgan's law for a disjunction. -/
lemma invert_orKleene (a b : Kleene) : invert (orKleene a b) = andKleene (invert a) (invert b) := by
  revert a b
  decide

instance : Std.Associative andKleene where
  assoc := by decide

instance : Std.Associative orKleene where
  assoc := by decide

end Kleene
