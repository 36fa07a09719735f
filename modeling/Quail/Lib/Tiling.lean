import Mathlib.Tactic.Basic
import Mathlib.Tactic.Common
import Mathlib.Data.List.Basic
import Mathlib.Order.Lattice
import Mathlib.Order.Nat

/-!
# Contiguous pieces of a range

`Tiles start stop lo l hi` says that the pieces of the list `l`, none of them empty, follow one
another from `lo` to `hi`. A stream cut into such pieces is read in order, every position once: the
slices of a list at the pieces concatenate to the slice from `lo` to `hi`.
-/

variable {α β : Type} {start stop : α → ℕ} {lo mid hi hi' : ℕ} {l l' : List α} {x : α}

/-- The pieces of `l` follow one another from `lo` to `hi`. -/
def Tiles (start stop : α → ℕ) : ℕ → List α → ℕ → Prop
  | lo, [], hi => lo = hi
  | lo, x :: l, hi => start x = lo ∧ lo < stop x ∧ Tiles start stop (stop x) l hi

namespace Tiles

@[simp] lemma nil : Tiles start stop lo [] hi ↔ lo = hi := Iff.rfl

@[simp] lemma cons : Tiles start stop lo (x :: l) hi ↔
    start x = lo ∧ lo < stop x ∧ Tiles start stop (stop x) l hi := Iff.rfl

lemma le (h : Tiles start stop lo l hi) : lo ≤ hi := by
  induction l generalizing lo with
  | nil => exact h.le
  | cons x l ih =>
    obtain ⟨_, hlt, h⟩ := h
    exact hlt.le.trans (ih h)

lemma eq_nil (h : Tiles start stop lo l lo) : l = [] := by
  cases l with
  | nil => rfl
  | cons x l =>
    obtain ⟨_, hlt, h⟩ := h
    exact absurd h.le (Nat.not_le.2 hlt)

/-- Where the pieces end is determined by the pieces. -/
lemma unique (h : Tiles start stop lo l hi) (h' : Tiles start stop lo l hi') : hi = hi' := by
  induction l generalizing lo with
  | nil => exact h.symm.trans h'
  | cons x l ih => exact ih h.2.2 h'.2.2

lemma append (h : Tiles start stop lo l mid) (h' : Tiles start stop mid l' hi) :
    Tiles start stop lo (l ++ l') hi := by
  induction l generalizing lo with
  | nil =>
    rw [nil] at h
    exact h ▸ h'
  | cons x l ih => exact ⟨h.1, h.2.1, ih h.2.2⟩

lemma split (h : Tiles start stop lo (l ++ l') hi) :
    ∃ mid, Tiles start stop lo l mid ∧ Tiles start stop mid l' hi := by
  induction l generalizing lo with
  | nil => exact ⟨lo, rfl, h⟩
  | cons x l ih =>
    obtain ⟨mid, h₁, h₂⟩ := ih h.2.2
    exact ⟨mid, ⟨h.1, h.2.1, h₁⟩, h₂⟩

/-- One more piece at the end. -/
lemma snoc (h : Tiles start stop lo l mid) (hx : start x = mid) (hlt : mid < stop x) :
    Tiles start stop lo (l ++ [x]) (stop x) := h.append ⟨hx, hlt, rfl⟩

/-- The piece after the first pieces starts where they end. -/
lemma next (h : Tiles start stop lo (l ++ x :: l') hi) (hl : Tiles start stop lo l mid) :
    start x = mid ∧ mid < stop x ∧ stop x ≤ hi := by
  obtain ⟨mid', h₁, h₂⟩ := h.split
  obtain rfl := h₁.unique hl
  exact ⟨h₂.1, h₂.2.1, h₂.2.2.le⟩

/-- No piece ends after the last one. -/
lemma stop_le (h : Tiles start stop lo l hi) (hx : x ∈ l) : stop x ≤ hi := by
  induction l generalizing lo with
  | nil => cases hx
  | cons y l ih =>
    obtain ⟨_, _, h⟩ := h
    cases hx with
    | head => exact h.le
    | tail _ hx => exact ih h hx

/-- The slices at the pieces concatenate to the whole slice. -/
lemma flatMap_slice (xs : List β) (h : Tiles start stop lo l hi) :
    l.flatMap (fun x => (xs.take (stop x)).drop (start x)) = (xs.take hi).drop lo := by
  induction l generalizing lo with
  | nil =>
    rw [nil] at h
    simp [h, List.drop_take]
  | cons x l ih =>
    obtain ⟨rfl, hlt, h⟩ := h
    have hcut : xs.take (stop x) = (xs.take hi).take (stop x) := by
      rw [List.take_take, Nat.min_eq_left h.le]
    rw [List.flatMap_cons, ih h, hcut, List.drop_take]
    conv_rhs => rw [← List.take_append_drop (stop x - start x) ((xs.take hi).drop (start x))]
    rw [List.drop_drop, Nat.add_sub_cancel' hlt.le]

end Tiles
