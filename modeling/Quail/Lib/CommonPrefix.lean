import Mathlib.Tactic.Common
import Mathlib.Data.List.Lex
import Mathlib.Order.Lattice

/-!
# Common prefixes

`commonPrefix xs ys` is the length of the prefix two lists share. It is an ultrametric, it is convex
along the lexicographic order (between two lists nothing shares less with the upper one), and it is
counted in whole blocks when every element is encoded by a block of one fixed length.
-/

variable {τ β : Type} [DecidableEq τ] [DecidableEq β]

/-- The length of the prefix two lists share. -/
def commonPrefix : List τ → List τ → ℕ
  | x :: xs, y :: ys => if x = y then commonPrefix xs ys + 1 else 0
  | _, _ => 0

namespace CommonPrefix

@[simp] lemma nil_left {ys : List τ} : commonPrefix [] ys = 0 := by cases ys <;> rfl

@[simp] lemma nil_right {xs : List τ} : commonPrefix xs [] = 0 := by cases xs <;> rfl

@[simp] lemma cons_self {x : τ} {xs ys : List τ} :
    commonPrefix (x :: xs) (x :: ys) = commonPrefix xs ys + 1 := by simp [commonPrefix]

lemma cons_ne {x y : τ} {xs ys : List τ} (h : x ≠ y) : commonPrefix (x :: xs) (y :: ys) = 0 := by
  simp [commonPrefix, h]

/-- Sharing `m` elements, spelled out. -/
lemma le_iff {m : ℕ} {xs ys : List τ} :
    m ≤ commonPrefix xs ys ↔ m ≤ xs.length ∧ m ≤ ys.length ∧ xs.take m = ys.take m := by
  induction xs generalizing ys m with
  | nil => cases m <;> simp
  | cons x xs ih =>
    cases ys with
    | nil => cases m <;> simp
    | cons y ys =>
      cases m with
      | zero => simp
      | succ m =>
        by_cases h : x = y
        · subst h
          simp [ih]
        · simp [cons_ne h, h]

/-- Two lists that share `m` elements with a third share them with each other. -/
lemma trans {m : ℕ} {xs ys zs : List τ} (h : m ≤ commonPrefix xs ys) (h' : m ≤ commonPrefix ys zs) :
    m ≤ commonPrefix xs zs := by
  obtain ⟨h1, _, h3⟩ := le_iff.1 h
  obtain ⟨_, h2, h4⟩ := le_iff.1 h'
  exact le_iff.2 ⟨h1, h2, h3.trans h4⟩

/-- In the lexicographic order, what lies between two lists shares as much with the upper one. -/
lemma convex {α : Type} [LinearOrder α] {xs ys zs : List α} (h : xs ≤ ys) (h' : ys ≤ zs) :
    commonPrefix xs zs ≤ commonPrefix ys zs := by
  induction xs generalizing ys zs with
  | nil => simp
  | cons x xs ih =>
    cases zs with
    | nil => simp
    | cons z zs =>
      by_cases hxz : x = z
      · subst hxz
        cases ys with
        | nil => exact absurd (List.nil_lt_cons x xs) (not_lt.2 h)
        | cons y ys =>
          rw [← not_lt, List.cons_lt_cons_iff, not_or] at h h'
          have hxy : x = y := le_antisymm (not_lt.1 h.1) (not_lt.1 h'.1)
          subst hxy
          have hs : xs ≤ ys := not_lt.1 fun hlt => h.2 ⟨rfl, hlt⟩
          have hs' : ys ≤ zs := not_lt.1 fun hlt => h'.2 ⟨rfl, hlt⟩
          simpa using ih hs hs'
      · rw [cons_ne hxz]
        exact Nat.zero_le _

/-! ## Encoded elements -/

lemma append_self {w xs ys : List β} :
    commonPrefix (w ++ xs) (w ++ ys) = w.length + commonPrefix xs ys := by
  induction w with
  | nil => simp
  | cons b w ih =>
    simp only [List.cons_append, cons_self, ih, List.length_cons]
    omega

/-- Two different blocks of one length part before their end. -/
lemma append_ne {w w' : List β} (xs ys : List β) (hlen : w.length = w'.length) (h : w ≠ w') :
    commonPrefix (w ++ xs) (w' ++ ys) < w.length := by
  by_contra hle
  rw [Nat.not_lt, le_iff] at hle
  refine h ?_
  have htake := hle.2.2
  rw [List.take_left] at htake
  rw [hlen, List.take_left] at htake
  exact htake

/-- Whole blocks shared by the encodings are elements shared by the lists. -/
lemma flatMap {enc : τ → List β} {w : ℕ} (hw : 0 < w) (hlen : ∀ x, (enc x).length = w)
    (hinj : Function.Injective enc) {xs ys : List τ} :
    commonPrefix (xs.flatMap enc) (ys.flatMap enc) / w = commonPrefix xs ys := by
  induction xs generalizing ys with
  | nil => simp
  | cons x xs ih =>
    cases ys with
    | nil => simp
    | cons y ys =>
      rw [List.flatMap_cons, List.flatMap_cons]
      by_cases h : x = y
      · subst h
        rw [append_self, hlen, cons_self, Nat.add_div_left _ hw, ih]
      · have hne := append_ne (xs.flatMap enc) (ys.flatMap enc)
          ((hlen x).trans (hlen y).symm) (fun e => h (hinj e))
        rw [cons_ne h, Nat.div_eq_of_lt (hlen x ▸ hne)]

end CommonPrefix
