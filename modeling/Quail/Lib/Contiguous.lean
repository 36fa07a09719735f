import Mathlib.Data.List.Basic
import Mathlib.Data.List.Range
import Mathlib.Tactic.Common

/-!
# Classes that stand together

A list whose elements of one class stand together, as sorting by the class leaves them: it is the elements
before a class, the class, and the elements after. The starts of the runs of a list are the places where the
class changes.
-/

namespace Contiguous

variable {α κ : Type}

/-- What stands between two elements of a class is in the class. -/
def Together (f : α → κ) (xs : List α) : Prop := ∀ a b c, [a, b, c].Sublist xs → f a = f c → f b = f a

/-- A class is one block of the list. -/
lemma Together.exists_block [DecidableEq κ] {f : α → κ} {xs : List α} (h : Together f xs) (k : κ) :
    ∃ before after, xs = before ++ xs.filter (fun x => f x = k) ++ after ∧ (∀ x ∈ before, f x ≠ k) ∧
      ∀ x ∈ after, f x ≠ k := by
  induction xs with
  | nil => exact ⟨[], [], rfl, fun _ hx => absurd hx List.not_mem_nil, fun _ hx => absurd hx List.not_mem_nil⟩
  | cons x xs ih =>
    obtain ⟨before, after, hsplit, hbefore, hafter⟩ := ih fun a b c hsub => h a b c (hsub.cons x)
    by_cases hx : f x = k
    · rw [List.filter_cons_of_pos (by simpa using hx)]
      cases hclass : xs.filter (fun x => f x = k) with
      | nil =>
        rw [hclass, List.append_nil] at hsplit
        refine ⟨[], before ++ after, by rw [hsplit]; rfl, fun _ hx => absurd hx List.not_mem_nil, fun y hy => ?_⟩
        rcases List.mem_append.1 hy with hy | hy
        · exact hbefore y hy
        · exact hafter y hy
      | cons y ys =>
        rw [hclass] at hsplit
        have hy : f y = k := by
          have hmem : y ∈ xs.filter (fun x => f x = k) := by rw [hclass]; exact List.mem_cons_self
          simpa using (List.mem_filter.1 hmem).2
        -- an element before the rest of the class would stand between two of the class
        have hnone : before = [] := by
          refine List.eq_nil_iff_forall_not_mem.2 fun p hp => hbefore p hp ?_
          have hsub : [p, y].Sublist xs := by
            rw [hsplit, List.append_assoc]
            exact (List.singleton_sublist.2 hp).append (List.singleton_sublist.2 (by simp))
          exact (h x p y (hsub.cons_cons x) (hx.trans hy.symm)).trans hx
        subst hnone
        exact ⟨[], after, by rw [hsplit]; rfl, fun _ hx => absurd hx List.not_mem_nil, hafter⟩
    · rw [List.filter_cons_of_neg (by simpa using hx)]
      refine ⟨x :: before, after, ?_, List.forall_mem_cons.2 ⟨hx, hbefore⟩, hafter⟩
      rw [List.cons_append, List.cons_append, ← hsplit]

/-- Where the class differs from the one before. -/
def runStarts [DecidableEq κ] (classes : List κ) : List Bool :=
  (List.range classes.length).map fun k => decide (k = 0 ∨ classes[k]? ≠ classes[k - 1]?)

lemma length_runStarts [DecidableEq κ] (classes : List κ) : (runStarts classes).length = classes.length := by
  simp [runStarts]

lemma getElem?_runStarts [DecidableEq κ] {classes : List κ} {k : ℕ} (hk : k < classes.length) :
    (runStarts classes)[k]? = some (decide (k = 0 ∨ classes[k]? ≠ classes[k - 1]?)) := by
  rw [runStarts, List.getElem?_map, List.getElem?_range hk]
  rfl

/-- A run starts at the first element of a block, and not within it. -/
lemma getElem?_runStarts_block [DecidableEq κ] {before block after : List κ} {k : κ} (hbefore : ∀ x ∈ before, x ≠ k)
    (hblock : ∀ x ∈ block, x = k) {j : ℕ} (hj : j < block.length) :
    (runStarts (before ++ block ++ after))[before.length + j]? = some (decide (j = 0)) := by
  have hget : ∀ i < block.length, (before ++ block ++ after)[before.length + i]? = some k := by
    intro i hi
    rw [List.append_assoc, List.getElem?_append_right (Nat.le_add_right _ _), Nat.add_sub_cancel_left,
      List.getElem?_append_left hi, List.getElem?_eq_getElem hi, hblock _ (List.getElem_mem hi)]
  have hlt : before.length + j < (before ++ block ++ after).length := by
    simp only [List.length_append]
    omega
  rw [getElem?_runStarts hlt, hget j hj]
  congr 1
  rw [decide_eq_decide]
  cases j with
  | zero =>
    refine ⟨fun _ => rfl, fun _ => ?_⟩
    rcases Nat.eq_zero_or_pos before.length with hzero | hpos
    · exact .inl (by omega)
    · refine .inr fun heq => ?_
      rw [List.append_assoc, List.getElem?_append_left (by omega), List.getElem?_eq_getElem (by omega)] at heq
      exact hbefore _ (List.getElem_mem _) (Option.some.inj heq).symm
  | succ j =>
    rw [← Nat.add_assoc, Nat.add_sub_cancel, hget j (by omega)]
    simp

/-- A run starts after a block. -/
lemma getElem?_runStarts_after [DecidableEq κ] {before block after : List κ} {k : κ} (hblock : ∀ x ∈ block, x = k)
    (hafter : ∀ x ∈ after, x ≠ k) (hne : block ≠ []) (hmore : after ≠ []) :
    (runStarts (before ++ block ++ after))[before.length + block.length]? = some true := by
  have hpos := List.length_pos_iff.2 hne
  have hpos' := List.length_pos_iff.2 hmore
  rw [getElem?_runStarts (by simp only [List.length_append]; omega)]
  congr 1
  refine decide_eq_true (.inr fun heq => ?_)
  rw [← List.length_append, List.getElem?_append_right le_rfl, Nat.sub_self,
    List.getElem?_append_left (by simp only [List.length_append]; omega), List.length_append,
    List.getElem?_append_right (by omega), List.getElem?_eq_getElem (by omega), List.getElem?_eq_getElem (by omega)] at heq
  have hlast := hblock _ (List.getElem_mem (show before.length + block.length - 1 - before.length < block.length by omega))
  exact hafter _ (List.getElem_mem hpos') (by rw [Option.some.inj heq, hlast])

/-- Runs of two classes together. -/
lemma zipWith_runStarts {ι ν : Type} [DecidableEq κ] [DecidableEq ν] [DecidableEq ι] {f : α → κ} {g : α → ν} {h : α → ι}
    (hboth : ∀ a b, h a = h b ↔ f a = f b ∧ g a = g b) (xs : List α) :
    (runStarts (xs.map f)).zipWith (· || ·) (runStarts (xs.map g)) = runStarts (xs.map h) := by
  refine List.ext_getElem (by simp [length_runStarts]) fun k hk hk' => ?_
  have hlt : k < xs.length := by simpa [length_runStarts] using hk'
  simp only [runStarts, List.getElem_zipWith, List.getElem_map, List.getElem_range]
  rw [Bool.eq_iff_iff]
  cases k with
  | zero => simp
  | succ k =>
    have hk : k < xs.length := by omega
    simp only [Nat.add_sub_cancel, List.getElem?_map, List.getElem?_eq_getElem hlt, List.getElem?_eq_getElem hk,
      Option.map_some, ne_eq, Option.some.injEq, Bool.or_eq_true, decide_eq_true_eq, hboth]
    tauto

/-- Of elements in one class, the first starts the only run. -/
lemma runStarts_const [DecidableEq κ] (xs : List α) (k : κ) :
    runStarts (xs.map fun _ => k) = List.replicate (min xs.length 1) true ++ List.replicate (xs.length - 1) false := by
  cases xs with
  | nil => rfl
  | cons x xs =>
    have hone : min (x :: xs).length 1 = 1 := by simp
    rw [hone]
    refine List.ext_getElem (by simp [length_runStarts]) fun i hi hi' => ?_
    have hlt : i < xs.length + 1 := by simpa [length_runStarts] using hi
    simp only [runStarts, List.getElem_map, List.getElem_range]
    cases i with
    | zero => rfl
    | succ i =>
      have hi : i < (x :: xs).length := by simp; omega
      have hi' : i + 1 < (x :: xs).length := by simpa using hlt
      rw [List.getElem_append_right (by simp), List.getElem_replicate, Nat.add_sub_cancel, List.getElem?_map,
        List.getElem?_map, List.getElem?_eq_getElem hi, List.getElem?_eq_getElem hi']
      simp

end Contiguous
