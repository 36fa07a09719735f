import Mathlib.Order.Basic
import Mathlib.Tactic.Basic
import Mathlib.Tactic.Common
import Mathlib.Data.List.Basic

/-!
# Nondominated records

A frontier keeps a record unless another is no larger in a preorder. Whatever the order of insertion,
the frontier's members are among the records inserted, and each of these is dominated by a member.
-/

namespace Pareto

variable {γ ω : Type} [Preorder ω] [DecidableLE ω] {cost : γ → ω} {frontier : List γ} {x c : γ}

/-- Keep a record unless another is no larger. -/
def insert (cost : γ → ω) (frontier : List γ) (c : γ) : List γ :=
  if frontier.any fun old => cost old ≤ cost c then frontier
  else frontier.filter (fun old => !decide (cost c ≤ cost old)) ++ [c]

/-- A member was there or is the record inserted. -/
lemma mem_of_insert (h : x ∈ insert cost frontier c) : x ∈ frontier ∨ x = c := by
  unfold insert at h
  split_ifs at h
  · exact .inl h
  · obtain h | h := List.mem_append.1 h
    · exact .inl (List.mem_filter.1 h).1
    · exact .inr (List.mem_singleton.1 h)

/-- What was there, and the record inserted, are dominated. -/
lemma insert_covers (h : x ∈ frontier ∨ x = c) : ∃ y ∈ insert cost frontier c, cost y ≤ cost x := by
  unfold insert
  split_ifs with hany
  · obtain h | rfl := h
    · exact ⟨x, h, le_rfl⟩
    · obtain ⟨old, hold, hle⟩ := List.any_eq_true.1 hany
      exact ⟨old, hold, of_decide_eq_true hle⟩
  · have hc : c ∈ frontier.filter (fun old => !decide (cost c ≤ cost old)) ++ [c] :=
      List.mem_append_right _ List.mem_cons_self
    obtain h | rfl := h
    · by_cases hle : cost c ≤ cost x
      · exact ⟨c, hc, hle⟩
      · exact ⟨x, List.mem_append_left _ (List.mem_filter.2 ⟨h, by simpa using hle⟩), le_rfl⟩
    · exact ⟨x, hc, le_rfl⟩

/-- The members after many insertions. -/
lemma mem_of_foldl {cs : List γ} (h : x ∈ cs.foldl (insert cost) frontier) : x ∈ frontier ∨ x ∈ cs := by
  induction cs generalizing frontier with
  | nil => exact .inl h
  | cons c cs ih =>
    obtain h | h := ih h
    · obtain h | rfl := mem_of_insert h
      · exact .inl h
      · exact .inr List.mem_cons_self
    · exact .inr (List.mem_cons_of_mem _ h)

/-- Every record of many insertions is dominated. -/
lemma foldl_covers {cs : List γ} (h : x ∈ frontier ∨ x ∈ cs) :
    ∃ y ∈ cs.foldl (insert cost) frontier, cost y ≤ cost x := by
  induction cs generalizing frontier x with
  | nil =>
    obtain h | h := h
    · exact ⟨x, h, le_rfl⟩
    · cases h
  | cons c cs ih =>
    have hfirst : x ∈ frontier ∨ x = c → ∃ y ∈ (c :: cs).foldl (insert cost) frontier,
        cost y ≤ cost x := by
      intro hx
      obtain ⟨y, hy, hle⟩ : ∃ y ∈ insert cost frontier c, cost y ≤ cost x := insert_covers hx
      obtain ⟨z, hz, hle'⟩ := ih (.inl hy)
      exact ⟨z, hz, hle'.trans hle⟩
    obtain h | h := h
    · exact hfirst (.inl h)
    · obtain rfl | h := List.mem_cons.1 h
      · exact hfirst (.inr rfl)
      · exact ih (.inr h)

end Pareto
