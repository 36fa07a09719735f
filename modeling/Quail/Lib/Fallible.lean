import Mathlib.Tactic.Basic
import Mathlib.Data.List.Basic

/-!
# Fallible runs

What a computation that may raise has done when it returned: each part of a sequence returned, and a loop
returned after steps that all did.
-/

variable {α β ε : Type}

/-- A sequence that returned has a first part that did. -/
lemma bind_eq_ok {x : Except ε α} {f : α → Except ε β} {b : β} (h : (x >>= f) = .ok b) :
    ∃ a, x = .ok a ∧ f a = .ok b := by
  cases x with
  | error e => cases h
  | ok a => exact ⟨a, rfl, h⟩

/-- A loop keeps what every step that returns keeps, about the elements it went through. -/
theorem foldlM_ok {f : β → α → Except ε β} {xs : List α} {b b' : β} (inv : List α → β → Prop) (hinv : inv [] b)
    (step : ∀ past b b', ∀ x ∈ xs, inv past b → f b x = .ok b' → inv (past ++ [x]) b')
    (h : xs.foldlM f b = .ok b') : inv xs b' := by
  suffices hrun : ∀ rest past b, (∀ x ∈ rest, x ∈ xs) → inv past b → rest.foldlM f b = .ok b' →
      inv (past ++ rest) b' from hrun xs [] b (fun _ hx => hx) hinv h
  intro rest
  induction rest with
  | nil =>
    intro past b _ hpast hrun
    obtain rfl := Except.ok.inj hrun
    rwa [List.append_nil]
  | cons x rest ih =>
    intro past b hmem hpast hrun
    obtain ⟨hx, hrest⟩ := List.forall_mem_cons.1 hmem
    rw [List.foldlM_cons] at hrun
    obtain ⟨middle, hstep, hrun⟩ := bind_eq_ok hrun
    have hlast := ih _ _ hrest (step past b middle x hx hpast hstep) hrun
    rwa [List.append_assoc] at hlast

/-- Functions that agree on a list run alike over it. -/
lemma mapM_congr {f g : α → Except ε β} {xs : List α} (h : ∀ x ∈ xs, f x = g x) : xs.mapM f = xs.mapM g := by
  induction xs with
  | nil => rfl
  | cons x xs ih =>
    obtain ⟨hx, hxs⟩ := List.forall_mem_cons.1 h
    rw [List.mapM_cons, List.mapM_cons, hx, ih hxs]

/-- A function that returns at each element of a list runs over it, with results in the list's order. -/
theorem mapM_ok {f : α → Except ε β} {xs : List α} {R : α → β → Prop} (h : ∀ x ∈ xs, ∃ y, f x = .ok y ∧ R x y) :
    ∃ ys, xs.mapM f = .ok ys ∧ List.Forall₂ R xs ys := by
  induction xs with
  | nil => exact ⟨[], rfl, .nil⟩
  | cons x xs ih =>
    obtain ⟨hx, hxs⟩ := List.forall_mem_cons.1 h
    obtain ⟨y, hrun, hy⟩ := hx
    obtain ⟨ys, hruns, hys⟩ := ih hxs
    refine ⟨y :: ys, ?_, .cons hy hys⟩
    rw [List.mapM_cons, hrun, hruns]
    rfl

/-- What a loop over a list gave, element by element. -/
lemma forall₂_of_mapM {f : α → Except ε β} {xs : List α} {ys : List β} (h : xs.mapM f = .ok ys) :
    List.Forall₂ (fun x y => f x = .ok y) xs ys := by
  induction xs generalizing ys with
  | nil =>
    obtain rfl := Except.ok.inj h
    exact .nil
  | cons x xs ih =>
    rw [List.mapM_cons] at h
    obtain ⟨y, hy, h⟩ := bind_eq_ok h
    obtain ⟨rest, hrest, h⟩ := bind_eq_ok h
    obtain rfl := Except.ok.inj h
    exact .cons hy (ih hrest)

/-- A loop whose steps return gives their results. -/
lemma mapM_returns {f : α → Except ε β} {g : α → β} {xs : List α} (h : ∀ x ∈ xs, f x = .ok (g x)) :
    xs.mapM f = .ok (xs.map g) := by
  induction xs with
  | nil => rfl
  | cons x xs ih =>
    obtain ⟨hx, hxs⟩ := List.forall_mem_cons.1 h
    rw [List.mapM_cons, hx, ih hxs]
    rfl

/-- What an element of the first list is related to. -/
lemma forall₂_exists_right {R : α → β → Prop} {xs : List α} {ys : List β} (h : List.Forall₂ R xs ys) {x : α}
    (hx : x ∈ xs) : ∃ y ∈ ys, R x y := by
  induction h with
  | nil => cases hx
  | cons hR _ ih =>
    cases hx with
    | head => exact ⟨_, List.mem_cons_self, hR⟩
    | tail _ hx =>
      obtain ⟨y, hy, hR⟩ := ih hx
      exact ⟨y, List.mem_cons_of_mem _ hy, hR⟩

/-- What an element of the second list is related to. -/
lemma forall₂_exists_left {R : α → β → Prop} {xs : List α} {ys : List β} (h : List.Forall₂ R xs ys) {y : β}
    (hy : y ∈ ys) : ∃ x ∈ xs, R x y := by
  induction h with
  | nil => cases hy
  | cons hR _ ih =>
    cases hy with
    | head => exact ⟨_, List.mem_cons_self, hR⟩
    | tail _ hy =>
      obtain ⟨x, hx, hR⟩ := ih hy
      exact ⟨x, List.mem_cons_of_mem _ hx, hR⟩
