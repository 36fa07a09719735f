import Mathlib.Data.List.Range
import Mathlib.Algebra.Order.Group.Nat

/-!
# Loops evaluated at guessed states

A loop goes through its turns one after another until a turn says that it stops. `Loop.run` is that loop.
When the states before the turns can be guessed, every turn can be evaluated at once at its guess, and what
the turns after the first that stops gave is thrown away. Where the guess of a turn is the state that the
turn before it left whenever that turn goes on, this is the loop itself (`Guess.Right.run_eq`).
-/

namespace Speculation

variable {σ β : Type}

/-- A loop over a state: whether a turn is one of the loop, the state it leaves, what it records, and
whether the loop goes on after it. -/
structure Loop (σ β : Type) where
  valid : ℕ → Bool
  step : ℕ → σ → σ
  emit : ℕ → σ → β
  goes : ℕ → σ → Bool

/-- The turns evaluated at guessed states: the states, what each turn leaves and records there, and
whether the loop goes on after it. -/
structure Guess (σ β : Type) where
  state : ℕ → σ
  after : ℕ → σ
  out : ℕ → β
  cont : ℕ → Bool

namespace Loop

variable (l : Loop σ β)

/-- What the first turns record, the state they leave, and whether the loop is still going. -/
def run (s : σ) (active : Bool) : ℕ → List (Option β) × σ × Bool
  | 0 => ([], s, active)
  | k + 1 =>
    let r := run s active k
    let use := r.2.2 && l.valid k
    (r.1 ++ [if use then some (l.emit k r.2.1) else none],
      if use then l.step k r.2.1 else r.2.1,
      use && l.goes k r.2.1)

end Loop

namespace Guess

variable (g : Guess σ β) (valid : ℕ → Bool) (active : Bool)

/-- The turn is reached: the loop was going, and every turn before it goes on. -/
def reached (k : ℕ) : Bool := active && (List.range k).all g.cont

/-- The turn counts. -/
def use (k : ℕ) : Bool := g.reached active k && valid k

/-- The state after the last turn that counts. -/
def last (s : σ) (n : ℕ) : σ :=
  if g.use valid active 0 then g.after ((List.range n).countP (g.use valid active) - 1) else s

/-- The guesses are right: the first is the state at hand, a turn is evaluated as the loop does it at its
guess, and what a turn leaves that goes on is the next guess. -/
structure Right (l : Loop σ β) (s : σ) : Prop where
  first : g.state 0 = s
  turn : ∀ k, (∀ i < k, g.cont i = true) → l.valid k = true →
    g.after k = l.step k (g.state k) ∧ g.out k = l.emit k (g.state k) ∧ g.cont k = l.goes k (g.state k)
  next : ∀ k, (∀ i < k, g.cont i = true) → g.cont k = true →
    l.valid k = true ∧ g.after k = g.state (k + 1)

variable {g valid active}

lemma reached_iff {k : ℕ} : g.reached active k = true ↔ active = true ∧ ∀ i < k, g.cont i = true := by
  rw [reached, Bool.and_eq_true, List.all_eq_true]
  simp only [List.mem_range]

lemma reached_succ {k : ℕ} : g.reached active (k + 1) = (g.reached active k && g.cont k) := by
  rw [reached, reached, List.range_succ, List.all_append, Bool.and_assoc]
  simp only [List.all_cons, List.all_nil, Bool.and_true]

namespace Right

variable {l : Loop σ β} {s : σ} (h : g.Right l s)
include h

/-- A turn before one that is reached counts. -/
lemma use_of_reached {k i : ℕ} (hk : g.reached active k = true) (hi : i < k) :
    g.use l.valid active i = true := by
  obtain ⟨hactive, hcont⟩ := reached_iff.mp hk
  have hbefore : ∀ j < i, g.cont j = true := fun j hj => hcont j (by omega)
  obtain ⟨hvalid, -⟩ := h.next i hbefore (hcont i hi)
  rw [use, Bool.and_eq_true]
  exact ⟨reached_iff.mpr ⟨hactive, hbefore⟩, hvalid⟩

lemma count_of_reached {k : ℕ} (hk : g.reached active k = true) :
    (List.range k).countP (g.use l.valid active) = k := by
  have hall : (List.range k).countP (g.use l.valid active) = (List.range k).length := by
    apply List.countP_eq_length.mpr
    intro i hi
    exact h.use_of_reached hk (List.mem_range.mp hi)
  rw [hall, List.length_range]

/-- The loop after some turns is going where the next turn is reached, and it is then at the guess. -/
lemma run_going (active : Bool) (k : ℕ) :
    (l.run s active k).2.2 = g.reached active k ∧
      (g.reached active k = true → (l.run s active k).2.1 = g.state k) := by
  induction k with
  | zero =>
    refine ⟨?_, fun _ => h.first.symm⟩
    simp only [Loop.run, reached, List.range_zero, List.all_nil, Bool.and_true]
  | succ k ih =>
    obtain ⟨hgoing, hstate⟩ := ih
    simp only [Loop.run, hgoing]
    rw [reached_succ]
    cases hk : g.reached active k with
    | false => simp only [Bool.false_and, Bool.false_eq_true, false_implies, and_self]
    | true =>
      have hbefore := (reached_iff.mp hk).2
      rw [hstate hk]
      cases hv : l.valid k with
      | false =>
        -- A turn that is none of the loop's does not go on.
        have hcont : g.cont k = false := by
          cases hc : g.cont k with
          | false => rfl
          | true => exact absurd (h.next k hbefore hc).1 (by rw [hv]; exact Bool.false_ne_true)
        simp only [hcont, Bool.and_false, Bool.false_and, Bool.false_eq_true, false_implies, and_self]
      | true =>
        obtain ⟨hafter, -, hcont⟩ := h.turn k hbefore hv
        simp only [Bool.true_and, if_true]
        refine ⟨hcont.symm, fun hc => ?_⟩
        rw [← hafter]
        exact (h.next k hbefore hc).2

/-- What the turns record is what they record at their guesses, where they count. -/
lemma run_out {n : ℕ} :
    (l.run s active n).1 =
      (List.range n).map fun k => if g.use l.valid active k then some (g.out k) else none := by
  induction n with
  | zero => rfl
  | succ k ih =>
    obtain ⟨hgoing, hstate⟩ := h.run_going active k
    rw [List.range_succ, List.map_append, ← ih]
    simp only [Loop.run, hgoing, List.map_cons, List.map_nil]
    congr 2
    change (if g.use l.valid active k = true then _ else _) = _
    cases hu : g.use l.valid active k with
    | false => rfl
    | true =>
      obtain ⟨hk, hv⟩ := Bool.and_eq_true_iff.mp hu
      rw [hstate hk, (h.turn k (reached_iff.mp hk).2 hv).2.1]

/-- Where the first turn does not count, none does. -/
lemma use_zero {k : ℕ} (hk : g.use l.valid active k = true) : g.use l.valid active 0 = true := by
  cases k with
  | zero => exact hk
  | succ k => exact h.use_of_reached (Bool.and_eq_true_iff.mp hk).1 (Nat.succ_pos k)

/-- The state after some turns is that after the last that counts. -/
lemma run_state {n : ℕ} (hn : 0 < n) : (l.run s active n).2.1 = g.last l.valid active s n := by
  induction n with
  | zero => exact absurd hn (Nat.lt_irrefl 0)
  | succ k ih =>
    obtain ⟨hgoing, hstate⟩ := h.run_going active k
    simp only [Loop.run, hgoing]
    change (if g.use l.valid active k = true then _ else _) = _
    rw [last, List.range_succ, List.countP_append, List.countP_cons, List.countP_nil]
    cases hu : g.use l.valid active k with
    | true =>
      obtain ⟨hk, hv⟩ := Bool.and_eq_true_iff.mp hu
      rw [if_pos rfl, if_pos (h.use_zero hu), h.count_of_reached hk, hstate hk]
      rw [← (h.turn k (reached_iff.mp hk).2 hv).1]
      rfl
    | false =>
      rw [if_neg Bool.false_ne_true, if_neg Bool.false_ne_true]
      cases k with
      | zero =>
        rw [if_neg (by rw [hu]; exact Bool.false_ne_true)]
        rfl
      | succ k => exact ih (Nat.succ_pos k)

/-- Evaluating the turns at right guesses is running the loop. -/
theorem run_eq {n : ℕ} (hn : 0 < n) :
    l.run s active n =
      ((List.range n).map fun k => if g.use l.valid active k then some (g.out k) else none,
        g.last l.valid active s n, g.use l.valid active (n - 1) && g.cont (n - 1)) := by
  refine Prod.ext h.run_out (Prod.ext (h.run_state hn) ?_)
  obtain ⟨k, rfl⟩ : ∃ k, n = k + 1 := ⟨n - 1, by omega⟩
  rw [(h.run_going active (k + 1)).1, reached_succ, Nat.add_sub_cancel]
  change _ = (g.reached active k && l.valid k && g.cont k)
  cases hk : g.reached active k with
  | false => rfl
  | true =>
    cases hc : g.cont k with
    | false => rw [Bool.and_false, Bool.and_false]
    | true => rw [(h.next k (reached_iff.mp hk).2 hc).1]; rfl

end Right
end Guess
end Speculation
