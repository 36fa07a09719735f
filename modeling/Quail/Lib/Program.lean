import Mathlib.Tactic.Basic
import Mathlib.Tactic.Common

/-!
# Programs with state and exceptions

A program is an `EStateM ε σ α`: it reads and writes a state `σ` and either returns an `α` or raises
an `ε`, and the state it had written when it raised is kept. `wp` is its weakest precondition, with
one postcondition for each way of ending; `Preserves` is the triple of an invariant with itself. The
rules below decompose a `do` block, `final` is the state a program leaves behind however it ends, and
`Run` packages the induction over a sequence of steps.
-/

namespace Imperative

variable {ε σ α β ι : Type}

/-- Weakest precondition of a program, for its normal and its exceptional end. -/
def wp (m : EStateM ε σ α) (Q : α → σ → Prop) (E : ε → σ → Prop) (s : σ) : Prop :=
  match m s with
  | .ok a s' => Q a s'
  | .error e s' => E e s'

@[simp] lemma wp_pure {a : α} {Q : α → σ → Prop} {E : ε → σ → Prop} {s : σ} :
    wp (pure a) Q E s ↔ Q a s := Iff.rfl

@[simp] lemma wp_bind {m : EStateM ε σ α} {f : α → EStateM ε σ β} {Q : β → σ → Prop}
    {E : ε → σ → Prop} {s : σ} :
    wp (m >>= f) Q E s ↔ wp m (fun a => wp (f a) Q E) E s := by
  show (match EStateM.bind m f s with | .ok a s' => Q a s' | .error e s' => E e s') ↔ _
  unfold wp EStateM.bind
  cases m s <;> rfl

@[simp] lemma wp_map {m : EStateM ε σ α} {f : α → β} {Q : β → σ → Prop} {E : ε → σ → Prop} {s : σ} :
    wp (f <$> m) Q E s ↔ wp m (fun a => Q (f a)) E s := by
  show (match EStateM.map f m s with | .ok a s' => Q a s' | .error e s' => E e s') ↔ _
  unfold wp EStateM.map
  cases m s <;> rfl

@[simp] lemma wp_discard {m : EStateM ε σ α} {Q : PUnit → σ → Prop} {E : ε → σ → Prop} {s : σ} :
    wp (discard m) Q E s ↔ wp m (fun _ => Q ⟨⟩) E s := wp_map

@[simp] lemma wp_get {Q : σ → σ → Prop} {E : ε → σ → Prop} {s : σ} :
    wp (get : EStateM ε σ σ) Q E s ↔ Q s s := Iff.rfl

@[simp] lemma wp_set {t : σ} {Q : PUnit → σ → Prop} {E : ε → σ → Prop} {s : σ} :
    wp (set t : EStateM ε σ PUnit) Q E s ↔ Q ⟨⟩ t := Iff.rfl

@[simp] lemma wp_modify {f : σ → σ} {Q : PUnit → σ → Prop} {E : ε → σ → Prop} {s : σ} :
    wp (modify f : EStateM ε σ PUnit) Q E s ↔ Q ⟨⟩ (f s) := Iff.rfl

@[simp] lemma wp_throw {e : ε} {Q : α → σ → Prop} {E : ε → σ → Prop} {s : σ} :
    wp (throw e : EStateM ε σ α) Q E s ↔ E e s := Iff.rfl

@[simp] lemma wp_ite {c : Prop} [Decidable c] {m n : EStateM ε σ α} {Q : α → σ → Prop}
    {E : ε → σ → Prop} {s : σ} :
    wp (if c then m else n) Q E s ↔ (c → wp m Q E s) ∧ (¬c → wp n Q E s) := by
  by_cases h : c <;> simp [h]

/-- A weaker postcondition is easier to reach. -/
lemma wp_mono {m : EStateM ε σ α} {Q Q' : α → σ → Prop} {E E' : ε → σ → Prop} {s : σ}
    (h : wp m Q E s) (hQ : ∀ a s', Q a s' → Q' a s') (hE : ∀ e s', E e s' → E' e s') :
    wp m Q' E' s := by
  unfold wp at *
  cases hm : m s with
  | ok a s' => rw [hm] at h; exact hQ a s' h
  | error e s' => rw [hm] at h; exact hE e s' h

lemma wp_of_ok {m : EStateM ε σ α} {Q : α → σ → Prop} {E : ε → σ → Prop} {s s' : σ} {a : α}
    (h : m s = .ok a s') : wp m Q E s ↔ Q a s' := by rw [wp, h]

lemma wp_of_error {m : EStateM ε σ α} {Q : α → σ → Prop} {E : ε → σ → Prop} {s s' : σ} {e : ε}
    (h : m s = .error e s') : wp m Q E s ↔ E e s' := by rw [wp, h]

/-- Two postconditions of a program hold together. -/
lemma wp_and {m : EStateM ε σ α} {Q Q' : α → σ → Prop} {E E' : ε → σ → Prop} {s : σ}
    (h : wp m Q E s) (h' : wp m Q' E' s) :
    wp m (fun a s' => Q a s' ∧ Q' a s') (fun e s' => E e s' ∧ E' e s') s := by
  unfold wp at *
  cases hm : m s with
  | ok a s' => rw [hm] at h h'; exact ⟨h, h'⟩
  | error e s' => rw [hm] at h h'; exact ⟨h, h'⟩

/-- A fact that both ends of a program give is a fact. -/
lemma of_wp {m : EStateM ε σ α} {P : Prop} {s : σ} (h : wp m (fun _ _ => P) (fun _ _ => P) s) : P := by
  unfold wp at h
  cases hm : m s <;> rw [hm] at h <;> exact h

/-- The state a program leaves behind, whichever way it ends. -/
def final (m : EStateM ε σ α) (s : σ) : σ :=
  match m s with
  | .ok _ s' => s'
  | .error _ s' => s'

/-- What holds at both ends holds of the state left behind. -/
lemma final_of_wp {m : EStateM ε σ α} {P : σ → Prop} {s : σ}
    (h : wp m (fun _ => P) (fun _ => P) s) : P (final m s) := by
  unfold wp at h
  unfold final
  cases hm : m s <;> rw [hm] at h <;> exact h

/-- A program's result and the state it leaves. -/
def perform (m : EStateM ε σ α) (s : σ) : Except ε α × σ :=
  match m s with
  | .ok a s' => (.ok a, s')
  | .error e s' => (.error e, s')

lemma perform_snd {m : EStateM ε σ α} {s : σ} : (perform m s).2 = final m s := by
  unfold perform final
  cases m s <;> rfl

/-- A program that only ends one way. -/
lemma perform_ok {m : EStateM ε σ α} {s t : σ} {a : α}
    (h : wp m (fun a' s' => a' = a ∧ s' = t) (fun _ _ => False) s) : perform m s = (.ok a, t) := by
  unfold wp at h
  unfold perform
  cases hm : m s with
  | ok a' s' =>
    rw [hm] at h
    rw [h.1, h.2]
  | error e s' =>
    rw [hm] at h
    exact h.elim

lemma perform_bind {m : EStateM ε σ α} {f : α → EStateM ε σ β} {s t : σ} {a : α}
    (h : perform m s = (.ok a, t)) : perform (m >>= f) s = perform (f a) t := by
  have hbind : (m >>= f) s = EStateM.bind m f s := rfl
  unfold perform at h ⊢
  rw [hbind]
  unfold EStateM.bind
  cases hm : m s with
  | ok b u =>
    rw [hm] at h
    obtain ⟨hb, hu⟩ := Prod.mk.inj h
    obtain rfl := Except.ok.inj hb
    rw [← hu]
  | error e u =>
    rw [hm] at h
    cases (Prod.mk.inj h).1

lemma perform_discard {m : EStateM ε σ α} {s t : σ} {a : α} (h : perform m s = (.ok a, t)) :
    perform (discard m) s = (.ok ⟨⟩, t) := by
  have hdiscard : discard m s = EStateM.map (Function.const α PUnit.unit) m s := rfl
  unfold perform at h ⊢
  rw [hdiscard]
  unfold EStateM.map
  cases hm : m s with
  | ok b u =>
    rw [hm] at h
    rw [← (Prod.mk.inj h).2]
  | error e u =>
    rw [hm] at h
    cases (Prod.mk.inj h).1

/-- The program keeps the invariant, also when it raises. -/
def Preserves (I : σ → Prop) (m : EStateM ε σ α) : Prop :=
  ∀ s, I s → wp m (fun _ => I) (fun _ => I) s

lemma preserves_pure {I : σ → Prop} {a : α} : Preserves I (pure a : EStateM ε σ α) := fun _ hs => hs

lemma preserves_throw {I : σ → Prop} {e : ε} : Preserves I (throw e : EStateM ε σ α) := fun _ hs => hs

lemma Preserves.bind {I : σ → Prop} {m : EStateM ε σ α} {f : α → EStateM ε σ β} (hm : Preserves I m)
    (hf : ∀ a, Preserves I (f a)) : Preserves I (m >>= f) := by
  intro s hs
  rw [wp_bind]
  exact wp_mono (hm s hs) (fun a s' hs' => hf a s' hs') fun _ _ hs' => hs'

lemma Preserves.discard {I : σ → Prop} {m : EStateM ε σ α} (hm : Preserves I m) :
    Preserves I (Functor.discard m) := by
  intro s hs
  rw [wp_discard]
  exact hm s hs

lemma Preserves.ite {I : σ → Prop} {c : Prop} [Decidable c] {m n : EStateM ε σ α} (hm : Preserves I m)
    (hn : Preserves I n) : Preserves I (if c then m else n) := by
  split_ifs
  · exact hm
  · exact hn

/-! ## Clean-up and parts of the state -/

/-- `try: ... finally: ...`: the clean-up runs at both ends, and what it raises is raised. -/
def withCleanup (m : EStateM ε σ α) (cleanup : EStateM ε σ Unit) : EStateM ε σ α := fun s =>
  match m s with
  | .ok a t => match cleanup t with
    | .ok () u => .ok a u
    | .error e u => .error e u
  | .error e t => match cleanup t with
    | .ok () u => .error e u
    | .error e' u => .error e' u

@[simp] lemma wp_withCleanup {m : EStateM ε σ α} {cleanup : EStateM ε σ Unit} {Q : α → σ → Prop}
    {E : ε → σ → Prop} {s : σ} : wp (withCleanup m cleanup) Q E s ↔
      wp m (fun a => wp cleanup (fun _ => Q a) E) (fun e => wp cleanup (fun _ => E e) E) s := by
  unfold wp withCleanup
  cases m s with
  | ok a t =>
    dsimp only
    cases cleanup t <;> rfl
  | error e t =>
    dsimp only
    cases cleanup t <;> rfl

/-- A value computed from the state, or what computing it raises. -/
def reads (f : σ → Except ε α) : EStateM ε σ α := fun s =>
  match f s with
  | .ok a => .ok a s
  | .error e => .error e s

@[simp] lemma wp_reads {f : σ → Except ε α} {Q : α → σ → Prop} {E : ε → σ → Prop} {s : σ} :
    wp (reads f) Q E s ↔ (∀ a, f s = .ok a → Q a s) ∧ ∀ e, f s = .error e → E e s := by
  unfold wp reads
  cases f s <;> simp

variable {τ : Type}

/-- A program on a part of the state. -/
def onPart (get : σ → τ) (put : σ → τ → σ) (m : EStateM ε τ α) : EStateM ε σ α := fun s =>
  match m (get s) with
  | .ok a t => .ok a (put s t)
  | .error e t => .error e (put s t)

@[simp] lemma wp_onPart {get : σ → τ} {put : σ → τ → σ} {m : EStateM ε τ α} {Q : α → σ → Prop}
    {E : ε → σ → Prop} {s : σ} : wp (onPart get put m) Q E s ↔
      wp m (fun a t => Q a (put s t)) (fun e t => E e (put s t)) (get s) := by
  unfold wp onPart
  cases m (get s) <;> rfl

/-! ## Sequences of steps -/

/-- The states a sequence of steps goes through end in this one. -/
def run (step : σ → ι → σ) : σ → List ι → σ
  | s, [] => s
  | s, i :: is => run step (step s i) is

/-- Every step of the sequence meets a condition on the state it starts from. -/
def EachStep (step : σ → ι → σ) (C : σ → ι → Prop) : σ → List ι → Prop
  | _, [] => True
  | s, i :: is => C s i ∧ EachStep step C (step s i) is

/-- An invariant of the steps that meet a condition is an invariant of the runs that meet it. -/
theorem run_invariant {step : σ → ι → σ} {C : σ → ι → Prop} {I : σ → Prop}
    (hstep : ∀ s i, I s → C s i → I (step s i)) :
    ∀ {s is}, I s → EachStep step C s is → I (run step s is) := by
  intro s is hs hc
  induction is generalizing s with
  | nil => exact hs
  | cons i is ih =>
    obtain ⟨hi, hc⟩ := hc
    exact ih (hstep s i hs hi) hc

end Imperative
