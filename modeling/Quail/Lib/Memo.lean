import Mathlib.Tactic.Basic
import Mathlib.Data.List.Basic

/-!
# Lookups with memory

A lookup that keeps a state, such as a cache, answers a function when it gives the function's value in every
state that meets an invariant, and keeps the invariant. Then so does every run of lookups, in any order.
-/

namespace Memo

variable {κ σ β : Type}

/-- In every state that meets the invariant, the lookup of a key in the domain gives the function's value and
keeps the invariant. -/
def Answers (dom : κ → Prop) (inv : σ → Prop) (lookUp : κ → σ → β × σ) (g : κ → β) : Prop :=
  ∀ k s, dom k → inv s → (lookUp k s).1 = g k ∧ inv (lookUp k s).2

/-- One lookup after another. -/
def runAll (lookUp : κ → σ → β × σ) : List κ → σ → List β × σ
  | [], s => ([], s)
  | k :: ks, s =>
    let (b, s) := lookUp k s
    let (bs, s) := runAll lookUp ks s
    (b :: bs, s)

variable {dom : κ → Prop} {inv : σ → Prop} {lookUp : κ → σ → β × σ} {g : κ → β}

/-- A run of lookups gives the function's values. -/
theorem Answers.runAll (h : Answers dom inv lookUp g) :
    Answers (fun ks => ∀ k ∈ ks, dom k) inv (runAll lookUp) (List.map g) := by
  intro ks
  induction ks with
  | nil => exact fun s _ hs => ⟨rfl, hs⟩
  | cons k ks ih =>
    intro s hdom hs
    obtain ⟨hk, hks⟩ := List.forall_mem_cons.1 hdom
    obtain ⟨hb, hs'⟩ := h k s hk hs
    obtain ⟨hbs, hs''⟩ := ih _ hks hs'
    exact ⟨congrArg₂ List.cons hb hbs, hs''⟩

end Memo
