import Quail.Sae.MaxPooling
import Mathlib.Data.List.Basic

/-!
# Slots of the maxima

Every slot in use belongs to one owner, a document or a question of a document, and holds that owner's
values once the freed slots are zeroed (`cleared`); a slot of nobody then holds zeros. `take` and
`release` keep this.
-/

set_option linter.unusedSectionVars false

namespace Quail.Sae

variable {κ α : Type} {width : ℕ} [DecidableEq κ] [Zero α]

/-- Who a slot belongs to: a key's document, or the question asked of it. -/
abbrev Owner (κ : Type) := Bool × κ

/-- The values of a slot once the freed slots are zeroed. -/
def SlotMatrix.cleared (s : SlotMatrix width α) : ℕ → Vector width α := zeroed s.matrix s.dirty

/-- Each owner's slot is its own and holds its values; the other slots hold none. -/
structure Stores (own : Owner κ → Option ℕ) (value : Owner κ → Vector width α)
    (s : SlotMatrix width α) : Prop where
  inj : ∀ o o' a, own o = some a → own o' = some a → o = o'
  bound : ∀ o a, own o = some a → a < s.capacity
  notFree : ∀ o a, own o = some a → a ∉ s.free
  freeNodup : s.free.Nodup
  freeBound : ∀ a ∈ s.free, a < s.capacity
  content : ∀ o a, own o = some a → s.cleared a = value o
  absent : ∀ o, own o = none → value o = fun _ => 0
  empty : ∀ a, (∀ o, own o ≠ some a) → s.cleared a = fun _ => 0

variable {own : Owner κ → Option ℕ} {value : Owner κ → Vector width α} {s : SlotMatrix width α}
  {o : Owner κ} {a : ℕ}

lemma Stores.new {capacity : ℕ} {positive : 0 < capacity} :
    Stores (fun _ : Owner κ => none) (fun _ _ => 0)
      (SlotMatrix.new capacity positive : SlotMatrix width α) where
  inj _ _ _ h := by cases h
  bound _ _ h := by cases h
  notFree _ _ h := by cases h
  freeNodup := List.nodup_range
  freeBound _ h := List.mem_range.1 h
  content _ _ h := by cases h
  absent _ _ := rfl
  empty _ _ := by
    funext _
    simp [SlotMatrix.cleared, SlotMatrix.new, zeroed]

/-- Growing keeps the slots and adds free ones. -/
lemma Stores.grown (h : Stores own value s) (hfree : s.free = []) : Stores own value s.grown := by
  have hkeep : ∀ b, b < s.capacity → s.grown.cleared b = s.cleared b := by
    intro b hb
    simp only [SlotMatrix.cleared, zeroed, SlotMatrix.grown, if_pos hb]
  refine ⟨h.inj, fun o b hb => ?_, fun o b hb hin => ?_, ?_, fun b hb => ?_, fun o b hb => ?_, h.absent,
    fun b hb => ?_⟩
  · have hlt := h.bound o b hb
    show b < 2 * s.capacity
    omega
  · have hlt := h.bound o b hb
    simp only [SlotMatrix.grown, hfree, List.append_nil, List.mem_range'_1] at hin
    omega
  · simpa [SlotMatrix.grown, hfree] using List.nodup_range' (s := s.capacity) (n := s.capacity)
  · simp only [SlotMatrix.grown, hfree, List.append_nil, List.mem_range'_1] at hb
    show b < 2 * s.capacity
    omega
  · rw [hkeep b (h.bound o b hb)]
    exact h.content o b hb
  · by_cases hlt : b < s.capacity
    · rw [hkeep b hlt]
      exact h.empty b hb
    · funext _
      simp only [SlotMatrix.cleared, zeroed, SlotMatrix.grown, if_neg hlt]
      exact congrFun (ite_self _) _

lemma Stores.ready (h : Stores own value s) : Stores own value s.ready := by
  unfold SlotMatrix.ready
  split_ifs with hfree
  · exact h.grown hfree
  · exact h

@[simp] lemma ready_dirty : s.ready.dirty = s.dirty := by
  unfold SlotMatrix.ready
  split_ifs <;> rfl

/-- A slot just taken holds nothing of the owner before. -/
lemma Stores.take (h : Stores own value s) (ho : own o = none) :
    Stores (Function.update own o (some s.take.1)) value s.take.2 := by
  have hready := h.ready
  have hsplit : s.take.1 :: s.take.2.free = s.ready.free := List.cons_head_tail s.ready_free_ne_nil
  have hnodup : (s.take.1 :: s.take.2.free).Nodup := hsplit ▸ hready.freeNodup
  have hmem : s.take.1 ∈ s.ready.free := hsplit ▸ List.mem_cons_self
  have htail : ∀ b, b ∈ s.take.2.free → b ∈ s.ready.free := fun b hb =>
    hsplit ▸ List.mem_cons_of_mem _ hb
  have hunused : ∀ o', own o' ≠ some s.take.1 := fun o' ho' => hready.notFree o' _ ho' hmem
  have hother : ∀ o' b, Function.update own o (some s.take.1) o' = some b →
      (o' = o ∧ b = s.take.1) ∨ (o' ≠ o ∧ own o' = some b) := by
    intro o' b hb
    by_cases heq : o' = o
    · subst heq
      rw [Function.update_self] at hb
      exact .inl ⟨rfl, (Option.some.inj hb).symm⟩
    · rw [Function.update_of_ne heq] at hb
      exact .inr ⟨heq, hb⟩
  refine ⟨fun o₁ o₂ b h₁ h₂ => ?_, fun o' b hb => ?_, fun o' b hb hin => ?_,
    (List.nodup_cons.1 hnodup).2, fun b hb => hready.freeBound b (htail b hb), fun o' b hb => ?_,
    fun o' ho' => ?_, fun b hb => ?_⟩
  · obtain ⟨heq₁, hb₁⟩ | ⟨-, h₁⟩ := hother o₁ b h₁ <;>
      obtain ⟨heq₂, hb₂⟩ | ⟨-, h₂⟩ := hother o₂ b h₂
    · exact heq₁.trans heq₂.symm
    · exact absurd (hb₁ ▸ h₂) (hunused o₂)
    · exact absurd (hb₂ ▸ h₁) (hunused o₁)
    · exact hready.inj o₁ o₂ b h₁ h₂
  · obtain ⟨rfl, rfl⟩ | ⟨-, hb⟩ := hother o' b hb
    · exact hready.freeBound _ hmem
    · exact hready.bound o' b hb
  · obtain ⟨rfl, rfl⟩ | ⟨-, hb⟩ := hother o' b hb
    · exact (List.nodup_cons.1 hnodup).1 hin
    · exact hready.notFree o' b hb (htail b hin)
  · obtain ⟨rfl, rfl⟩ | ⟨-, hb⟩ := hother o' b hb
    · exact (hready.empty _ hunused).trans (hready.absent o' ho).symm
    · exact hready.content o' b hb
  · by_cases heq : o' = o
    · subst heq
      rw [Function.update_self] at ho'
      cases ho'
    · rw [Function.update_of_ne heq] at ho'
      exact hready.absent o' ho'
  · refine hready.empty b fun o' ho' => ?_
    by_cases heq : o' = o
    · rw [heq, ho] at ho'
      cases ho'
    · exact hb o' ((Function.update_of_ne heq _ _).trans ho')

/-- A slot whose owner has no use for it, whatever was written to it last. -/
lemma Stores.release {values : Vector width α} (h : Stores own value s) (ho : own o = some a) :
    Stores (Function.update own o none) (Function.update value o fun _ => 0)
      (({ s with matrix := Function.update s.matrix a values } : SlotMatrix width α).release a) := by
  have hown : ∀ o' b, Function.update own o none o' = some b → o' ≠ o ∧ own o' = some b ∧ b ≠ a := by
    intro o' b hb
    have hne : o' ≠ o := by
      rintro rfl
      rw [Function.update_self] at hb
      cases hb
    rw [Function.update_of_ne hne] at hb
    refine ⟨hne, hb, ?_⟩
    rintro rfl
    exact hne (h.inj o' o b hb ho)
  have hclear : ∀ b, b ≠ a →
      (({ s with matrix := Function.update s.matrix a values } : SlotMatrix width α).release a).cleared b
        = s.cleared b := by
    intro b hb
    simp [SlotMatrix.cleared, zeroed, SlotMatrix.release, hb]
  refine ⟨fun o₁ o₂ b h₁ h₂ => h.inj o₁ o₂ b (hown o₁ b h₁).2.1 (hown o₂ b h₂).2.1,
    fun o' b hb => h.bound o' b (hown o' b hb).2.1, fun o' b hb hin => ?_,
    List.nodup_cons.2 ⟨h.notFree o a ho, h.freeNodup⟩, fun b hb => ?_, fun o' b hb => ?_,
    fun o' ho' => ?_, fun b hb => ?_⟩
  · obtain ⟨-, hb, hne⟩ := hown o' b hb
    obtain rfl | hin := List.mem_cons.1 hin
    · exact hne rfl
    · exact h.notFree o' b hb hin
  · obtain rfl | hin := List.mem_cons.1 hb
    · exact h.bound o b ho
    · exact h.freeBound b hin
  · obtain ⟨hne, hb, hba⟩ := hown o' b hb
    rw [hclear b hba, Function.update_of_ne hne]
    exact h.content o' b hb
  · by_cases heq : o' = o
    · subst heq
      exact Function.update_self ..
    · rw [Function.update_of_ne heq] at ho' ⊢
      exact h.absent o' ho'
  · by_cases heq : b = a
    · subst heq
      funext _
      simp [SlotMatrix.cleared, zeroed, SlotMatrix.release]
    · rw [hclear b heq]
      refine h.empty b fun o' ho' => hb o' ?_
      have hne : o' ≠ o := by
        rintro rfl
        rw [ho] at ho'
        exact heq (Option.some.inj ho').symm
      rw [Function.update_of_ne hne, ho']

/-! ## The slots of keys -/

/-- The slots of one side's keys, and of the other's. -/
def owners (side : Bool) (dict other : Dict κ ℕ) : Owner κ → Option ℕ := fun o =>
  if o.1 = side then dict.get? o.2 else other.get? o.2

lemma owners_set {side : Bool} {dict other : Dict κ ℕ} {key : κ} :
    owners side (dict.set key a) other =
      Function.update (owners side dict other) (side, key) (some a) := by
  funext ⟨b, k⟩
  by_cases hb : b = side
  · subst hb
    by_cases hk : key = k
    · subst hk
      simp [owners]
    · simp [owners, Dict.get?_set, hk, Ne.symm hk]
  · simp [owners, hb]

lemma owners_erase {side : Bool} {dict other : Dict κ ℕ} {key : κ} :
    owners side (dict.erase key) other = Function.update (owners side dict other) (side, key) none := by
  funext ⟨b, k⟩
  by_cases hb : b = side
  · subst hb
    by_cases hk : key = k
    · subst hk
      simp [owners]
    · simp [owners, Dict.get?_erase, hk, Ne.symm hk]
  · simp [owners, hb]

lemma owners_swap {dict other : Dict κ ℕ} : owners true dict other = owners false other dict := by
  funext ⟨b, k⟩
  cases b <;> rfl

/-- What taking the slots of keys leaves. -/
structure SlotsTaken (keys : List κ) (dict dict' : Dict κ ℕ) (found : List ℕ) : Prop where
  kept : ∀ k b, dict.get? k = some b → dict'.get? k = some b
  has : ∀ k, dict'.contains k = true ↔ dict.contains k = true ∨ k ∈ keys
  found : found = keys.map fun k => (dict'.get? k).getD 0

lemma slotOf_spec {side : Bool} {dict other : Dict κ ℕ} (key : κ)
    (h : Stores (owners side dict other) value s) :
    SlotsTaken [key] dict (slotOf key dict s).2.1 [(slotOf key dict s).1] ∧
      Stores (owners side (slotOf key dict s).2.1 other) value (slotOf key dict s).2.2 := by
  unfold slotOf
  cases hkey : dict.get? key with
  | some slot =>
    refine ⟨⟨fun _ _ hb => hb, fun k => ?_, by simp [hkey]⟩, h⟩
    refine ⟨.inl, ?_⟩
    rintro (hk | hk)
    · exact hk
    · rw [List.mem_singleton.1 hk]
      exact Dict.contains_iff.2 ⟨slot, hkey⟩
  | none =>
    refine ⟨⟨fun k b hb => ?_, fun k => ?_, by simp [Dict.get?_set]⟩, ?_⟩
    · have hk : key ≠ k := by
        rintro rfl
        rw [hkey] at hb
        cases hb
      exact (Dict.get?_set_ne hk).trans hb
    · rw [Dict.contains_set, Bool.or_eq_true, decide_eq_true_iff, List.mem_singleton, or_comm, eq_comm (a := key)]
    · rw [owners_set]
      exact h.take (by simp [owners, hkey])

lemma slotsOf_cons {dict : Dict κ ℕ} {key : κ} {keys : List κ} :
    slotsOf (key :: keys) dict s =
      ((slotOf key dict s).1 :: (slotsOf keys (slotOf key dict s).2.1 (slotOf key dict s).2.2).1,
        (slotsOf keys (slotOf key dict s).2.1 (slotOf key dict s).2.2).2) := rfl

/-- Every key has a slot of its own, the ones taken before included. -/
lemma slotsOf_spec {side : Bool} {dict other : Dict κ ℕ} (keys : List κ)
    (h : Stores (owners side dict other) value s) :
    SlotsTaken keys dict (slotsOf keys dict s).2.1 (slotsOf keys dict s).1 ∧
      Stores (owners side (slotsOf keys dict s).2.1 other) value (slotsOf keys dict s).2.2 := by
  induction keys generalizing dict s with
  | nil => exact ⟨⟨fun _ _ hb => hb, fun k => by simp [slotsOf], rfl⟩, h⟩
  | cons key keys ih =>
    obtain ⟨hone, hstores⟩ := slotOf_spec key h
    obtain ⟨hrest, hstores'⟩ := ih hstores
    rw [slotsOf_cons]
    refine ⟨⟨fun k b hb => hrest.kept k b (hone.kept k b hb), fun k => ?_, ?_⟩, hstores'⟩
    · rw [hrest.has, hone.has, List.mem_singleton, List.mem_cons, or_assoc]
    · -- the first key keeps the slot it has while the others take theirs
      have hkey : (slotOf key dict s).2.1.contains key = true :=
        (hone.has key).2 (.inr (List.mem_singleton.2 rfl))
      obtain ⟨b, hb⟩ := Dict.contains_iff.1 hkey
      have hfound : (slotOf key dict s).1 = b := by
        have hhead := List.head_eq_of_cons_eq hone.found
        simpa only [hb, Option.getD_some] using hhead
      rw [List.map_cons, hrest.kept key b hb, Option.getD_some, ← hfound, ← hrest.found]

end Quail.Sae
