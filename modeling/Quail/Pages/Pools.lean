import Quail.Pages.KVArena

/-!
# Operations on one pool

What each operation of a pool does to the records of the resident keys, and the invariants that all of
them keep. The arena of two pools changes its pools by these operations only, so such an invariant is
one of both pools.
-/

set_option linter.unusedSectionVars false

namespace Quail.Pages
open Imperative

variable {κ π : Type} [DecidableEq κ] [ToString κ] [LinearOrder π] {s : PageArena κ π} {key : κ}

/-! ## Records -/

/-- The same keys, and every table starts with the pages it had. -/
structure Widens (docs docs' : Dict κ Resident) : Prop where
  same : ∀ k, docs'.contains k = docs.contains k
  table : ∀ k r r', docs.get? k = some r → docs'.get? k = some r' → r.table <+: r'.table

/-- The same keys, and the records of the other keys. -/
structure Alters (key : κ) (docs docs' : Dict κ Resident) : Prop where
  same : ∀ k, docs'.contains k = docs.contains k
  other : ∀ k, k ≠ key → docs'.get? k = docs.get? k

lemma Widens.refl {docs : Dict κ Resident} : Widens docs docs where
  same _ := rfl
  table k r r' hr hr' := by
    rw [hr] at hr'
    exact Option.some.inj hr' ▸ List.prefix_rfl

lemma Widens.trans {docs docs' docs'' : Dict κ Resident} (h : Widens docs docs')
    (h' : Widens docs' docs'') : Widens docs docs'' where
  same k := (h'.same k).trans (h.same k)
  table k r r'' hr hr'' := by
    have hk : docs'.contains k = true := (h.same k).trans (Dict.contains_iff.2 ⟨r, hr⟩)
    obtain ⟨r', hr'⟩ := Dict.contains_iff.1 hk
    exact (h.table k r r' hr hr').trans (h'.table k r' r'' hr' hr'')

lemma contains_set_same {docs : Dict κ Resident} {r r' : Resident} (hr : docs.get? key = some r)
    (k : κ) : (docs.set key r').contains k = docs.contains k := by
  rw [Dict.contains_set]
  by_cases hk : key = k
  · subst hk
    rw [Dict.contains_iff.2 ⟨r, hr⟩, Bool.or_true]
  · rw [decide_eq_false hk, Bool.false_or]

lemma Widens.set {docs : Dict κ Resident} {r r' : Resident} (hr : docs.get? key = some r)
    (h : r.table <+: r'.table) : Widens docs (docs.set key r') where
  same := contains_set_same hr
  table k r₁ r₂ h₁ h₂ := by
    rw [Dict.get?_set] at h₂
    split_ifs at h₂ with hk
    · subst hk
      rw [hr] at h₁
      exact Option.some.inj h₁ ▸ Option.some.inj h₂ ▸ h
    · rw [h₁] at h₂
      exact Option.some.inj h₂ ▸ List.prefix_rfl

lemma Alters.refl {docs : Dict κ Resident} : Alters key docs docs := ⟨fun _ => rfl, fun _ _ => rfl⟩

lemma Alters.set {docs : Dict κ Resident} {r r' : Resident} (hr : docs.get? key = some r) :
    Alters key docs (docs.set key r') where
  same := contains_set_same hr
  other _ hk := Dict.get?_set_ne (Ne.symm hk)

/-! ## What the operations do to the records -/

/-- The operation changes no record, whichever way it ends. -/
def KeepsDocs {α : Type} (m : Op κ π α) : Prop :=
  ∀ s, wp m (fun _ s' => s'.docs = s.docs) (fun _ s' => s'.docs = s.docs) s

lemma pin_docs : KeepsDocs (pin (π := π) key) := by
  intro s
  unfold pin
  simp only [wp_bind, wp_resident, wp_modify, wp_forgetRetained]
  exact ⟨fun _ _ => rfl, fun _ => trivial⟩

lemma retain_docs {priority : Option π} : KeepsDocs (retain key priority) := by
  intro s
  unfold Pages.retain
  simp only [wp_bind, wp_get, wp_set, wp_resident, wp_modify, wp_forgetRetained, wp_retentionPriority]
  exact ⟨fun _ _ => ⟨fun _ _ => rfl, fun _ _ _ => rfl, fun _ _ _ => rfl⟩, fun _ => trivial⟩

lemma allocSlot_docs : KeepsDocs (allocSlot (π := π) key) := by
  intro s
  unfold allocSlot
  simp only [wp_bind, wp_get, wp_resident]
  refine ⟨fun _ _ => ?_, fun _ => trivial⟩
  split <;> rfl

lemma allocExtension_docs : KeepsDocs (allocExtension (π := π) key) := by
  intro s
  unfold allocExtension
  simp only [wp_bind, wp_get, wp_resident]
  refine ⟨fun _ _ => ?_, fun _ => trivial⟩
  split <;> rfl

lemma allocShare_docs {tokens : ℤ} : KeepsDocs (allocShare (π := π) key tokens) := by
  intro s
  unfold allocShare
  simp only [wp_bind, wp_get, wp_resident]
  refine ⟨fun _ _ => ?_, fun _ => trivial⟩
  split <;> rfl

/-- The victim is no key of `keep`, and the records are as before. -/
lemma popRetainedVictim_docs {keep : Finset κ} :
    wp (popRetainedVictim keep)
      (fun victim s' => s'.docs = s.docs ∧ ∀ v, victim = some v → v.1 ∉ keep)
      (fun _ _ => False) s := by
  have hsearch := victimSearch_spec s.retainedVersions keep s.retainedHeap [] le_rfl
  unfold popRetainedVictim
  simp only [wp_bind, wp_get, wp_set]
  generalize victimSearch s.retainedVersions keep s.retainedHeap.length s.retainedHeap [] = found
    at hsearch ⊢
  obtain ⟨victim, heap⟩ := found
  cases victim with
  | none => exact ⟨rfl, fun v hv => by cases hv⟩
  | some e =>
    refine ⟨rfl, fun v hv => ?_⟩
    obtain rfl := Option.some.inj hv
    exact (hsearch.least e rfl).2.2.1

lemma alloc_docs {tokens : ℤ} {capacity : Option ℤ} {borrowed : List Page} :
    wp (alloc key tokens capacity borrowed)
      (fun pages s' => s.docs.get? key = none ∧ match pages with
        | none => s' = s
        | some pages => s'.docs = s.docs.set key ⟨pages, borrowed, tokens⟩)
      (fun _ s' => s' = s) s := by
  unfold alloc
  simp only [wp_bind, wp_get, wp_ite, wp_throw, wp_pure, wp_needed, wp_set]
  refine ⟨fun _ => trivial, fun hk => ?_⟩
  have hnone : s.docs.get? key = none := Dict.contains_eq_false.1 (Bool.eq_false_iff.2 hk)
  exact ⟨fun _ => trivial, fun _ => ⟨fun _ => trivial, fun _ => ⟨fun _ => trivial, fun _ =>
    ⟨fun _ => ⟨hnone, trivial⟩, fun _ => ⟨hnone, trivial⟩⟩⟩⟩⟩

lemma freeKey_docs : wp (freeKey key)
    (fun _ s' => s.docs.contains key = true ∧ s'.docs = s.docs.erase key)
    (fun _ s' => s.docs.contains key = false ∧ s'.docs = s.docs) s := by
  unfold freeKey dropExtension dropShares
  simp only [wp_bind, wp_get, wp_resident, wp_modify, wp_releasePages, wp_forgetRetained]
  exact ⟨fun r hr => ⟨Dict.contains_iff.2 ⟨r, hr⟩, rfl⟩, fun hnone => ⟨Dict.contains_eq_false.2 hnone, trivial⟩⟩

lemma grow_docs {capacity : ℤ} :
    wp (grow key capacity) (fun _ s' => Widens s.docs s'.docs) (fun _ s' => Widens s.docs s'.docs) s := by
  unfold grow
  simp only [wp_bind, wp_get, wp_resident, wp_ite, wp_pure, wp_needed, wp_set]
  refine ⟨fun r hr => ⟨fun _ => .refl, fun _ => ⟨fun _ => .refl, fun _ => ⟨fun _ => .refl, fun _ => ?_⟩⟩⟩,
    fun _ => .refl⟩
  refine Widens.set hr ?_
  rw [Resident.table, Resident.table, ← List.append_assoc]
  exact List.prefix_append _ _

lemma setTokens_docs {tokens : ℤ} : wp (setTokens key tokens) (fun _ s' => Widens s.docs s'.docs)
    (fun _ s' => Widens s.docs s'.docs) s := by
  unfold setTokens
  simp only [wp_bind, wp_resident, wp_modify]
  exact ⟨fun r hr => .set hr List.prefix_rfl, fun _ => .refl⟩

lemma appendPages_docs {given : List (κ × Page)} : wp (appendPages given)
    (fun _ s' => Widens s.docs s'.docs) (fun _ s' => Widens s.docs s'.docs) s := by
  induction given generalizing s with
  | nil => exact .refl
  | cons e given ih =>
    rw [appendPages]
    simp only [wp_bind, wp_resident, wp_modify]
    refine ⟨fun r hr => ?_, fun _ => .refl⟩
    have hfirst : Widens s.docs (s.docs.set e.1 { r with owned := r.owned ++ [e.2] }) := by
      refine Widens.set hr ?_
      rw [Resident.table, Resident.table, ← List.append_assoc]
      exact List.prefix_append _ _
    exact wp_mono ih (fun _ _ h => hfirst.trans h) fun _ _ h => hfirst.trans h

lemma growPages_docs {keys : List κ} : wp (growPages keys)
    (fun _ s' => Widens s.docs s'.docs) (fun _ s' => Widens s.docs s'.docs) s := by
  unfold growPages
  simp only [wp_bind, wp_get, wp_ite, wp_pure, wp_set]
  exact ⟨fun _ => .refl, fun _ => wp_mono appendPages_docs (fun _ _ h => h) fun _ _ h => h⟩

lemma rewind_docs {tokens : ℤ} : wp (rewind key tokens) (fun _ s' => Alters key s.docs s'.docs)
    (fun _ s' => Alters key s.docs s'.docs) s := by
  unfold rewind
  simp only [wp_bind, wp_get, wp_resident, wp_ite, wp_throw, wp_pure, wp_needed, wp_set,
    wp_releasePages]
  refine ⟨fun r hr => ⟨fun _ => .refl, fun _ => ⟨fun _ => .refl, fun _ => ⟨fun _ => ?_, fun _ =>
    .set hr⟩⟩⟩, fun _ => .refl⟩
  refine wp_mono (retain_docs _) ?_ ?_
  · intro _ s' hs
    rw [wp_pure, hs]
    exact .set hr
  · intro _ s' hs
    rw [hs]
    exact .set hr

/-! ## Invariants of the operations -/

/-- The pages belong to a table. -/
def Lent (s : PageArena κ π) (pages : List Page) : Prop :=
  pages = [] ∨ ∃ k r, s.docs.get? k = some r ∧ pages.Sublist r.table

lemma sharedPages_lent {shared start : ℤ} :
    wp (sharedPages key shared start) (fun pages s' => s' = s ∧ Lent s pages) (fun _ s' => s' = s) s := by
  refine wp_mono sharedPages_spec ?_ (fun _ _ h => h)
  rintro pages s' ⟨hs, r, hr, hsub⟩
  exact ⟨hs, .inr ⟨key, r, hr, hsub⟩⟩

/-- Every operation of a pool keeps the invariant. -/
structure PoolInvariant (J : PageArena κ π → Prop) : Prop where
  alloc : ∀ key tokens capacity borrowed s, J s → Lent s borrowed →
    wp (alloc key tokens capacity borrowed) (fun _ => J) (fun _ => J) s
  freeKey : ∀ key, Preserves J (freeKey key)
  pin : ∀ key, Preserves J (pin key)
  retain : ∀ key priority, Preserves J (retain key priority)
  popRetainedVictim : ∀ keep, Preserves J (popRetainedVictim keep)
  rewind : ∀ key tokens, Preserves J (rewind key tokens)
  grow : ∀ key capacity, Preserves J (grow key capacity)
  growPages : ∀ keys s, J s → (∀ k ∈ keys, s.docs.contains k = true) →
    wp (growPages keys) (fun _ => J) (fun _ => J) s
  dropLeading : ∀ key pages, Preserves J (dropLeading key pages)
  setTokens : ∀ key tokens, Preserves J (setTokens key tokens)
  allocSlot : ∀ key, Preserves J (allocSlot key)
  allocExtension : ∀ key, Preserves J (allocExtension key)
  allocShare : ∀ key tokens, Preserves J (allocShare key tokens)
  dropExtension : ∀ key, Preserves J (dropExtension key)
  record : ∀ s slotTokens extTokens, J s → J { s with slotTokens, extTokens }

end Quail.Pages
