import Quail.Pages.Phases
import Quail.Pages.Pools

/-!
# Retained keys have a priority

The arena of two pools retains pairs of an alias and a document only, and every policy gives each pair a
priority (`Priced`). Each operation of a pool keeps this, with what `Retention` says of the heap.
-/

set_option linter.unusedSectionVars false

namespace Quail.Pages
open Imperative

variable {κ π α : Type} [DecidableEq κ] [ToString κ] [LinearOrder π] {isPair : κ → Bool} {key : κ}

/-- The retained keys are pairs, and the policy has a priority for every pair. -/
structure Priced (isPair : κ → Bool) (s : PageArena κ π) : Prop where
  retention : Retention [] s
  answers : ∀ k, isPair k = true → Answers s.retentionPolicy k
  pairs : ∀ k, s.retained.contains k = true → isPair k = true

/-- The policy is as before, and no key was retained. -/
structure Narrows (s s' : PageArena κ π) : Prop where
  policy : s'.retentionPolicy = s.retentionPolicy
  retained : ∀ k, s'.retained.contains k = true → s.retained.contains k = true

lemma Narrows.refl (s : PageArena κ π) : Narrows s s := ⟨rfl, fun _ h => h⟩

lemma Narrows.trans {s s' s'' : PageArena κ π} (h : Narrows s s') (h' : Narrows s' s'') : Narrows s s'' :=
  ⟨h'.policy.trans h.policy, fun k hk => h.retained k (h'.retained k hk)⟩

lemma narrows_forgotten (s : PageArena κ π) (key : κ) : Narrows s (s.forgotten key) := by
  refine ⟨rfl, fun k hk => ?_⟩
  rw [PageArena.forgotten, Dict.contains_erase, Bool.and_eq_true] at hk
  exact hk.1

lemma Priced.narrows {s s' : PageArena κ π} (h : Priced isPair s) (hs : Narrows s s')
    (hretention : Retention [] s') : Priced isPair s' where
  retention := hretention
  answers k hk := by
    rw [hs.policy]
    exact h.answers k hk
  pairs k hk := h.pairs k (hs.retained k hk)

/-- The operation retains no key, whichever way it ends. -/
def Narrowing (m : Op κ π α) : Prop := ∀ s, wp m (fun _ => Narrows s) (fun _ => Narrows s) s

lemma Narrowing.priced {m : Op κ π α} (hm : Narrowing m)
    (hretention : ∀ s, Retention [] s → wp m (fun _ => Retention []) (fun _ => Retention []) s) :
    Preserves (Priced isPair) m := by
  intro s h
  exact wp_mono (wp_and (hm s) (hretention s h.retention)) (fun _ _ hs => h.narrows hs.1 hs.2)
    fun _ _ hs => h.narrows hs.1 hs.2

lemma Narrowing.priced_of_keeps {m : Op κ π α} (hm : Narrowing m)
    (hkeeps : ∀ s, wp m (fun _ => Keeps s) (fun _ => Keeps s) s) : Preserves (Priced isPair) m :=
  hm.priced fun s h => wp_mono (hkeeps s) (fun _ _ => h.keeps) fun _ _ => h.keeps

/-! ## The operations -/

lemma alloc_priced {tokens : ℤ} {capacity : Option ℤ} {borrowed : List Page} :
    Preserves (Priced isPair) (alloc (π := π) key tokens capacity borrowed) := by
  refine Narrowing.priced_of_keeps ?_ fun s => alloc_keeps
  intro s
  unfold alloc
  simp only [wp_bind, wp_get, wp_ite, wp_throw, wp_pure, wp_needed, wp_set]
  have hsame := Narrows.refl s
  exact ⟨fun _ => hsame, fun _ => ⟨fun _ => hsame, fun _ => ⟨fun _ => hsame, fun _ => ⟨fun _ => hsame,
    fun _ => ⟨fun _ => hsame, fun _ => ⟨rfl, fun _ h => h⟩⟩⟩⟩⟩⟩

lemma freeKey_priced : Preserves (Priced isPair) (freeKey (π := π) key) := by
  refine Narrowing.priced ?_ fun s => freeKey_retention
  intro s
  unfold freeKey dropExtension dropShares
  simp only [wp_bind, wp_get, wp_resident, wp_modify, wp_releasePages, wp_forgetRetained]
  exact ⟨fun _ _ => ⟨rfl, (narrows_forgotten s key).retained⟩, fun _ => ⟨rfl, fun _ h => h⟩⟩

lemma pin_priced : Preserves (Priced isPair) (pin (π := π) key) := by
  refine Narrowing.priced ?_ fun s => pin_retention
  intro s
  unfold pin
  simp only [wp_bind, wp_resident, wp_modify, wp_forgetRetained]
  exact ⟨fun _ _ => ⟨rfl, (narrows_forgotten s key).retained⟩, fun _ => .refl s⟩

lemma popRetainedVictim_narrowing {keep : Finset κ} : Narrowing (popRetainedVictim (κ := κ) (π := π) keep) := by
  intro s
  unfold popRetainedVictim
  simp only [wp_bind, wp_get, wp_set]
  generalize victimSearch s.retainedVersions keep s.retainedHeap.length s.retainedHeap [] = found
  obtain ⟨victim, heap⟩ := found
  cases victim with
  | none => exact ⟨rfl, fun _ h => h⟩
  | some e => exact ⟨rfl, (narrows_forgotten s e.key).retained⟩

lemma popRetainedVictim_priced {keep : Finset κ} : Preserves (Priced isPair) (popRetainedVictim (π := π) keep) :=
  popRetainedVictim_narrowing.priced fun _ h =>
    wp_mono (popRetainedVictim_spec h) (fun _ _ h => h.1) fun _ _ => False.elim

/-- The policy is as before, and no key but one was retained. -/
structure Adds (key : κ) (s s' : PageArena κ π) : Prop where
  policy : s'.retentionPolicy = s.retentionPolicy
  retained : ∀ k, s'.retained.contains k = true → s.retained.contains k = true ∨ k = key

lemma retain_adds {priority : Option π} {s : PageArena κ π} :
    wp (retain key priority) (fun _ => Adds key s) (fun _ => Adds key s) s := by
  unfold Pages.retain
  simp only [wp_bind, wp_get, wp_set, wp_resident, wp_modify, wp_forgetRetained, wp_retentionPriority]
  have hset : ∀ tokens k, ((s.forgotten key).retained.set key tokens).contains k = true →
      s.retained.contains k = true ∨ k = key := by
    intro tokens k hk
    rw [Dict.contains_set, Bool.or_eq_true, decide_eq_true_eq] at hk
    rcases hk with rfl | hk
    · exact Or.inr rfl
    · exact Or.inl ((narrows_forgotten s key).retained k hk)
  refine ⟨fun r _ => ⟨?_, ?_, ?_⟩, fun _ => ⟨rfl, fun _ => Or.inl⟩⟩
  · exact fun _ _ => ⟨rfl, hset r.tokens⟩
  · exact fun _ _ _ => ⟨rfl, hset r.tokens⟩
  · exact fun _ _ _ => ⟨rfl, hset r.tokens⟩

/-- A pair is retained, or a key that was. -/
lemma retain_priced {priority : Option π} (hpair : isPair key = true) :
    Preserves (Priced isPair) (retain key priority) := by
  intro s h
  refine wp_mono (wp_and (retain_retention (h.retention.weaken key) fun _ _ => h.answers key hpair) retain_adds) ?_ ?_
  · rintro _ s' ⟨⟨hretention, _, hpolicy⟩, hadds⟩
    refine ⟨hretention, fun k hk => ?_, fun k hk => ?_⟩
    · rw [hpolicy]
      exact h.answers k hk
    · rcases hadds.retained k hk with hold | rfl
      · exact h.pairs k hold
      · exact hpair
  · rintro _ s' ⟨⟨heq, _⟩, _⟩
    rw [heq]
    exact h

lemma rewind_priced {tokens : ℤ} : Preserves (Priced isPair) (rewind (π := π) key tokens) := by
  intro s h
  unfold rewind
  simp only [wp_bind, wp_get, wp_resident, wp_ite, wp_throw, wp_pure, wp_needed, wp_set, wp_releasePages]
  refine ⟨fun r _ => ⟨fun _ => h, fun _ => ⟨fun _ => h, fun _ => ⟨?_, ?_⟩⟩⟩, fun _ => h⟩
  · intro hkey
    apply retain_priced (h.pairs key hkey)
    exact h.narrows ⟨rfl, fun _ hk => hk⟩ (h.retention.keeps ⟨rfl, fun _ => stays_set⟩)
  · intro _
    exact h.narrows ⟨rfl, fun _ hk => hk⟩ (h.retention.keeps ⟨rfl, fun _ => stays_set⟩)

lemma grow_priced {capacity : ℤ} : Preserves (Priced isPair) (grow (π := π) key capacity) := by
  refine Narrowing.priced_of_keeps ?_ fun s => grow_keeps
  intro s
  unfold grow
  simp only [wp_bind, wp_get, wp_resident, wp_ite, wp_pure, wp_needed, wp_set]
  have hsame := Narrows.refl s
  exact ⟨fun _ _ => ⟨fun _ => hsame, fun _ => ⟨fun _ => hsame, fun _ => ⟨fun _ => hsame, fun _ =>
    ⟨rfl, fun _ h => h⟩⟩⟩⟩, fun _ => hsame⟩

lemma appendPages_narrowing {given : List (κ × Page)} : Narrowing (appendPages (π := π) given) := by
  intro s
  induction given generalizing s with
  | nil => exact .refl s
  | cons e given ih =>
    rw [appendPages]
    simp only [wp_bind, wp_resident, wp_modify]
    refine ⟨fun r _ => ?_, fun _ => .refl s⟩
    have hfirst : Narrows s { s with docs := s.docs.set e.1 { r with owned := r.owned ++ [e.2] } } :=
      ⟨rfl, fun _ h => h⟩
    exact wp_mono (ih _) (fun _ _ h => hfirst.trans h) fun _ _ h => hfirst.trans h

lemma growPages_priced {keys : List κ} : Preserves (Priced isPair) (growPages (π := π) keys) := by
  refine Narrowing.priced_of_keeps ?_ fun s => growPages_keeps
  intro s
  unfold growPages
  simp only [wp_bind, wp_get, wp_ite, wp_pure, wp_set]
  refine ⟨fun _ => .refl s, fun _ => ?_⟩
  have htaken : Narrows s { s with free := s.free.drop keys.length } := ⟨rfl, fun _ h => h⟩
  exact wp_mono (appendPages_narrowing _) (fun _ _ h => htaken.trans ⟨h.policy, h.retained⟩)
    fun _ _ h => htaken.trans h

/-- A change of the records of the resident keys and of the checkpoint slots. -/
lemma Priced.change {s : PageArena κ π} (h : Priced isPair s) {freeSlots : List Slot} {slots extSlots : Dict κ Slot}
    {slotTokens extTokens : Dict κ ℤ} {shareSlots : Dict (κ × ℤ) Slot} :
    Priced isPair { s with freeSlots, slots, extSlots, slotTokens, extTokens, shareSlots } :=
  h.narrows ⟨rfl, fun _ hk => hk⟩ (h.retention.keeps ⟨rfl, fun _ hk => hk⟩)

lemma setTokens_priced {tokens : ℤ} : Preserves (Priced isPair) (setTokens (π := π) key tokens) := by
  intro s h
  unfold setTokens
  simp only [wp_bind, wp_resident, wp_modify]
  exact ⟨fun _ _ => h.narrows ⟨rfl, fun _ hk => hk⟩ (h.retention.keeps ⟨rfl, fun _ => stays_set⟩), fun _ => h⟩

lemma allocSlot_priced : Preserves (Priced isPair) (allocSlot (π := π) key) := by
  intro s h
  unfold allocSlot
  simp only [wp_bind, wp_get, wp_resident]
  refine ⟨fun _ _ => ?_, fun _ => h⟩
  split
  · exact h
  · exact h
  · exact h.change

lemma allocExtension_priced : Preserves (Priced isPair) (allocExtension (π := π) key) := by
  intro s h
  unfold allocExtension
  simp only [wp_bind, wp_get, wp_resident]
  refine ⟨fun _ _ => ?_, fun _ => h⟩
  split
  · exact h
  · exact h
  · exact h.change

lemma allocShare_priced {tokens : ℤ} : Preserves (Priced isPair) (allocShare (π := π) key tokens) := by
  intro s h
  unfold allocShare
  simp only [wp_bind, wp_get, wp_resident]
  refine ⟨fun _ _ => ?_, fun _ => h⟩
  split
  · exact h
  · exact h
  · exact h.change

lemma dropExtension_priced : Preserves (Priced isPair) (dropExtension (π := π) key) := fun _ h => h.change

lemma resident_preserves {J : PageArena κ π → Prop} : Preserves J (resident key) := by
  intro s h
  rw [wp_resident]
  exact ⟨fun _ _ => h, fun _ => h⟩

lemma needed_preserves {J : PageArena κ π → Prop} {tokens : ℤ} : Preserves J (needed tokens) := by
  intro s h
  rw [wp_needed]
  exact ⟨fun _ => h, fun _ => h⟩

lemma sharedPages_preserves {J : PageArena κ π → Prop} {shared start : ℤ} :
    Preserves J (sharedPages key shared start) := by
  intro s h
  exact wp_mono sharedPages_spec (fun _ _ hs => hs.1 ▸ h) fun _ _ hs => hs ▸ h

lemma retainAll_adds {keys : List κ} {s : PageArena κ π} :
    wp (retainAll keys)
      (fun _ s' => s'.retentionPolicy = s.retentionPolicy ∧
        ∀ k, s'.retained.contains k = true → s.retained.contains k = true ∨ k ∈ keys)
      (fun _ s' => s'.retentionPolicy = s.retentionPolicy ∧
        ∀ k, s'.retained.contains k = true → s.retained.contains k = true ∨ k ∈ keys) s := by
  induction keys generalizing s with
  | nil => exact ⟨rfl, fun _ => Or.inl⟩
  | cons key keys ih =>
    rw [retainAll, wp_bind]
    have hone : ∀ s', Adds key s s' → ∀ k, s'.retained.contains k = true →
        s.retained.contains k = true ∨ k ∈ key :: keys := by
      intro s' hadds k hk
      rcases hadds.retained k hk with hold | rfl
      · exact Or.inl hold
      · exact Or.inr List.mem_cons_self
    have hrest : ∀ s', Adds key s s' → ∀ s'' : PageArena κ π, (s''.retentionPolicy = s'.retentionPolicy ∧
          ∀ k, s''.retained.contains k = true → s'.retained.contains k = true ∨ k ∈ keys) →
        s''.retentionPolicy = s.retentionPolicy ∧
          ∀ k, s''.retained.contains k = true → s.retained.contains k = true ∨ k ∈ key :: keys := by
      rintro s' hadds s'' ⟨hpolicy, hretained⟩
      refine ⟨hpolicy.trans hadds.policy, fun k hk => ?_⟩
      rcases hretained k hk with hold | hin
      · exact hone s' hadds k hold
      · exact Or.inr (List.mem_cons_of_mem _ hin)
    refine wp_mono retain_adds ?_ fun _ s' hadds => ⟨hadds.policy, hone s' hadds⟩
    intro _ s' hadds
    exact wp_mono ih (fun _ => hrest s' hadds) fun _ => hrest s' hadds

/-- A policy that has a priority for every pair is set. -/
lemma configureRetention_priced {policy : κ → ℤ → ℤ → Except PyError π} {cap : ℤ}
    (hanswers : ∀ k, isPair k = true → Answers policy k) :
    Preserves (Priced isPair) (configureRetention policy cap) := by
  intro s h
  have hkeys : ∀ k ∈ s.retained.keys, Answers policy k := fun k hk =>
    hanswers k (h.pairs k (Dict.contains_iff_mem_keys.2 hk))
  have hretention : wp (configureRetention policy cap) (fun _ => Retention []) (fun _ => Retention []) s :=
    configureRetention_retention h.retention hkeys
  unfold configureRetention at hretention ⊢
  simp only [wp_bind, wp_get, wp_ite, wp_throw, wp_set] at hretention ⊢
  refine ⟨fun _ => h, fun hcap => ?_⟩
  have hpriced : ∀ s' : PageArena κ π, Retention [] s' ∧ s'.retentionPolicy = policy ∧
      (∀ k, s'.retained.contains k = true → s.retained.contains k = true ∨ k ∈ s.retained.keys) →
      Priced isPair s' := by
    rintro s' ⟨hretention, hpolicy, hretained⟩
    refine ⟨hretention, fun k hk => ?_, fun k hk => ?_⟩
    · rw [hpolicy]
      exact hanswers k hk
    · rcases hretained k hk with hold | hin
      · exact h.pairs k hold
      · exact h.pairs k (Dict.contains_iff_mem_keys.2 hin)
  exact wp_mono (wp_and (hretention.2 hcap) retainAll_adds) (fun _ => hpriced) fun _ => hpriced

end Quail.Pages
