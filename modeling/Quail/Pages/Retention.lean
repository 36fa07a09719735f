import Quail.Pages.Accounting

/-!
# Retained keys

The keys kept for a later operator stand in a heap that is deleted from lazily: `retain` pushes an
entry with a new version, `pin` and `free_key` only forget the version, and `pop_retained_victim`
passes over the entries whose version is not their key's current one. `Retention` is the invariant:
every version a key has is on the heap, on one entry, and no two entries have one version.
-/

set_option linter.unusedSectionVars false

namespace Quail.Pages
open Imperative

variable {κ π : Type} [DecidableEq κ] [ToString κ] [LinearOrder π]

/-! ## The remaining operations -/

/-- `retain` of each key, in order. -/
def retainAll : List κ → Op κ π Unit
  | [] => pure ()
  | key :: keys => do
    retain key none
    retainAll keys

/-- Update the priorities of the retained keys: the heap is rebuilt under the new policy. -/
def configureRetention (policy : κ → ℤ → ℤ → Except PyError π) (capPages : ℤ) : Op κ π Unit := do
  let s ← get
  if ¬(0 ≤ capPages ∧ capPages ≤ s.numPages) then
    throw (.value "retention capacity must fit inside the arena")
  set { s with
    retentionPolicy := policy
    retentionCapPages := some capPages
    retainedHeap := [] }
  retainAll s.retained.keys

/-- Every operation of the arena that changes it, with the operations on slots and the change of
policy. -/
inductive Operation (κ π : Type) where
  | call (c : Call κ π)
  | popRetainedVictim (keep : Finset κ)
  | configureRetention (policy : κ → ℤ → ℤ → Except PyError π) (capPages : ℤ)
  | allocSlot (key : κ)
  | allocExtension (key : κ)
  | allocShare (key : κ) (tokens : ℤ)
  | dropExtension (key : κ)

/-- Run an operation, dropping its result. -/
def Operation.perform : Operation κ π → Op κ π Unit
  | .call c => c.perform
  | .popRetainedVictim keep => discard (Pages.popRetainedVictim keep)
  | .configureRetention policy capPages => Pages.configureRetention policy capPages
  | .allocSlot key => discard (Pages.allocSlot key)
  | .allocExtension key => discard (Pages.allocExtension key)
  | .allocShare key tokens => discard (Pages.allocShare key tokens)
  | .dropExtension key => Pages.dropExtension key

/-- The arena after an operation, whether it returned or raised. -/
def Operation.step (s : PageArena κ π) (o : Operation κ π) : PageArena κ π := final o.perform s

/-! ## Popping the heap -/

namespace RetainedEntry

omit [DecidableEq κ] [ToString κ] in
lemma before_refl (e : RetainedEntry κ π) : e.before e = true := by simp [before]

omit [DecidableEq κ] [ToString κ] in
lemma before_total {e f : RetainedEntry κ π} (h : e.before f = false) : f.before e = true := by
  simp only [before, Bool.or_eq_false_iff, Bool.and_eq_false_iff, decide_eq_false_iff_not, not_lt,
    Bool.or_eq_true, Bool.and_eq_true, decide_eq_true_eq] at h ⊢
  obtain ⟨hle, hne⟩ := h
  cases lt_or_eq_of_le hle with
  | inl hlt => exact .inl hlt
  | inr heq =>
    refine .inr ⟨heq, ?_⟩
    have := hne.resolve_left fun hp => hp heq.symm
    omega

omit [DecidableEq κ] [ToString κ] in
lemma before_trans {e f g : RetainedEntry κ π} (h : e.before f = true) (h' : f.before g = true) :
    e.before g = true := by
  simp only [before, Bool.or_eq_true, Bool.and_eq_true, decide_eq_true_eq] at h h' ⊢
  obtain hlt | ⟨heq, hv⟩ := h
  · obtain hlt' | ⟨heq', _⟩ := h'
    · exact .inl (hlt.trans hlt')
    · exact .inl (hlt.trans_eq heq')
  · obtain hlt' | ⟨heq', hv'⟩ := h'
    · exact .inl (heq.trans_lt hlt')
    · exact .inr ⟨heq.trans heq', hv.trans hv'⟩

omit [DecidableEq κ] [ToString κ] in
lemma priority_le_of_before {e f : RetainedEntry κ π} (h : e.before f = true) :
    e.priority ≤ f.priority := by
  simp only [before, Bool.or_eq_true, Bool.and_eq_true, decide_eq_true_eq] at h
  obtain hlt | ⟨heq, _⟩ := h
  · exact le_of_lt hlt
  · exact le_of_eq heq

/-- The entry carries its key's version. -/
def Current (versions : Dict κ ℕ) (e : RetainedEntry κ π) : Prop :=
  versions.get? e.key = some e.version

end RetainedEntry

omit [DecidableEq κ] [ToString κ] in
/-- Popping takes a least entry off the heap. -/
lemma heapPop_spec (heap : List (RetainedEntry κ π)) :
    match heapPop heap with
    | none => heap = []
    | some (e, rest) => heap.Perm (e :: rest) ∧ ∀ f ∈ rest, e.before f = true := by
  induction heap with
  | nil => rfl
  | cons e heap ih =>
    rw [heapPop]
    cases hpop : heapPop heap with
    | none =>
      rw [hpop] at ih
      obtain rfl : heap = [] := ih
      exact ⟨.refl _, nofun⟩
    | some popped =>
      obtain ⟨least, rest⟩ := popped
      rw [hpop] at ih
      obtain ⟨hperm, hleast⟩ := ih
      dsimp only
      split_ifs with hb
      · refine ⟨.refl _, ?_⟩
        intro f hf
        cases List.mem_cons.1 (hperm.subset hf) with
        | inl heq => exact heq ▸ hb
        | inr hf => exact RetainedEntry.before_trans hb (hleast f hf)
      · refine ⟨(hperm.cons e).trans (.swap ..), ?_⟩
        intro f hf
        cases List.mem_cons.1 hf with
        | inl heq => exact heq ▸ RetainedEntry.before_total (Bool.eq_false_iff.2 hb)
        | inr hf => exact hleast f hf

/-- What the search for a victim comes back with. -/
structure Searched (versions : Dict κ ℕ) (keep : Finset κ) (heap passed : List (RetainedEntry κ π))
    (victim : Option (RetainedEntry κ π)) (left : List (RetainedEntry κ π)) : Prop where
  subperm : left.Subperm (passed ++ heap)
  kept : ∀ e ∈ passed ++ heap, e ∈ passed ∨ e.Current versions → victim = some e ∨ e ∈ left
  least : ∀ e, victim = some e → e ∈ heap ∧ e.Current versions ∧ e.key ∉ keep ∧
    ∀ f ∈ heap, f.Current versions → f.key ∉ keep → e.before f = true
  nothing : victim = none → ∀ f ∈ heap, f.Current versions → f.key ∈ keep

/-- The search finds the least current entry outside `keep` and loses no other current entry. -/
lemma victimSearch_spec (versions : Dict κ ℕ) (keep : Finset κ) {fuel : ℕ}
    (heap passed : List (RetainedEntry κ π)) (hfuel : heap.length ≤ fuel) :
    Searched versions keep heap passed (victimSearch versions keep fuel heap passed).1
      (victimSearch versions keep fuel heap passed).2 := by
  induction fuel generalizing heap passed with
  | zero =>
    obtain rfl := List.eq_nil_of_length_eq_zero (Nat.le_zero.1 hfuel)
    exact ⟨.refl _, fun e he _ => .inr he, nofun, fun _ => nofun⟩
  | succ fuel ih =>
    rw [victimSearch]
    have hspec := heapPop_spec heap
    cases hpop : heapPop heap with
    | none =>
      rw [hpop] at hspec
      obtain rfl : heap = [] := hspec
      refine ⟨?_, ?_, nofun, fun _ => nofun⟩
      · rw [List.append_nil]
      · intro e he _
        rw [List.append_nil] at he
        exact .inr he
    | some popped =>
      obtain ⟨e, rest⟩ := popped
      rw [hpop] at hspec
      obtain ⟨hperm, hleast⟩ := hspec
      have hrest : rest.length ≤ fuel := by
        have hlen := hperm.length_eq
        rw [List.length_cons] at hlen
        omega
      have hmem : ∀ f, f ∈ heap → f = e ∨ f ∈ rest := fun f hf => List.mem_cons.1 (hperm.subset hf)
      have hsub : (passed ++ rest).Subperm (passed ++ heap) :=
        (List.subperm_append_left passed).2
          ((List.sublist_cons_self e rest).subperm.trans hperm.symm.subperm)
      dsimp only
      split_ifs with hstale hkeep
      · -- a stale entry is dropped
        obtain ⟨h1, h2, h3, h4⟩ := ih rest passed hrest
        have hne : ∀ f : RetainedEntry κ π, f.Current versions → f ≠ e := by
          intro f hf heq
          exact hstale (heq ▸ hf)
        refine ⟨h1.trans hsub, ?_, ?_, ?_⟩
        · intro f hf hcur
          cases hcur with
          | inl hp => exact h2 f (List.mem_append_left _ hp) (.inl hp)
          | inr hcur =>
            apply h2 f ?_ (.inr hcur)
            cases List.mem_append.1 hf with
            | inl hp => exact List.mem_append_left _ hp
            | inr hf => exact List.mem_append_right _ ((hmem f hf).resolve_left (hne f hcur))
        · intro v hv
          obtain ⟨hin, hcur, hout, hbefore⟩ := h3 v hv
          refine ⟨hperm.symm.subset (List.mem_cons_of_mem _ hin), hcur, hout, ?_⟩
          intro f hf hfcur
          exact hbefore f ((hmem f hf).resolve_left (hne f hfcur)) hfcur
        · intro hv f hf hfcur
          exact h4 hv f ((hmem f hf).resolve_left (hne f hfcur)) hfcur
      · -- a kept entry is passed over
        obtain ⟨h1, h2, h3, h4⟩ := ih rest (passed ++ [e]) hrest
        have hback : ((passed ++ [e]) ++ rest).Perm (passed ++ heap) := by
          rw [List.append_assoc]
          exact hperm.symm.append_left passed
        refine ⟨h1.trans hback.subperm, ?_, ?_, ?_⟩
        · intro f hf hcur
          apply h2 f (hback.symm.subset hf)
          exact hcur.imp (List.mem_append_left _) id
        · intro v hv
          obtain ⟨hin, hcur, hout, hbefore⟩ := h3 v hv
          refine ⟨hperm.symm.subset (List.mem_cons_of_mem _ hin), hcur, hout, ?_⟩
          intro f hf hfcur hfout
          cases hmem f hf with
          | inl heq => exact absurd (heq ▸ hkeep) hfout
          | inr hf => exact hbefore f hf hfcur hfout
        · intro hv f hf hfcur
          cases hmem f hf with
          | inl heq => exact heq ▸ hkeep
          | inr hf => exact h4 hv f hf hfcur
      · -- the victim
        refine ⟨hsub, ?_, ?_, nofun⟩
        · intro f hf _
          cases List.mem_append.1 hf with
          | inl hp => exact .inr (List.mem_append_left _ hp)
          | inr hf => exact (hmem f hf).imp (fun h => congrArg some h.symm) (List.mem_append_right _)
        · intro v hv
          obtain rfl := Option.some.inj hv
          refine ⟨hperm.symm.subset (List.mem_cons_self ..), not_not.1 hstale, hkeep, ?_⟩
          intro f hf _ _
          cases hmem f hf with
          | inl heq => exact heq ▸ RetainedEntry.before_refl f
          | inr hf => exact hleast f hf

/-! ## The invariant -/

/-- What holds of the retained keys, but that those in `lost` may have no entry on the heap. -/
structure Retention (lost : List κ) (s : PageArena κ π) : Prop where
  resident : ∀ k, s.retained.contains k = true → s.docs.contains k = true
  unpinned : ∀ k, s.retained.contains k = true → k ∉ s.pinned
  sizes : ∀ k, s.retainedSizes.contains k = s.retained.contains k
  versions : ∀ k, s.retainedVersions.contains k = s.retained.contains k
  total : s.retainedPages = s.retainedSizes.total fun _ p => p
  stamped : ∀ e ∈ s.retainedHeap, e.version ≤ s.retentionVersion
  distinct : (s.retainedHeap.map RetainedEntry.version).Nodup
  current : ∀ k v, s.retainedVersions.get? k = some v →
    k ∈ lost ∨ ∃ e ∈ s.retainedHeap, e.key = k ∧ e.version = v

/-- The part of the arena the retained keys are recorded in. -/
def PageArena.retention (s : PageArena κ π) :
    Finset κ × Dict κ ℤ × ℤ × Dict κ ℤ × List (RetainedEntry κ π) × Dict κ ℕ × ℕ :=
  (s.pinned, s.retainedSizes, s.retainedPages, s.retained, s.retainedHeap, s.retainedVersions,
    s.retentionVersion)

/-- Nothing about the retained keys changed, and no key left. -/
structure Keeps (s s' : PageArena κ π) : Prop where
  same : s'.retention = s.retention
  stays : ∀ k, s.docs.contains k = true → s'.docs.contains k = true

lemma Keeps.refl (s : PageArena κ π) : Keeps s s := ⟨rfl, fun _ h => h⟩

lemma Keeps.trans {s s' s'' : PageArena κ π} (h : Keeps s s') (h' : Keeps s' s'') : Keeps s s'' :=
  ⟨h'.same.trans h.same, fun k hk => h'.stays k (h.stays k hk)⟩

lemma Retention.keeps {lost : List κ} {s s' : PageArena κ π} (h : Retention lost s)
    (hs : Keeps s s') : Retention lost s' := by
  obtain ⟨hsame, hstays⟩ := hs
  obtain ⟨numPages, pageTokens, numSlots, freeSlots, slots, slotTokens, extSlots, extTokens,
    shareSlots, free, docs, holds, pinned, retainedSizes, retainedPages, retained, retainedHeap,
    retainedVersions, retentionVersion, retentionPolicy, retentionCapPages⟩ := s'
  simp only [PageArena.retention, Prod.mk.injEq] at hsame
  obtain ⟨rfl, rfl, rfl, rfl, rfl, rfl, rfl⟩ := hsame
  exact ⟨fun k hk => hstays k (h.resident k hk), h.unpinned, h.sizes, h.versions, h.total,
    h.stamped, h.distinct, h.current⟩

/-- The arena with a key taken out of the retained ones. -/
def PageArena.forgotten (s : PageArena κ π) (key : κ) : PageArena κ π :=
  { s with
    retainedPages := s.retainedPages - (s.retainedSizes.get? key).getD 0
    retainedSizes := s.retainedSizes.erase key
    retained := s.retained.erase key
    retainedVersions := s.retainedVersions.erase key }

@[simp] lemma wp_forgetRetained {key : κ} {Q : Unit → PageArena κ π → Prop}
    {E : PyError → PageArena κ π → Prop} {s : PageArena κ π} :
    wp (forgetRetained key) Q E s ↔ Q () (s.forgotten key) := Iff.rfl

/-- The other retained keys are as before. -/
lemma Retention.forgotten {lost : List κ} {s : PageArena κ π} (h : Retention lost s) (key : κ) :
    Retention lost (s.forgotten key) := by
  refine ⟨?_, ?_, ?_, ?_, ?_, h.stamped, h.distinct, ?_⟩
  · intro k hk
    rw [PageArena.forgotten, Dict.contains_erase, Bool.and_eq_true] at hk
    exact h.resident k hk.1
  · intro k hk
    rw [PageArena.forgotten, Dict.contains_erase, Bool.and_eq_true] at hk
    exact h.unpinned k hk.1
  · intro k
    show (s.retainedSizes.erase key).contains k = (s.retained.erase key).contains k
    rw [Dict.contains_erase, Dict.contains_erase, h.sizes k]
  · intro k
    show (s.retainedVersions.erase key).contains k = (s.retained.erase key).contains k
    rw [Dict.contains_erase, Dict.contains_erase, h.versions k]
  · have hpart : s.retainedSizes.part (fun _ p => p) key = (s.retainedSizes.get? key).getD 0 := by
      unfold Dict.part
      cases s.retainedSizes.get? key <;> rfl
    show s.retainedPages - _ = (s.retainedSizes.erase key).total fun _ p => p
    rw [Dict.total_erase, ← h.total, hpart]
  · intro k v hv
    rw [PageArena.forgotten, Dict.get?_erase] at hv
    split_ifs at hv
    exact h.current k v hv

lemma forgotten_contains {s : PageArena κ π} {key : κ} :
    (s.forgotten key).retained.contains key = false := by
  rw [PageArena.forgotten, Dict.contains_erase]
  simp

/-- A key need not be pinned. -/
lemma Retention.unpin {lost : List κ} {s : PageArena κ π} (h : Retention lost s) (key : κ) :
    Retention lost { s with pinned := s.pinned.erase key } where
  resident := h.resident
  unpinned k hk hp := h.unpinned k hk (Finset.mem_of_mem_erase hp)
  sizes := h.sizes
  versions := h.versions
  total := h.total
  stamped := h.stamped
  distinct := h.distinct
  current := h.current

/-- A key that is not retained may be pinned. -/
lemma Retention.pin {lost : List κ} {s : PageArena κ π} (h : Retention lost s) {key : κ}
    (hkey : s.retained.contains key = false) :
    Retention lost { s with pinned := insert key s.pinned } where
  resident := h.resident
  unpinned k hk hp := by
    cases Finset.mem_insert.1 hp with
    | inl heq =>
      rw [heq, hkey] at hk
      cases hk
    | inr hp => exact h.unpinned k hk hp
  sizes := h.sizes
  versions := h.versions
  total := h.total
  stamped := h.stamped
  distinct := h.distinct
  current := h.current

/-- A resident key that is neither retained nor pinned is retained with a new version, on a new
entry of the heap. -/
lemma Retention.push {lost : List κ} {s : PageArena κ π} {key : κ} (h : Retention (key :: lost) s)
    (hres : s.docs.contains key = true) (hpin : key ∉ s.pinned)
    (hout : s.retained.contains key = false) (tokens pages : ℤ) (priority : π) :
    Retention lost { s with
      retained := s.retained.set key tokens
      retainedSizes := s.retainedSizes.set key pages
      retainedPages := s.retainedPages + pages
      retentionVersion := s.retentionVersion + 1
      retainedVersions := s.retainedVersions.set key (s.retentionVersion + 1)
      retainedHeap := ⟨priority, s.retentionVersion + 1, key, pages, tokens⟩ :: s.retainedHeap } := by
  have hor : ∀ k, (s.retained.set key tokens).contains k = true →
      key = k ∨ s.retained.contains k = true := by
    intro k hk
    rw [Dict.contains_set, Bool.or_eq_true, decide_eq_true_eq] at hk
    exact hk
  refine ⟨?_, ?_, ?_, ?_, ?_, ?_, ?_, ?_⟩
  · intro k hk
    cases hor k hk with
    | inl heq => exact heq ▸ hres
    | inr hk => exact h.resident k hk
  · intro k hk
    cases hor k hk with
    | inl heq => exact heq ▸ hpin
    | inr hk => exact h.unpinned k hk
  · intro k
    show (s.retainedSizes.set key pages).contains k = (s.retained.set key tokens).contains k
    rw [Dict.contains_set, Dict.contains_set, h.sizes k]
  · intro k
    show (s.retainedVersions.set key _).contains k = (s.retained.set key tokens).contains k
    rw [Dict.contains_set, Dict.contains_set, h.versions k]
  · have hpart : s.retainedSizes.part (fun _ p => p) key = 0 := by
      rw [← h.sizes key, Dict.contains_eq_false] at hout
      rw [Dict.part, hout]
      rfl
    show s.retainedPages + pages = (s.retainedSizes.set key pages).total fun _ p => p
    rw [Dict.total_set, ← h.total, hpart, sub_zero]
  · intro e he
    cases List.mem_cons.1 he with
    | inl heq => exact le_of_eq (congrArg RetainedEntry.version heq)
    | inr he => exact Nat.le_succ_of_le (h.stamped e he)
  · refine List.nodup_cons.2 ⟨?_, h.distinct⟩
    intro hin
    obtain ⟨e, he, heq⟩ := List.mem_map.1 hin
    have hle := h.stamped e he
    rw [heq] at hle
    exact Nat.not_succ_le_self _ hle
  · intro k v hv
    rw [Dict.get?_set] at hv
    split_ifs at hv with heq
    · obtain rfl := Option.some.inj hv
      exact .inr ⟨_, List.mem_cons_self .., heq, rfl⟩
    · cases h.current k v hv with
      | inl hlost => exact .inl ((List.mem_cons.1 hlost).resolve_left fun h => heq h.symm)
      | inr hentry =>
        obtain ⟨e, he, hkv⟩ := hentry
        exact .inr ⟨e, List.mem_cons_of_mem _ he, hkv⟩

lemma Retention.weaken {lost : List κ} {s : PageArena κ π} (h : Retention lost s) (key : κ) :
    Retention (key :: lost) s where
  resident := h.resident
  unpinned := h.unpinned
  sizes := h.sizes
  versions := h.versions
  total := h.total
  stamped := h.stamped
  distinct := h.distinct
  current k v hv := (h.current k v hv).imp (List.mem_cons_of_mem _) id

/-! ## The operations -/

/-- The policy gives a priority for the key. -/
def Answers (policy : κ → ℤ → ℤ → Except PyError π) (key : κ) : Prop :=
  ∀ tokens pages, ∃ value, policy key tokens pages = .ok value

/-- Retaining a resident key puts it on the heap, where the policy has a priority for it. -/
lemma retain_retention {lost : List κ} {s : PageArena κ π} {key : κ} {priority : Option π}
    (h : Retention (key :: lost) s)
    (hanswers : priority = none → s.docs.contains key = true → Answers s.retentionPolicy key) :
    wp (retain key priority)
      (fun _ s' => Retention lost s' ∧ s'.docs = s.docs ∧ s'.retentionPolicy = s.retentionPolicy)
      (fun _ s' => s' = s ∧ s.docs.contains key = false) s := by
  unfold Pages.retain
  simp only [wp_bind, wp_get, wp_set, wp_resident, wp_modify, wp_forgetRetained,
    wp_retentionPriority]
  refine ⟨?_, ?_⟩
  · intro r hr
    have hres : s.docs.contains key = true := Dict.contains_iff.2 ⟨r, hr⟩
    have hforgot := (h.unpin key).forgotten key
    have hpush := hforgot.push hres (Finset.notMem_erase key s.pinned) forgotten_contains r.tokens
    refine ⟨?_, ?_, ?_⟩
    · intro value _
      exact ⟨hpush _ value, rfl, rfl⟩
    · intro _ value _
      exact ⟨hpush _ value, rfl, rfl⟩
    · intro hnone e he
      obtain ⟨value, hvalue⟩ := hanswers hnone hres r.tokens _
      exact absurd (hvalue.symm.trans he) (by rintro ⟨⟩)
  · intro hnone
    exact ⟨trivial, Dict.contains_eq_false.2 hnone⟩

lemma retainAll_retention {keys : List κ} {s : PageArena κ π} (h : Retention keys s)
    (hres : ∀ k ∈ keys, s.docs.contains k = true) (hanswers : ∀ k ∈ keys, Answers s.retentionPolicy k) :
    wp (retainAll keys) (fun _ => Retention []) (fun _ _ => False) s := by
  induction keys generalizing s with
  | nil => exact h
  | cons key keys ih =>
    rw [retainAll, wp_bind]
    refine wp_mono (retain_retention h fun _ _ => hanswers key (List.mem_cons_self ..)) ?_ ?_
    · rintro _ s' ⟨h', hdocs, hpolicy⟩
      apply ih h'
      · intro k hk
        rw [hdocs]
        exact hres k (List.mem_cons_of_mem _ hk)
      · intro k hk
        rw [hpolicy]
        exact hanswers k (List.mem_cons_of_mem _ hk)
    · rintro _ s' ⟨_, hkey⟩
      rw [hres key (List.mem_cons_self ..)] at hkey
      cases hkey

lemma configureRetention_retention {s : PageArena κ π} {policy : κ → ℤ → ℤ → Except PyError π}
    {cap : ℤ} (h : Retention [] s) (hanswers : ∀ k ∈ s.retained.keys, Answers policy k) :
    wp (configureRetention policy cap) (fun _ => Retention []) (fun _ => Retention []) s := by
  unfold configureRetention
  simp only [wp_bind, wp_get, wp_ite, wp_throw, wp_set]
  refine ⟨fun _ => h, fun _ => ?_⟩
  have hcleared : Retention s.retained.keys { s with
      retentionPolicy := policy, retentionCapPages := some cap, retainedHeap := [] } :=
    { resident := h.resident
      unpinned := h.unpinned
      sizes := h.sizes
      versions := h.versions
      total := h.total
      stamped := fun _ he => by cases he
      distinct := List.nodup_nil
      current := by
        intro k v hv
        have hk : s.retainedVersions.contains k = true := Dict.contains_iff.2 ⟨v, hv⟩
        rw [h.versions k, Dict.contains_iff_mem_keys] at hk
        exact .inl hk }
  refine wp_mono (retainAll_retention hcleared ?_ hanswers) (fun _ _ => id) fun _ _ => False.elim
  intro k hk
  exact h.resident k (Dict.contains_iff_mem_keys.2 hk)

lemma pin_retention {s : PageArena κ π} {key : κ} (h : Retention [] s) :
    wp (pin key) (fun _ => Retention []) (fun _ => Retention []) s := by
  unfold Pages.pin
  simp only [wp_bind, wp_resident, wp_modify, wp_forgetRetained]
  exact ⟨fun _ _ => (h.forgotten key).pin forgotten_contains, fun _ => h⟩

/-- A key that is not retained may leave. -/
lemma Retention.remove {lost : List κ} {s : PageArena κ π} (h : Retention lost s) {key : κ}
    (hkey : s.retained.contains key = false) :
    Retention lost { s with docs := s.docs.erase key, pinned := s.pinned.erase key } where
  resident k hk := by
    have hne : key ≠ k := by
      rintro rfl
      rw [hkey] at hk
      cases hk
    rw [Dict.contains_erase, h.resident k hk]
    simp [hne]
  unpinned k hk hp := h.unpinned k hk (Finset.mem_of_mem_erase hp)
  sizes := h.sizes
  versions := h.versions
  total := h.total
  stamped := h.stamped
  distinct := h.distinct
  current := h.current

lemma freeKey_retention {s : PageArena κ π} {key : κ} (h : Retention [] s) :
    wp (freeKey key) (fun _ => Retention []) (fun _ => Retention []) s := by
  unfold freeKey dropExtension dropShares
  simp only [wp_bind, wp_get, wp_resident, wp_modify, wp_releasePages, wp_forgetRetained]
  refine ⟨fun r _ => ?_, fun _ => h.keeps ⟨rfl, fun _ hk => hk⟩⟩
  exact ((h.forgotten key).remove forgotten_contains).keeps ⟨rfl, fun _ hk => hk⟩

lemma stays_set {docs : Dict κ Resident} {key k : κ} {r : Resident}
    (hk : docs.contains k = true) : (docs.set key r).contains k = true := by
  rw [Dict.contains_set, hk, Bool.or_true]

lemma alloc_keeps {key : κ} {tokens : ℤ} {capacity : Option ℤ} {borrowed : List Page}
    {s : PageArena κ π} :
    wp (alloc key tokens capacity borrowed) (fun _ => Keeps s) (fun _ => Keeps s) s := by
  unfold alloc
  simp only [wp_bind, wp_get, wp_ite, wp_throw, wp_pure, wp_needed, wp_set]
  have hsame : Keeps s s := .refl s
  exact ⟨fun _ => hsame, fun _ => ⟨fun _ => hsame, fun _ => ⟨fun _ => hsame, fun _ => ⟨fun _ => hsame,
    fun _ => ⟨fun _ => hsame, fun _ => ⟨rfl, fun _ => stays_set⟩⟩⟩⟩⟩⟩

lemma dropLeading_keeps {key : κ} {pages : ℤ} {s : PageArena κ π} :
    wp (dropLeading key pages) (fun _ => Keeps s) (fun _ => Keeps s) s := by
  unfold dropLeading
  simp only [wp_bind, wp_resident, wp_modify, wp_releasePages]
  exact ⟨fun _ _ => ⟨rfl, fun _ => stays_set⟩, fun _ => .refl s⟩

lemma grow_keeps {key : κ} {capacity : ℤ} {s : PageArena κ π} :
    wp (grow key capacity) (fun _ => Keeps s) (fun _ => Keeps s) s := by
  unfold grow
  simp only [wp_bind, wp_get, wp_resident, wp_ite, wp_pure, wp_needed, wp_set]
  have hsame : Keeps s s := .refl s
  exact ⟨fun _ _ => ⟨fun _ => hsame, fun _ => ⟨fun _ => hsame, fun _ => ⟨fun _ => hsame, fun _ =>
    ⟨rfl, fun _ => stays_set⟩⟩⟩⟩, fun _ => hsame⟩

lemma appendPages_keeps {given : List (κ × Page)} {s : PageArena κ π} :
    wp (appendPages given) (fun _ => Keeps s) (fun _ => Keeps s) s := by
  induction given generalizing s with
  | nil => exact .refl s
  | cons e given ih =>
    rw [appendPages]
    simp only [wp_bind, wp_resident, wp_modify]
    refine ⟨fun r _ => ?_, fun _ => .refl s⟩
    have hfirst : Keeps s { s with docs := s.docs.set e.1 { r with owned := r.owned ++ [e.2] } } :=
      ⟨rfl, fun _ => stays_set⟩
    exact wp_mono ih (fun _ _ h => hfirst.trans h) fun _ _ h => hfirst.trans h

lemma growPages_keeps {keys : List κ} {s : PageArena κ π} :
    wp (growPages keys) (fun _ => Keeps s) (fun _ => Keeps s) s := by
  unfold growPages
  simp only [wp_bind, wp_get, wp_ite, wp_pure, wp_set]
  refine ⟨fun _ => .refl s, fun _ => ?_⟩
  have htaken : Keeps s { s with free := s.free.drop keys.length } := ⟨rfl, fun _ h => h⟩
  exact wp_mono appendPages_keeps (fun _ _ h => htaken.trans ⟨h.same, h.stays⟩)
    fun _ _ h => htaken.trans h

lemma rewind_retention {key : κ} {tokens : ℤ} {s : PageArena κ π} (h : Retention [] s)
    (hanswers : s.retained.contains key = true → Answers s.retentionPolicy key) :
    wp (rewind key tokens) (fun _ => Retention []) (fun _ => Retention []) s := by
  unfold rewind
  simp only [wp_bind, wp_get, wp_resident, wp_ite, wp_throw, wp_pure, wp_needed, wp_set,
    wp_releasePages]
  refine ⟨fun r _ => ⟨fun _ => h, fun _ => ⟨fun _ => h, fun _ => ⟨?_, ?_⟩⟩⟩, fun _ => h⟩
  · intro hkey
    refine wp_mono (retain_retention (Retention.weaken ?_ key) ?_) (fun _ _ h => h.1) ?_
    · exact h.keeps ⟨rfl, fun _ => stays_set⟩
    · exact fun _ _ => hanswers hkey
    · rintro _ s' ⟨heq, _⟩
      exact heq ▸ h.keeps ⟨rfl, fun _ => stays_set⟩
  · intro _
    exact h.keeps ⟨rfl, fun _ => stays_set⟩

lemma allocSlot_keeps {s : PageArena κ π} {key : κ} :
    wp (allocSlot key) (fun _ => Keeps s) (fun _ => Keeps s) s := by
  unfold allocSlot
  simp only [wp_bind, wp_get, wp_resident]
  refine ⟨fun _ _ => ?_, fun _ => .refl s⟩
  split <;> first | exact .refl s | exact ⟨rfl, fun _ h => h⟩

lemma allocExtension_keeps {s : PageArena κ π} {key : κ} :
    wp (allocExtension key) (fun _ => Keeps s) (fun _ => Keeps s) s := by
  unfold allocExtension
  simp only [wp_bind, wp_get, wp_resident]
  refine ⟨fun _ _ => ?_, fun _ => .refl s⟩
  split <;> first | exact .refl s | exact ⟨rfl, fun _ h => h⟩

lemma allocShare_keeps {s : PageArena κ π} {key : κ} {tokens : ℤ} :
    wp (allocShare key tokens) (fun _ => Keeps s) (fun _ => Keeps s) s := by
  unfold allocShare
  simp only [wp_bind, wp_get, wp_resident]
  refine ⟨fun _ _ => ?_, fun _ => .refl s⟩
  split <;> first | exact .refl s | exact ⟨rfl, fun _ h => h⟩

lemma dropExtension_keeps {s : PageArena κ π} {key : κ} :
    wp (dropExtension key) (fun _ => Keeps s) (fun _ => Keeps s) s := ⟨rfl, fun _ h => h⟩

/-! ## Victims -/

/-- The priority a key is retained with: that of its current entry on the heap. -/
def PageArena.priority? (s : PageArena κ π) (key : κ) : Option π :=
  (s.retainedHeap.find? fun e => e.key = key ∧ s.retainedVersions.get? key = some e.version).map
    RetainedEntry.priority

lemma Retention.entry {s : PageArena κ π} (h : Retention [] s) {key : κ}
    (hkey : s.retained.contains key = true) :
    ∃ e ∈ s.retainedHeap, e.key = key ∧ e.Current s.retainedVersions := by
  rw [← h.versions key] at hkey
  obtain ⟨v, hv⟩ := Dict.contains_iff.1 hkey
  obtain ⟨e, he, heq, hversion⟩ := (h.current key v hv).resolve_left nofun
  refine ⟨e, he, heq, ?_⟩
  rw [RetainedEntry.Current, heq, hv, hversion]

lemma Retention.retained_of_current {lost : List κ} {s : PageArena κ π} (h : Retention lost s)
    {e : RetainedEntry κ π} (he : e.Current s.retainedVersions) :
    s.retained.contains e.key = true := by
  rw [← h.versions e.key]
  exact Dict.contains_iff.2 ⟨_, he⟩

/-- A key has one current entry. -/
lemma Retention.current_unique {lost : List κ} {s : PageArena κ π} (h : Retention lost s)
    {e f : RetainedEntry κ π} (he : e ∈ s.retainedHeap) (hf : f ∈ s.retainedHeap)
    (hecur : e.Current s.retainedVersions) (hfcur : f.Current s.retainedVersions)
    (heq : e.key = f.key) : e = f := by
  apply List.inj_on_of_nodup_map h.distinct he hf
  rw [RetainedEntry.Current, heq] at hecur
  exact Option.some.inj (hecur.symm.trans hfcur)

lemma Retention.priority?_eq {lost : List κ} {s : PageArena κ π} (h : Retention lost s)
    {e : RetainedEntry κ π} (he : e ∈ s.retainedHeap) (hcur : e.Current s.retainedVersions) :
    s.priority? e.key = some e.priority := by
  unfold PageArena.priority?
  cases hfind : s.retainedHeap.find? fun f =>
      f.key = e.key ∧ s.retainedVersions.get? e.key = some f.version with
  | none =>
    have hno := List.find?_eq_none.1 hfind e he
    rw [decide_eq_true_eq] at hno
    exact absurd ⟨rfl, hcur⟩ hno
  | some f =>
    have hf := List.find?_some hfind
    rw [decide_eq_true_eq] at hf
    obtain ⟨hkey, hfcur⟩ := hf
    rw [← hkey] at hfcur
    rw [h.current_unique he (List.mem_of_find?_eq_some hfind) hcur hfcur hkey.symm]
    rfl

/-- What `pop_retained_victim` returns and leaves behind. -/
structure Popped (s : PageArena κ π) (keep : Finset κ) (victim : Option (κ × ℤ × ℤ))
    (s' : PageArena κ π) : Prop where
  nothing : victim = none → ∀ k, s.retained.contains k = true → k ∈ keep
  least : ∀ k pages tokens, victim = some (k, pages, tokens) →
    s.retained.contains k = true ∧ k ∉ keep ∧ s'.retained.contains k = false ∧
      ∃ p, s.priority? k = some p ∧ ∀ k', s.retained.contains k' = true → k' ∉ keep →
        ∃ p', s.priority? k' = some p' ∧ p ≤ p'
  others : ∀ k, s.retained.contains k = true → (∀ pages tokens, victim ≠ some (k, pages, tokens)) →
    s'.retained.contains k = true ∧ s'.priority? k = s.priority? k
  kept : ∀ k ∈ keep, s.retained.contains k = true →
    s'.retained.contains k = true ∧ s'.priority? k = s.priority? k

lemma Retention.shrink {s : PageArena κ π} {heap : List (RetainedEntry κ π)} (h : Retention [] s)
    (hsub : heap.Subperm s.retainedHeap)
    (hkept : ∀ e ∈ s.retainedHeap, e.Current s.retainedVersions → e ∈ heap) :
    Retention [] { s with retainedHeap := heap } where
  resident := h.resident
  unpinned := h.unpinned
  sizes := h.sizes
  versions := h.versions
  total := h.total
  stamped e he := h.stamped e (hsub.subset he)
  distinct := by
    obtain ⟨left, hperm, hsublist⟩ := hsub
    exact (hperm.map _).nodup_iff.1 (h.distinct.sublist (hsublist.map _))
  current k v hv := by
    obtain ⟨e, he, heq, hversion⟩ := (h.current k v hv).resolve_left nofun
    refine .inr ⟨e, hkept e he ?_, heq, hversion⟩
    rw [RetainedEntry.Current, heq, hv, hversion]

/-- The victim is a retained key of least priority outside `keep`, and the others stay retained. -/
lemma popRetainedVictim_spec {s : PageArena κ π} {keep : Finset κ} (h : Retention [] s) :
    wp (popRetainedVictim keep) (fun victim s' => Retention [] s' ∧ Popped s keep victim s')
      (fun _ _ => False) s := by
  unfold popRetainedVictim
  simp only [wp_bind, wp_get, wp_set]
  have hsearch := victimSearch_spec s.retainedVersions keep s.retainedHeap [] le_rfl
  generalize victimSearch s.retainedVersions keep s.retainedHeap.length s.retainedHeap [] = found
    at hsearch ⊢
  obtain ⟨victim, heap⟩ := found
  obtain ⟨hsub, hkept, hleast, hnothing⟩ := hsearch
  cases victim with
  | none =>
    have hall : ∀ e ∈ s.retainedHeap, e.Current s.retainedVersions → e ∈ heap := fun e he hcur =>
      (hkept e he (.inr hcur)).resolve_left (by rintro ⟨⟩)
    have hafter := h.shrink hsub hall
    have hsame : ∀ k, s.retained.contains k = true →
        PageArena.priority? { s with retainedHeap := heap } k = s.priority? k := by
      intro k hk
      obtain ⟨e, he, rfl, hcur⟩ := h.entry hk
      rw [h.priority?_eq he hcur]
      exact hafter.priority?_eq (hall e he hcur) hcur
    refine ⟨hafter, ?_, (by simp), fun k hk _ => ⟨hk, hsame k hk⟩, fun k _ hk => ⟨hk, hsame k hk⟩⟩
    intro _ k hk
    obtain ⟨e, he, rfl, hcur⟩ := h.entry hk
    exact hnothing rfl e he hcur
  | some v =>
    obtain ⟨hv, hvcur, hout, hbefore⟩ := hleast v rfl
    have hmem : ∀ e ∈ s.retainedHeap, e.Current s.retainedVersions → e.key ≠ v.key → e ∈ heap := by
      intro e he hcur hne
      cases hkept e he (.inr hcur) with
      | inl heq =>
        obtain rfl := Option.some.inj heq
        exact absurd rfl hne
      | inr hin => exact hin
    -- the entries current after the victim is forgotten are those of the other keys
    have hforgot : ∀ e : RetainedEntry κ π, e.Current (s.forgotten v.key).retainedVersions →
        e.key ≠ v.key ∧ e.Current s.retainedVersions := by
      intro e hcur
      rw [RetainedEntry.Current, PageArena.forgotten, Dict.get?_erase] at hcur
      split_ifs at hcur with heq
      exact ⟨fun h => heq h.symm, hcur⟩
    have hback : ∀ e : RetainedEntry κ π, e.key ≠ v.key → e.Current s.retainedVersions →
        e.Current (s.forgotten v.key).retainedVersions := by
      intro e hne hcur
      rw [RetainedEntry.Current, PageArena.forgotten, Dict.get?_erase_ne hne.symm]
      exact hcur
    have hafter := (h.forgotten v.key).shrink hsub fun e he hcur =>
      hmem e he (hforgot e hcur).2 (hforgot e hcur).1
    have hsame : ∀ k, s.retained.contains k = true → k ≠ v.key →
        (s.forgotten v.key).retained.contains k = true ∧
          PageArena.priority? { s.forgotten v.key with retainedHeap := heap } k = s.priority? k := by
      intro k hk hne
      constructor
      · rw [PageArena.forgotten, Dict.contains_erase, hk]
        simp [Ne.symm hne]
      · obtain ⟨e, he, rfl, hcur⟩ := h.entry hk
        rw [h.priority?_eq he hcur]
        exact hafter.priority?_eq (hmem e he hcur hne) (hback e hne hcur)
    refine ⟨hafter, (by rintro ⟨⟩), ?_, ?_, ?_⟩
    · intro k pages tokens heq
      cases heq
      refine ⟨h.retained_of_current hvcur, hout, forgotten_contains, v.priority,
        h.priority?_eq hv hvcur, ?_⟩
      intro k' hk' hout'
      obtain ⟨e, he, rfl, hcur⟩ := h.entry hk'
      exact ⟨e.priority, h.priority?_eq he hcur,
        RetainedEntry.priority_le_of_before (hbefore e he hcur hout')⟩
    · intro k hk hne
      refine hsame k hk ?_
      rintro rfl
      exact hne v.pages v.prefixTokens rfl
    · intro k hkeep hk
      refine hsame k hk ?_
      rintro rfl
      exact hout hkeep

/-! ## Runs -/

/-- The policy has a priority for every key the operation asks it about. -/
def Operation.Answered (s : PageArena κ π) : Operation κ π → Prop
  | .call (.retain key none) => s.docs.contains key = true → Answers s.retentionPolicy key
  | .call (.rewind key _) => s.retained.contains key = true → Answers s.retentionPolicy key
  | .configureRetention policy _ => ∀ k ∈ s.retained.keys, Answers policy k
  | _ => True

/-- One operation keeps the retained keys in order. -/
theorem step_retention {s : PageArena κ π} {o : Operation κ π} (h : Retention [] s)
    (ho : o.Answered s) : Retention [] (o.step s) := by
  have hkeeps : ∀ {α : Type} {m : Op κ π α}, wp m (fun _ => Keeps s) (fun _ => Keeps s) s →
      wp m (fun _ => Retention []) (fun _ => Retention []) s := fun hm =>
    wp_mono hm (fun _ _ => h.keeps) fun _ _ => h.keeps
  refine final_of_wp ?_
  cases o with
  | call c =>
    cases c with
    | alloc key tokens capacity borrow =>
      cases borrow with
      | none => exact wp_map.2 (hkeeps alloc_keeps)
      | some borrow =>
        obtain ⟨parent, shared, start⟩ := borrow
        refine wp_bind.2 (wp_mono sharedPages_spec ?_ fun _ _ hs => hs ▸ h)
        rintro pages s' ⟨heq, _⟩
        subst heq
        exact wp_map.2 (hkeeps alloc_keeps)
    | freeKey key => exact wp_map.2 (freeKey_retention h)
    | rewind key tokens => exact wp_map.2 (rewind_retention h ho)
    | grow key capacity => exact wp_map.2 (hkeeps grow_keeps)
    | growPages keys => exact wp_map.2 (hkeeps growPages_keeps)
    | dropLeading key pages => exact wp_map.2 (hkeeps dropLeading_keeps)
    | retain key priority =>
      refine wp_mono (retain_retention (h.weaken key) ?_) (fun _ _ h => h.1) ?_
      · rintro rfl hkey
        exact ho hkey
      · rintro _ s' ⟨heq, _⟩
        exact heq ▸ h
    | pin key => exact pin_retention h
    | evict keep =>
      refine wp_bind.2 (wp_mono (popRetainedVictim_spec h) ?_ fun _ _ => False.elim)
      rintro victim s' ⟨h', _⟩
      cases victim with
      | none => exact h'
      | some v => exact wp_map.2 (freeKey_retention h')
  | popRetainedVictim keep =>
    exact wp_map.2 (wp_mono (popRetainedVictim_spec h) (fun _ _ h => h.1) fun _ _ => False.elim)
  | configureRetention policy cap => exact configureRetention_retention h ho
  | allocSlot key => exact wp_map.2 (hkeeps allocSlot_keeps)
  | allocExtension key => exact wp_map.2 (hkeeps allocExtension_keeps)
  | allocShare key tokens => exact wp_map.2 (hkeeps allocShare_keeps)
  | dropExtension key => exact hkeeps dropExtension_keeps

lemma new_retention {n slots : ℕ} {pageTokens : ℤ} {policy : κ → ℤ → ℤ → Except PyError π} :
    Retention [] (PageArena.new n pageTokens slots policy) where
  resident _ hk := by cases hk
  unpinned _ hk := by cases hk
  sizes _ := rfl
  versions _ := rfl
  total := rfl
  stamped := nofun
  distinct := List.nodup_nil
  current _ _ hv := by cases hv

/-- The retained keys are resident and not pinned, their pages add up, and each has one entry on the
heap with its current version. -/
structure RetainedInOrder (s : PageArena κ π) : Prop where
  resident : ∀ k ∈ s.retained.keys, s.docs.contains k = true
  unpinned : ∀ k ∈ s.retained.keys, k ∉ s.pinned
  sized : ∀ k, k ∈ s.retainedSizes.keys ↔ k ∈ s.retained.keys
  total : s.retainedPages = s.retainedSizes.total fun _ p => p
  one_entry : ∀ k ∈ s.retained.keys, (s.retainedHeap.filter fun e =>
    e.key = k ∧ s.retainedVersions.get? k = some e.version).length = 1

lemma Retention.inOrder {s : PageArena κ π} (h : Retention [] s) : RetainedInOrder s where
  resident k hk := h.resident k (Dict.contains_iff_mem_keys.2 hk)
  unpinned k hk := h.unpinned k (Dict.contains_iff_mem_keys.2 hk)
  sized k := by
    rw [← Dict.contains_iff_mem_keys, ← Dict.contains_iff_mem_keys, h.sizes k]
  total := h.total
  one_entry k hk := by
    obtain ⟨e, he, rfl, hcur⟩ := h.entry (Dict.contains_iff_mem_keys.2 hk)
    have hall : ∀ f ∈ s.retainedHeap.filter fun f =>
        f.key = e.key ∧ s.retainedVersions.get? e.key = some f.version, f = e := by
      intro f hf
      obtain ⟨hf, hp⟩ := List.mem_filter.1 hf
      rw [decide_eq_true_eq] at hp
      refine h.current_unique hf he ?_ hcur hp.1
      rw [RetainedEntry.Current, hp.1]
      exact hp.2
    have hnodup : (s.retainedHeap.filter fun f =>
        f.key = e.key ∧ s.retainedVersions.get? e.key = some f.version).Nodup :=
      (List.Nodup.of_map _ h.distinct).filter _
    rw [List.eq_replicate_of_mem hall, List.nodup_replicate] at hnodup
    refine le_antisymm hnodup (List.length_pos_of_mem (List.mem_filter.2 ⟨he, ?_⟩))
    rw [decide_eq_true_eq]
    exact ⟨rfl, hcur⟩

/-- From an empty arena, in every run whose policies answer, the retained keys are in order, and a
victim is a retained key of least priority. -/
theorem run_retention (n slots : ℕ) (pageTokens : ℤ) (policy : κ → ℤ → ℤ → Except PyError π)
    (operations : List (Operation κ π))
    (h : EachStep Operation.step Operation.Answered (PageArena.new n pageTokens slots policy)
      operations) :
    RetainedInOrder (run Operation.step (PageArena.new n pageTokens slots policy) operations) ∧
      ∀ keep, wp (popRetainedVictim keep)
        (Popped (run Operation.step (PageArena.new n pageTokens slots policy) operations) keep)
        (fun _ _ => False)
        (run Operation.step (PageArena.new n pageTokens slots policy) operations) := by
  have hrun := run_invariant (fun _ _ => step_retention) new_retention h
  exact ⟨hrun.inOrder, fun keep =>
    wp_mono (popRetainedVictim_spec hrun) (fun _ _ h => h.2) fun _ _ => id⟩

/-- Two documents are retained, the first again after it was rewound, and one is pinned. -/
theorem run_retention_rewound :
    let s := run Operation.step (PageArena.new 8 16 1 fun (_ : ℕ) tokens _ => .ok tokens)
      [.call (.alloc 0 40 none none), .call (.alloc 1 20 none none), .call (.retain 0 none),
        .call (.retain 1 none), .call (.rewind 0 16), .call (.pin 1), .popRetainedVictim ∅]
    RetainedInOrder s ∧ ∀ keep, wp (popRetainedVictim keep) (Popped s keep) (fun _ _ => False) s :=
  run_retention _ _ _ _ _ ⟨trivial, trivial, fun _ _ _ => ⟨_, rfl⟩, fun _ _ _ => ⟨_, rfl⟩,
    fun _ _ _ => ⟨_, rfl⟩, trivial, trivial, trivial⟩

/-- A policy that prices pairs of an alias and a document raises on any other key, after `retain` has
recorded the key: it is retained without an entry on the heap. -/
theorem retain_loses_entry : ¬ RetainedInOrder (run Operation.step
    (PageArena.new 4 16 0 fun (_ : String) tokens pages => .ok (tokens / pages))
    [.call (.alloc "doc" 16 none none),
      .configureRetention (fun _ _ _ => .error (.value "too many values to unpack (expected 2)")) 4,
      .call (.retain "doc" none)]) := by
  intro h
  have hentry := h.one_entry "doc" (by decide)
  revert hentry
  decide

end Quail.Pages
