import Quail.Pages.Calls

/-!
# Evicting down to the cap

`retain` records a key with the pages that it alone holds, and evicts retained keys until as many pages came
free as are recorded past the cap (`retained_evicted`). What is recorded is a sample: keys that share a
retained key's pages come and go later, so evicting every retained key may free more pages than are recorded
(`retain_past_cap`).
-/

set_option linter.unusedSectionVars false

namespace Quail.Pages
open Imperative

variable {κ π δ α : Type} [DecidableEq κ] [ToString κ] [LinearOrder π] {isPair : κ → Bool} {key : κ}

/-! ## The turns of an eviction -/

/-- A search that finds a victim leaves fewer entries. -/
lemma victimSearch_length {versions : Dict κ ℕ} {keep : Finset κ} {fuel : ℕ} {heap passed : List (RetainedEntry κ π)}
    {e : RetainedEntry κ π} (h : (victimSearch versions keep fuel heap passed).1 = some e) :
    (victimSearch versions keep fuel heap passed).2.length < passed.length + heap.length := by
  induction fuel generalizing heap passed with
  | zero => exact absurd h (by rintro ⟨⟩)
  | succ fuel ih =>
    rw [victimSearch] at h ⊢
    have hspec := heapPop_spec heap
    cases hpop : heapPop heap with
    | none =>
      rw [hpop] at h
      exact absurd h (by rintro ⟨⟩)
    | some popped =>
      obtain ⟨first, rest⟩ := popped
      rw [hpop] at h hspec
      have hlength := hspec.1.length_eq
      rw [List.length_cons] at hlength
      dsimp only at h ⊢
      split_ifs at h ⊢
      · have hrest := ih h
        omega
      · have hrest := ih h
        rw [List.length_append, List.length_singleton] at hrest
        omega
      · rw [List.length_append]
        omega

lemma popRetainedVictim_length {keep : Finset κ} {s : PageArena κ π} :
    wp (popRetainedVictim keep)
      (fun victim s' => victim ≠ none → s'.retainedHeap.length < s.retainedHeap.length) (fun _ _ => True) s := by
  unfold popRetainedVictim
  simp only [wp_bind, wp_get, wp_set]
  cases hfound : victimSearch s.retainedVersions keep s.retainedHeap.length s.retainedHeap [] with
  | mk victim heap =>
    cases victim with
    | none => exact fun hnone => absurd rfl hnone
    | some e =>
      intro _
      have hlength := victimSearch_length (congrArg Prod.fst hfound)
      rw [hfound, List.length_nil, Nat.zero_add] at hlength
      exact hlength

/-- Freeing a key changes neither the holds nor the readers. -/
lemma freeKey_keep {keep : Finset κ} : Preserves (fun s : KVArena κ π => s.keep = keep) (KVArena.freeKey key) := by
  intro s h
  unfold KVArena.freeKey
  simp only [wp_bind, wp_get, wp_ite, wp_set, wp_pure, wp_modify, wp_lookup, wp_discard, wp_onSliding, wp_onAccounting]
  have hany : ∀ {τ β : Type} {m : EStateM PyError τ β} {t : τ} {P : Prop}, P → wp m (fun _ _ => P) (fun _ _ => P) t := by
    intro τ β m t P hP
    unfold wp
    cases m t with
    | ok a t => exact hP
    | error e t => exact hP
  refine ⟨fun _ => h, fun _ => ⟨fun _ _ => ⟨fun _ _ => ⟨fun _ => hany h, fun _ _ => ?_⟩, fun _ => h⟩, fun _ => h⟩⟩
  exact wp_mono (hany h) (fun _ _ _ => hany h) fun _ _ h => h

lemma evictKey_keep {keep : Finset κ} : Preserves (fun s : KVArena κ π => s.keep = keep) (evictKey key) := by
  intro s h
  unfold evictKey
  simp only [wp_bind, wp_onAccounting, wp_resident]
  exact ⟨fun r _ => wp_mono (freeKey_keep s h) (fun _ _ h => h) fun _ _ h => h, fun _ => h⟩

lemma freeKey_length {n : ℕ} : Preserves (fun s : PageArena κ π => s.retainedHeap.length ≤ n) (freeKey key) := by
  intro s h
  unfold freeKey dropExtension dropShares
  simp only [wp_bind, wp_get, wp_resident, wp_modify, wp_releasePages, wp_forgetRetained]
  exact ⟨fun _ _ => h, fun _ => h⟩

/-- Enough turns end where no more is to be evicted, or every key that is still retained is to be kept. -/
lemma evictTurns_ends {satisfied : KVArena κ π → Except PyError Bool} {keep : Finset κ} {turns : ℕ} {keys : List κ}
    {s : KVArena κ π} (h : Priced isPair s.accounting) (hturns : s.accounting.retainedHeap.length ≤ turns) :
    wp (evictTurns satisfied keep turns keys)
      (fun _ s' => s'.keep = s.keep ∧
        (satisfied s' = .ok true ∨ ∀ k, s'.accounting.retained.contains k = true → k ∈ keep)) (fun _ _ => True) s := by
  induction turns generalizing s keys with
  | zero =>
    refine ⟨rfl, Or.inr fun k hk => ?_⟩
    obtain ⟨e, he, -⟩ := h.retention.entry hk
    rw [List.length_eq_zero_iff.mp (Nat.le_zero.mp hturns)] at he
    exact absurd he List.not_mem_nil
  | succ turns ih =>
    rw [evictTurns]
    simp only [wp_bind, wp_reads, wp_ite, wp_pure, wp_onAccounting]
    refine ⟨fun done hdone => ⟨fun htrue => ⟨trivial, Or.inl ?_⟩, fun _ => ?_⟩, fun _ _ => trivial⟩
    · rw [hdone, htrue]
    · refine wp_mono (wp_and (wp_and (popRetainedVictim_spec h.retention) (popRetainedVictim_priced _ h))
        (wp_and popRetainedVictim_length (popRetainedVictim_narrowing s.accounting))) ?_ (fun _ _ _ => trivial)
      rintro victim accounting ⟨⟨⟨_, hpopped⟩, hpriced⟩, hlength, hnarrows⟩
      cases victim with
      | none =>
        exact ⟨rfl, Or.inr fun k hk => hpopped.nothing rfl k (hnarrows.retained k hk)⟩
      | some victim =>
        obtain ⟨key, pages, tokens⟩ := victim
        have hshorter : accounting.retainedHeap.length ≤ turns :=
          Nat.le_of_lt_succ ((hlength (by rintro ⟨⟩)).trans_le hturns)
        simp only [wp_bind, wp_discard]
        refine wp_mono (wp_and (wp_and (evictKey_keeps _ hpriced)
          (kept_evictKey (freeKey_length (n := turns)) _ hshorter)) (evictKey_keep _ rfl)) ?_ (fun _ _ _ => trivial)
        rintro _ s' ⟨⟨hkept, hheap⟩, hkeep⟩
        refine wp_mono (ih hkept hheap) ?_ (fun _ _ _ => trivial)
        rintro _ s'' ⟨hsame, hends⟩
        exact ⟨hsame.trans hkeep, hends⟩

lemma evictUntil_ends {satisfied : KVArena κ π → Except PyError Bool} {s : KVArena κ π} (h : Priced isPair s.accounting) :
    wp (evictUntil satisfied) (fun _ s' => satisfied s' = .ok true ∨
      ∀ k, s'.accounting.retained.contains k = true → s'.InUse k) (fun _ _ => True) s := by
  unfold evictUntil
  rw [wp_bind, wp_get]
  refine wp_mono (evictTurns_ends h le_rfl) ?_ (fun _ _ h => h)
  rintro _ s' ⟨hkeep, hends⟩
  refine hends.imp_right fun hall k hk => ?_
  rw [← KVArena.mem_keep, hkeep]
  exact hall k hk

/-- As many pages came free as were recorded past the cap, in every-token pages, or every key that is still
retained is held or being read. -/
structure Evicted (cap : ℤ) (recorded left : KVArena κ π) : Prop where
  enough : (∃ before after, recorded.freePages = .ok before ∧ left.freePages = .ok after ∧
      recorded.accounting.retainedPages - cap ≤ after - before) ∨
    ∀ k, left.accounting.retained.contains k = true → left.InUse k

lemma evictRetained_ends {s : KVArena κ π} (cap : ℤ) (h : Priced isPair s.accounting) :
    wp (evictRetained (max 0 (s.accounting.retainedPages - cap))) (fun _ s' => Evicted cap s s') (fun _ _ => True) s := by
  unfold evictRetained
  rw [wp_bind, wp_reads]
  refine ⟨fun before hbefore => ?_, fun _ _ => trivial⟩
  refine wp_mono (evictUntil_ends h) ?_ (fun _ _ h => h)
  intro _ s' hends
  refine ⟨hends.imp_left fun hsatisfied => ?_⟩
  cases hafter : s'.freePages with
  | error e =>
    rw [hafter] at hsatisfied
    exact absurd hsatisfied nofun
  | ok after =>
    rw [hafter] at hsatisfied
    have hle := of_decide_eq_true (Except.ok.inj hsatisfied)
    exact ⟨before, after, hbefore, rfl, (le_max_right _ _).trans hle⟩

/-! ## What is recorded -/

/-- The pages of a key's table that it alone holds: those that evicting it would free. -/
def PageArena.alone (s : PageArena κ π) (key : κ) : Option ℤ :=
  (s.docs.get? key).map fun r => ((r.table.filter fun p => s.holds p = 1).length : ℤ)

/-- What is recorded of a retained key are the pages that it alone holds. -/
structure Sampled (s : PageArena κ π) (key : κ) : Prop where
  retained : s.retained.contains key = true
  size : s.retainedSizes.get? key = s.alone key

lemma retain_sampled {priority : Option π} {s : PageArena κ π} :
    wp (retain key priority) (fun _ s' => Sampled s' key ∧ ∀ k, Sampled s k → Sampled s' k) (fun _ _ => True) s := by
  unfold Pages.retain
  simp only [wp_bind, wp_get, wp_set, wp_resident, wp_modify, wp_forgetRetained, wp_retentionPriority]
  refine ⟨fun r hr => ?_, fun _ => trivial⟩
  have hkey : ∀ {β : Type} {dict : Dict κ β} {v : β}, (dict.set key v).contains key = true := by
    intro β dict v
    rw [Dict.contains_set, decide_eq_true rfl, Bool.true_or]
  have hself : ∀ (s' : PageArena κ π) (retained : Dict κ ℤ) (sizes : Dict κ ℤ), s'.docs = s.docs → s'.holds = s.holds →
      s'.retained = retained.set key r.tokens →
      s'.retainedSizes = sizes.set key (r.table.filter fun p => s.holds p = 1).length → Sampled s' key := by
    intro s' retained sizes hdocs hholds hretained hsizes
    refine ⟨by rw [hretained]; exact hkey, ?_⟩
    rw [hsizes, Dict.get?_set_self, PageArena.alone, hdocs, hr, hholds]
    rfl
  have hothers : ∀ (s' : PageArena κ π), s'.docs = s.docs → s'.holds = s.holds → Sampled s' key →
      (∀ k, k ≠ key → s'.retained.contains k = s.retained.contains k ∧ s'.retainedSizes.get? k = s.retainedSizes.get? k) →
      ∀ k, Sampled s k → Sampled s' k := by
    intro s' hdocs hholds hsampled hsame k hk
    rcases eq_or_ne k key with rfl | hne
    · exact hsampled
    · obtain ⟨hretained, hsize⟩ := hsame k hne
      refine ⟨hretained.trans hk.retained, ?_⟩
      rw [hsize, PageArena.alone, hdocs, hholds]
      exact hk.size
  have hboth : ∀ s' : PageArena κ π, s'.docs = s.docs → s'.holds = s.holds →
      s'.retained = (s.forgotten key).retained.set key r.tokens →
      s'.retainedSizes = (s.forgotten key).retainedSizes.set key (r.table.filter fun p => s.holds p = 1).length →
      Sampled s' key ∧ ∀ k, Sampled s k → Sampled s' k := by
    intro s' hdocs hholds hretained hsizes
    have hsampled := hself s' _ _ hdocs hholds hretained hsizes
    refine ⟨hsampled, hothers s' hdocs hholds hsampled fun k hne => ?_⟩
    rw [hretained, hsizes, Dict.contains_set, Dict.get?_set_ne hne.symm, PageArena.forgotten, Dict.contains_erase,
      Dict.get?_erase_ne hne.symm, decide_eq_false hne.symm]
    simp
  exact ⟨fun _ _ => hboth _ rfl rfl rfl rfl, fun _ _ _ => hboth _ rfl rfl rfl rfl, fun _ _ _ => trivial⟩

lemma retainAll_sampled {keys : List κ} {s : PageArena κ π} :
    wp (retainAll keys) (fun _ s' => (∀ k ∈ keys, Sampled s' k) ∧ ∀ k, Sampled s k → Sampled s' k)
      (fun _ _ => True) s := by
  induction keys generalizing s with
  | nil => exact ⟨fun _ hk => absurd hk List.not_mem_nil, fun _ => id⟩
  | cons key keys ih =>
    rw [retainAll, wp_bind]
    refine wp_mono retain_sampled ?_ (fun _ _ h => h)
    rintro _ s' ⟨hkey, hfirst⟩
    refine wp_mono ih ?_ (fun _ _ h => h)
    rintro _ s'' ⟨hkeys, hrest⟩
    refine ⟨fun k hk => ?_, fun k hk => hrest k (hfirst k hk)⟩
    rcases List.mem_cons.mp hk with rfl | hk
    · exact hrest k hkey
    · exact hkeys k hk

/-- A new policy samples every retained key again, and sets the cap. -/
lemma configureRetention_sampled {policy : κ → ℤ → ℤ → Except PyError π} {cap : ℤ} {s : PageArena κ π} :
    wp (configureRetention policy cap) (fun _ s' => ∀ k, s'.retained.contains k = true → Sampled s' k)
      (fun _ _ => True) s := by
  unfold configureRetention
  simp only [wp_bind, wp_get, wp_ite, wp_throw, wp_set]
  refine ⟨fun _ => trivial, fun _ => ?_⟩
  refine wp_mono (wp_and retainAll_sampled retainAll_adds) ?_ (fun _ _ _ => trivial)
  rintro _ s' ⟨⟨hkeys, _⟩, _, hretained⟩ k hk
  apply hkeys
  rcases hretained k hk with hold | hin
  · exact Dict.contains_iff_mem_keys.1 hold
  · exact hin

/-! ## A change of the cap -/

/-- Free each listed key. -/
def freeKeys : List κ → KVOp κ π Unit
  | [] => pure ()
  | key :: keys => do
    discard (KVArena.freeKey key)
    freeKeys keys

/-- `apply_retention` up to where it evicts: the expired keys are freed and the policy is set. -/
def configured (isPair expired : κ → Bool) (price : κ → ℤ → ℤ → π) (capPages : ℤ) : KVOp κ π Unit := do
  let s ← get
  freeKeys (s.accounting.retained.keys.filter expired)
  onAccounting (configureRetention (pricing isPair price) (min capPages s.accounting.numPages))

/-- Release expired prefixes and update priorities of retained KV; the cap is at most the arena. -/
def applyRetention (isPair expired : κ → Bool) (price : κ → ℤ → ℤ → π) (capPages : ℤ) : KVOp κ π Unit := do
  let s ← get
  configured isPair expired price capPages
  let recorded ← get
  discard (evictRetained (max 0 (recorded.accounting.retainedPages - min capPages s.accounting.numPages)))

lemma configured_keeps {expired : κ → Bool} {price : κ → ℤ → ℤ → π} {cap : ℤ} :
    KeepsPriced isPair (configured isPair expired price cap) := by
  have hfree : ∀ keys : List κ, KeepsPriced (π := π) isPair (freeKeys keys) := by
    intro keys
    induction keys with
    | nil => exact preserves_pure
    | cons key keys ih => exact .bind (.discard freeKey_keeps) fun _ => ih
  exact kept_get_bind fun _ _ => .bind (hfree _) fun _ => kept_onAccounting (configureRetention_priced pricing_answers)

lemma wp_self {ε σ : Type} {m : EStateM ε σ α} {s : σ} : wp m (fun a s' => m s = .ok a s') (fun e s' => m s = .error e s') s := by
  unfold wp
  cases m s with
  | ok a t => rfl
  | error e t => rfl

/-- The eviction of `retain`, from the state in which the key is recorded. -/
lemma evictExcess_ends {s : KVArena κ π} (h : Priced isPair s.accounting) :
    wp evictExcess (fun _ s' => ∀ cap, s.accounting.retentionCapPages = some cap → Evicted cap s s')
      (fun _ _ => True) s := by
  unfold evictExcess
  simp only [wp_bind, wp_reads, wp_get]
  refine ⟨fun _ _ => ?_, fun _ _ => trivial⟩
  cases hcap : s.accounting.retentionCapPages with
  | none =>
    simp only [wp_bind, wp_reads, wp_pure]
    exact ⟨fun _ _ _ hsome => absurd hsome (by rintro ⟨⟩), fun _ _ => trivial⟩
  | some cap =>
    simp only [wp_bind, wp_get, wp_discard]
    refine wp_mono (evictRetained_ends cap h) ?_ (fun _ _ _ => trivial)
    intro _ s' hends
    rw [wp_bind, wp_reads]
    refine ⟨fun _ _ cap' hcap' => ?_, fun _ _ => trivial⟩
    cases hcap'
    exact hends

/-- What the second of two programs returns, from any state, holds at the end of both. -/
lemma wp_bind_of_forall {β : Type} {m : KVOp κ π β} {f : β → KVOp κ π Unit} {P : KVArena κ π → Prop} {s : KVArena κ π}
    (hf : ∀ b t, wp (f b) (fun _ => P) (fun _ _ => True) t) : wp (m >>= f) (fun _ => P) (fun _ _ => True) s := by
  rw [wp_bind]
  unfold wp at hf ⊢
  cases m s with
  | ok b t => exact hf b t
  | error e t => trivial

lemma record_sampled {tokens : ℤ} {priority : Option π} {s : KVArena κ π} :
    wp (KVArena.record isPair key tokens priority) (fun _ m => Sampled m.accounting key) (fun _ _ => True) s := by
  unfold KVArena.record
  apply wp_bind_of_forall
  refine fun _ _ => wp_bind_of_forall fun _ _ => wp_bind_of_forall fun _ _ => wp_bind_of_forall fun _ _ => ?_
  refine wp_bind_of_forall fun _ _ => wp_bind_of_forall fun _ t => ?_
  rw [wp_onAccounting]
  exact wp_mono retain_sampled (fun _ _ h => h.1) fun _ _ _ => trivial

lemma configured_sampled {expired : κ → Bool} {price : κ → ℤ → ℤ → π} {cap : ℤ} {s : KVArena κ π} :
    wp (configured isPair expired price cap)
      (fun _ s' => ∀ k, s'.accounting.retained.contains k = true → Sampled s'.accounting k) (fun _ _ => True) s := by
  unfold configured
  refine wp_bind_of_forall fun _ _ => wp_bind_of_forall fun _ t => ?_
  rw [wp_onAccounting]
  exact configureRetention_sampled

/-- In every run of the arena: the recorded pages add up; `retain` records the pages that the key alone
holds, and evicts until as many came free as are recorded past the cap, or no more may be evicted; and so
does `apply_retention`, after it has sampled every retained key again. -/
theorem retained_evicted (numPages : ℕ) (pageTokens : ℤ) (slidingPages : Option ℕ) (window : ℤ) (numSlots : ℕ)
    (price : κ → ℤ → ℤ → π) (isPair : κ → Bool) (calls : List (KVCall κ π δ)) :
    let s := run (KVCall.step isPair) (KVArena.new numPages pageTokens slidingPages window numSlots
      fun key tokens pages => .ok (price key tokens pages)) calls
    RetainedInOrder s.accounting ∧
      (∀ key tokens priority, wp (KVArena.retain isPair key tokens priority)
        (fun _ left => ∃ recorded, KVArena.record isPair key tokens priority s = .ok () recorded ∧
          Sampled recorded.accounting key ∧
            ∀ cap, recorded.accounting.retentionCapPages = some cap → Evicted cap recorded left) (fun _ _ => True) s) ∧
      ∀ expired price cap, wp (applyRetention isPair expired price cap)
        (fun _ left => ∃ recorded, configured isPair expired price cap s = .ok () recorded ∧
          (∀ k, recorded.accounting.retained.contains k = true → Sampled recorded.accounting k) ∧
            Evicted (min cap s.accounting.numPages) recorded left) (fun _ _ => True) s := by
  intro s
  have hpriced : Priced isPair s.accounting :=
    KVCall.run_priced numPages pageTokens slidingPages window numSlots price isPair calls
  refine ⟨hpriced.retention.inOrder, fun key tokens priority => ?_, fun expired price' cap => ?_⟩
  · rw [retain_eq, wp_bind]
    refine wp_mono (wp_and (wp_and (record_keeps s hpriced) record_sampled) wp_self) ?_ (fun _ _ _ => trivial)
    rintro _ recorded ⟨⟨hrecorded, hsampled⟩, heq⟩
    refine wp_mono (evictExcess_ends hrecorded) ?_ (fun _ _ _ => trivial)
    intro _ left hends
    exact ⟨recorded, heq, hsampled, hends⟩
  · unfold applyRetention
    simp only [wp_bind, wp_get]
    refine wp_mono (wp_and (wp_and (configured_keeps s hpriced) configured_sampled) wp_self) ?_ (fun _ _ _ => trivial)
    rintro _ recorded ⟨⟨hrecorded, hall⟩, heq⟩
    rw [wp_bind, wp_get, wp_discard]
    refine wp_mono (evictRetained_ends _ hrecorded) ?_ (fun _ _ _ => trivial)
    intro _ left hends
    exact ⟨recorded, heq, hall, hends⟩

/-! ## What evicting would free -/

/-- Free each listed key of the pool. -/
def freeAll : List κ → Op κ π Unit
  | [] => pure ()
  | key :: keys => do
    discard (freeKey key)
    freeAll keys

/-- The pages that evicting every retained key would free. -/
def PageArena.evictable (s : PageArena κ π) : ℤ :=
  (final (freeAll s.retained.keys) s).free.length - s.free.length

/-- A second document borrows both pages of the first, which is retained under a cap of zero. -/
def borrowsWhole : KVArena ℕ ℤ :=
  run (KVCall.step (δ := Unit) fun _ => true) (KVArena.new 4 16 none 0 0 fun _ tokens _ => .ok tokens)
    [.alloc 0 32 none none none none, .alloc 1 32 none none none (some (0, 32)), .setCap (some 0), .retain 0 32 none]

/-- What is recorded of a retained key are the pages that it alone holds, and evicting every retained key would
free no more pages than the cap, unless each is held or being read. -/
structure WithinCap (s : KVArena κ π) : Prop where
  sizes : ∀ k ∈ s.accounting.retained.keys, s.accounting.retainedSizes.get? k = s.accounting.alone k
  fits : ∀ cap, s.accounting.retentionCapPages = some cap → s.accounting.evictable ≤ cap ∨
    ∀ k ∈ s.accounting.retained.keys, s.InUse k

/-- Both are retained: no page is recorded, as neither alone holds one, and evicting them would free two. -/
theorem retain_past_cap : ¬∀ (calls : List (KVCall ℕ ℤ Unit)) (key : ℕ) (tokens : ℤ) (priority : Option ℤ) (freed : ℤ)
    (left : KVArena ℕ ℤ), KVArena.retain (fun _ => true) key tokens priority
      (run (KVCall.step fun _ => true) (KVArena.new 4 16 none 0 0 fun _ tokens _ => .ok tokens) calls) = .ok freed left →
    WithinCap left := by
  intro hall
  cases hm : KVArena.retain (fun _ => true) 1 32 none borrowsWhole with
  | error e left =>
    have hends : (perform (KVArena.retain (fun _ => true) 1 32 none) borrowsWhole).1.isOk = true := by decide +kernel
    rw [perform, hm] at hends
    exact absurd hends nofun
  | ok freed left =>
    have hwithin : WithinCap left := hall _ 1 32 none freed left hm
    have hleft : left = final (KVArena.retain (fun _ => true) 1 32 none) borrowsWhole := by
      rw [final, hm]
    rw [hleft] at hwithin
    rcases hwithin.fits 0 (by decide +kernel) with hfits | huse
    · exact absurd hfits (by decide +kernel)
    · exact absurd huse (by decide +kernel)

end Quail.Pages
