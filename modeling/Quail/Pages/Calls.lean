import Quail.Pages.KVCore
import Quail.Pages.Priced

/-!
# The calls of the arena

`KVCall` is a call of the arena of two pools: those of the scheduler and the executor, the plan of a chunk's
phases, and the changes of the retention policy and its cap. Every call keeps what holds of the retained keys
of the every-token pool (`KVCall.step_priced`), whether it returns or raises.
-/

set_option linter.unusedSectionVars false

namespace Quail.Pages
open Imperative

/-- A call of the arena; `price` is what a policy's `priority` computes for a pair. -/
inductive KVCall (κ π δ : Type) where
  | alloc (key : κ) (tokens : ℤ) (capacityTokens baseTokens slidingTokens : Option ℤ) (borrow : Option (κ × ℤ))
  | activate (key : κ) (tokens : ℤ) (capacityTokens baseTokens : Option ℤ) (borrow : Option (κ × ℤ))
  | reserve (key : κ) (tokens capacityTokens : ℤ) (borrow : Option (κ × ℤ)) (extension : Bool) (sharePoints : List ℤ)
  | growPages (keys : List κ)
  | pin (key : κ)
  | retain (key : κ) (tokens : ℤ) (priority : Option π)
  | evictRetained (pagesNeeded : ℤ)
  | freeKey (key : κ)
  | keepWindow (key : κ) (shared : ℤ)
  | trimWindow (key : κ)
  | hold (key : κ) (borrowers : ℕ)
  | release (key : κ)
  | dropHolds (keys : Option (List κ))
  | readState (keys : List κ)
  | doneReading (keys : List κ)
  | checkpointSlot (key : κ)
  | extensionSlot (key : κ)
  | shareSlot (key : κ) (tokens : ℤ)
  | recordExtension (key : κ) (tokens : ℤ)
  | recordCheckpoint (key : κ) (tokens : ℤ)
  | planPhases (stage : Stage δ) (groups : List (ChunkGroup κ))
  | configureRetention (price : κ → ℤ → ℤ → π) (capPages : ℤ)
  /-- The setter of `retention_cap_pages`. -/
  | setCap (capPages : Option ℤ)

variable {κ π δ α : Type} [DecidableEq κ] [ToString κ] [LinearOrder π] {isPair : κ → Bool} {key : κ}

/-- A policy's `priority`: a key that is no pair cannot be unpacked. -/
def pricing (isPair : κ → Bool) (price : κ → ℤ → ℤ → π) (key : κ) (tokens pages : ℤ) : Except PyError π :=
  if isPair key then .ok (price key tokens pages)
  else .error (.value "not enough values to unpack (expected 2)")

/-- Run a call, dropping its result. -/
def KVCall.perform (isPair : κ → Bool) : KVCall κ π δ → KVOp κ π Unit
  | .alloc key tokens capacity base sliding borrow => discard (KVArena.alloc key tokens capacity base sliding borrow)
  | .activate key tokens capacity base borrow => discard (Pages.activate key tokens capacity base borrow)
  | .reserve key tokens capacity borrow extension points =>
    discard (Pages.reserve key tokens capacity borrow extension points)
  | .growPages keys => discard (KVArena.growPages keys)
  | .pin key => onAccounting (Pages.pin key)
  | .retain key tokens priority => discard (KVArena.retain isPair key tokens priority)
  | .evictRetained pages => discard (Pages.evictRetained pages)
  | .freeKey key => discard (KVArena.freeKey key)
  | .keepWindow key shared => Pages.keepWindow key shared
  | .trimWindow key => discard (Pages.trimWindow key)
  | .hold key borrowers => Pages.hold key borrowers
  | .release key => Pages.release key
  | .dropHolds keys => discard (Pages.dropHolds keys)
  | .readState keys => Pages.readState keys
  | .doneReading keys => Pages.doneReading keys
  | .checkpointSlot key => discard (Pages.checkpointSlot key)
  | .extensionSlot key => discard (Pages.extensionSlot key)
  | .shareSlot key tokens => discard (Pages.shareSlot key tokens)
  | .recordExtension key tokens => Pages.recordExtension key tokens
  | .recordCheckpoint key tokens => Pages.recordCheckpoint key tokens
  | .planPhases stage groups => discard (Pages.planPhases stage groups)
  | .configureRetention price cap => onAccounting (Pages.configureRetention (pricing isPair price) cap)
  | .setCap cap => onAccounting (modify fun s => { s with retentionCapPages := cap })

/-- The arena after a call, whether it returned or raised. -/
def KVCall.step (isPair : κ → Bool) (s : KVArena κ π) (c : KVCall κ π δ) : KVArena κ π := final (c.perform isPair) s

lemma pricing_answers {price : κ → ℤ → ℤ → π} : ∀ k, isPair k = true → Answers (pricing isPair price) k := by
  intro k hk tokens pages
  rw [pricing, if_pos hk]
  exact ⟨_, rfl⟩

/-! ## The every-token pool -/

/-- The every-token pool meets the invariant. -/
def Kept (J : PageArena κ π → Prop) (s : KVArena κ π) : Prop := J s.accounting

section Kept
variable {J : PageArena κ π → Prop}

lemma kept_onAccounting {m : Op κ π α} (hm : Preserves J m) : Preserves (Kept J) (onAccounting m) := by
  intro s h
  rw [wp_onAccounting]
  exact hm _ h

lemma kept_onSliding {m : Op κ π α} : Preserves (Kept J) (onSliding m) := by
  intro s h
  rw [wp_onSliding]
  refine ⟨fun _ => h, fun pool _ => ?_⟩
  unfold wp
  cases m pool with
  | ok a pool => exact h
  | error e pool => exact h

/-- A change of what is kept beside the pools. -/
lemma kept_modify {f : KVArena κ π → KVArena κ π} (hf : ∀ s, (f s).accounting = s.accounting) :
    Preserves (Kept J) (modify f : KVOp κ π Unit) := by
  intro s h
  rw [wp_modify, Kept, hf]
  exact h

lemma kept_set {t : KVArena κ π} (ht : J t.accounting) : Preserves (Kept J) (set t : KVOp κ π PUnit) := fun _ _ => ht

lemma kept_reads {f : KVArena κ π → Except PyError α} : Preserves (Kept J) (reads f) := by
  intro s h
  rw [wp_reads]
  exact ⟨fun _ _ => h, fun _ _ => h⟩

lemma kept_lookup {β : Type} {dict : KVArena κ π → Dict κ β} : Preserves (Kept J) (lookup dict key) := kept_reads

/-- A program that reads the state first. -/
lemma kept_get_bind {f : KVArena κ π → KVOp κ π α} (hf : ∀ t, J t.accounting → Preserves (Kept J) (f t)) :
    Preserves (Kept J) (get >>= f) := by
  intro s h
  rw [wp_bind, wp_get]
  exact hf s h s h

lemma kept_origin {tokens : ℤ} : Preserves (Kept J) (origin tokens : KVOp κ π ℤ) := by
  intro s h
  exact wp_mono origin_same (fun _ _ hs => hs ▸ h) fun _ _ hs => hs ▸ h

lemma kept_refreshRows {logical : Option ℤ} : Preserves (Kept J) (refreshRows (π := π) key logical) := by
  refine .bind (kept_modify fun _ => rfl) fun _ => .bind (kept_onAccounting resident_preserves) fun r => ?_
  refine kept_get_bind fun t ht => .bind (kept_set ht) fun _ => .bind kept_onSliding fun r' => ?_
  cases r' with
  | none => exact preserves_pure
  | some r' => exact kept_modify fun _ => rfl

end Kept

/-! ## The calls -/

section Priced

/-- The retained keys of the every-token pool are in order, and its policy has a priority for each pair. -/
abbrev KeepsPriced (isPair : κ → Bool) (m : KVOp κ π α) : Prop := Preserves (Kept (Priced isPair)) m

lemma keepWindow_keeps {shared : ℤ} : KeepsPriced isPair (keepWindow (π := π) key shared) :=
  .bind kept_origin fun _ => kept_modify fun _ => rfl

lemma trimWindow_keeps : KeepsPriced isPair (trimWindow (π := π) key) := by
  refine kept_get_bind fun t _ => .ite preserves_pure ?_
  refine .bind (kept_modify fun _ => rfl) fun _ => .bind kept_lookup fun base => ?_
  refine .bind kept_origin fun row => kept_get_bind fun u _ => .bind kept_lookup fun start => .ite preserves_pure ?_
  refine .bind kept_reads fun before => .bind (.discard kept_onSliding) fun _ => ?_
  exact .bind (kept_modify fun _ => rfl) fun _ => .bind kept_refreshRows fun _ => .bind kept_reads fun _ =>
    preserves_pure

lemma liftFloor_keeps : KeepsPriced isPair (liftFloor (π := π) key) := by
  refine kept_get_bind fun t ht => .bind (kept_set ht) fun _ => ?_
  exact .ite (.discard trimWindow_keeps) preserves_pure

lemma kept_freeKey {J : PageArena κ π → Prop} (hJ : Preserves J (freeKey key)) :
    Preserves (Kept J) (KVArena.freeKey key) := by
  refine kept_get_bind fun t ht => .ite (.bind (kept_set ht) fun _ => preserves_pure) ?_
  refine .bind (kept_modify fun _ => rfl) fun _ => .bind kept_lookup fun _ => ?_
  refine .bind (kept_modify fun _ => rfl) fun _ => .bind kept_lookup fun _ => .bind (kept_modify fun _ => rfl) fun _ => ?_
  exact .bind (.discard kept_onSliding) fun _ => kept_onAccounting hJ

lemma kept_evictKey {J : PageArena κ π → Prop} (hJ : Preserves J (freeKey key)) :
    Preserves (Kept J) (evictKey key) :=
  .bind (kept_onAccounting resident_preserves) fun _ => .bind (kept_freeKey hJ) fun _ =>
    .bind (kept_modify fun _ => rfl) fun _ => preserves_pure

lemma freeKey_keeps : KeepsPriced isPair (KVArena.freeKey (π := π) key) := kept_freeKey freeKey_priced

lemma evictKey_keeps : KeepsPriced isPair (evictKey (π := π) key) := kept_evictKey freeKey_priced

lemma evictTurns_keeps {satisfied : KVArena κ π → Except PyError Bool} {keep : Finset κ} {turns : ℕ} {keys : List κ} :
    KeepsPriced isPair (evictTurns satisfied keep turns keys) := by
  induction turns generalizing keys with
  | zero => exact preserves_pure
  | succ turns ih =>
    refine .bind kept_reads fun done => .ite preserves_pure ?_
    refine .bind (kept_onAccounting popRetainedVictim_priced) fun victim => ?_
    cases victim with
    | none => exact preserves_pure
    | some victim => exact .bind (.discard evictKey_keeps) fun _ => ih

lemma evictUntil_keeps {satisfied : KVArena κ π → Except PyError Bool} : KeepsPriced isPair (evictUntil satisfied) :=
  kept_get_bind fun _ _ => evictTurns_keeps

lemma evictForPages_keeps {need needSliding : ℤ} : KeepsPriced isPair (evictForPages (π := π) need needSliding) :=
  .discard evictUntil_keeps

lemma evictRetained_keeps {pages : ℤ} : KeepsPriced isPair (evictRetained (π := π) pages) :=
  .bind kept_reads fun _ => evictUntil_keeps

lemma borrowPlan_keeps {borrow : Option (κ × ℤ)} : KeepsPriced isPair (borrowPlan (π := π) borrow) := by
  unfold borrowPlan
  cases borrow with
  | none => exact preserves_pure
  | some borrow =>
    refine .bind (kept_onAccounting sharedPages_preserves) fun borrowed => kept_get_bind fun t _ => ?_
    refine .ite preserves_pure (.bind kept_origin fun start => .bind kept_lookup fun _ => ?_)
    exact .ite preserves_throw (.bind kept_onSliding fun _ => preserves_pure)

lemma kvAlloc_keeps {tokens : ℤ} {capacity base sliding : Option ℤ} {borrow : Option (κ × ℤ)} :
    KeepsPriced isPair (KVArena.alloc (π := π) key tokens capacity base sliding borrow) := by
  refine .bind borrowPlan_keeps fun plan => .bind (kept_onAccounting alloc_priced) fun pages => ?_
  cases pages with
  | none => exact preserves_pure
  | some pages =>
    refine .bind kept_onSliding fun sliding => ?_
    have henter : KeepsPriced (π := π) isPair (do
        modify fun s => { s with
          base := s.base.set key (base.getD tokens)
          slidingStart := s.slidingStart.set key plan.start }
        refreshRows key (some tokens)
        return some pages) :=
      .bind (kept_modify fun _ => rfl) fun _ => .bind kept_refreshRows fun _ => preserves_pure
    match sliding with
    | none => exact henter
    | some none => exact .bind (.discard (kept_onAccounting freeKey_priced)) fun _ => preserves_pure
    | some (some _) => exact henter

lemma growthSliding_keeps {capacity : ℤ} : KeepsPriced isPair (growthSliding (π := π) key capacity) :=
  .bind kept_onSliding fun _ => preserves_pure

lemma activateResident_keeps {tokens capacity : ℤ} :
    KeepsPriced isPair (activateResident (π := π) key tokens capacity) := by
  refine .bind (kept_onAccounting pin_priced) fun _ => .bind (kept_onAccounting resident_preserves) fun r => ?_
  refine .bind (kept_onAccounting needed_preserves) fun need => .bind kept_lookup fun start => ?_
  refine .bind growthSliding_keeps fun _ => .bind evictForPages_keeps fun _ => kept_get_bind fun t _ => ?_
  refine .ite preserves_pure (.bind (.discard (kept_onAccounting grow_priced)) fun _ => ?_)
  refine .bind (.discard kept_onSliding) fun _ => ?_
  refine .bind (kept_onAccounting setTokens_priced) fun _ => .bind (.discard kept_onSliding) fun _ => ?_
  exact .bind kept_refreshRows fun _ => .bind (kept_onAccounting resident_preserves) fun _ => preserves_pure

lemma activate_keeps {tokens : ℤ} {capacity base : Option ℤ} {borrow : Option (κ × ℤ)} :
    KeepsPriced isPair (activate (π := π) key tokens capacity base borrow) := by
  refine kept_get_bind fun t _ => .ite activateResident_keeps ?_
  refine .bind borrowPlan_keeps fun plan => .bind (kept_onAccounting needed_preserves) fun need => ?_
  refine .bind kept_onSliding fun _ => .bind evictForPages_keeps fun _ => .bind kvAlloc_keeps fun pages => ?_
  cases pages with
  | none => exact preserves_pure
  | some pages => exact .bind (kept_onAccounting pin_priced) fun _ => preserves_pure

lemma kvGrowPages_keeps {keys : List κ} : KeepsPriced isPair (KVArena.growPages (π := π) keys) := by
  refine .bind evictForPages_keeps fun _ => kept_get_bind fun t _ => ?_
  refine .ite preserves_pure (.bind (kept_onAccounting growPages_priced) fun _ => ?_)
  refine .bind (.discard kept_onSliding) fun _ => ?_
  exact .bind (kept_modify fun _ => rfl) fun _ => preserves_pure

/-! ### Retaining -/

/-- A retained key is a pair. -/
def checkPair (isPair : κ → Bool) (key : κ) : KVOp κ π Unit :=
  if isPair key = false then throw (.type s!"retained keys are (alias, document) pairs, got {key}") else pure ()

/-- The rows of the window a key was anchored at are kept. -/
def checkWindow (key : κ) (tokens : ℤ) : KVOp κ π Unit := do
  if (← get).sliding.isSome then do
    let base ← lookup KVArena.base key
    if tokens < base then
      throw (.value (s!"{key}: rewinding to {tokens} tokens drops rows of " ++
        s!"the sliding window anchored at {base}"))

def rewindWindow (key : κ) (tokens : ℤ) : KVOp κ π Unit := do
  if (← get).sliding.isSome then do
    let start ← lookup KVArena.slidingStart key
    discard (onSliding (rewind key (tokens - start)))

/-- `retain` up to where it evicts: the key is rewound and recorded. -/
def KVArena.record (isPair : κ → Bool) (key : κ) (tokens : ℤ) (priority : Option π) : KVOp κ π Unit := do
  checkPair isPair key
  checkWindow key tokens
  discard (onAccounting (rewind key tokens))
  rewindWindow key tokens
  refreshRows key (some tokens)
  onAccounting (dropExtension key)
  onAccounting (Pages.retain key priority)

/-- The rest of `retain`: evict until the pages past the cap came free; the pages freed. -/
def evictExcess : KVOp κ π ℤ := do
  let before ← reads KVArena.freePages
  match (← get).accounting.retentionCapPages with
  | none => pure ()
  | some cap => discard (evictRetained (max 0 ((← get).accounting.retainedPages - cap)))
  return (← reads KVArena.freePages) - before

lemma ite_bind_eq {β : Type} {c : Prop} [Decidable c] {m n : KVOp κ π α} {f : α → KVOp κ π β} :
    (if c then m else n) >>= f = if c then m >>= f else n >>= f := by
  split <;> rfl

lemma throw_bind_eq {β : Type} {e : PyError} {f : α → KVOp κ π β} : (throw e : KVOp κ π α) >>= f = throw e := rfl

lemma retain_eq {tokens : ℤ} {priority : Option π} : KVArena.retain isPair key tokens priority =
    KVArena.record isPair key tokens priority >>= fun _ => evictExcess := by
  unfold KVArena.retain KVArena.record checkPair checkWindow rewindWindow evictExcess
  simp only [bind_assoc, pure_bind, ite_bind_eq, throw_bind_eq]
  all_goals rfl

lemma record_keeps {tokens : ℤ} {priority : Option π} : KeepsPriced isPair (KVArena.record isPair key tokens priority) := by
  intro s h
  rw [KVArena.record, wp_bind, checkPair, wp_ite]
  refine ⟨fun _ => h, fun hpair => ?_⟩
  rw [Bool.not_eq_false] at hpair
  have hwindow : KeepsPriced isPair (checkWindow (π := π) key tokens) :=
    kept_get_bind fun _ _ => .ite (.bind kept_lookup fun _ => .ite preserves_throw preserves_pure) preserves_pure
  have hrewind : KeepsPriced isPair (rewindWindow (π := π) key tokens) :=
    kept_get_bind fun _ _ => .ite (.bind kept_lookup fun _ => .discard kept_onSliding) preserves_pure
  have hrest : KeepsPriced isPair (do
      checkWindow key tokens
      discard (onAccounting (rewind key tokens))
      rewindWindow key tokens
      refreshRows key (some tokens)
      onAccounting (dropExtension key)
      onAccounting (Pages.retain key priority)) :=
    .bind hwindow fun _ => .bind (.discard (kept_onAccounting rewind_priced)) fun _ => .bind hrewind fun _ =>
      .bind kept_refreshRows fun _ => .bind (kept_onAccounting dropExtension_priced) fun _ =>
      kept_onAccounting (retain_priced hpair)
  exact hrest s h

lemma evictExcess_keeps : KeepsPriced (π := π) isPair evictExcess := by
  refine .bind kept_reads fun before => kept_get_bind fun t _ => ?_
  cases t.accounting.retentionCapPages with
  | none => exact .bind kept_reads fun _ => preserves_pure
  | some cap =>
    exact kept_get_bind fun _ _ => .bind (.discard evictRetained_keeps) fun _ => .bind kept_reads fun _ => preserves_pure

lemma retain_keeps {tokens : ℤ} {priority : Option π} :
    KeepsPriced isPair (KVArena.retain isPair key tokens priority) := by
  rw [retain_eq]
  exact .bind record_keeps fun _ => evictExcess_keeps

lemma hold_keeps {borrowers : ℕ} : KeepsPriced isPair (hold (π := π) key borrowers) :=
  .ite (kept_modify fun _ => rfl) preserves_pure

lemma releaseHold_keeps : KeepsPriced isPair (releaseHold (π := π) key) := by
  refine .bind kept_lookup fun _ => .bind (kept_modify fun _ => rfl) fun _ => kept_get_bind fun t _ => ?_
  exact .ite (.bind (kept_modify fun _ => rfl) fun _ => .discard freeKey_keeps) liftFloor_keeps

lemma release_keeps : KeepsPriced isPair (release (π := π) key) := by
  refine kept_get_bind fun t _ => ?_
  cases t.holds.get? key with
  | none => exact preserves_pure
  | some count => exact .bind (kept_modify fun _ => rfl) fun _ => .ite releaseHold_keeps preserves_pure

lemma addReaders_accounting {keys : List κ} {s : KVArena κ π} :
    (keys.foldl KVArena.addReader s).accounting = s.accounting := by
  induction keys generalizing s with
  | nil => rfl
  | cons key keys ih => exact ih

lemma readState_keeps {keys : List κ} : KeepsPriced isPair (readState (π := π) keys) :=
  kept_modify fun _ => addReaders_accounting

lemma doneReadingOne_keeps : KeepsPriced isPair (doneReadingOne (π := π) key) := by
  refine .bind kept_lookup fun count => .bind (kept_modify fun _ => rfl) fun _ => .ite ?_ preserves_pure
  refine .bind (kept_modify fun _ => rfl) fun _ => kept_get_bind fun t ht => ?_
  exact .ite (.bind (kept_set ht) fun _ => .discard freeKey_keeps) preserves_pure

lemma doneReading_keeps {keys : List κ} : KeepsPriced isPair (doneReading (π := π) keys) := by
  induction keys with
  | nil => exact preserves_pure
  | cons key keys ih => exact .bind doneReadingOne_keeps fun _ => ih

lemma releaseHolds_keeps {keys : List κ} : KeepsPriced isPair (releaseHolds (π := π) keys) := by
  induction keys with
  | nil => exact preserves_pure
  | cons key keys ih => exact .bind releaseHold_keeps fun _ => ih

lemma dropHolds_keeps {keys : Option (List κ)} : KeepsPriced isPair (dropHolds (π := π) keys) :=
  kept_get_bind fun _ _ => .bind releaseHolds_keeps fun _ => preserves_pure

lemma slotEvicting_keeps {allocate : Op κ π (Option Slot)} (hm : Preserves (Priced isPair) allocate) :
    KeepsPriced isPair (slotEvicting allocate) := by
  refine .bind (kept_onAccounting hm) fun slot => ?_
  cases slot with
  | some slot => exact preserves_pure
  | none => exact .bind (.discard evictUntil_keeps) fun _ => kept_onAccounting hm

lemma allocShares_priced {points : List ℤ} : Preserves (Priced isPair) (allocShares (π := π) key points) := by
  induction points with
  | nil => exact preserves_pure
  | cons point points ih => exact .bind (.discard allocShare_priced) fun _ => ih

lemma record_priced {f : PageArena κ π → PageArena κ π} (hf : ∀ s, ∃ slotTokens extTokens,
      f s = { s with slotTokens, extTokens }) : Preserves (Priced isPair) (modify f : Op κ π Unit) := by
  intro s h
  obtain ⟨slotTokens, extTokens, heq⟩ := hf s
  rw [wp_modify, heq]
  exact h.change

lemma preserves_withCleanup {σ : Type} {I : σ → Prop} {m : EStateM PyError σ α} {cleanup : EStateM PyError σ Unit}
    (hm : Preserves I m) (hcleanup : Preserves I cleanup) : Preserves I (withCleanup m cleanup) := by
  intro s hs
  rw [wp_withCleanup]
  exact wp_mono (hm s hs) (fun _ t => hcleanup t) fun _ t => hcleanup t

lemma recordExtension_keeps {tokens : ℤ} : KeepsPriced isPair (recordExtension (π := π) key tokens) :=
  kept_onAccounting (record_priced fun _ => ⟨_, _, rfl⟩)

lemma recordCheckpoint_keeps {tokens : ℤ} : KeepsPriced isPair (recordCheckpoint (π := π) key tokens) :=
  kept_onAccounting (record_priced fun _ => ⟨_, _, rfl⟩)

lemma reserve_keeps {tokens capacity : ℤ} {borrow : Option (κ × ℤ)} {extension : Bool} {points : List ℤ} :
    KeepsPriced isPair (reserve (π := π) key tokens capacity borrow extension points) := by
  refine .bind borrowPlan_keeps fun plan => kept_get_bind fun t _ => ?_
  extract_lets _ _ _ _ rest
  have hrest : ∀ held, KeepsPriced isPair (rest held) := by
    intro held
    refine .bind (kept_onAccounting needed_preserves) fun need => .bind kept_onSliding fun needSliding => ?_
    refine .bind readState_keeps fun _ => preserves_withCleanup ?_ doneReading_keeps
    refine .bind (.discard evictUntil_keeps) fun _ => kept_get_bind fun u _ => .ite preserves_pure ?_
    refine .bind (.discard activate_keeps) fun _ => kept_get_bind fun v _ => .ite ?_ preserves_pure
    refine .bind (.discard (kept_onAccounting allocSlot_priced)) fun _ => ?_
    have hshares : KeepsPriced (π := π) isPair (do
        onAccounting (allocShares key points)
        return true) := .bind (kept_onAccounting allocShares_priced) fun _ => preserves_pure
    exact .ite (.bind (.discard (kept_onAccounting allocExtension_priced)) fun _ => hshares) hshares
  refine .ite ?_ (.bind preserves_pure hrest)
  refine .bind (kept_onAccounting resident_preserves) fun _ => .bind kept_lookup fun _ => ?_
  exact .bind kept_onSliding fun _ => .bind preserves_pure hrest

/-! ### The plan of a chunk -/

/-- A step of the plan keeps what holds of the arena's retained keys. -/
abbrev PlanKeepsPriced (isPair : κ → Bool) (m : PlanOp κ π α) : Prop :=
  Preserves (fun p : Planning κ π => Priced isPair p.arena.accounting) m

lemma plan_onArena {m : KVOp κ π α} (hm : KeepsPriced isPair m) : PlanKeepsPriced isPair (onArena m) := by
  intro p h
  rw [onArena, wp_onPart]
  exact hm p.arena h

lemma plan_modify {f : Planning κ π → Planning κ π} (hf : ∀ p, (f p).arena = p.arena) :
    PlanKeepsPriced isPair (modify f : PlanOp κ π Unit) := by
  intro p h
  rw [wp_modify, hf]
  exact h

lemma plan_get_bind {f : Planning κ π → PlanOp κ π α} (hf : ∀ t, PlanKeepsPriced isPair (f t)) :
    PlanKeepsPriced isPair (get >>= f) := by
  intro p h
  rw [wp_bind, wp_get]
  exact hf p p h

lemma plan_reads {f : Planning κ π → Except PyError α} : PlanKeepsPriced isPair (reads f) := by
  intro p h
  rw [wp_reads]
  exact ⟨fun _ _ => h, fun _ _ => h⟩

lemma logUndo_keeps {entry : Undo κ} : PlanKeepsPriced (π := π) isPair (logUndo entry) := plan_modify fun _ => rfl

lemma lay_keeps {f : Layout κ → Layout κ} : PlanKeepsPriced (π := π) isPair (lay f) := plan_modify fun _ => rfl

variable {group : ChunkGroup κ} {source : Slot}

lemma borrowedState_keeps : PlanKeepsPriced (π := π) isPair (borrowedState group) := by
  refine .ite preserves_pure (plan_get_bind fun t => ?_)
  split
  · exact preserves_throw
  · exact .ite preserves_throw preserves_pure

lemma takeShare_keeps {tokens : ℤ} : PlanKeepsPriced (π := π) isPair (takeShare key tokens) := by
  refine plan_get_bind fun t => .bind (plan_onArena (slotEvicting_keeps allocShare_priced)) fun slot => ?_
  cases slot with
  | none => exact preserves_throw
  | some write => exact .ite preserves_pure (.bind logUndo_keeps fun _ => preserves_pure)

lemma planPieces_keeps {pieces : List (ℤ × ℤ)} {read : Option Slot} :
    PlanKeepsPriced (π := π) isPair (planPieces group source pieces read) := by
  induction pieces generalizing read with
  | nil => exact preserves_pure
  | cons piece pieces ih =>
    obtain ⟨low, high⟩ := piece
    refine .bind (.ite preserves_pure takeShare_keeps) fun write => .ite ?_ ih
    exact .bind lay_keeps fun _ => ih

lemma planFresh_keeps : PlanKeepsPriced (π := π) isPair (planFresh group) := by
  refine .ite preserves_throw (plan_get_bind fun t => ?_)
  refine .bind (plan_onArena (slotEvicting_keeps allocSlot_priced)) fun slot => ?_
  cases slot with
  | none => exact preserves_throw
  | some source =>
    refine .bind logUndo_keeps fun _ => .bind borrowedState_keeps fun read => .bind planPieces_keeps fun _ => ?_
    exact .bind (plan_onArena recordCheckpoint_keeps) fun _ => preserves_pure

lemma planResident_keeps : PlanKeepsPriced (π := π) isPair (planResident group) := by
  refine plan_get_bind fun t => ?_
  dsimp only
  split
  · exact preserves_throw
  · exact .ite preserves_throw preserves_pure

lemma planPrefix_keeps : PlanKeepsPriced (π := π) isPair (planPrefix group) :=
  .bind plan_reads fun _ => .ite planFresh_keeps planResident_keeps

lemma extendGroup_keeps : PlanKeepsPriced (π := π) isPair (extendGroup group source) := by
  have htarget : PlanKeepsPriced (π := π) isPair (extensionTarget group source) := by
    refine plan_get_bind fun t => .bind (.ite preserves_pure ?_) fun target => ?_
    · exact plan_onArena (slotEvicting_keeps allocExtension_priced)
    · cases target with
      | none => exact preserves_throw
      | some target => exact plan_get_bind fun _ => .ite preserves_throw preserves_pure
  refine .bind htarget fun found => .bind logUndo_keeps fun _ => ?_
  exact .bind (plan_onArena recordExtension_keeps) fun _ => .ite lay_keeps lay_keeps

lemma planSuffixes_keeps {spans : List (ℤ × ℤ)} : PlanKeepsPriced (π := π) isPair (planSuffixes group source spans) := by
  induction spans with
  | nil => exact preserves_pure
  | cons span spans ih => exact .ite preserves_throw (.bind lay_keeps fun _ => ih)

lemma planGroups_keeps {groups : List (ChunkGroup κ)} : PlanKeepsPriced (π := π) isPair (planGroups groups) := by
  induction groups with
  | nil => exact preserves_pure
  | cons group groups ih =>
    refine .bind (.bind planPrefix_keeps fun source => .ite planSuffixes_keeps ?_) fun _ => ih
    exact .bind extendGroup_keeps fun _ => .ite preserves_pure planSuffixes_keeps

/-- The undo log changes checkpoint slots only. -/
lemma Priced.undoAll {s : PageArena κ π} (h : Priced isPair s) {log : List (Undo κ)} :
    Priced isPair (log.foldl PageArena.undoOne s) := by
  induction log generalizing s with
  | nil => exact h
  | cons entry log ih =>
    apply ih
    unfold PageArena.undoOne
    split
    · exact h.change
    · exact h.change
    · dsimp only
      split
      · exact h.change
      · split
        · exact h.change
        · exact h.change
    · split
      · exact h
      · exact h.change

lemma planPhases_keeps {stage : Stage δ} {groups : List (ChunkGroup κ)} :
    KeepsPriced isPair (planPhases (π := π) stage groups) := by
  refine .bind readState_keeps fun _ => preserves_withCleanup ?_ doneReading_keeps
  intro s h
  have hplan : PlanKeepsPriced (π := π) isPair (planChunk stage groups) :=
    .bind planGroups_keeps fun _ => plan_reads
  have hchunk := hplan (.start s) h
  unfold wp at hchunk ⊢
  rw [planOrUndo]
  cases hp : planChunk stage groups (.start s) with
  | ok phases p =>
    rw [hp] at hchunk
    exact hchunk
  | error e p =>
    rw [hp] at hchunk
    exact hchunk.undoAll

/-! ### Every call -/

lemma KVCall.perform_keeps (c : KVCall κ π δ) : KeepsPriced isPair (c.perform isPair) := by
  cases c with
  | alloc => exact .discard kvAlloc_keeps
  | activate => exact .discard activate_keeps
  | reserve => exact .discard reserve_keeps
  | growPages => exact .discard kvGrowPages_keeps
  | pin => exact kept_onAccounting pin_priced
  | retain => exact .discard retain_keeps
  | evictRetained => exact .discard evictRetained_keeps
  | freeKey => exact .discard freeKey_keeps
  | keepWindow => exact keepWindow_keeps
  | trimWindow => exact .discard trimWindow_keeps
  | hold => exact hold_keeps
  | release => exact release_keeps
  | dropHolds => exact .discard dropHolds_keeps
  | readState => exact readState_keeps
  | doneReading => exact doneReading_keeps
  | checkpointSlot => exact .discard (slotEvicting_keeps allocSlot_priced)
  | extensionSlot => exact .discard (slotEvicting_keeps allocExtension_priced)
  | shareSlot => exact .discard (slotEvicting_keeps allocShare_priced)
  | recordExtension => exact recordExtension_keeps
  | recordCheckpoint => exact recordCheckpoint_keeps
  | planPhases => exact .discard planPhases_keeps
  | configureRetention => exact kept_onAccounting (configureRetention_priced pricing_answers)
  | setCap =>
    refine kept_onAccounting fun s h => ?_
    rw [wp_modify]
    exact ⟨h.retention.keeps ⟨rfl, fun _ hk => hk⟩, h.answers, h.pairs⟩

/-- In every run of an arena whose first policy has a priority for every key, the retained keys are in order. -/
theorem KVCall.run_priced (numPages : ℕ) (pageTokens : ℤ) (slidingPages : Option ℕ) (window : ℤ) (numSlots : ℕ)
    (price : κ → ℤ → ℤ → π) (isPair : κ → Bool) (calls : List (KVCall κ π δ)) :
    Priced isPair (run (KVCall.step isPair) (KVArena.new numPages pageTokens slidingPages window numSlots
      fun key tokens pages => .ok (price key tokens pages)) calls).accounting := by
  have hnew : Kept (Priced isPair) (KVArena.new numPages pageTokens slidingPages window numSlots
      fun (key : κ) tokens pages => .ok (price key tokens pages)) :=
    ⟨new_retention, fun _ _ _ _ => ⟨_, rfl⟩, fun _ hk => by cases hk⟩
  have hrun : ∀ (calls : List (KVCall κ π δ)) (s : KVArena κ π), Kept (Priced isPair) s →
      Kept (Priced isPair) (run (KVCall.step isPair) s calls) := by
    intro calls
    induction calls with
    | nil => exact fun _ h => h
    | cons c calls ih => exact fun s h => ih _ (final_of_wp (c.perform_keeps s h))
  exact hrun calls _ hnew

end Priced
end Quail.Pages
