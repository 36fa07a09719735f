import Quail.Pages.Calls
import Quail.Pages.SlotStore
import Mathlib.Logic.Relation

/-!
# The moves of a call

A call of the arena is a chain of moves: an operation of the every-token pool, a change beside the pool, a key
that is freed while it is not in use, or asked to go while it is, a new key, and a key that loses a hold or a
reader. Before them a call may count new holds and readers (`Enters`). Every call moves so, whether it returns
or raises (`KVCall.perform_moves`), so what every move keeps, every run keeps.

The moves carry the keys the call may rewind: no other call shortens a table.
-/

set_option linter.unusedSectionVars false

namespace Quail.Pages
open Imperative Relation

variable {κ π δ α : Type} [DecidableEq κ] [ToString κ] [LinearOrder π]

/-- What a call does to the every-token pool, new and freed keys apart. -/
inductive PoolMove (rewinds : κ → Prop) (s : PageArena κ π) : PageArena κ π → Prop
  | pin (key : κ) : PoolMove rewinds s (final (Pages.pin key) s)
  | grow (key : κ) (capacity : ℤ) : PoolMove rewinds s (final (Pages.grow key capacity) s)
  | growPages (keys : List κ) : PoolMove rewinds s (final (Pages.growPages keys) s)
  | setTokens (key : κ) (tokens : ℤ) : PoolMove rewinds s (final (Pages.setTokens key tokens) s)
  | rewind (key : κ) (tokens : ℤ) (hkey : rewinds key) : PoolMove rewinds s (final (Pages.rewind key tokens) s)
  | dropExtension (key : κ) : PoolMove rewinds s (final (Pages.dropExtension key) s)
  | retain (key : κ) (priority : Option π) : PoolMove rewinds s (final (Pages.retain key priority) s)
  | popRetainedVictim (keep : Finset κ) : PoolMove rewinds s (final (Pages.popRetainedVictim keep) s)
  | allocSlot (key : κ) : PoolMove rewinds s (final (Pages.allocSlot key) s)
  | allocExtension (key : κ) : PoolMove rewinds s (final (Pages.allocExtension key) s)
  | allocShare (key : κ) (tokens : ℤ) : PoolMove rewinds s (final (Pages.allocShare key tokens) s)
  | record (slotTokens extTokens : Dict κ ℤ) : PoolMove rewinds s { s with slotTokens, extTokens }
  | configureRetention (policy : κ → ℤ → ℤ → Except PyError π) (capPages : ℤ) :
    PoolMove rewinds s (final (Pages.configureRetention policy capPages) s)
  | setCap (capPages : Option ℤ) : PoolMove rewinds s { s with retentionCapPages := capPages }
  | undo (entry : Undo κ) : PoolMove rewinds s (s.undoOne entry)

/-- One move of a call. -/
inductive Move (rewinds : κ → Prop) (s : KVArena κ π) : KVArena κ π → Prop
  | pool {accounting : PageArena κ π} (hpool : PoolMove rewinds s.accounting accounting) :
    Move rewinds s { s with accounting }
  /-- The every-token pool, the holds, the readers and the waiting frees are as they were. -/
  | beside {s' : KVArena κ π} (haccounting : s'.accounting = s.accounting) (hholds : s'.holds = s.holds)
    (hreading : s'.reading = s.reading) (hdeferred : s'.deferred = s.deferred) : Move rewinds s s'
  | free (key : κ) (hno : ¬s.InUse key) :
    Move rewinds s { s with accounting := final (Pages.freeKey key) s.accounting }
  | defer (key : κ) (huse : s.InUse key) : Move rewinds s { s with deferred := insert key s.deferred }
  | alloc (key : κ) (tokens : ℤ) (capacity : Option ℤ) (borrowed : List Page)
    (hno : s.isResident key = false) :
    Move rewinds s { s with accounting := final (Pages.alloc key tokens capacity borrowed) s.accounting }
  /-- The sliding pool was short, so the new key goes again. -/
  | allocUndone (key : κ) (tokens : ℤ) (capacity : Option ℤ) (borrowed : List Page)
    (hno : s.isResident key = false) :
    Move rewinds s { s with
      accounting := final (Pages.freeKey key) (final (Pages.alloc key tokens capacity borrowed) s.accounting) }
  /-- A hold or a reader goes; a key whose free still waits has another. -/
  | leave {holds reading : Dict κ ℕ} {deferred : Finset κ}
    (huse : ∀ k, ({ s with holds, reading, deferred } : KVArena κ π).InUse k → s.InUse k)
    (hwaits : ∀ k ∈ deferred, k ∈ s.deferred ∧
      (s.InUse k → ({ s with holds, reading, deferred } : KVArena κ π).InUse k)) :
    Move rewinds s { s with holds, reading, deferred }

/-- New holds and readers are counted, and the every-token pool is as it was. -/
structure Enters (s s' : KVArena κ π) : Prop where
  accounting : s'.accounting = s.accounting
  deferred : s'.deferred = s.deferred
  inUse : ∀ k, s.InUse k → s'.InUse k

/-- New holds and readers, then moves. -/
def CallMoves (rewinds : κ → Prop) (s s' : KVArena κ π) : Prop :=
  ∃ t, Enters s t ∧ ReflTransGen (Move rewinds) t s'

/-- The keys a call may rewind: `retain` keeps the first tokens of its key. -/
def KVCall.rewinds : KVCall κ π δ → κ → Prop
  | .retain key _ _ => (· = key)
  | _ => fun _ => False

variable {rewinds : κ → Prop} {s₀ s s' : KVArena κ π} {key k : κ}

lemma Enters.refl : Enters s s := ⟨rfl, rfl, fun _ h => h⟩

lemma Enters.trans {s'' : KVArena κ π} (h : Enters s s') (h' : Enters s' s'') : Enters s s'' :=
  ⟨h'.accounting.trans h.accounting, h'.deferred.trans h.deferred, fun k huse => h'.inUse k (h.inUse k huse)⟩

/-- Holds and readers as they were are in use as they were. -/
lemma inUse_congr (hholds : s'.holds = s.holds) (hreading : s'.reading = s.reading) : s'.InUse k ↔ s.InUse k := by
  rw [KVArena.InUse, KVArena.InUse, KVArena.isHeld, KVArena.isHeld, KVArena.isRead, KVArena.isRead, hholds, hreading]

/-! ## Programs that move -/

/-- The program continues a chain of moves, also when it raises. -/
abbrev Moves (rewinds : κ → Prop) (s₀ : KVArena κ π) (m : KVOp κ π α) : Prop :=
  Preserves (ReflTransGen (Move rewinds) s₀) m

/-- A program leaves its final state. -/
lemma wp_final {ε σ : Type} {m : EStateM ε σ α} {s : σ} :
    wp m (fun _ t => t = final m s) (fun _ t => t = final m s) s := by
  unfold wp final
  cases m s with
  | ok a t => rfl
  | error e t => rfl

lemma moves_pool {m : Op κ π α} (hm : ∀ s, PoolMove rewinds s (final m s)) : Moves rewinds s₀ (onAccounting m) := by
  intro s h
  rw [wp_onAccounting]
  have hstep : ∀ accounting, accounting = final m s.accounting →
      ReflTransGen (Move rewinds) s₀ { s with accounting } := by
    rintro accounting rfl
    exact h.tail (.pool (hm s.accounting))
  exact wp_mono wp_final (fun _ => hstep) fun _ => hstep

/-- A program that leaves the every-token pool as it is. -/
lemma moves_read {m : Op κ π α} (hm : ∀ s, wp m (fun _ s' => s' = s) (fun _ s' => s' = s) s) :
    Moves rewinds s₀ (onAccounting m) := by
  intro s h
  rw [wp_onAccounting]
  refine wp_mono (hm s.accounting) ?_ ?_
  · rintro _ accounting rfl
    exact h
  · rintro _ accounting rfl
    exact h

lemma moves_sliding {m : Op κ π α} : Moves rewinds s₀ (onSliding m) := by
  intro s h
  rw [wp_onSliding]
  refine ⟨fun _ => h, fun pool hpool => ?_⟩
  have hstep : ∀ pool', ReflTransGen (Move rewinds) s₀ { s with sliding := some pool' } := fun pool' =>
    h.tail (.beside rfl rfl rfl rfl)
  exact wp_mono wp_final (fun _ pool' _ => hstep pool') fun _ pool' _ => hstep pool'

lemma moves_beside {f : KVArena κ π → KVArena κ π} (haccounting : ∀ s, (f s).accounting = s.accounting)
    (hholds : ∀ s, (f s).holds = s.holds) (hreading : ∀ s, (f s).reading = s.reading)
    (hdeferred : ∀ s, (f s).deferred = s.deferred) : Moves rewinds s₀ (modify f : KVOp κ π Unit) := by
  intro s h
  rw [wp_modify]
  exact h.tail (.beside (haccounting s) (hholds s) (hreading s) (hdeferred s))

lemma moves_reads {f : KVArena κ π → Except PyError α} : Moves rewinds s₀ (reads f) := by
  intro s h
  rw [wp_reads]
  exact ⟨fun _ _ => h, fun _ _ => h⟩

lemma moves_lookup {β : Type} {dict : KVArena κ π → Dict κ β} : Moves rewinds s₀ (lookup dict key) := moves_reads

/-- A program that reads the state first. -/
lemma moves_get_bind {f : KVArena κ π → KVOp κ π α} (hf : ∀ t, Moves rewinds s₀ (f t)) :
    Moves rewinds s₀ (get >>= f) := by
  intro s h
  rw [wp_bind, wp_get]
  exact hf s s h

/-- A program that writes back what it read, with a change beside the pool. -/
lemma moves_update {g : KVArena κ π → KVArena κ π} {f : KVArena κ π → KVOp κ π α}
    (haccounting : ∀ s, (g s).accounting = s.accounting) (hholds : ∀ s, (g s).holds = s.holds)
    (hreading : ∀ s, (g s).reading = s.reading) (hdeferred : ∀ s, (g s).deferred = s.deferred)
    (hf : ∀ t, Moves rewinds s₀ (f t)) : Moves rewinds s₀ (get >>= fun t => set (g t) >>= fun _ => f t) := by
  intro s h
  rw [wp_bind, wp_get, wp_bind, wp_set]
  exact hf s _ (h.tail (.beside (haccounting s) (hholds s) (hreading s) (hdeferred s)))

lemma moves_cleanup {m : KVOp κ π α} {cleanup : KVOp κ π Unit} (hm : Moves rewinds s₀ m)
    (hcleanup : Moves rewinds s₀ cleanup) : Moves rewinds s₀ (withCleanup m cleanup) := by
  intro s h
  rw [wp_withCleanup]
  exact wp_mono (hm s h) (fun _ t => hcleanup t) fun _ t => hcleanup t

/-! ## What the operations do -/

lemma origin_moves {tokens : ℤ} : Moves rewinds s₀ (origin tokens : KVOp κ π ℤ) := by
  intro s h
  exact wp_mono origin_same (fun _ _ hs => hs ▸ h) fun _ _ hs => hs ▸ h

lemma resident_same {s : PageArena κ π} : wp (resident key) (fun _ s' => s' = s) (fun _ s' => s' = s) s := by
  rw [wp_resident]
  exact ⟨fun _ _ => rfl, fun _ => rfl⟩

lemma needed_same {tokens : ℤ} {s : PageArena κ π} :
    wp (needed tokens) (fun _ s' => s' = s) (fun _ s' => s' = s) s := by
  rw [wp_needed]
  exact ⟨fun _ => rfl, fun _ => rfl⟩

lemma sharedPages_same {shared start : ℤ} {s : PageArena κ π} :
    wp (sharedPages key shared start) (fun _ s' => s' = s) (fun _ s' => s' = s) s :=
  wp_mono sharedPages_lent (fun _ _ h => h.1) fun _ _ h => h

lemma refreshRows_moves {logical : Option ℤ} : Moves rewinds s₀ (refreshRows (π := π) key logical) := by
  refine .bind (moves_beside (fun _ => rfl) (fun _ => rfl) (fun _ => rfl) fun _ => rfl) fun _ => ?_
  refine .bind (moves_read fun _ => resident_same) fun r => ?_
  refine moves_update (fun _ => rfl) (fun _ => rfl) (fun _ => rfl) (fun _ => rfl) fun t => ?_
  refine .bind moves_sliding fun r' => ?_
  cases r' with
  | none => exact preserves_pure
  | some r' => exact moves_beside (fun _ => rfl) (fun _ => rfl) (fun _ => rfl) fun _ => rfl

lemma keepWindow_moves {shared : ℤ} : Moves rewinds s₀ (keepWindow (π := π) key shared) :=
  .bind origin_moves fun _ => moves_beside (fun _ => rfl) (fun _ => rfl) (fun _ => rfl) fun _ => rfl

lemma trimWindow_moves : Moves rewinds s₀ (trimWindow (π := π) key) := by
  refine moves_get_bind fun t => .ite preserves_pure ?_
  refine .bind (moves_beside (fun _ => rfl) (fun _ => rfl) (fun _ => rfl) fun _ => rfl) fun _ => ?_
  refine .bind moves_lookup fun base => .bind origin_moves fun row => moves_get_bind fun u => ?_
  refine .bind moves_lookup fun start => .ite preserves_pure (.bind moves_reads fun before => ?_)
  refine .bind (.discard moves_sliding) fun _ => ?_
  refine .bind (moves_beside (fun _ => rfl) (fun _ => rfl) (fun _ => rfl) fun _ => rfl) fun _ => ?_
  exact .bind refreshRows_moves fun _ => .bind moves_reads fun _ => preserves_pure

lemma liftFloor_moves : Moves rewinds s₀ (liftFloor (π := π) key) :=
  moves_update (fun _ => rfl) (fun _ => rfl) (fun _ => rfl) (fun _ => rfl) fun _ =>
    .ite (.discard trimWindow_moves) preserves_pure

/-! ### Freeing -/

/-- A key that is not in use leaves the every-token pool. -/
lemma free_moves (h : ReflTransGen (Move rewinds) s₀ s) (hno : ¬s.InUse key) :
    wp (onAccounting (freeKey key)) (fun _ => ReflTransGen (Move rewinds) s₀)
      (fun _ => ReflTransGen (Move rewinds) s₀) s := by
  rw [wp_onAccounting]
  have hstep : ∀ accounting, accounting = final (freeKey key) s.accounting →
      ReflTransGen (Move rewinds) s₀ { s with accounting } := by
    rintro accounting rfl
    exact h.tail (.free key hno)
  exact wp_mono wp_final (fun _ => hstep) fun _ => hstep

/-- A key in use waits, and any other leaves the pool. -/
lemma kvFreeKey_moves : Moves rewinds s₀ (KVArena.freeKey (π := π) key) := by
  intro s h
  unfold KVArena.freeKey
  simp only [wp_bind, wp_get, wp_ite, wp_set, wp_pure, wp_modify, wp_lookup, wp_discard, wp_onSliding]
  refine ⟨fun huse => h.tail (.defer key huse), fun hno => ?_⟩
  have hbeside : ∀ {s' : KVArena κ π}, s'.accounting = s.accounting → s'.holds = s.holds →
      s'.reading = s.reading → s'.deferred = s.deferred → ReflTransGen (Move rewinds) s₀ s' :=
    fun haccounting hholds hreading hdeferred => h.tail (.beside haccounting hholds hreading hdeferred)
  -- the pages go last, when nothing else is left to raise
  refine ⟨fun _ _ => ⟨fun _ _ => ⟨fun _ => free_moves (hbeside rfl rfl rfl rfl) hno, fun pool _ => ?_⟩,
    fun _ => hbeside rfl rfl rfl rfl⟩, fun _ => hbeside rfl rfl rfl rfl⟩
  exact wp_mono wp_final (fun _ pool' _ => free_moves (hbeside rfl rfl rfl rfl) hno)
    fun _ _ _ => hbeside rfl rfl rfl rfl

lemma evictKey_moves : Moves rewinds s₀ (evictKey (π := π) key) :=
  .bind (moves_read fun _ => resident_same) fun _ => .bind kvFreeKey_moves fun _ =>
    .bind (moves_beside (fun _ => rfl) (fun _ => rfl) (fun _ => rfl) fun _ => rfl) fun _ => preserves_pure

lemma evictTurns_moves {satisfied : KVArena κ π → Except PyError Bool} {keep : Finset κ} {turns : ℕ} {keys : List κ} :
    Moves rewinds s₀ (evictTurns satisfied keep turns keys) := by
  induction turns generalizing keys with
  | zero => exact preserves_pure
  | succ turns ih =>
    refine .bind moves_reads fun done => .ite preserves_pure ?_
    refine .bind (moves_pool fun _ => .popRetainedVictim keep) fun victim => ?_
    cases victim with
    | none => exact preserves_pure
    | some victim => exact .bind (.discard evictKey_moves) fun _ => ih

lemma evictUntil_moves {satisfied : KVArena κ π → Except PyError Bool} : Moves rewinds s₀ (evictUntil satisfied) :=
  moves_get_bind fun _ => evictTurns_moves

lemma evictForPages_moves {need needSliding : ℤ} : Moves rewinds s₀ (evictForPages (π := π) need needSliding) :=
  .discard evictUntil_moves

lemma evictRetained_moves {pages : ℤ} : Moves rewinds s₀ (evictRetained (π := π) pages) :=
  .bind moves_reads fun _ => evictUntil_moves

/-! ### Allocating -/

lemma borrowPlan_moves {borrow : Option (κ × ℤ)} : Moves rewinds s₀ (borrowPlan (π := π) borrow) := by
  unfold borrowPlan
  cases borrow with
  | none => exact preserves_pure
  | some borrow =>
    refine .bind (moves_read fun _ => sharedPages_same) fun borrowed => moves_get_bind fun t => ?_
    refine .ite preserves_pure (.bind origin_moves fun start => .bind moves_lookup fun _ => ?_)
    exact .ite preserves_throw (.bind moves_sliding fun _ => preserves_pure)

/-- A new key enters the pool, or goes again when the sliding pool is short. -/
lemma kvAlloc_moves {tokens : ℤ} {capacity base sliding : Option ℤ} {borrow : Option (κ × ℤ)} :
    Moves rewinds s₀ (KVArena.alloc (π := π) key tokens capacity base sliding borrow) := by
  refine .bind borrowPlan_moves fun plan => ?_
  intro s h
  rw [wp_bind, wp_onAccounting]
  refine wp_mono (wp_and alloc_docs wp_final) ?_ ?_
  · rintro pages accounting ⟨⟨hnone, hends⟩, hfinal⟩
    cases pages with
    | none =>
      have hsame : accounting = s.accounting := hends
      rw [hsame]
      exact h
    | some pages =>
      have hno : s.isResident key = false := Dict.contains_eq_false.2 hnone
      have hmove : Move rewinds s { s with accounting } := by
        rw [hfinal]
        exact .alloc key _ _ _ hno
      have hundone : Move rewinds s { s with accounting := final (freeKey key) accounting } := by
        rw [hfinal]
        exact .allocUndone key _ _ _ hno
      have henter : Moves rewinds s₀ (do
          modify fun s => { s with
            base := s.base.set key (base.getD tokens)
            slidingStart := s.slidingStart.set key plan.start }
          refreshRows key (some tokens)
          return some pages) :=
        .bind (moves_beside (fun _ => rfl) (fun _ => rfl) (fun _ => rfl) fun _ => rfl) fun _ =>
          .bind refreshRows_moves fun _ => preserves_pure
      dsimp only
      rw [wp_bind, wp_onSliding]
      refine ⟨fun _ => henter _ (h.tail hmove), fun pool _ => ?_⟩
      refine wp_mono wp_final (fun got pool' _ => ?_) fun _ pool' _ =>
        (h.tail hmove).tail (.beside rfl rfl rfl rfl)
      cases got with
      | none =>
        simp only [wp_bind, wp_discard, wp_onAccounting, wp_pure]
        have hstep : ∀ left, left = final (freeKey key) accounting → ReflTransGen (Move rewinds) s₀
            { s with accounting := left, sliding := some pool' } := by
          rintro left rfl
          exact (h.tail hundone).tail (.beside rfl rfl rfl rfl)
        exact wp_mono wp_final (fun _ => hstep) fun _ => hstep
      | some got => exact henter _ ((h.tail hmove).tail (.beside rfl rfl rfl rfl))
  · rintro _ accounting ⟨hsame, _⟩
    rw [hsame]
    exact h

lemma growthSliding_moves {capacity : ℤ} : Moves rewinds s₀ (growthSliding (π := π) key capacity) :=
  .bind moves_sliding fun _ => preserves_pure

lemma activateResident_moves {tokens capacity : ℤ} :
    Moves rewinds s₀ (activateResident (π := π) key tokens capacity) := by
  refine .bind (moves_pool fun _ => .pin key) fun _ => .bind (moves_read fun _ => resident_same) fun r => ?_
  refine .bind (moves_read fun _ => needed_same) fun need => .bind moves_lookup fun start => ?_
  refine .bind growthSliding_moves fun _ => .bind evictForPages_moves fun _ => moves_get_bind fun t => ?_
  refine .ite preserves_pure (.bind (.discard (moves_pool fun _ => .grow key capacity)) fun _ => ?_)
  refine .bind (.discard moves_sliding) fun _ => .bind (moves_pool fun _ => .setTokens key tokens) fun _ => ?_
  refine .bind (.discard moves_sliding) fun _ => .bind refreshRows_moves fun _ => ?_
  exact .bind (moves_read fun _ => resident_same) fun _ => preserves_pure

lemma activate_moves {tokens : ℤ} {capacity base : Option ℤ} {borrow : Option (κ × ℤ)} :
    Moves rewinds s₀ (activate (π := π) key tokens capacity base borrow) := by
  refine moves_get_bind fun t => .ite activateResident_moves ?_
  refine .bind borrowPlan_moves fun plan => .bind (moves_read fun _ => needed_same) fun need => ?_
  refine .bind moves_sliding fun _ => .bind evictForPages_moves fun _ => .bind kvAlloc_moves fun pages => ?_
  cases pages with
  | none => exact preserves_pure
  | some pages => exact .bind (moves_pool fun _ => .pin key) fun _ => preserves_pure

lemma kvGrowPages_moves {keys : List κ} : Moves rewinds s₀ (KVArena.growPages (π := π) keys) := by
  refine .bind evictForPages_moves fun _ => moves_get_bind fun t => .ite preserves_pure ?_
  refine .bind (moves_pool fun _ => .growPages keys) fun _ => .bind (.discard moves_sliding) fun _ => ?_
  exact .bind (moves_beside (fun _ => rfl) (fun _ => rfl) (fun _ => rfl) fun _ => rfl) fun _ => preserves_pure

/-! ### Retaining -/

/-- `retain` rewinds its own key. -/
lemma retain_moves {isPair : κ → Bool} {tokens : ℤ} {priority : Option π} (hkey : rewinds key) :
    Moves rewinds s₀ (KVArena.retain isPair key tokens priority) := by
  have hevict : Moves rewinds s₀ (evictExcess (κ := κ) (π := π)) := by
    refine .bind moves_reads fun before => moves_get_bind fun t => ?_
    cases t.accounting.retentionCapPages with
    | none => exact .bind moves_reads fun _ => preserves_pure
    | some cap =>
      exact moves_get_bind fun _ => .bind (.discard evictRetained_moves) fun _ =>
        .bind moves_reads fun _ => preserves_pure
  have hpair : Moves rewinds s₀ (checkPair isPair key : KVOp κ π Unit) := .ite preserves_throw preserves_pure
  have hwindow : Moves rewinds s₀ (checkWindow (π := π) key tokens) :=
    moves_get_bind fun _ => .ite (.bind moves_lookup fun _ => .ite preserves_throw preserves_pure) preserves_pure
  have hrewind : Moves rewinds s₀ (rewindWindow (π := π) key tokens) :=
    moves_get_bind fun _ => .ite (.bind moves_lookup fun _ => .discard moves_sliding) preserves_pure
  rw [retain_eq]
  refine .bind (.bind hpair fun _ => .bind hwindow fun _ => ?_) fun _ => hevict
  refine .bind (.discard (moves_pool fun _ => .rewind key tokens hkey)) fun _ => .bind hrewind fun _ => ?_
  refine .bind refreshRows_moves fun _ => .bind (moves_pool fun _ => .dropExtension key) fun _ => ?_
  exact moves_pool fun _ => .retain key priority

/-! ### Holds and readers -/

/-- A new count of a key that had one. -/
lemma contains_recount {counts : Dict κ ℕ} {n m : ℕ} (hn : counts.get? key = some n) :
    (counts.set key m).contains k = counts.contains k := by
  rw [Dict.contains_set]
  by_cases hk : key = k
  · subst hk
    rw [Dict.contains_iff.2 ⟨n, hn⟩, Bool.or_true]
  · rw [decide_eq_false hk, Bool.false_or]

/-- The counts of holds and readers change, of the same keys. -/
lemma Move.recount {holds reading : Dict κ ℕ} (hholds : ∀ k, holds.contains k = s.holds.contains k)
    (hreading : ∀ k, reading.contains k = s.reading.contains k) : Move rewinds s { s with holds, reading } := by
  have hsame : ∀ k, ({ s with holds, reading } : KVArena κ π).InUse k ↔ s.InUse k := by
    intro k
    rw [KVArena.InUse, KVArena.InUse, KVArena.isHeld, KVArena.isRead, hholds, hreading]
    rfl
  exact .leave (fun k => (hsame k).1) fun k hk => ⟨hk, (hsame k).2⟩

/-- One key loses its holds or its readers; its free waits no more, or only as long as it is in use. -/
lemma Move.lose {holds reading : Dict κ ℕ} {deferred : Finset κ} (key : κ)
    (hholds : ∀ k, holds.contains k = true → s.holds.contains k = true)
    (hreading : ∀ k, reading.contains k = true → s.reading.contains k = true)
    (hother : ∀ k, k ≠ key → holds.contains k = s.holds.contains k ∧ reading.contains k = s.reading.contains k)
    (hdeferred : deferred = s.deferred.erase key ∨ deferred = s.deferred ∧
      (key ∈ s.deferred → holds.contains key = true ∨ reading.contains key = true)) :
    Move rewinds s { s with holds, reading, deferred } := by
  refine .leave (fun k huse => huse.imp (hholds k) (hreading k)) fun k hk => ?_
  have hsame : k ≠ key → s.InUse k → ({ s with holds, reading, deferred } : KVArena κ π).InUse k := by
    intro hne huse
    obtain ⟨hheld, hread⟩ := hother k hne
    exact huse.imp hheld.trans hread.trans
  obtain rfl | ⟨rfl, hwaits⟩ := hdeferred
  · obtain ⟨hne, hin⟩ := Finset.mem_erase.1 hk
    exact ⟨hin, hsame hne⟩
  · refine ⟨hk, fun huse => ?_⟩
    by_cases heq : k = key
    · subst heq
      exact hwaits hk
    · exact hsame heq huse

lemma contains_erase_other {counts : Dict κ ℕ} (hk : k ≠ key) : (counts.erase key).contains k = counts.contains k := by
  rw [Dict.contains_erase, decide_eq_false (Ne.symm hk), Bool.not_false, Bool.and_true]

lemma releaseHold_moves : Moves rewinds s₀ (releaseHold (π := π) key) := by
  intro s h
  unfold releaseHold
  simp only [wp_bind, wp_lookup, wp_modify, wp_get, wp_ite, wp_discard]
  have hlose : ∀ deferred, (deferred = s.deferred.erase key ∨ deferred = s.deferred ∧ key ∉ s.deferred) →
      ReflTransGen (Move rewinds) s₀ { s with holds := s.holds.erase key, deferred } := by
    intro deferred hdeferred
    refine h.tail (.lose key (fun k => contains_of_erase) (fun k hk => hk)
      (fun k hk => ⟨contains_erase_other hk, rfl⟩) ?_)
    exact hdeferred.imp_right fun hno => ⟨hno.1, fun hin => absurd hin hno.2⟩
  refine ⟨fun count _ => ⟨fun _ => ?_, fun hno => ?_⟩, fun _ => h⟩
  · exact kvFreeKey_moves _ (hlose _ (.inl rfl))
  · exact liftFloor_moves _ (hlose _ (.inr ⟨rfl, hno⟩))

lemma release_moves : Moves rewinds s₀ (release (π := π) key) := by
  intro s h
  unfold release
  rw [wp_bind, wp_get]
  cases hcount : s.holds.get? key with
  | none => exact h
  | some count =>
    rw [wp_bind, wp_modify]
    have hmove : ReflTransGen (Move rewinds) s₀ { s with holds := s.holds.set key (count - 1) } :=
      h.tail (.recount (fun k => contains_recount hcount) fun _ => rfl)
    have hrest : Moves (π := π) rewinds s₀ (if count - 1 = 0 then releaseHold key else pure ⟨⟩) :=
      .ite releaseHold_moves preserves_pure
    exact hrest _ hmove

lemma doneReadingOne_moves : Moves rewinds s₀ (doneReadingOne (π := π) key) := by
  intro s h
  unfold doneReadingOne
  simp only [wp_bind, wp_lookup, wp_modify, wp_ite, wp_get, wp_set, wp_discard, wp_pure]
  refine ⟨fun count hcount => ⟨fun _ => ?_, fun _ => ?_⟩, fun _ => h⟩
  · have hlose : ∀ deferred, (deferred = s.deferred.erase key ∨ deferred = s.deferred ∧
        (key ∈ s.deferred → s.holds.contains key = true)) →
        ReflTransGen (Move rewinds) s₀
          { s with reading := (s.reading.set key (count - 1)).erase key, deferred } := by
      intro deferred hdeferred
      refine h.tail (.lose key (fun k hk => hk) (fun k hk => ?_) (fun k hk => ⟨rfl, ?_⟩) ?_)
      · exact (contains_recount hcount).symm.trans (contains_of_erase hk)
      · exact (contains_erase_other hk).trans (contains_recount hcount)
      · exact hdeferred.imp_right fun hno => ⟨hno.1, fun hin => .inl (hno.2 hin)⟩
    refine ⟨fun _ => kvFreeKey_moves _ (hlose _ (.inl rfl)), fun hno => hlose _ (.inr ⟨rfl, fun hin => ?_⟩)⟩
    -- the key waits for its holds only
    cases hheld : s.holds.contains key with
    | false => exact absurd ⟨hin, hheld⟩ hno
    | true => rfl
  · exact h.tail (.recount (fun _ => rfl) fun k => contains_recount hcount)

lemma doneReading_moves {keys : List κ} : Moves rewinds s₀ (doneReading (π := π) keys) := by
  induction keys with
  | nil => exact preserves_pure
  | cons key keys ih => exact .bind doneReadingOne_moves fun _ => ih

lemma releaseHolds_moves {keys : List κ} : Moves rewinds s₀ (releaseHolds (π := π) keys) := by
  induction keys with
  | nil => exact preserves_pure
  | cons key keys ih => exact .bind releaseHold_moves fun _ => ih

lemma dropHolds_moves {keys : Option (List κ)} : Moves rewinds s₀ (dropHolds (π := π) keys) :=
  moves_get_bind fun _ => .bind releaseHolds_moves fun _ => preserves_pure

/-! ### Slots -/

lemma slotEvicting_moves {allocate : Op κ π (Option Slot)} (hm : ∀ s, PoolMove rewinds s (final allocate s)) :
    Moves rewinds s₀ (slotEvicting allocate) := by
  refine .bind (moves_pool hm) fun slot => ?_
  cases slot with
  | some slot => exact preserves_pure
  | none => exact .bind (.discard evictUntil_moves) fun _ => moves_pool hm

lemma recordExtension_moves {tokens : ℤ} : Moves rewinds s₀ (recordExtension (π := π) key tokens) :=
  moves_pool fun s => .record s.slotTokens (s.extTokens.set key tokens)

lemma recordCheckpoint_moves {tokens : ℤ} : Moves rewinds s₀ (recordCheckpoint (π := π) key tokens) :=
  moves_pool fun s => .record (s.slotTokens.set key tokens) s.extTokens

lemma allocShares_moves {points : List ℤ} : Moves rewinds s₀ (onAccounting (allocShares (π := π) key points)) := by
  have hsteps : ∀ s : KVArena κ π, ReflTransGen (Move rewinds) s₀ s →
      wp (allocShares key points) (fun _ accounting => ReflTransGen (Move rewinds) s₀ { s with accounting })
        (fun _ accounting => ReflTransGen (Move rewinds) s₀ { s with accounting }) s.accounting := by
    induction points with
    | nil => exact fun s h => h
    | cons point points ih =>
      intro s h
      rw [allocShares, wp_bind, wp_discard]
      have hstep : ∀ accounting, accounting = final (allocShare key point) s.accounting →
          ReflTransGen (Move rewinds) s₀ { s with accounting } := by
        rintro accounting rfl
        exact h.tail (.pool (.allocShare key point))
      exact wp_mono wp_final (fun _ accounting heq => ih { s with accounting } (hstep accounting heq))
        fun _ => hstep
  intro s h
  rw [wp_onAccounting]
  exact hsteps s h

/-! ### Calls that count readers first -/

lemma readState_enters {keys : List κ} : Enters s (keys.foldl KVArena.addReader s) := by
  induction keys generalizing s with
  | nil => exact .refl
  | cons key keys ih =>
    have hfirst : Enters s (s.addReader key) := by
      refine ⟨rfl, rfl, fun k huse => huse.imp_right fun hread => ?_⟩
      show (s.reading.set key _).contains k = true
      rw [Dict.contains_set, Bool.or_eq_true]
      exact .inr hread
    exact hfirst.trans ih

lemma hold_enters {borrowers : ℕ} :
    wp (hold (π := π) key borrowers) (fun _ s' => Enters s s') (fun _ s' => Enters s s') s := by
  unfold hold
  rw [wp_ite, wp_modify, wp_pure]
  refine ⟨fun _ => ⟨rfl, rfl, fun k huse => huse.imp_left fun hheld => ?_⟩, fun _ => .refl⟩
  show (s.holds.set key _).contains k = true
  rw [Dict.contains_set, Bool.or_eq_true]
  exact .inr hheld

/-- The program leaves the pool, the holds, the readers and the waiting frees as they are. -/
abbrev Asks (s₀ : KVArena κ π) (m : KVOp κ π α) : Prop := Preserves (Enters s₀) m

lemma asks_read {m : Op κ π α} (hm : ∀ s, wp m (fun _ s' => s' = s) (fun _ s' => s' = s) s) :
    Asks s₀ (onAccounting m) := by
  intro s h
  rw [wp_onAccounting]
  refine wp_mono (hm s.accounting) ?_ ?_
  · rintro _ accounting rfl
    exact h
  · rintro _ accounting rfl
    exact h

lemma asks_sliding {m : Op κ π α} : Asks s₀ (onSliding m) := by
  intro s h
  rw [wp_onSliding]
  have hstep : ∀ pool', Enters s₀ { s with sliding := some pool' } := fun pool' =>
    ⟨h.accounting, h.deferred, h.inUse⟩
  exact ⟨fun _ => h, fun pool _ => wp_mono wp_final (fun _ pool' _ => hstep pool') fun _ pool' _ => hstep pool'⟩

lemma asks_lookup {β : Type} {dict : KVArena κ π → Dict κ β} : Asks s₀ (lookup dict key) := by
  intro s h
  rw [wp_lookup]
  exact ⟨fun _ _ => h, fun _ => h⟩

lemma asks_get_bind {f : KVArena κ π → KVOp κ π α} (hf : ∀ t, Asks s₀ (f t)) : Asks s₀ (get >>= f) := by
  intro s h
  rw [wp_bind, wp_get]
  exact hf s s h

lemma borrowPlan_asks {borrow : Option (κ × ℤ)} : Asks s₀ (borrowPlan (π := π) borrow) := by
  have horigin : ∀ {tokens}, Asks s₀ (origin tokens : KVOp κ π ℤ) := by
    intro tokens s h
    exact wp_mono origin_same (fun _ _ hs => hs ▸ h) fun _ _ hs => hs ▸ h
  unfold borrowPlan
  cases borrow with
  | none => exact preserves_pure
  | some borrow =>
    refine .bind (asks_read fun _ => sharedPages_same) fun borrowed => asks_get_bind fun t => ?_
    refine .ite preserves_pure (.bind horigin fun start => .bind asks_lookup fun _ => ?_)
    exact .ite preserves_throw (.bind asks_sliding fun _ => preserves_pure)

/-- A program of a call, whichever way it ends. -/
abbrev Calls (rewinds : κ → Prop) (s₀ : KVArena κ π) (m : KVOp κ π α) : Prop :=
  ∀ s, Enters s₀ s → wp m (fun _ => CallMoves rewinds s₀) (fun _ => CallMoves rewinds s₀) s

lemma Calls.of_moves {m : KVOp κ π α} (hm : ∀ t, Moves rewinds t m) : Calls rewinds s₀ m := by
  intro s h
  exact wp_mono (hm s s .refl) (fun _ s' hmoves => ⟨s, h, hmoves⟩) fun _ s' hmoves => ⟨s, h, hmoves⟩

/-- A call that asks first. -/
lemma Calls.bind {β : Type} {m : KVOp κ π α} {f : α → KVOp κ π β} (hm : Asks s₀ m)
    (hf : ∀ a, Calls rewinds s₀ (f a)) : Calls rewinds s₀ (m >>= f) := by
  intro s h
  rw [wp_bind]
  exact wp_mono (hm s h) (fun a s' hs' => hf a s' hs') fun _ s' hs' => ⟨s', hs', .refl⟩

lemma Calls.ite {c : Prop} [Decidable c] {m n : KVOp κ π α} (hm : Calls rewinds s₀ m) (hn : Calls rewinds s₀ n) :
    Calls rewinds s₀ (if c then m else n) := by
  split_ifs
  · exact hm
  · exact hn

lemma calls_get_bind {f : KVArena κ π → KVOp κ π α} (hf : ∀ t, Calls rewinds s₀ (f t)) :
    Calls rewinds s₀ (get >>= f) := by
  intro s h
  rw [wp_bind, wp_get]
  exact hf s s h

/-- A call that reads some keys while it moves. -/
lemma calls_reading {keys : List κ} {m : KVOp κ π α} (hm : ∀ t, Moves rewinds t m) :
    Calls rewinds s₀ (readState keys >>= fun _ => withCleanup m (doneReading keys)) := by
  intro s h
  rw [wp_bind, readState, wp_modify]
  exact Calls.of_moves (fun t => moves_cleanup (hm t) doneReading_moves) _ (h.trans readState_enters)

lemma reserve_calls {tokens capacity : ℤ} {borrow : Option (κ × ℤ)} {extension : Bool} {points : List ℤ} :
    Calls rewinds s₀ (reserve (π := π) key tokens capacity borrow extension points) := by
  refine .bind borrowPlan_asks fun plan => calls_get_bind fun t => ?_
  extract_lets _ _ _ _ rest
  have hrest : ∀ held, Calls rewinds s₀ (rest held) := by
    intro held
    refine .bind (asks_read fun _ => needed_same) fun need => .bind asks_sliding fun needSliding => ?_
    refine calls_reading fun t => .bind (.discard evictUntil_moves) fun _ => moves_get_bind fun u => ?_
    refine .ite preserves_pure (.bind (.discard activate_moves) fun _ => moves_get_bind fun v => ?_)
    refine .ite (.bind (.discard (moves_pool fun _ => .allocSlot key)) fun _ => ?_) preserves_pure
    have hshares : Moves (π := π) rewinds t (do
        onAccounting (allocShares key points)
        return true) := .bind allocShares_moves fun _ => preserves_pure
    exact .ite (.bind (.discard (moves_pool fun _ => .allocExtension key)) fun _ => hshares) hshares
  refine .ite ?_ (.bind preserves_pure hrest)
  refine .bind (asks_read fun _ => resident_same) fun _ => .bind asks_lookup fun _ => ?_
  exact .bind asks_sliding fun _ => .bind preserves_pure hrest

/-! ### The plan of a chunk -/

/-- A step of the plan continues the moves of its arena. -/
abbrev PlanMoves (rewinds : κ → Prop) (s₀ : KVArena κ π) (m : PlanOp κ π α) : Prop :=
  Preserves (fun p : Planning κ π => ReflTransGen (Move rewinds) s₀ p.arena) m

lemma plan_arena {m : KVOp κ π α} (hm : Moves rewinds s₀ m) : PlanMoves rewinds s₀ (onArena m) := by
  intro p h
  rw [onArena, wp_onPart]
  exact hm p.arena h

lemma plan_change {f : Planning κ π → Planning κ π} (hf : ∀ p, (f p).arena = p.arena) :
    PlanMoves rewinds s₀ (modify f : PlanOp κ π Unit) := by
  intro p h
  rw [wp_modify, hf]
  exact h

lemma plan_get {f : Planning κ π → PlanOp κ π α} (hf : ∀ t, PlanMoves rewinds s₀ (f t)) :
    PlanMoves rewinds s₀ (get >>= f) := by
  intro p h
  rw [wp_bind, wp_get]
  exact hf p p h

lemma plan_computes {f : Planning κ π → Except PyError α} : PlanMoves rewinds s₀ (reads f) := by
  intro p h
  rw [wp_reads]
  exact ⟨fun _ _ => h, fun _ _ => h⟩

lemma logUndo_moves {entry : Undo κ} : PlanMoves (π := π) rewinds s₀ (logUndo entry) := plan_change fun _ => rfl

lemma lay_moves {f : Layout κ → Layout κ} : PlanMoves (π := π) rewinds s₀ (lay f) := plan_change fun _ => rfl

variable {group : ChunkGroup κ} {source : Slot}

lemma borrowedState_moves : PlanMoves (π := π) rewinds s₀ (borrowedState group) := by
  refine .ite preserves_pure (plan_get fun t => ?_)
  split
  · exact preserves_throw
  · exact .ite preserves_throw preserves_pure

lemma takeShare_moves {tokens : ℤ} : PlanMoves (π := π) rewinds s₀ (takeShare key tokens) := by
  refine plan_get fun t => .bind (plan_arena (slotEvicting_moves fun _ => .allocShare key tokens)) fun slot => ?_
  cases slot with
  | none => exact preserves_throw
  | some write => exact .ite preserves_pure (.bind logUndo_moves fun _ => preserves_pure)

lemma planPieces_moves {pieces : List (ℤ × ℤ)} {read : Option Slot} :
    PlanMoves (π := π) rewinds s₀ (planPieces group source pieces read) := by
  induction pieces generalizing read with
  | nil => exact preserves_pure
  | cons piece pieces ih =>
    obtain ⟨low, high⟩ := piece
    refine .bind (.ite preserves_pure takeShare_moves) fun write => .ite ?_ ih
    exact .bind lay_moves fun _ => ih

lemma planFresh_moves : PlanMoves (π := π) rewinds s₀ (planFresh group) := by
  refine .ite preserves_throw (plan_get fun t => ?_)
  refine .bind (plan_arena (slotEvicting_moves fun _ => .allocSlot group.key)) fun slot => ?_
  cases slot with
  | none => exact preserves_throw
  | some source =>
    refine .bind logUndo_moves fun _ => .bind borrowedState_moves fun read => .bind planPieces_moves fun _ => ?_
    exact .bind (plan_arena recordCheckpoint_moves) fun _ => preserves_pure

lemma planResident_moves : PlanMoves (π := π) rewinds s₀ (planResident group) := by
  refine plan_get fun t => ?_
  dsimp only
  split
  · exact preserves_throw
  · exact .ite preserves_throw preserves_pure

lemma planPrefix_moves : PlanMoves (π := π) rewinds s₀ (planPrefix group) :=
  .bind plan_computes fun _ => .ite planFresh_moves planResident_moves

lemma extendGroup_moves : PlanMoves (π := π) rewinds s₀ (extendGroup group source) := by
  have htarget : PlanMoves (π := π) rewinds s₀ (extensionTarget group source) := by
    refine plan_get fun t => .bind (.ite preserves_pure ?_) fun target => ?_
    · exact plan_arena (slotEvicting_moves fun _ => .allocExtension group.key)
    · cases target with
      | none => exact preserves_throw
      | some target => exact plan_get fun _ => .ite preserves_throw preserves_pure
  refine .bind htarget fun found => .bind logUndo_moves fun _ => ?_
  exact .bind (plan_arena recordExtension_moves) fun _ => .ite lay_moves lay_moves

lemma planSuffixes_moves {spans : List (ℤ × ℤ)} : PlanMoves (π := π) rewinds s₀ (planSuffixes group source spans) := by
  induction spans with
  | nil => exact preserves_pure
  | cons span spans ih => exact .ite preserves_throw (.bind lay_moves fun _ => ih)

lemma planGroups_moves {groups : List (ChunkGroup κ)} : PlanMoves (π := π) rewinds s₀ (planGroups groups) := by
  induction groups with
  | nil => exact preserves_pure
  | cons group groups ih =>
    refine .bind (.bind planPrefix_moves fun source => .ite planSuffixes_moves ?_) fun _ => ih
    exact .bind extendGroup_moves fun _ => .ite preserves_pure planSuffixes_moves

/-- Undoing a plan moves the pool back, an entry at a time. -/
lemma undoAll_moves {log : List (Undo κ)} (h : ReflTransGen (Move rewinds) s₀ s) :
    ReflTransGen (Move rewinds) s₀ (s.undoAll log) := by
  have hsteps : ∀ (log : List (Undo κ)) (s : KVArena κ π), ReflTransGen (Move rewinds) s₀ s →
      ReflTransGen (Move rewinds) s₀ { s with accounting := log.foldl PageArena.undoOne s.accounting } := by
    intro log
    induction log with
    | nil => exact fun s h => h
    | cons entry log ih => exact fun s h => ih _ (h.tail (.pool (.undo entry)))
  exact hsteps log.reverse s h

lemma planOrUndo_moves {stage : Stage δ} {groups : List (ChunkGroup κ)} :
    Moves rewinds s₀ (planOrUndo (π := π) stage groups) := by
  intro s h
  have hplan : PlanMoves rewinds s₀ (planChunk stage groups) := .bind planGroups_moves fun _ => plan_computes
  have hchunk := hplan (.start s) h
  unfold wp at hchunk ⊢
  rw [planOrUndo]
  cases hp : planChunk stage groups (.start s) with
  | ok phases p =>
    rw [hp] at hchunk
    exact hchunk
  | error e p =>
    rw [hp] at hchunk
    exact undoAll_moves hchunk

/-! ## Every call -/

lemma Calls.discard {m : KVOp κ π α} (hm : Calls rewinds s₀ m) : Calls rewinds s₀ (Functor.discard m) := by
  intro s h
  rw [wp_discard]
  exact hm s h

lemma KVCall.perform_calls {isPair : κ → Bool} (c : KVCall κ π δ) : Calls c.rewinds s₀ (c.perform isPair) := by
  cases c with
  | alloc => exact .of_moves fun _ => .discard kvAlloc_moves
  | activate => exact .of_moves fun _ => .discard activate_moves
  | reserve => exact .discard reserve_calls
  | growPages => exact .of_moves fun _ => .discard kvGrowPages_moves
  | pin key => exact .of_moves fun _ => moves_pool fun _ => .pin key
  | retain key => exact .of_moves fun _ => .discard (retain_moves rfl)
  | evictRetained => exact .of_moves fun _ => .discard evictRetained_moves
  | freeKey => exact .of_moves fun _ => .discard kvFreeKey_moves
  | keepWindow => exact .of_moves fun _ => keepWindow_moves
  | trimWindow => exact .of_moves fun _ => .discard trimWindow_moves
  | hold =>
    intro s h
    exact wp_mono hold_enters (fun _ s' hs => ⟨s', h.trans hs, .refl⟩) fun _ s' hs => ⟨s', h.trans hs, .refl⟩
  | release => exact .of_moves fun _ => release_moves
  | dropHolds => exact .of_moves fun _ => .discard dropHolds_moves
  | readState keys => exact fun s h => ⟨_, h.trans readState_enters, .refl⟩
  | doneReading => exact .of_moves fun _ => doneReading_moves
  | checkpointSlot key => exact .of_moves fun _ => .discard (slotEvicting_moves fun _ => .allocSlot key)
  | extensionSlot key => exact .of_moves fun _ => .discard (slotEvicting_moves fun _ => .allocExtension key)
  | shareSlot key tokens => exact .of_moves fun _ => .discard (slotEvicting_moves fun _ => .allocShare key tokens)
  | recordExtension => exact .of_moves fun _ => recordExtension_moves
  | recordCheckpoint => exact .of_moves fun _ => recordCheckpoint_moves
  | planPhases => exact .discard (calls_reading fun _ => planOrUndo_moves)
  | configureRetention price cap => exact .of_moves fun _ => moves_pool fun _ => .configureRetention _ cap
  | setCap cap => exact .of_moves fun _ => moves_pool fun _ => .setCap cap

end Quail.Pages
