import Quail.Pages.Retention

/-!
# The arena of two pools

`KVArena` of `executor/arena.py`: the every-token pool and, when layers slide, a second pool for the
rows of the window, with what it keeps beside them. A key has holds by queued keys that will borrow
from it and readers in the chunk being planned; while it has either, it is not evicted, and freeing it
waits. The tensors are left out: a row index is the list of its rows.
-/

namespace Quail.Pages
open Imperative

/-- The arena, and the eviction counters. -/
structure KVArena (κ π : Type) where
  accounting : PageArena κ π
  sliding : Option (PageArena κ π)
  window : ℤ
  rows : Dict κ (List ℤ)
  capacityRows : Dict κ (List ℤ)
  staleRows : Finset κ
  slidingRows : Dict κ (List ℤ)
  /-- The tokens the key's window is anchored below. -/
  base : Dict κ ℤ
  /-- The logical row of the key's first sliding page. -/
  slidingStart : Dict κ ℤ
  /-- Queued keys that will borrow from the key. -/
  holds : Dict κ ℕ
  /-- Groups of the planned chunk that read the key. -/
  reading : Dict κ ℕ
  /-- Keys freed by their operator while held or read. -/
  deferred : Finset κ
  /-- The lowest sliding row a borrower reads. -/
  windowFloor : Dict κ ℤ
  /-- Keys past their own pass's `trim_window`. -/
  trimmed : Finset κ
  evictedKeys : ℕ
  evictedPages : ℤ
  evictedPrefixTokens : ℤ

/-- An operation of the arena. -/
abbrev KVOp (κ π : Type) : Type → Type := EStateM PyError (KVArena κ π)

variable {κ π α : Type} [DecidableEq κ] [ToString κ] [LinearOrder π]

/-- An operation of the every-token pool. -/
def onAccounting (m : Op κ π α) : KVOp κ π α :=
  onPart KVArena.accounting (fun s accounting => { s with accounting }) m

/-- An operation of the sliding pool, when there is one. -/
def onSliding (m : Op κ π α) : KVOp κ π (Option α) := fun s =>
  match s.sliding with
  | none => .ok none s
  | some pool => match m pool with
    | .ok a pool => .ok (some a) { s with sliding := some pool }
    | .error e pool => .error e { s with sliding := some pool }

/-- Pools with every page and slot free; a second one when layers slide (`_build`). -/
def KVArena.new (numPages : ℕ) (pageTokens : ℤ) (slidingPages : Option ℕ) (window : ℤ) (numSlots : ℕ)
    (policy : κ → ℤ → ℤ → Except PyError π) : KVArena κ π where
  accounting := .new numPages pageTokens numSlots policy
  sliding := slidingPages.map fun pages => .new pages pageTokens 0 policy
  window := if slidingPages.isSome then window else 0
  rows := .empty
  capacityRows := .empty
  staleRows := ∅
  slidingRows := .empty
  base := .empty
  slidingStart := .empty
  holds := .empty
  reading := .empty
  deferred := ∅
  windowFloor := .empty
  trimmed := ∅
  evictedKeys := 0
  evictedPages := 0
  evictedPrefixTokens := 0

namespace KVArena

/-- The key holds pages. -/
def isResident (s : KVArena κ π) (key : κ) : Bool := s.accounting.docs.contains key

/-- Free pages in every-token pages: the tighter pool decides (`free_pages`). -/
def freePages (s : KVArena κ π) : Except PyError ℤ :=
  match s.sliding with
  | none => .ok s.accounting.free.length
  | some pool =>
    if pool.numPages = 0 then .error .zeroDivision
    else .ok (min (s.accounting.free.length : ℤ)
      (Int.fdiv (pool.free.length * s.accounting.numPages) pool.numPages))

/-- Both pools have the pages. -/
def hasPages (s : KVArena κ π) (need needSliding : ℤ) : Bool :=
  decide (need ≤ s.accounting.free.length) &&
    s.sliding.all fun pool => decide (needSliding ≤ pool.free.length)

end KVArena

/-- The entry of a key; `KeyError` when it has none. -/
def lookup {β : Type} (dict : KVArena κ π → Dict κ β) (key : κ) : KVOp κ π β :=
  reads fun s => match (dict s).get? key with
    | none => .error (.key (toString key))
    | some v => .ok v

/-! ## Row indices -/

/-- The rows of a table's pages (`_page_rows`). -/
def pageRows (pageTokens : ℤ) (table : List Page) (tokens : ℤ) : List ℤ :=
  Slice.before (table.flatMap fun page =>
    (List.range pageTokens.toNat).map fun row => page * pageTokens + row) tokens

/-- Rebuild a key's row indices (`_refresh_rows`). -/
def refreshRows (key : κ) (logicalTokens : Option ℤ) : KVOp κ π Unit := do
  modify fun s => { s with staleRows := s.staleRows.erase key }
  let r ← onAccounting (resident key)
  let s ← get
  let capacity := r.table.length * s.accounting.pageTokens
  let rows := match s.capacityRows.get? key with
    | some rows => if (rows.length : ℤ) = capacity then rows
      else pageRows s.accounting.pageTokens r.table capacity
    | none => pageRows s.accounting.pageTokens r.table capacity
  let logical := Slice.before rows (logicalTokens.getD r.tokens)
  set { s with capacityRows := s.capacityRows.set key rows, rows := s.rows.set key logical }
  match ← onSliding (resident key) with
  | none => return
  | some r =>
    let rows := pageRows s.accounting.pageTokens r.table (r.table.length * s.accounting.pageTokens)
    modify fun s => { s with slidingRows := s.slidingRows.set key rows }

/-! ## The window -/

/-- The logical row a key's sliding pages start at once trimmed. -/
def origin (baseTokens : ℤ) : KVOp κ π ℤ := do
  let s ← get
  if s.window = 0 ∨ baseTokens ≤ s.window then return 0
  if s.accounting.pageTokens = 0 then throw .zeroDivision
  return Int.fdiv (baseTokens - s.window) s.accounting.pageTokens * s.accounting.pageTokens

/-- Keep the sliding rows a borrower of `shared` tokens reads. -/
def keepWindow (key : κ) (shared : ℤ) : KVOp κ π Unit := do
  let row ← origin shared
  modify fun s =>
    let floor := (s.windowFloor.get? key).getD row
    { s with windowFloor := s.windowFloor.set key (min floor row) }

/-- The sliding pages of a key before a row are dropped. -/
def dropWindow (key : κ) (row start : ℤ) : Op κ π Unit := do
  let _ ← dropLeading key (Int.fdiv (row - start) (← get).pageTokens)
  let r ← resident key
  modify fun s => { s with docs := s.docs.set key { r with tokens := r.tokens - (row - start) } }

/-- Release a key's sliding pages before its window origin; the pages freed. -/
def trimWindow (key : κ) : KVOp κ π ℤ := do
  if (← get).sliding.isNone then return 0
  modify fun s => { s with trimmed := insert key s.trimmed }
  let base ← lookup KVArena.base key
  let row := min (← origin base) (((← get).windowFloor.get? key).getD base)
  let start ← lookup KVArena.slidingStart key
  if row ≤ start then return 0
  let before ← reads KVArena.freePages
  discard (onSliding (dropWindow key row start))
  modify fun s => { s with slidingStart := s.slidingStart.set key row }
  refreshRows key none
  return (← reads KVArena.freePages) - before

/-- The last borrower is admitted: rows kept for it may go (`_lift_floor`). -/
def liftFloor (key : κ) : KVOp κ π Unit := do
  let s ← get
  let floor := s.windowFloor.get? key
  set { s with windowFloor := s.windowFloor.erase key }
  if floor.isSome ∧ key ∈ s.trimmed then discard (trimWindow key)

/-! ## Freeing -/

/-- Free a key's pages, or once its holds and readers are gone; the pages freed now. -/
def KVArena.freeKey (key : κ) : KVOp κ π ℤ := do
  let s ← get
  if s.holds.contains key ∨ s.reading.contains key then do
    set { s with deferred := insert key s.deferred }
    return 0
  modify fun s => { s with
    windowFloor := s.windowFloor.erase key
    trimmed := s.trimmed.erase key }
  let _ ← lookup KVArena.rows key
  modify fun s => { s with rows := s.rows.erase key }
  let _ ← lookup KVArena.capacityRows key
  modify fun s => { s with
    capacityRows := s.capacityRows.erase key
    staleRows := s.staleRows.erase key
    slidingRows := s.slidingRows.erase key
    base := s.base.erase key
    slidingStart := s.slidingStart.erase key }
  discard (onSliding (Pages.freeKey key))
  onAccounting (Pages.freeKey key)

/-- Free one retained prefix and count the lost KV. -/
def evictKey (key : κ) : KVOp κ π ℤ := do
  let r ← onAccounting (resident key)
  let pages ← KVArena.freeKey key
  modify fun s => { s with
    evictedKeys := s.evictedKeys + 1
    evictedPages := s.evictedPages + pages
    evictedPrefixTokens := s.evictedPrefixTokens + r.tokens }
  return pages

/-- The keys that are held or read. -/
def KVArena.keep (s : KVArena κ π) : Finset κ := s.holds.keys.toFinset ∪ s.reading.keys.toFinset

/-- The turns of `_evict_until`: each takes an entry off the heap. -/
def evictTurns (satisfied : KVArena κ π → Except PyError Bool) (keep : Finset κ) :
    ℕ → List κ → KVOp κ π (List κ)
  | 0, keys => pure keys
  | turns + 1, keys => do
    if ← reads satisfied then return keys
    match ← onAccounting (popRetainedVictim keep) with
    | none => return keys
    | some (key, _, _) => do
      discard (evictKey key)
      evictTurns satisfied keep turns (keys ++ [key])

/-- Evict retained prefixes in priority order until `satisfied`. A held or read key is never
evicted. -/
def evictUntil (satisfied : KVArena κ π → Except PyError Bool) : KVOp κ π (List κ) := do
  let s ← get
  evictTurns satisfied s.keep s.accounting.retainedHeap.length []

/-- Evict retained prefixes until both pools have the pages. -/
def evictForPages (need needSliding : ℤ) : KVOp κ π Unit :=
  discard (evictUntil fun s => .ok (s.hasPages need needSliding))

/-- Evict retained prefixes until `pagesNeeded` pages came free. -/
def evictRetained (pagesNeeded : ℤ) : KVOp κ π (List κ) := do
  let start ← reads KVArena.freePages
  evictUntil fun s => do return decide (pagesNeeded ≤ (← s.freePages) - start)

/-! ## Allocation -/

/-- What a borrow takes from each pool, and the sliding start. -/
structure BorrowPlan where
  borrowed : List Page
  sliding : List Page
  start : ℤ

/-- `_borrow_plan`. -/
def borrowPlan (borrow : Option (κ × ℤ)) : KVOp κ π BorrowPlan := do
  match borrow with
  | none => return ⟨[], [], 0⟩
  | some (parent, shared) => do
    let borrowed ← onAccounting (sharedPages parent shared 0)
    if (← get).sliding.isNone then return ⟨borrowed, [], 0⟩
    let start ← origin shared
    let parentStart ← lookup KVArena.slidingStart parent
    if parentStart > start then
      throw (.value (s!"{parent} trimmed its window past row {start}; " ++
        s!"a child sharing {shared} tokens needs it"))
    let sliding ← onSliding (sharedPages parent (shared - parentStart) (start - parentStart))
    return ⟨borrowed, sliding.getD [], start⟩

/-- Pages for a fresh key in both pools, or `none` when either is short. -/
def KVArena.alloc (key : κ) (tokens : ℤ) (capacityTokens baseTokens slidingTokens : Option ℤ)
    (borrow : Option (κ × ℤ)) : KVOp κ π (Option (List Page)) := do
  let capacity := capacityTokens.getD tokens
  let plan ← borrowPlan borrow
  match ← onAccounting (Pages.alloc key tokens (some capacity) plan.borrowed) with
  | none => return none
  | some pages => do
    let want := slidingTokens.getD capacity
    match ← onSliding (Pages.alloc key (min tokens want - plan.start) (some (want - plan.start))
        plan.sliding) with
    | some none => do
      discard (onAccounting (Pages.freeKey key))
      return none
    | _ => do
      modify fun s => { s with
        base := s.base.set key (baseTokens.getD tokens)
        slidingStart := s.slidingStart.set key plan.start }
      refreshRows key (some tokens)
      return some pages

/-- Pages of the sliding pool a resident key needs to reach a capacity; 0 without one. -/
def growthSliding (key : κ) (capacity : ℤ) : KVOp κ π ℤ := do
  let grown ← onSliding do
    let need ← needed capacity
    let r ← resident key
    return max 0 (need - r.table.length)
  return grown.getD 0

/-- Set a resident key's tokens. -/
def setTokens (key : κ) (tokens : ℤ) : Op κ π Unit := do
  let r ← resident key
  modify fun s => { s with docs := s.docs.set key { r with tokens } }

/-- Make a resident prefix active. -/
def activateResident (key : κ) (tokens capacity : ℤ) : KVOp κ π (Option (List Page)) := do
  onAccounting (Pages.pin key)
  let r ← onAccounting (resident key)
  let need := max 0 ((← onAccounting (needed capacity)) - r.table.length)
  let start ← lookup KVArena.slidingStart key
  let needSliding ← growthSliding key (capacity - start)
  evictForPages need needSliding
  if (← get).hasPages need needSliding = false then return none
  discard (onAccounting (grow key capacity))
  discard (onSliding (grow key (capacity - start)))
  onAccounting (setTokens key tokens)
  discard (onSliding (setTokens key (tokens - start)))
  refreshRows key (some tokens)
  return some (← onAccounting (resident key)).owned

/-- Make a prefix active, evicting retained KV when required; `none` when short. -/
def activate (key : κ) (tokens : ℤ) (capacityTokens baseTokens : Option ℤ)
    (borrow : Option (κ × ℤ)) : KVOp κ π (Option (List Page)) := do
  let capacity := capacityTokens.getD tokens
  if (← get).isResident key then activateResident key tokens capacity
  else do
    let plan ← borrowPlan borrow
    let need := (← onAccounting (needed capacity)) - plan.borrowed.length
    let needSliding := (← onSliding (needed (capacity - plan.start))).map
      fun pages : ℤ => pages - plan.sliding.length
    evictForPages need (needSliding.getD need)
    match ← KVArena.alloc key tokens (some capacity) baseTokens none borrow with
    | none => return none
    | some pages => do
      onAccounting (Pages.pin key)
      return some pages

/-- Give each key one more page in both pools; `none` when short. -/
def KVArena.growPages (keys : List κ) : KVOp κ π (Option (List Page)) := do
  evictForPages keys.length keys.length
  if (← get).hasPages keys.length keys.length = false then return none
  let added ← onAccounting (Pages.growPages keys)
  discard (onSliding (Pages.growPages keys))
  modify fun s => { s with staleRows := s.staleRows ∪ keys.toFinset }
  return added

/-- Rewind a prefix and make it evictable; the pages freed. -/
def KVArena.retain (isPair : κ → Bool) (key : κ) (tokens : ℤ) (priority : Option π) :
    KVOp κ π ℤ := do
  if isPair key = false then
    throw (.type s!"retained keys are (alias, document) pairs, got {key}")
  if (← get).sliding.isSome then do
    let base ← lookup KVArena.base key
    if tokens < base then
      throw (.value (s!"{key}: rewinding to {tokens} tokens drops rows of " ++
        s!"the sliding window anchored at {base}"))
  discard (onAccounting (rewind key tokens))
  if (← get).sliding.isSome then do
    let start ← lookup KVArena.slidingStart key
    discard (onSliding (rewind key (tokens - start)))
  refreshRows key (some tokens)
  onAccounting (dropExtension key)
  onAccounting (Pages.retain key priority)
  let before ← reads KVArena.freePages
  match (← get).accounting.retentionCapPages with
  | none => pure ()
  | some cap => discard (evictRetained (max 0 ((← get).accounting.retainedPages - cap)))
  return (← reads KVArena.freePages) - before

/-! ## Holds and readers -/

/-- Keep a key for the keys that will borrow its pages. -/
def hold (key : κ) (borrowers : ℕ) : KVOp κ π Unit := do
  if borrowers ≠ 0 then
    modify fun s => { s with holds := s.holds.set key ((s.holds.get? key).getD 0 + borrowers) }

/-- Drop every hold on a key (`_release_hold`). -/
def releaseHold (key : κ) : KVOp κ π Unit := do
  let _ ← lookup KVArena.holds key
  modify fun s => { s with holds := s.holds.erase key }
  if key ∈ (← get).deferred then do
    modify fun s => { s with deferred := s.deferred.erase key }
    discard (KVArena.freeKey key)
  else liftFloor key

/-- One borrower of the key was admitted, or will not come. -/
def release (key : κ) : KVOp κ π Unit := do
  match (← get).holds.get? key with
  | none => return
  | some count => do
    modify fun s => { s with holds := s.holds.set key (count - 1) }
    if count - 1 = 0 then releaseHold key

/-- Count one more reader of a key. -/
def KVArena.addReader (s : KVArena κ π) (key : κ) : KVArena κ π :=
  { s with reading := s.reading.set key ((s.reading.get? key).getD 0 + 1) }

/-- Keep each key's pages and slots until its admitted readers run. -/
def readState (keys : List κ) : KVOp κ π Unit := modify fun s => keys.foldl KVArena.addReader s

/-- Undo `readState` for one key. -/
def doneReadingOne (key : κ) : KVOp κ π Unit := do
  let count ← lookup KVArena.reading key
  modify fun s => { s with reading := s.reading.set key (count - 1) }
  if count - 1 = 0 then do
    modify fun s => { s with reading := s.reading.erase key }
    let s ← get
    if key ∈ s.deferred ∧ s.holds.contains key = false then do
      set { s with deferred := s.deferred.erase key }
      discard (KVArena.freeKey key)

/-- Undo `readState` for the same keys. -/
def doneReading : List κ → KVOp κ π Unit
  | [] => pure ()
  | key :: rest => do
    doneReadingOne key
    doneReading rest

/-- `_release_hold` of each key. -/
def releaseHolds : List κ → KVOp κ π Unit
  | [] => pure ()
  | key :: rest => do
    releaseHold key
    releaseHolds rest

/-- Release every hold on the keys, on all keys by default; whether any was released. -/
def dropHolds (keys : Option (List κ)) : KVOp κ π Bool := do
  let s ← get
  let keys := match keys with
    | none => s.holds.keys
    | some keys => keys.filter fun key => s.holds.contains key
  releaseHolds keys
  return decide (keys ≠ [])

/-! ## Checkpoint slots -/

/-- A slot, evicting retained keys to free one. -/
def slotEvicting (allocate : Op κ π (Option Slot)) : KVOp κ π (Option Slot) := do
  match ← onAccounting allocate with
  | some slot => return some slot
  | none => do
    discard (evictUntil fun s => .ok (decide (s.accounting.freeSlots ≠ [])))
    onAccounting allocate

/-- The key's checkpoint slot. -/
def checkpointSlot (key : κ) : KVOp κ π (Option Slot) := slotEvicting (allocSlot key)

/-- The key's second checkpoint slot. -/
def extensionSlot (key : κ) : KVOp κ π (Option Slot) := slotEvicting (allocExtension key)

/-- The slot for the key's state after `tokens` tokens. -/
def shareSlot (key : κ) (tokens : ℤ) : KVOp κ π (Option Slot) := slotEvicting (allocShare key tokens)

/-- The key's second checkpoint covers `tokens` tokens. -/
def recordExtension (key : κ) (tokens : ℤ) : KVOp κ π Unit :=
  onAccounting (modify fun s => { s with extTokens := s.extTokens.set key tokens })

/-- The key's checkpoint covers its first `tokens` tokens. -/
def recordCheckpoint (key : κ) (tokens : ℤ) : KVOp κ π Unit :=
  onAccounting (modify fun s => { s with slotTokens := s.slotTokens.set key tokens })

/-! ## Reserving -/

/-- Share slots for each point. -/
def allocShares (key : κ) : List ℤ → Op κ π Unit
  | [] => pure ()
  | point :: rest => do
    discard (allocShare key point)
    allocShares key rest

/-- The slots a reservation takes. -/
def PageArena.slotsWanted (s : PageArena κ π) (key : κ) (extension : Bool) (sharePoints : List ℤ) :
    ℕ :=
  if s.numSlots = 0 then 0
  else (if s.slots.contains key then 0 else 1) +
    (if extension ∧ s.extSlots.contains key = false then 1 else 0) +
    sharePoints.countP fun point => !s.shareSlots.contains (key, point)

/-- Reserve KV pages and checkpoint slots for one admitted document. -/
def reserve (key : κ) (tokens capacityTokens : ℤ) (borrow : Option (κ × ℤ)) (extension : Bool)
    (sharePoints : List ℤ) : KVOp κ π Bool := do
  let plan ← borrowPlan borrow
  let s ← get
  let (held, heldSliding, start) ←
    if s.isResident key then do
      let r ← onAccounting (resident key)
      let start ← lookup KVArena.slidingStart key
      let sliding ← onSliding (resident key)
      pure (r.table.length, (sliding.map fun r => r.table.length).getD 0, start)
    else pure (plan.borrowed.length, plan.sliding.length, plan.start)
  let need := max 0 ((← onAccounting (needed capacityTokens)) - held)
  let needSliding := ((← onSliding (needed (capacityTokens - start))).map
    fun pages : ℤ => max 0 (pages - heldSliding)).getD 0
  let slots := s.accounting.slotsWanted key extension sharePoints
  let available : KVArena κ π → Bool := fun s =>
    s.hasPages need needSliding && decide (slots ≤ s.accounting.freeSlots.length)
  -- neither the candidate's state nor its parent's is evicted to make room
  let keys := key :: (borrow.map Prod.fst).toList
  readState keys
  withCleanup (do
    discard (evictUntil fun s => .ok (available s))
    if available (← get) = false then return false
    discard (activate key tokens (some capacityTokens) none borrow)
    if (← get).accounting.numSlots ≠ 0 then do
      discard (onAccounting (allocSlot key))
      if extension then discard (onAccounting (allocExtension key))
      onAccounting (allocShares key sharePoints)
    return true) (doneReading keys)

end Quail.Pages
