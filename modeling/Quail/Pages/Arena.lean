import Quail.Lib.Dict
import Quail.Lib.Program
import Quail.Lib.Python
import Mathlib.Data.Finset.Basic
import Mathlib.Order.Defs.LinearOrder

/-!
# The page arena

`PageArena` of `executor/pages.py`: a stack of free pages, the pages each resident key owns and
borrows, the number of holders of each page, checkpoint slots, and the keys retained for later. The
source keeps `owned`, `borrowed` and `tokens` in three dictionaries with the same keys; here they
are one dictionary of `Resident` records. Stacks are lists with their top first. `holds` counts in
unbounded integers.

`κ` are the keys and `π` the retention priorities; `toString` stands for a key's `repr`.
-/

namespace Quail.Pages
open Imperative

abbrev Page := ℕ
abbrev Slot := ℕ

/-- What the arena records of a resident key (`owned`, `borrowed` and `tokens`). -/
structure Resident where
  owned : List Page
  borrowed : List Page
  tokens : ℤ

/-- The pages a key's block table reads (`table_pages`): borrowed, then its own. -/
def Resident.table (r : Resident) : List Page := r.borrowed ++ r.owned

/-- One entry of the retention heap. -/
structure RetainedEntry (κ π : Type) where
  priority : π
  version : ℕ
  key : κ
  pages : ℤ
  prefixTokens : ℤ

/-- The accounting of one pool of pages (`PageArena.__init__`). -/
structure PageArena (κ π : Type) where
  numPages : ℕ
  pageTokens : ℤ
  numSlots : ℕ
  freeSlots : List Slot
  slots : Dict κ Slot
  slotTokens : Dict κ ℤ
  extSlots : Dict κ Slot
  extTokens : Dict κ ℤ
  shareSlots : Dict (κ × ℤ) Slot
  free : List Page
  docs : Dict κ Resident
  holds : Page → ℤ
  pinned : Finset κ
  retainedSizes : Dict κ ℤ
  retainedPages : ℤ
  retained : Dict κ ℤ
  retainedHeap : List (RetainedEntry κ π)
  retainedVersions : Dict κ ℕ
  retentionVersion : ℕ
  /-- The priority a policy gives a key, its tokens and its pages, where it raises nothing; without
  a policy, the key's tokens per page. -/
  retentionPolicy : κ → ℤ → ℤ → Except PyError π
  retentionCapPages : Option ℤ

/-- An operation on the arena: it returns or raises, and keeps what it wrote either way. -/
abbrev Op (κ π α : Type) := EStateM PyError (PageArena κ π) α

variable {κ π : Type} [DecidableEq κ] [ToString κ] [LinearOrder π]


/-- An arena with every page and slot free. -/
def PageArena.new (numPages : ℕ) (pageTokens : ℤ) (numSlots : ℕ) (policy : κ → ℤ → ℤ → Except PyError π) :
    PageArena κ π where
  numPages
  pageTokens
  numSlots
  freeSlots := List.range numSlots
  slots := .empty
  slotTokens := .empty
  extSlots := .empty
  extTokens := .empty
  shareSlots := .empty
  free := List.range numPages
  docs := .empty
  holds := fun _ => 0
  pinned := ∅
  retainedSizes := .empty
  retainedPages := 0
  retained := .empty
  retainedHeap := []
  retainedVersions := .empty
  retentionVersion := 0
  retentionPolicy := policy
  retentionCapPages := none

/-- Pages of `tokens` rows, rounded up (`pages_needed`). -/
def pagesNeeded (pageTokens tokens : ℤ) : ℤ := -(Int.fdiv (-tokens) pageTokens)

/-- `pages_needed` on the arena: a page size of zero divides by zero. -/
def needed (tokens : ℤ) : Op κ π ℤ := do
  let s ← get
  if s.pageTokens = 0 then throw .zeroDivision
  return pagesNeeded s.pageTokens tokens

/-- The record of a resident key; `KeyError` when it is not resident. -/
def resident (key : κ) : Op κ π Resident := do
  match (← get).docs.get? key with
  | none => throw (.key s!"{key}")
  | some r => return r

/-- `holds[pages] += 1`: each page listed counts once. -/
def addHolds (holds : Page → ℤ) (pages : List Page) : Page → ℤ :=
  fun p => if p ∈ pages then holds p + 1 else holds p

/-- `holds[pages] -= 1`: each page listed counts once. -/
def subHolds (holds : Page → ℤ) (pages : List Page) : Page → ℤ :=
  fun p => if p ∈ pages then holds p - 1 else holds p

/-! ## Pages -/

/-- Pages for a new key, or `none` when the free list is short. -/
def alloc (key : κ) (tokens : ℤ) (capacityTokens : Option ℤ) (borrowed : List Page) :
    Op κ π (Option (List Page)) := do
  let s ← get
  if s.docs.contains key then throw (.key s!"{key} already resident")
  let capacity := capacityTokens.getD tokens
  if capacity < tokens then throw (.value "capacity_tokens must cover logical tokens")
  if borrowed.length * s.pageTokens > tokens then
    throw (.value "a key cannot borrow past its own tokens")
  let need := (← needed capacity) - borrowed.length
  if need > s.free.length then return none
  let pages := s.free.take need.toNat
  set { s with
    free := s.free.drop need.toNat
    docs := s.docs.set key ⟨pages, borrowed, tokens⟩
    holds := addHolds s.holds (borrowed ++ pages) }
  return some pages

/-- The parent's pages for its tokens `[start, shared)`. -/
def sharedPages (parent : κ) (shared start : ℤ) : Op κ π (List Page) := do
  let s ← get
  if s.pageTokens = 0 then throw .zeroDivision
  if Int.fmod (shared - start) s.pageTokens ≠ 0 ∨ Int.fmod start s.pageTokens ≠ 0 then
    throw (.value "a borrowed prefix is a whole number of pages")
  match s.docs.get? parent with
  | none => throw (.key s!"borrow parent {parent} is not resident")
  | some r =>
    if shared > r.tokens then throw (.value s!"{parent} holds fewer tokens than borrowed")
    return Slice.between r.table (Int.fdiv start s.pageTokens) (Int.fdiv shared s.pageTokens)

/-- Drop one hold on each page; returns how many went free. -/
def releasePages (pages : List Page) : Op κ π ℤ := do
  let s ← get
  let holds := subHolds s.holds pages
  let freed := pages.filter fun p => holds p = 0
  set { s with holds := holds, free := freed.reverse ++ s.free }
  return freed.length

/-- Drop a key's first pages, borrowed ones first; returns the pages freed. -/
def dropLeading (key : κ) (pages : ℤ) : Op κ π ℤ := do
  let r ← resident key
  let fromBorrowed := min pages r.borrowed.length
  let dropped := Slice.before r.borrowed fromBorrowed ++
    Slice.before r.owned (pages - fromBorrowed)
  let kept := { r with
    borrowed := Slice.after r.borrowed fromBorrowed
    owned := Slice.after r.owned (pages - fromBorrowed) }
  modify fun s => { s with docs := s.docs.set key kept }
  releasePages dropped

/-! ## Checkpoint slots -/

/-- A checkpoint slot for a resident key, or `none` when none is free. -/
def allocSlot (key : κ) : Op κ π (Option Slot) := do
  let _ ← resident key
  let s ← get
  match s.slots.get? key, s.freeSlots with
  | some slot, _ => return some slot
  | none, [] => return none
  | none, slot :: rest =>
    set { s with slots := s.slots.set key slot, freeSlots := rest }
    return some slot

/-- A second checkpoint slot for a resident key, or `none` when none is free. -/
def allocExtension (key : κ) : Op κ π (Option Slot) := do
  let _ ← resident key
  let s ← get
  match s.extSlots.get? key, s.freeSlots with
  | some slot, _ => return some slot
  | none, [] => return none
  | none, slot :: rest =>
    set { s with extSlots := s.extSlots.set key slot, freeSlots := rest }
    return some slot

/-- A slot for the key's state after `tokens` tokens, or `none` when none is free. -/
def allocShare (key : κ) (tokens : ℤ) : Op κ π (Option Slot) := do
  let _ ← resident key
  let s ← get
  match s.shareSlots.get? (key, tokens), s.freeSlots with
  | some slot, _ => return some slot
  | none, [] => return none
  | none, slot :: rest =>
    set { s with shareSlots := s.shareSlots.set (key, tokens) slot, freeSlots := rest }
    return some slot

/-- Free the key's second checkpoint slot, if it has one. -/
def dropExtension (key : κ) : Op κ π Unit :=
  modify fun s => { s with
    extSlots := s.extSlots.erase key
    extTokens := s.extTokens.erase key
    freeSlots := (s.extSlots.get? key).toList ++ s.freeSlots }

/-- Free the slots of the key's shared points. -/
def dropShares (key : κ) : Op κ π Unit :=
  modify fun s =>
    let points := s.shareSlots.keys.filter fun point => point.1 = key
    { s with
      shareSlots := points.foldl (fun d point => d.erase point) s.shareSlots
      freeSlots := (points.filterMap s.shareSlots.get?).reverse ++ s.freeSlots }

/-! ## Retention -/

/-- Take a key out of the retained ones. -/
def forgetRetained (key : κ) : Op κ π Unit :=
  modify fun s => { s with
    retainedPages := s.retainedPages - (s.retainedSizes.get? key).getD 0
    retainedSizes := s.retainedSizes.erase key
    retained := s.retained.erase key
    retainedVersions := s.retainedVersions.erase key }

/-- Drop a key's pages and slots; returns the pages that went free. -/
def freeKey (key : κ) : Op κ π ℤ := do
  let slot := (← get).slots.get? key
  modify fun s => { s with slots := s.slots.erase key, slotTokens := s.slotTokens.erase key }
  dropExtension key
  dropShares key
  modify fun s => { s with freeSlots := slot.toList ++ s.freeSlots }
  let r ← resident key
  modify fun s => { s with docs := s.docs.erase key, pinned := s.pinned.erase key }
  forgetRetained key
  releasePages r.table

/-- Protect a resident key while an operator uses it. -/
def pin (key : κ) : Op κ π Unit := do
  let _ ← resident key
  forgetRetained key
  modify fun s => { s with pinned := insert key s.pinned }

/-- The priority a key is retained with: the one it is given, else the policy's. -/
def retentionPriority (key : κ) (tokens pages : ℤ) (priority : Option π) : Op κ π π := do
  match priority with
  | some value => return value
  | none =>
    match (← get).retentionPolicy key tokens (max 1 pages) with
    | .ok value => return value
    | .error e => throw e

/-- Make a resident key evictable after its current use. -/
def retain (key : κ) (priority : Option π) : Op κ π Unit := do
  let r ← resident key
  modify fun s => { s with pinned := s.pinned.erase key }
  forgetRetained key
  let s ← get
  let pages : ℤ := (r.table.filter fun p => s.holds p = 1).length
  let version := s.retentionVersion + 1
  set { s with
    retained := s.retained.set key r.tokens
    retainedSizes := s.retainedSizes.set key pages
    retainedPages := s.retainedPages + pages
    retentionVersion := version
    retainedVersions := s.retainedVersions.set key version }
  let priority ← retentionPriority key r.tokens pages priority
  modify fun s => { s with
    retainedHeap := ⟨priority, version, key, pages, r.tokens⟩ :: s.retainedHeap }

/-- The order of the heap: by priority, then by version. -/
def RetainedEntry.before (e f : RetainedEntry κ π) : Bool :=
  e.priority < f.priority || (e.priority = f.priority && e.version ≤ f.version)

/-- `heappop`: the least entry and the others. -/
def heapPop : List (RetainedEntry κ π) →
    Option (RetainedEntry κ π × List (RetainedEntry κ π))
  | [] => none
  | e :: heap =>
    match heapPop heap with
    | none => some (e, heap)
    | some (least, rest) => if e.before least then some (e, heap) else some (least, e :: rest)

/-- Pop entries until one is current and not kept; the kept ones passed over go back. -/
def victimSearch (versions : Dict κ ℕ) (keep : Finset κ) :
    ℕ → List (RetainedEntry κ π) → List (RetainedEntry κ π) →
      Option (RetainedEntry κ π) × List (RetainedEntry κ π)
  | 0, heap, passed => (none, passed ++ heap)
  | fuel + 1, heap, passed =>
    match heapPop heap with
    | none => (none, passed)
    | some (e, rest) =>
      if versions.get? e.key ≠ some e.version then victimSearch versions keep fuel rest passed
      else if e.key ∈ keep then victimSearch versions keep fuel rest (passed ++ [e])
      else (some e, passed ++ rest)

/-- Remove the retained prefix with the lowest priority, passing over the keys in `keep`. -/
def popRetainedVictim (keep : Finset κ) : Op κ π (Option (κ × ℤ × ℤ)) := do
  let s ← get
  let (victim, heap) :=
    victimSearch s.retainedVersions keep s.retainedHeap.length s.retainedHeap []
  set { s with retainedHeap := heap }
  match victim with
  | none => return none
  | some e =>
    forgetRetained e.key
    return some (e.key, e.pages, e.prefixTokens)

/-! ## Rewinding and growing -/

/-- Keep the first tokens and return the unused trailing pages. -/
def rewind (key : κ) (tokens : ℤ) : Op κ π ℤ := do
  let r ← resident key
  let s ← get
  let borrowed := r.borrowed.length * s.pageTokens
  let capacity := borrowed + r.owned.length * s.pageTokens
  if tokens < borrowed ∨ tokens > capacity then
    throw (.value "rewind tokens leave the resident capacity")
  let keep := (← needed tokens) - r.borrowed.length
  set { s with docs := s.docs.set key { r with owned := Slice.before r.owned keep, tokens } }
  let freed ← releasePages (Slice.after r.owned keep)
  if (← get).retained.contains key then retain key none
  return freed

/-- Add pages for `capacityTokens` without changing the logical tokens; `none` when short. -/
def grow (key : κ) (capacityTokens : ℤ) : Op κ π (Option ℤ) := do
  let r ← resident key
  let s ← get
  let need := (← needed capacityTokens) - r.borrowed.length - r.owned.length
  if need ≤ 0 then return some 0
  if need > s.free.length then return none
  let added := s.free.take need.toNat
  set { s with
    free := s.free.drop need.toNat
    docs := s.docs.set key { r with owned := r.owned ++ added }
    holds := addHolds s.holds added }
  return some need

/-- Append to each key's owned list its page. -/
def appendPages : List (κ × Page) → Op κ π Unit
  | [] => pure ()
  | (key, page) :: rest => do
    let r ← resident key
    modify fun s => { s with docs := s.docs.set key { r with owned := r.owned ++ [page] } }
    appendPages rest

/-- Give each key one more page; `none` when the free list is short. -/
def growPages (keys : List κ) : Op κ π (Option (List Page)) := do
  let s ← get
  if keys.length > s.free.length then return none
  let added := s.free.take keys.length
  set { s with free := s.free.drop keys.length }
  appendPages (keys.zip added)
  modify fun s => { s with holds := addHolds s.holds added }
  return some added

/-! ## Runs -/

/-- One call of the arena's interface. -/
inductive Call (κ π : Type) where
  /-- `borrow` is the parent, shared tokens and start that `shared_pages` is asked for. -/
  | alloc (key : κ) (tokens : ℤ) (capacityTokens : Option ℤ) (borrow : Option (κ × ℤ × ℤ))
  | freeKey (key : κ)
  | rewind (key : κ) (tokens : ℤ)
  | grow (key : κ) (capacityTokens : ℤ)
  | growPages (keys : List κ)
  | dropLeading (key : κ) (pages : ℤ)
  | retain (key : κ) (priority : Option π)
  | pin (key : κ)
  /-- `pop_retained_victim` and, when it names a key, `free_key` of that key. -/
  | evict (keep : Finset κ)

/-- Run a call, dropping its result. -/
def Call.perform : Call κ π → Op κ π Unit
  | .alloc key tokens capacityTokens none => discard (Pages.alloc key tokens capacityTokens [])
  | .alloc key tokens capacityTokens (some (parent, shared, start)) => do
    let borrowed ← sharedPages parent shared start
    discard (Pages.alloc key tokens capacityTokens borrowed)
  | .freeKey key => discard (Pages.freeKey key)
  | .rewind key tokens => discard (Pages.rewind key tokens)
  | .grow key capacityTokens => discard (Pages.grow key capacityTokens)
  | .growPages keys => discard (Pages.growPages keys)
  | .dropLeading key pages => discard (Pages.dropLeading key pages)
  | .retain key priority => Pages.retain key priority
  | .pin key => Pages.pin key
  | .evict keep => do
    match ← popRetainedVictim keep with
    | none => return
    | some (key, _, _) => discard (Pages.freeKey key)

/-- The arena after a call, whether it returned or raised. -/
def Call.step (s : PageArena κ π) (c : Call κ π) : PageArena κ π := final c.perform s

end Quail.Pages
