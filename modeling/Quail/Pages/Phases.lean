import Quail.Pages.KVArena
import Mathlib.Data.List.Sort

/-!
# The phases of a chunk

`plan_phases` of `executor/gdn.py`: the groups of a chunk are laid out as the phases that every Gated
DeltaNet layer runs. A group takes checkpoint slots from the arena and records the tokens they will
cover, and an undo log says what each slot's record was before, so that a plan that raises leaves no
record of a state it never computed. `stage` copies host values to the GPU and may raise; a group's
mapping is a record, its two suffix arrays lists.
-/

namespace Quail.Pages
open Imperative

/-- A group of the chunk: the rows of a prefix or a resident document, and its suffixes. -/
structure ChunkGroup (κ : Type) where
  key : κ
  fresh : Bool
  f : ℤ
  start : ℤ
  row0 : ℤ
  prefixEnd : ℤ
  kept : ℤ
  begins : List ℤ
  ends : List ℤ
  borrowKey : Option κ
  sharePoints : List ℤ

/-- What a slot's record was before the plan changed it. -/
inductive Undo (κ : Type) where
  | checkpoint (key : κ) (hadSlot : Bool) (previous : Option ℤ)
  | share (key : κ) (tokens : ℤ)
  /-- `previous` are the tokens of an extension that was held, and `none` when it was not. -/
  | extension (key : κ) (previous : Option ℤ)

/-- Rows that start from the state in one slot and leave theirs in another. -/
structure Sequence where
  rows : List ℤ
  read : Option Slot
  write : Slot

/-- The sequences queued so far. -/
structure Layout (κ : Type) where
  levels : Dict ℕ (List Sequence)
  /-- The level that wrote a slot. -/
  ready : Dict Slot ℕ
  suffix : List (List ℤ × Slot)
  extension : List Sequence
  extendedAfter : Finset κ
  /-- Slots a question of this chunk reads at their current length. -/
  suffixSlots : Finset Slot

/-- The plan so far; the undo log has its latest entry last. -/
structure Planning (κ π : Type) where
  arena : KVArena κ π
  undo : List (Undo κ)
  layout : Layout κ

/-- A step of the plan. -/
abbrev PlanOp (κ π α : Type) := EStateM PyError (Planning κ π) α

variable {κ π α δ : Type} [DecidableEq κ] [ToString κ] [LinearOrder π]

/-- An operation of the arena within the plan. -/
def onArena (m : KVOp κ π α) : PlanOp κ π α :=
  onPart Planning.arena (fun p arena => { p with arena }) m

/-- Log what undoes the next change. -/
def logUndo (entry : Undo κ) : PlanOp κ π Unit := modify fun p => { p with undo := p.undo ++ [entry] }

/-- Change the layout. -/
def lay (f : Layout κ → Layout κ) : PlanOp κ π Unit := modify fun p => { p with layout := f p.layout }

/-! ## Reading the slots -/

namespace KVArena

/-- The slot holding the key's state after `tokens` tokens (`shared_state`). -/
def sharedState (s : KVArena κ π) (key : κ) (tokens : ℤ) : Option Slot :=
  match s.accounting.shareSlots.get? (key, tokens) with
  | some slot => some slot
  | none => if s.accounting.slotTokens.get? key = some tokens then s.accounting.slots.get? key else none

/-- The key's second checkpoint as its slot and tokens (`extension`). -/
def extension (s : KVArena κ π) (key : κ) : Option (Slot × ℤ) :=
  match s.accounting.extSlots.get? key, s.accounting.extTokens.get? key with
  | some slot, some tokens => some (slot, tokens)
  | _, _ => none

/-- Tokens the key's checkpoint covers; 0 when it has none (`checkpoint_tokens`). -/
def checkpointTokens (s : KVArena κ π) (key : κ) : ℤ := (s.accounting.slotTokens.get? key).getD 0

end KVArena

/-! ## The layout -/

/-- `np.arange`. -/
def arange (low high : ℤ) : List ℤ := (List.range (high - low).toNat).map fun i => low + i

/-- Queue rows that start from slot `read` and leave their state in `write` (`segment`). -/
def Layout.segment (rows : List ℤ) (read : Option Slot) (write : Slot) (l : Layout κ) : Layout κ :=
  let level := match read with
    | none => 0
    | some slot => max 1 ((l.ready.get? slot).elim 0 (· + 1))
  { l with
    levels := l.levels.set level ((l.levels.get? level).getD [] ++ [⟨rows, read, write⟩])
    ready := l.ready.set write level }

/-- Queue a question. -/
def Layout.question (rows : List ℤ) (slot : Slot) (l : Layout κ) : Layout κ :=
  { l with suffix := l.suffix ++ [(rows, slot)], suffixSlots := insert slot l.suffixSlots }

/-- Queue retained tokens that advance a slot after the suffix ran. -/
def Layout.extend (key : κ) (rows : List ℤ) (source target : Slot) (l : Layout κ) : Layout κ :=
  { l with
    extension := l.extension ++ [⟨rows, some source, target⟩]
    extendedAfter := insert key l.extendedAfter }

namespace ChunkGroup

/-- What a group is refused for before it takes anything. -/
def check (group : ChunkGroup κ) : Except PyError Unit :=
  if group.start ≠ 0 ∧ group.fresh = false then
    .error (.value s!"group {group.key}: a resident document cannot start at token {group.start}")
  else if group.kept = 0 then .ok ()
  else
    let tooMany := PyError.value (s!"group {group.key}: keeps {group.kept} suffix tokens, more than " ++
      "its first suffix holds")
    match group.begins, group.ends with
    | [], _ => .error tooMany
    | _ :: _, [] => .error (.index "list index out of range")
    | begin :: _, stop :: _ => if group.kept > stop - begin then .error tooMany else .ok ()

/-- The group's one suffix is kept whole. -/
def pure (group : ChunkGroup κ) : Bool :=
  decide (group.kept ≠ 0) && match group.begins, group.ends with
    | [begin], stop :: _ => decide (group.kept = stop - begin)
    | _, _ => false

/-- The rows of the kept suffix tokens. -/
def head (group : ChunkGroup κ) : List ℤ :=
  match group.begins with
  | [] => []
  | begin :: _ => arange begin (begin + group.kept)

/-- The lengths the group's prefix is cut at, as the bounds of its pieces. -/
def pieces (group : ChunkGroup κ) : List (ℤ × ℤ) :=
  let points := (group.sharePoints.filter fun t =>
    decide (group.start < t) && decide (t < group.f)).dedup.insertionSort (· ≤ ·)
  let bounds := group.start :: points ++ [group.f]
  bounds.zip bounds.tail

/-- The parent whose state the group starts from. -/
def parent (group : ChunkGroup κ) : Option κ :=
  if group.fresh ∧ group.start ≠ 0 then group.borrowKey else none

end ChunkGroup

/-! ## Planning a group -/

/-- The slot a borrowed prefix starts from; `none` for a prefix from zero state. -/
def borrowedState (group : ChunkGroup κ) : PlanOp κ π (Option Slot) := do
  if group.start = 0 then return none
  else
    let s ← get
    match group.borrowKey.bind fun parent => s.arena.sharedState parent group.start with
    | none => throw (.runtime (s!"group {group.key}: borrows {group.start} tokens, but " ++
        "no state of the parent covers them"))
    | some slot =>
      if group.prefixEnd ≤ group.row0 then
        throw (.value s!"group {group.key}: borrows its whole prefix")
      else return some slot

/-- A slot for a shared point of the group. -/
def takeShare (key : κ) (tokens : ℤ) : PlanOp κ π Slot := do
  let existed := (← get).arena.accounting.shareSlots.contains (key, tokens)
  match ← onArena (shareSlot key tokens) with
  | none => throw (.runtime s!"no free checkpoint slot to share {key} at {tokens} tokens")
  | some write =>
    if existed then return write
    else
      logUndo (.share key tokens)
      return write

/-- The slot a piece that ends at `high` tokens writes. -/
def pieceSlot (group : ChunkGroup κ) (source : Slot) (high : ℤ) : PlanOp κ π Slot :=
  if high = group.f then Pure.pure source else takeShare group.key high

/-- The pieces of a prefix, each from the slot the one before it wrote. -/
def planPieces (group : ChunkGroup κ) (source : Slot) :
    List (ℤ × ℤ) → Option Slot → PlanOp κ π Unit
  | [], _ => Pure.pure ()
  | (low, high) :: rest, read => do
    let write ← pieceSlot group source high
    if group.row0 < group.prefixEnd then do
      lay (.segment (arange (group.row0 + low - group.start) (group.row0 + high - group.start)) read write)
      planPieces group source rest (some write)
    else planPieces group source rest (some write)

/-- A fresh document: its slot, which its questions read. -/
def planFresh (group : ChunkGroup κ) : PlanOp κ π Slot := do
  if group.f = 0 then
    throw (.value s!"group {group.key}: an empty document has no state to checkpoint")
  else
    let before := (← get).arena.accounting
    match ← onArena (checkpointSlot group.key) with
    | none => throw (.runtime (s!"no free checkpoint slot for {group.key}: all " ++
        s!"{before.numSlots} belong to documents in use"))
    | some source =>
      logUndo (.checkpoint group.key (before.slots.contains group.key) (before.slotTokens.get? group.key))
      let read ← borrowedState group
      planPieces group source group.pieces read
      onArena (recordCheckpoint group.key group.f)
      return source

/-- A resident document: the slot that covers the length it is asked at. -/
def planResident (group : ChunkGroup κ) : PlanOp κ π Slot := do
  let p ← get
  let s := p.arena
  let extension := s.extension group.key
  let source := if s.checkpointTokens group.key = group.f then s.accounting.slots.get? group.key
    else match extension with
      | none => none
      | some (slot, tokens) => if tokens = group.f then some slot else none
  match source with
  | none =>
    let covered := s.checkpointTokens group.key :: (extension.map Prod.snd).toList
    throw (.value (s!"group {group.key}: asked at {group.f} tokens, but its " ++
      s!"checkpoints cover {covered}"))
  | some source =>
    if group.key ∈ p.layout.extendedAfter then
      throw (.value (s!"group {group.key}: follows a group of its key whose " ++
        "suffix runs before its checkpoint extends"))
    else return source

/-- A group up to its suffixes. -/
def planPrefix (group : ChunkGroup κ) : PlanOp κ π Slot := do
  reads fun _ => group.check
  if group.fresh then planFresh group else planResident group

/-- The slot of a second checkpoint, unless the group starts from it already. -/
def targetSlot (key : κ) (held : Option (Slot × ℤ)) (source : Slot) : PlanOp κ π (Option Slot) :=
  if held.map Prod.fst = some source then Pure.pure (some source) else onArena (extensionSlot key)

/-- The slot the kept tokens advance, and the tokens an extension held before covers. -/
def extensionTarget (group : ChunkGroup κ) (source : Slot) : PlanOp κ π (Slot × Option ℤ) := do
  let held := (← get).arena.extension group.key
  match ← targetSlot group.key held source with
  | none => throw (.runtime s!"no free checkpoint slot to extend {group.key}")
  | some target =>
    if group.pure ∧ target = source ∧ source ∈ (← get).layout.suffixSlots then
      throw (.value (s!"group {group.key}: advances a checkpoint in place that " ++
        s!"a question of this chunk reads at {group.f} tokens"))
    else return (target, held.map Prod.snd)

/-- The kept tokens advance the second checkpoint. -/
def extendGroup (group : ChunkGroup κ) (source : Slot) : PlanOp κ π Unit := do
  let (target, previous) ← extensionTarget group source
  logUndo (.extension group.key previous)
  onArena (recordExtension group.key (group.f + group.kept))
  if group.pure then lay (.segment group.head (some source) target)
  else lay (.extend group.key group.head source target)

/-- The questions of a group. -/
def planSuffixes (group : ChunkGroup κ) (source : Slot) : List (ℤ × ℤ) → PlanOp κ π Unit
  | [] => Pure.pure ()
  | (begin, stop) :: rest => do
    if stop ≤ begin then throw (.value s!"group {group.key}: a suffix holds no tokens")
    else
      lay (.question (arange begin stop) source)
      planSuffixes group source rest

/-- One group of the chunk. -/
def planGroup (group : ChunkGroup κ) : PlanOp κ π Unit := do
  let source ← planPrefix group
  if group.kept = 0 then planSuffixes group source (group.begins.zip group.ends)
  else
    extendGroup group source
    if group.pure then return
    else planSuffixes group source (group.begins.zip group.ends)

/-- The groups in chunk order. -/
def planGroups : List (ChunkGroup κ) → PlanOp κ π Unit
  | [] => Pure.pure ()
  | group :: rest => do
    planGroup group
    planGroups rest

/-! ## The phases -/

/-- The element type an array is staged as. -/
inductive StageType where
  | int64
  | int32
  deriving Repr, DecidableEq

/-- Sequences of one kind inside a chunk, `δ` its arrays on the GPU. -/
structure GdnPhase (δ : Type) where
  rows : δ
  cuSeqlens : δ
  lengths : List ℕ
  readSlots : Option δ
  writeSlots : Option δ
  output : Bool
  stateRows : Option δ
  copyReads : Option δ
  copyWrites : Option δ

/-- Copies host values to the GPU under a name. -/
abbrev Stage (δ : Type) := String → List ℤ → StageType → Except PyError δ

/-- Slots as staged values. -/
def slotValues (slots : List Slot) : List ℤ := slots.map fun slot => (slot : ℤ)

/-- Stage an array that may be missing. -/
def stageMaybe (stage : Stage δ) (name : String) (slots : Option (List Slot)) :
    Except PyError (Option δ) :=
  match slots with
  | none => .ok none
  | some slots => do return some (← stage name (slotValues slots) .int64)

/-- A phase of some sequences (`build`). -/
def buildPhase (stage : Stage δ) (name : String) (rows : List (List ℤ))
    (reading writing : Option (List Slot)) (output : Bool) : Except PyError (GdnPhase δ) := do
  let lengths := rows.map List.length
  let staged ← stage s!"gdn_{name}_rows" rows.flatten .int64
  let bounds : List ℕ := lengths.scanl (· + ·) 0
  let cu ← stage s!"gdn_{name}_cu" (bounds.map fun n => (n : ℤ)) .int32
  let readSlots ← stageMaybe stage s!"gdn_{name}_read" reading
  let writeSlots ← stageMaybe stage s!"gdn_{name}_write" writing
  return ⟨staged, cu, lengths, readSlots, writeSlots, output, none, none, none⟩

/-- The slots some sequences read; past level 0 each of them reads one. -/
def readsOf (sequences : List Sequence) : List Slot := sequences.filterMap Sequence.read

/-- A phase of one-token sequences, which update their state rows in place (`build_decode`). -/
def buildDecode (stage : Stage δ) (name : String) (sequences : List Sequence) :
    Except PyError (GdnPhase δ) := do
  let reading := readsOf sequences
  let writing := sequences.map Sequence.write
  let phase ← buildPhase stage name (sequences.map Sequence.rows) (some reading) (some writing) true
  let moved := (reading.zip writing).filter fun pair => pair.1 ≠ pair.2
  let stateRows ← stage s!"gdn_{name}_state_rows" ((slotValues writing).map fun row : ℤ => row + 1) .int64
  let copied := if moved = [] then none else some moved
  let copyReads ← stageMaybe stage s!"gdn_{name}_copy_read" (copied.map (List.map Prod.fst))
  let copyWrites ← stageMaybe stage s!"gdn_{name}_copy_write" (copied.map (List.map Prod.snd))
  return { phase with stateRows := some stateRows, copyReads, copyWrites }

/-- The phases of one level. -/
def levelPhases (stage : Stage δ) (level : ℕ) (sequences : List Sequence) :
    Except PyError (List (GdnPhase δ)) :=
  if level = 0 then do
    let phase ← buildPhase stage "level0" (sequences.map Sequence.rows) none
      (some (sequences.map Sequence.write)) true
    return [phase]
  else do
    -- a one-token sequence is an answer's decode step
    let single := sequences.filter fun s => s.rows.length = 1
    let rest := sequences.filter fun s => s.rows.length ≠ 1
    let whole ← if rest.isEmpty then .ok [] else do
      return [← buildPhase stage s!"level{level}" (rest.map Sequence.rows) (some (readsOf rest))
        (some (rest.map Sequence.write)) true]
    let decode ← if single.isEmpty then .ok [] else do
      return [← buildDecode stage s!"level{level}_decode" single]
    return whole ++ decode

/-- The phases of a layout, in run order. -/
def buildPhases (stage : Stage δ) (l : Layout κ) : Except PyError (List (GdnPhase δ)) := do
  let levels ← (l.levels.keys.insertionSort (· ≤ ·)).mapM fun level =>
    levelPhases stage level ((l.levels.get? level).getD [])
  let suffix ← if l.suffix.isEmpty then .ok [] else do
    return [← buildPhase stage "suffix" (l.suffix.map Prod.fst) (some (l.suffix.map Prod.snd)) none true]
  let extension ← if l.extension.isEmpty then .ok [] else do
    return [← buildPhase stage "extension" (l.extension.map Sequence.rows) (some (readsOf l.extension))
      (some (l.extension.map Sequence.write)) false]
  return levels.flatten ++ suffix ++ extension

/-! ## Undoing a failed plan -/

/-- Put back what one entry of the log recorded. -/
def PageArena.undoOne (s : PageArena κ π) : Undo κ → PageArena κ π
  | .extension key (some previous) => { s with extTokens := s.extTokens.set key previous }
  | .extension key none => final (dropExtension key) s
  | .checkpoint key hadSlot previous =>
    let s := { s with slotTokens := match previous with
      | none => s.slotTokens.erase key
      | some tokens => s.slotTokens.set key tokens }
    if hadSlot then s
    else match s.slots.get? key with
      | none => s
      | some slot => { s with slots := s.slots.erase key, freeSlots := slot :: s.freeSlots }
  | .share key tokens =>
    match s.shareSlots.get? (key, tokens) with
    | none => s
    | some slot =>
      { s with shareSlots := s.shareSlots.erase (key, tokens), freeSlots := slot :: s.freeSlots }

/-- Undo a log, its latest entry first. -/
def KVArena.undoAll (s : KVArena κ π) (log : List (Undo κ)) : KVArena κ π :=
  { s with accounting := log.reverse.foldl PageArena.undoOne s.accounting }

/-- The plan of a chunk before anything is laid out. -/
def Planning.start (s : KVArena κ π) : Planning κ π := ⟨s, [], ⟨.empty, .empty, [], [], ∅, ∅⟩⟩

/-- `_plan_phases`. -/
def planChunk (stage : Stage δ) (groups : List (ChunkGroup κ)) : PlanOp κ π (List (GdnPhase δ)) := do
  planGroups groups
  reads fun p => buildPhases stage p.layout

/-- Plan the chunk, and undo the plan when it raises. -/
def planOrUndo (stage : Stage δ) (groups : List (ChunkGroup κ)) : KVOp κ π (List (GdnPhase δ)) :=
  fun s => match planChunk stage groups (.start s) with
    | .ok phases p => .ok phases p.arena
    | .error e p => .error e (p.arena.undoAll p.undo)

/-- Lay a chunk's groups out as the phases of every layer (`plan_phases`). -/
def planPhases (stage : Stage δ) (groups : List (ChunkGroup κ)) : KVOp κ π (List (GdnPhase δ)) := do
  -- no later group evicts a parent that an earlier group reads
  let parents := groups.filterMap ChunkGroup.parent
  readState parents
  withCleanup (planOrUndo stage groups) (doneReading parents)

end Quail.Pages
