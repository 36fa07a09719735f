import Quail.Admission.Scheduler

/-!
# Building a chunk and reporting its answers

`next_chunk`, `report`, `decide_waiting` and `drain`. A turn of one of the loops of `next_chunk`
says whether the loop goes on; the local variables of the call are a `Chunk`.
-/

namespace Quail.Admission
open Imperative Function

/-- The callbacks a chunk asks, each a function of its arguments within the chunk. Without a
callback the answer is yes. -/
structure Oracle where
  canBorrow : Anchor → Anchor → Bool → Bool
  reserve : Anchor → Option (Anchor × ℕ) → ℤ → Bool

/-- The local variables of `next_chunk`. -/
structure Chunk where
  freePages : ℕ
  room : ℕ
  groups : List Group
  continued : List Anchor
  deferred : List Anchor
  temporaryPages : ℕ
  held : List Anchor
  heldWaiting : List Anchor
  blocked : Bool
  admitted : List Anchor
  expectedRows : ℕ

/-- How a turn of a loop ends. -/
inductive Turn where
  | next (ch : Chunk)
  | stop (ch : Chunk)

variable {β γ : Type} [DecidableEq γ] [ToString γ] (c : Config β γ)

/-! ## Placed anchors -/

/-- The dependents of a launch that were not released before, in order. -/
def State.newlyReleased (s : State β γ) (a : Anchor) (j : ℕ) : List Anchor :=
  ((c.dependents a j).filter fun d => !s.released d).insertionSort (· ≤ ·)

/-- Record a launched group (`_launch`). -/
def State.launch (s : State β γ) (a : Anchor) (j stop : ℕ) : State β γ :=
  { s with
    next := update s.next a stop
    waiting := s.waiting ++ s.newlyReleased c a j
    released := fun d => s.released d || decide (d ∈ s.newlyReleased c a j)
    inFlight := s.inFlight + 1 }

/-- The anchor goes on streaming when partners are left. -/
def Chunk.keep (ch : Chunk) (a : Anchor) (more : Bool) : Chunk :=
  { ch with continued := if more then ch.continued ++ [a] else ch.continued }

/-- The stage index of a placed anchor. -/
def State.stageIndex (s : State β γ) (a : Anchor) : ℕ :=
  match s.stage a with
  | .entered j => j
  | _ => 0

/-- One turn over the placed anchors: cut streams and next-stage starts. -/
def readyTurn (limited : Bool) (ch : Chunk) : Op β γ Turn := do
  if ch.room = 0 ∨ limited then return .stop ch
  let s ← get
  match s.ready with
  | [] => throw (.index "pop from an empty deque")
  | a :: rest =>
    let j := s.stageIndex a
    let i := s.next a
    if ch.room < s.firstCost c a j i then do
      set { s with ready := rest }
      return .next { ch with deferred := ch.deferred ++ [a] }
    else
      let t := s.take c a j i ch.room ch.freePages
      if t.stop = i then do
        -- short of temporary pages: the anchor stays first
        set { s with blockedPages := s.suffixPageCost c a j i - ch.freePages }
        return .stop ch
      else do
        set ({ s with ready := rest }.launch c a j t.stop)
        let ch : Chunk := { ch with
          freePages := ch.freePages - t.pages
          temporaryPages := ch.temporaryPages + t.pages
          groups := ch.groups ++ [⟨a, j, i, t.stop, false⟩]
          room := ch.room - t.tokens }
        return .next (ch.keep a (decide (t.stop < s.numPartners c a j)))

/-- `for _ in range(len(self.ready))`. -/
def readyTurns (limited : Bool) : ℕ → Chunk → Op β γ Chunk
  | 0, ch => pure ch
  | turns + 1, ch => do
    match ← readyTurn c limited ch with
    | .next ch => readyTurns limited turns ch
    | .stop ch => return ch

/-! ## Fresh anchors -/

/-- `hold.append(a)`. -/
def Chunk.hold (ch : Chunk) (a : Anchor) (dependent : Bool) : Chunk :=
  if dependent then { ch with heldWaiting := ch.heldWaiting ++ [a] }
  else { ch with held := ch.held ++ [a] }

/-- Whether the anchors of the group in flight are enough. -/
def State.groupFull (s : State β γ) (a : Anchor) : Bool :=
  match c.groupOf a with
  | none => false
  | some group => decide (c.groupWidth ≤ s.groupBusy group)

/-- The pages a fresh anchor costs with a borrow. -/
def State.need (s : State β γ) (a : Anchor) : Option (Anchor × ℕ) → ℕ
  | none => s.pageCosts a
  | some (_, shared) => c.cost (c.prefixOf a - shared + c.extra)

/-- The prefix tokens a fresh anchor packs with a borrow. -/
def State.packed (s : State β γ) (a : Anchor) : Option (Anchor × ℕ) → ℕ
  | none => s.carried a
  | some (_, shared) => c.prefixOf a - shared

/-- An admitted anchor of a group is in flight, no longer queued. -/
def joinGroup (a : Anchor) : Op β γ Unit := do
  match c.groupOf a with
  | none => pure ()
  | some group => do
    modify fun s => { s with groupBusy := update s.groupBusy group (s.groupBusy group + 1) }
    let s ← get
    match s.groupMembers group with
    | none => throw (.key (toString group))
    | some members =>
      set { s with
        groupMembers := update s.groupMembers group (some (members.filter (· ≠ a))) }

/-- Record an anchor's admission and launch its first group. -/
def admitAnchor (a : Anchor) (j : ℕ) (borrow : Option (Anchor × ℕ)) (stop : ℕ) : Op β γ Bool := do
  modify fun s => { s.setStage a (.entered j) with
    zeroCost := if s.pageCosts a = 0 then s.zeroCost - 1 else s.zeroCost }
  joinGroup c a
  modify fun s => { s with borrowing := s.borrowing.record a borrow }.launch c a j stop
  return decide (stop < (← get).numPartners c a j)

/-- Place a popped anchor at a stage, or hold it for a later chunk. -/
def place (o : Oracle) (a : Anchor) (j : ℕ) (dependent : Bool) (ch : Chunk) : Op β γ Turn := do
  let s ← get
  let held := ch.hold a dependent
  if s.groupFull c a then return .next held
  match s.borrowing.choice o.canBorrow a ch.admitted with
  | .wait => return .next held
  | .choose borrow =>
    let need := s.need c a borrow
    if ch.blocked ∧ need ≠ 0 then return if s.zeroCost = 0 then .stop held else .next held
    let required := need + (s.pageReserve - ch.temporaryPages) + c.dependentPages a
    if ch.freePages < required then do
      set { s with blockedPages := required - ch.freePages }
      return if s.zeroCost = 0 then .stop { held with blocked := true }
        else .next { held with blocked := true }
    let packed := s.packed c a borrow
    if ch.room < packed + s.first a then return .next held
    let t := s.take c a j 0 (ch.room - packed) (ch.freePages - need)
    if t.stop = 0 then do
      set { s with blockedPages := need + s.suffixPageCost c a j 0 - ch.freePages }
      return .stop held
    if o.reserve a borrow (c.chunkBudget - ch.room) = false then return .stop held
    let more ← admitAnchor c a j borrow t.stop
    let ch : Chunk := { ch with
      temporaryPages := ch.temporaryPages + t.pages
      groups := ch.groups ++ [⟨a, j, 0, t.stop, decide (0 < packed)⟩]
      room := ch.room - (packed + t.tokens)
      freePages := ch.freePages - (need + t.pages)
      admitted := ch.admitted ++ [a]
      expectedRows := ch.expectedRows + if dependent then 0 else 1 }
    return .next (ch.keep a more)

/-- Ask a dependent's requests when it is first released; whether it is still to be placed. -/
def askDependent (a : Anchor) (j : ℕ) : Op β γ Bool := do
  match ← enter c a (c.k - j) j true with
  | some kind => do
    modify fun s => { s.setStage a .done with
      settled := s.settled ++ [⟨kind, a, false⟩]
      skipped := s.skipped ++ [a] }
    return false
  | none => do
    modify fun s => { s with first := update s.first a (s.firstCost c a j 0) }
    return true

/-- The anchors in flight should reach the limit: no more are admitted. -/
def State.paced (s : State β γ) (expectedRows : ℕ) : Bool :=
  match c.limit, c.survival with
  | some limit, some survival => decide ((limit : ℚ) ≤ s.survivors + expectedRows * survival)
  | _, _ => false

/-- One turn over the waiting dependents and the pending anchors. -/
def freshTurn (o : Oracle) (limited : Bool) (ch : Chunk) : Op β γ Turn := do
  let s ← get
  match s.waiting, s.pending with
  | a :: rest, _ => do
    set { s with waiting := rest }
    -- dropped with its document
    if s.stage a = .done then return .next ch
    let j := c.startStage a
    if s.stage a = .queued then
      if ← askDependent c a j then place c o a j true ch else return .next ch
    else place c o a j true ch
  | [], a :: rest =>
    if limited ∨ s.paced c ch.expectedRows then return .stop ch
    else do
      set { s with pending := rest }
      if s.stage a = .done then do
        -- skipped by its group's survivor
        modify fun s => { s with dead := s.dead - 1 }
        return .next ch
      else place c o a 0 false ch
  | [], [] => return .stop ch

/-- `while (self.waiting or self.pending) and room >= self._min_fresh`. -/
def freshTurns (o : Oracle) (limited : Bool) : ℕ → Chunk → Op β γ Chunk
  | 0, ch => pure ch
  | turns + 1, ch => do
    if (← get).minFresh ≤ (ch.room : WithTop ℕ) then
      match ← freshTurn c o limited ch with
      | .next ch => freshTurns o limited turns ch
      | .stop ch => return ch
    else return ch

/-- A bound on the turns over fresh anchors: each takes one from a queue, and a dependent is
released once. -/
def State.freshBound (s : State β γ) : ℕ :=
  s.waiting.length + s.pending.length +
    (c.dependencies.keys.filter fun d => !s.released d).length

/-- Groups for the next chunk (`next_chunk`); `none` is the whole chunk budget. -/
def nextChunk (o : Oracle) (freePages : ℕ) (room : Option ℕ) : Op β γ (List Group) := do
  modify fun s => { s with blockedPages := 0 }
  let s ← get
  let limited := s.limitReached c
  if limited ∧ c.dependencies.keys = [] then return []
  let ch ← readyTurns c limited s.ready.length
    { freePages, room := room.getD c.chunkBudget, groups := [], continued := [], deferred := []
      temporaryPages := 0, held := [], heldWaiting := [], blocked := false, admitted := []
      expectedRows := 0 }
  let s ← get
  let ch ← freshTurns c o limited (s.freshBound c) { ch with expectedRows := s.live c }
  modify fun s => { s with
    pending := ch.held ++ s.pending
    waiting := ch.heldWaiting ++ s.waiting
    ready := ch.deferred ++ ch.continued ++ s.ready }
  return ch.groups

/-! ## Answers -/

/-- Whether the anchor passed a stage after a group's answers. -/
def State.passes (s : State β γ) (a : Anchor) (j : ℕ) (bits : List β) (complete : Bool) : Bool :=
  match c.advance with
  | some advance => if complete then advance a j (s.answers a j ++ bits) else s.passed a j
  | none => s.passed a j || bits.any c.truth

/-- A group's answers are in. -/
def State.answer (s : State β γ) (a : Anchor) (j stop : ℕ) (bits : List β) : State β γ :=
  { s with
    answers := update s.answers a (update (s.answers a) j (s.answers a j ++ bits))
    inFlight := s.inFlight - 1
    passed := update s.passed a (update (s.passed a) j
      (s.passes c a j bits (decide (stop = s.numPartners c a j)))) }

/-- The anchor goes on to the next stage, once its whole stream is launched, or is dropped once every
partner answered. -/
def advanceStage (a : Anchor) (j : ℕ) (complete : Bool) : Op β γ AdmissionReport := do
  let s ← get
  if s.passed a j ∧ s.next a = s.numPartners c a j then do
    match ← enter c a (c.k - (j + 1)) (j + 1) false with
    | none => do
      modify fun s => { s with ready := s.ready ++ [a] }
      return ⟨[], [(a, j, true)]⟩
    | some kind => return ⟨[⟨kind, a, (← get).passed a (c.k - 1)⟩], [(a, j, true)]⟩
  else if complete ∧ s.passed a j = false then do
    set (s.setStage a .done)
    return ⟨[⟨.dropped, a, false⟩], [(a, j, false)]⟩
  else return ⟨[], []⟩

/-- The document a finished anchor's end may complete: a dependent's parent, or itself. -/
def Config.branchOf (a : Anchor) : Anchor := ((c.dependency a).map fun d => d.1).getD a

/-- The last answer of the last stage, or of a dependent's only stage. -/
def finishStage (a : Anchor) (j : ℕ) : Op β γ AdmissionReport := do
  modify fun s => (s.setStage a .done).countSurvivor c (c.branchOf a)
  let survived := (← get).passed a j
  return ⟨[⟨.finished, a, survived⟩], [(a, j, survived)]⟩

/-- Record a group's answers and update document progress (`report`). -/
def report (a : Anchor) (j start stop : ℕ) (bits : List β) : Op β γ AdmissionReport := do
  let s ← get
  let received := (s.answers a j).length
  if received ≠ start ∨ start + bits.length ≠ stop then
    throw (.assertion s!"anchor {a} stage {j}: answers for partners {start}:{stop} arrived with {received} recorded")
  let complete := decide (stop = s.numPartners c a j)
  set (s.answer c a j stop bits)
  let advanced ←
    if c.isDependent a = false ∧ s.stage a = .entered j ∧ j + 1 < c.k then advanceStage c a j complete
    else pure ⟨[], []⟩
  let finished ←
    if (c.isDependent a ∨ j + 1 = c.k) ∧ complete then finishStage c a j else pure ⟨[], []⟩
  let settlements := advanced.settlements ++ finished.settlements
  modify fun s => s.settleGroups c settlements
  return ⟨settlements, advanced.transitions ++ finished.transitions⟩

/-- Ask a gated stage for one anchor waiting at it: its settlement when it leaves. -/
def decideEntering (a : Anchor) : Op β γ (Option Settlement) := do
  let j := (← get).stageIndex a
  match ← enter c a (c.k - j) j true with
  | none => return none
  | some kind => return some ⟨kind, a, (← get).passed a (c.k - 1)⟩

/-- Ask the gated stages for a list of anchors, in order. -/
def decideAll : List Anchor → Op β γ (List Settlement)
  | [] => pure []
  | a :: rest => do
    let settlement ← decideEntering c a
    return settlement.toList ++ (← decideAll rest)

/-- `while self._waiting`: an anchor that skips a stage may wait again at a later one. -/
def decideTurns : ℕ → List Settlement → Op β γ (List Settlement)
  | 0, settlements => pure settlements
  | turns + 1, settlements => do
    let entering := (← get).entering
    if entering = [] then return settlements
    modify fun s => { s with entering := [] }
    let left ← decideAll c entering
    modify fun s => { s with ready := s.ready.filter fun a => decide (a ∉ left.map (·.anchor)) }
    decideTurns turns (settlements ++ left)

/-- Ask the gated stages for the anchors waiting at them (`decide_waiting`). The caller's `prepare`
runs before and changes nothing here. -/
def decideWaiting : Op β γ (List Settlement) := do
  let settlements ← decideTurns c (c.k + 1) []
  modify fun s => s.settleGroups c settlements
  return settlements

/-- Remove queued documents after the result limit is reached (`drain`). -/
def drain : Op β γ (List Anchor) := do
  let s ← get
  let out := s.ready.filter (fun a => decide (s.stage a ≠ .done)) ++
    s.pending.filter (fun a => decide (s.stage a ≠ .queued))
  set { s with
    stage := fun a => if a ∈ out ∨ a ∈ s.waiting then .done else s.stage a
    ready := []
    pending := []
    waiting := []
    dead := 0 }
  return out

/-- `done`: the limit is reached and nothing is in flight, or nothing is left to run. -/
def State.isDone (s : State β γ) : Bool :=
  let ended := decide (s.inFlight = 0) && decide (s.settled = []) &&
    s.waiting.all fun a => decide (s.stage a = .done)
  if s.limitReached c then ended
  else decide ((s.pending.length : ℤ) = s.dead) && decide (s.ready = []) && ended

end Quail.Admission
