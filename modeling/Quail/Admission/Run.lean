import Quail.Admission.Chunk

/-!
# Building an admission and running it

The constructor of `JoinAdmission`, the calls its owner makes, and the runs of such calls. A run
keeps what the caller can see: the groups in flight, and the trace of groups launched, answers
reported and anchors settled or skipped.
-/

namespace Quail.Admission
open Imperative Function

variable {β γ : Type} [DecidableEq γ] [ToString γ] (c : Config β γ)

/-! ## The constructor -/

/-- The fields before any anchor is registered. -/
def State.blank : State β γ where
  stage := fun _ => .queued
  next := fun _ => 0
  passed := fun _ _ => false
  lists := fun _ _ => none
  first := fun _ => 0
  pageCosts := fun _ => 0
  carried := fun _ => 0
  pageReserve := 0
  minFresh := ⊤
  zeroCost := 0
  pending := []
  ready := []
  waiting := []
  entering := []
  released := fun _ => false
  counted := fun _ => false
  survivors := 0
  groupBusy := fun _ => 0
  groupDone := fun _ => false
  groupMembers := fun _ => none
  skipped := []
  dead := 0
  settled := []
  oversized := []
  inFlight := 0
  blockedPages := 0
  answers := fun _ _ => []
  borrowing :=
    { treeParent := c.treeParent
      treeShared := c.treeShared
      admitted := fun _ => false
      skipped := fun _ => false
      chosen := fun _ => none
      borrowedTokens := 0 }

/-- Record the lists of an anchor's stages from the `j`-th on. -/
def setLists (a : Anchor) : ℕ → List Selection → Op β γ Unit
  | _, [] => pure ()
  | j, selection :: rest => do
    setList a j (← partnerList c a j selection)
    setLists a (j + 1) rest

/-- The lists an anchor is registered with. A dependent's gates can read answers not yet computed,
so its requests are asked later. -/
def registerLists (a : Anchor) : Op β γ Unit := do
  match c.anchorPartners a with
  | .whole => pure ()
  | .lists l =>
    if l.length ≠ c.k then
      throw (.value s!"anchor {a}: partner lists for {l.length} stages, the join has {c.k}")
    setLists c a 0 l
  | .ask request =>
    let j := c.startStage a
    if c.isDependent a then setList a j none
    else match request j with
      | .skip => throw (.value s!"anchor {a}: the first stage cannot be skipped")
      | .drop => setList a j (← partnerList c a j (.indices []))
      | .select selection => setList a j (← partnerList c a j selection)

/-- Prefix tokens an anchor computes itself: a dependent borrows the ones it shares. -/
def Config.freshTokens (a : Anchor) : ℕ :=
  c.prefixOf a - if c.isDependent a then c.treeShared a else 0

/-- Whether an anchor is too long for a chunk or for the arena. -/
def State.oversize (s : State β γ) (a : Anchor) : Bool :=
  let j := c.startStage a
  if c.resident.contains a then false
  else if c.arenaPages < c.cost (c.freshTokens a + c.extra) + c.dependentPages a then true
  else match s.lengths c a j with
    | [] => false
    | l :: _ => decide (c.chunkBudget < c.freshTokens a + (c.frameRows j + l))

/-- The most temporary pages one suffix of the anchor takes; a lazy anchor's later stages are
bounded by the stage's largest suffix. -/
def State.largestSuffix (s : State β γ) (a : Anchor) : ℕ :=
  match c.ask a with
  | none => (((List.range c.k).flatMap fun j =>
      (List.range (s.numPartners c a j)).map (s.suffixPageCost c a j))).foldr max 0
  | some _ =>
    max (((List.range (s.numPartners c a 0)).map (s.suffixPageCost c a 0)).foldr max 0)
      ((((List.range c.k).filter fun j => decide (1 ≤ j ∧ c.stageLengths j ≠ [])).map fun j =>
        c.partnerPages (c.prefixOf a) (c.frames j) ((c.stageLengths j).foldr max 0)).foldr max 0)

/-- Record one anchor's costs (`_register`). -/
def register (a : Anchor) : Op β γ Unit := do
  registerLists c a
  let s ← get
  let j := c.startStage a
  let need := c.cost (c.prefixOf a + c.extra) - (c.resident.get? a).getD 0
  let oversized := s.oversize c a
  if oversized then do
    setList a j (some ⟨[], [], rfl⟩)
    modify fun s => { s with oversized := s.oversized ++ [a] }
  let need := if oversized then 0 else need
  let carried := if c.resident.contains a then 0 else c.prefixOf a
  modify fun s => { s with
    pageCosts := update s.pageCosts a need
    carried := update s.carried a carried }
  let s ← get
  if s.numPartners c a j = 0 then
    -- nothing to evaluate: the anchor settles without a chunk
    modify fun s => { s.setStage a .done with
      settled := s.settled ++ [⟨if c.k = 1 then .finished else .dropped, a, false⟩]
      borrowing := s.borrowing.skip a }
  else do
    let first := c.frameRows j + s.suffix c a j 0
    if c.temporarySuffixPages then do
      let largest := s.largestSuffix c a
      if c.arenaPages < c.cost (c.freshTokens a + c.extra) + largest + c.dependentPages a then
        throw (.value "anchor and one suffix exceed the KV arena")
      modify fun s => { s with pageReserve := max s.pageReserve largest }
    -- the fewest tokens any fresh anchor can pack: a borrower packs only the tokens past its
    -- shared prefix
    modify fun s => { s with
      first := update s.first a first
      minFresh := min s.minFresh ((carried - c.treeShared a + first : ℕ) : WithTop ℕ)
      zeroCost := if need = 0 then s.zeroCost + 1 else s.zeroCost }

/-- Register a list of anchors. -/
def registerAll : List Anchor → Op β γ Unit
  | [] => pure ()
  | a :: rest => do
    register c a
    registerAll rest

/-- A stage whose longest partner exceeds a chunk with the frame. -/
def Config.longStage : Option ℕ :=
  (List.range c.k).find? fun j => decide (c.stageLengths j ≠ [] ∧
    c.chunkBudget < c.frameRows j + (c.stageLengths j).foldr max 0)

/-- Raise for a dependent, a parent, a start stage or a resident that does not exist. -/
def Config.checkIndices : Option PyError :=
  if c.dependencies.entries.any fun e => decide (c.n ≤ e.1 ∨ c.n ≤ e.2.1 ∨ c.k ≤ e.2.2) then
    some (.index "list index out of range")
  else if c.resident.keys.any fun a => decide (c.n ≤ a) then
    some (.index "list assignment index out of range")
  else none

/-- Raise for arguments that do not match. -/
def Config.check : Option PyError :=
  if c.stopGroups.any fun g => g.length ≠ c.n then some (.value "stop_groups must match prefix_tokens")
  else if c.frameTokens ≠ [] ∧ c.frameTokens.length ≠ c.k then
    some (.value "frame_tokens must match stage_suffixes")
  else if c.frameWrites.any fun w => w.length ≠ c.k then
    some (.value "frame_writes must match stage_suffixes")
  else if c.k = 0 then some (.value "a join needs at least one stage")
  else match c.longStage with
    | some j => some (.value (s!"stage {j}: a {c.frameRows j + (c.stageLengths j).foldr max 0}-token " ++
        s!"partner exceeds the {c.chunkBudget}-token chunk budget (suffixes are atomic)"))
    | none => c.checkIndices

/-- The anchors queued at first: resident ones cost no prefix tokens and few or no pages, so they
never wait behind a page-blocked anchor. -/
def State.firstPending (s : State β γ) : List Anchor :=
  ((List.range c.n).filter fun a => c.resident.contains a && decide (s.stage a = .queued)) ++
    (c.freshOrder.filter fun a =>
      !c.resident.contains a && decide (s.stage a = .queued) && !c.isDependent a)

/-- The queued anchors of each stop key group. -/
def membersOf (pending : List Anchor) (group : γ) : Option (List Anchor) :=
  match pending.filter fun a => decide (c.groupOf a = some group) with
  | [] => none
  | members => some members

/-- `JoinAdmission(...)`. -/
def init : Op β γ Unit := do
  match c.check with
  | some e => throw e
  | none => do
    registerAll c (List.range c.n)
    modify fun s =>
      let pending := s.firstPending c
      { s with
        pending
        groupMembers := membersOf c pending
        borrowing := c.resident.keys.foldl Borrowing.detach s.borrowing }

/-! ## Runs -/

/-- A call the owner of an admission makes. -/
inductive Call (β : Type) where
  | nextChunk (o : Oracle) (freePages : ℕ) (room : Option ℕ)
  | report (g : Group) (bits : List β)
  | decideWaiting
  | takeSettled
  /-- The caller takes the skipped documents, whose borrowers then pack whole. -/
  | takeSkipped

/-- What a caller sees. -/
inductive Event (β : Type) where
  | launched (g : Group)
  | answered (g : Group) (bits : List β)
  | settled (e : Settlement)
  | skipped (a : Anchor)

/-- Perform a call; the events it shows the caller. -/
def perform : Call β → Op β γ (List (Event β))
  | .nextChunk o freePages room => do
    return (← nextChunk c o freePages room).map .launched
  | .report g bits => do
    let r ← report c g.anchor g.stage g.start g.stop bits
    return .answered g bits :: r.settlements.map .settled
  | .decideWaiting => do return (← decideWaiting c).map .settled
  | .takeSettled => do return (← takeSettled c).map .settled
  | .takeSkipped => do
    let skipped ← takeSkipped
    modify fun s => { s with borrowing := skipped.foldl Borrowing.skip s.borrowing }
    return skipped.map .skipped

/-- A run of an admission: its state, the groups in flight in launch order, and the trace. -/
structure Run (β γ : Type) where
  state : State β γ
  flight : List Group
  trace : List (Event β)

/-- The groups among some events. -/
def launches (t : List (Event β)) : List Group :=
  t.filterMap fun | .launched g => some g | _ => none

/-- The groups that are in flight after a call. -/
def flightAfter (flight : List Group) (t : List (Event β)) : Call β → List Group
  | .nextChunk .. => flight ++ launches t
  | .report g _ => flight.erase g
  | _ => flight

/-- What the caller does: a group is reported once, after the earlier groups of its anchor, with an
answer for each of its partners, and no chunk is built while anchors wait at a gated stage. -/
def Allowed (r : Run β γ) : Call β → Prop
  | .nextChunk .. => r.state.entering = []
  | .report g bits => r.flight.find? (fun h => decide (h.anchor = g.anchor)) = some g ∧
      bits.length = g.stop - g.start
  | _ => True

/-- One allowed call that returns. -/
inductive Step : Run β γ → Call β → Run β γ → Prop
  | call {r : Run β γ} {call : Call β} {t : List (Event β)} {s : State β γ} :
      Allowed r call → perform c call r.state = .ok t s →
      Step r call ⟨s, flightAfter r.flight t call, r.trace ++ t⟩

instance {r : Run β γ} : (call : Call β) → Decidable (Allowed r call)
  | .nextChunk .. => inferInstanceAs (Decidable (r.state.entering = []))
  | .report .. => inferInstanceAs (Decidable (_ ∧ _))
  | .decideWaiting => .isTrue trivial
  | .takeSettled => .isTrue trivial
  | .takeSkipped => .isTrue trivial

/-- Make a call, when it is allowed and returns. -/
def Run.call (r : Run β γ) (call : Call β) : Option (Run β γ) :=
  if Allowed r call then
    match perform c call r.state with
    | .ok t s => some ⟨s, flightAfter r.flight t call, r.trace ++ t⟩
    | .error .. => none
  else none

/-- The run of a constructor and a list of calls. -/
def Run.follow (calls : List (Call β)) : Option (Run β γ) :=
  match init c (State.blank c) with
  | .ok () s => calls.foldlM (Run.call c) ⟨s, [], []⟩
  | .error .. => none

/-- The runs of an admission its constructor built. -/
inductive Reachable : Run β γ → Prop
  | start {s : State β γ} : init c (State.blank c) = .ok () s → Reachable ⟨s, [], []⟩
  | step {r r' : Run β γ} {call : Call β} : Reachable r → Step c r call r' → Reachable r'

/-- A join with every option left out. -/
def Config.plain (prefixTokens : List ℕ) (stageSuffixes : List (List ℕ))
    (chunkBudget arenaPages pageTokens : ℕ) : Config Bool ℕ where
  prefixTokens
  stageSuffixes
  chunkBudget
  arenaPages
  pageTokens
  frameTokens := []
  frameWrites := none
  frameCanvasTokens := 0
  extraTokens := none
  resident := .empty
  anchorPartners := fun _ => .whole
  temporarySuffixPages := false
  pageCost := onePool pageTokens
  tree := none
  advance := none
  truth := id
  limit := none
  survival := none
  stopGroups := none
  stopWidth := 1
  gated := []
  dependencies := .empty

/-- Every borrow is allowed and every reservation succeeds. -/
def Oracle.yes : Oracle := ⟨fun _ _ _ => true, fun _ _ _ => true⟩

variable {c}

lemma Run.call_step {r r' : Run β γ} {call : Call β} (h : Run.call c r call = some r') :
    Step c r call r' := by
  unfold Run.call at h
  split_ifs at h with hallowed
  cases hm : perform c call r.state with
  | ok t s =>
    rw [hm] at h
    obtain rfl := Option.some.inj h
    exact .call hallowed hm
  | error e s =>
    rw [hm] at h
    cases h

lemma Reachable.calls {r r' : Run β γ} {calls : List (Call β)} (hr : Reachable c r)
    (h : calls.foldlM (Run.call c) r = some r') : Reachable c r' := by
  induction calls generalizing r with
  | nil =>
    obtain rfl := Option.some.inj h
    exact hr
  | cons call rest ih =>
    rw [List.foldlM_cons] at h
    obtain ⟨r₁, h₁, h₂⟩ := Option.bind_eq_some_iff.1 h
    exact ih (.step hr (Run.call_step h₁)) h₂

/-- What can be followed is reachable. -/
theorem Run.follow_reachable {r : Run β γ} {calls : List (Call β)}
    (h : Run.follow c calls = some r) : Reachable c r := by
  unfold Run.follow at h
  cases hinit : init c (State.blank c) with
  | error e s =>
    rw [hinit] at h
    cases h
  | ok u s =>
    rw [hinit] at h
    exact (Reachable.start hinit).calls h

end Quail.Admission
