import Quail.Admission.Config
import Quail.Lib.Cumulative
import Mathlib.Data.List.Sort
import Mathlib.Logic.Function.Basic

/-!
# The join admission scheduler

`JoinAdmission` of `executor/admission.py`: its state, the constructor's registration of anchors,
`next_chunk`, `report`, `decide_waiting` and the settling of anchors. Per-anchor lists are functions
of the anchor. The cumulative sums kept beside each list (`_cums`, `_page_cums`) are computed from
it. A `while` loop is a recursion on a bound of its turns.
-/

namespace Quail.Admission
open Imperative Function

/-- Which parent each document borrows its KV prefix from, as admitted. -/
structure Borrowing where
  treeParent : Anchor → Option Anchor
  treeShared : Anchor → ℕ
  admitted : Anchor → Bool
  skipped : Anchor → Bool
  chosen : Anchor → Option (Anchor × ℕ)
  borrowedTokens : ℕ

/-- The choice made for a document: wait for its parent, or be packed with or without a borrow. -/
inductive Decision where
  | wait
  | choose (borrow : Option (Anchor × ℕ))

namespace Borrowing

/-- The document's KV is already resident, so it borrows nothing. -/
def detach (b : Borrowing) (a : Anchor) : Borrowing :=
  { b with treeParent := update b.treeParent a none, treeShared := update b.treeShared a 0 }

/-- The document never runs a chunk, so its borrowers pack whole. -/
def skip (b : Borrowing) (a : Anchor) : Borrowing :=
  { b with skipped := update b.skipped a true }

/-- `WAIT`, `None` to pack the whole document, or the parent and its shared tokens. -/
def choice (b : Borrowing) (canBorrow : Anchor → Anchor → Bool → Bool) (a : Anchor)
    (chunk : List Anchor) : Decision :=
  match b.treeParent a with
  | none => .choose none
  | some parent =>
    if b.skipped parent then .choose none
    else if b.admitted parent = false then .wait
    else if canBorrow a parent (decide (parent ∈ chunk)) = false then .choose none
    else .choose (some (parent, b.treeShared a))

/-- The document was admitted with a choice. -/
def record (b : Borrowing) (a : Anchor) (borrow : Option (Anchor × ℕ)) : Borrowing :=
  match borrow with
  | none => { b with admitted := update b.admitted a true }
  | some choice =>
    { b with
      admitted := update b.admitted a true
      chosen := update b.chosen a (some choice)
      borrowedTokens := b.borrowedTokens + choice.2 }

/-- The tokens an admitted document borrows; 0 when it packs whole. -/
def shared (b : Borrowing) (a : Anchor) : ℕ := ((b.chosen a).map fun c => c.2).getD 0

end Borrowing

/-- The state of a join admission. -/
structure State (β γ : Type) where
  stage : Anchor → Stage
  next : Anchor → ℕ
  /-- Whether the anchor passed the stage (`_true`). -/
  passed : Anchor → ℕ → Bool
  /-- Per anchor and stage, the indices it streams; `none` is the whole list. -/
  lists : Anchor → ℕ → Option Row
  first : Anchor → ℕ
  pageCosts : Anchor → ℕ
  carried : Anchor → ℕ
  pageReserve : ℕ
  minFresh : WithTop ℕ
  zeroCost : ℤ
  pending : List Anchor
  ready : List Anchor
  /-- Released dependents not yet admitted, in release order. -/
  waiting : List Anchor
  /-- Anchors entering a gated stage (`_waiting`). -/
  entering : List Anchor
  released : Anchor → Bool
  counted : Anchor → Bool
  survivors : ℕ
  groupBusy : γ → ℕ
  groupDone : γ → Bool
  groupMembers : γ → Option (List Anchor)
  skipped : List Anchor
  dead : ℤ
  settled : List Settlement
  oversized : List Anchor
  inFlight : ℤ
  blockedPages : ℕ
  answers : Anchor → ℕ → List β
  borrowing : Borrowing

/-- An operation of the admission: it returns or raises. -/
abbrev Op (β γ α : Type) := EStateM PyError (State β γ) α

variable {β γ : Type} [DecidableEq γ] [ToString γ] (c : Config β γ)

/-! ## Partner lists -/

/-- The token counts of the requests an anchor streams at a stage. -/
def State.lengths (s : State β γ) (a : Anchor) (j : ℕ) : List ℕ :=
  match s.lists a j with
  | none => c.stageLengths j
  | some row => row.lengths

/-- The number of partner requests an anchor streams at a stage. -/
def State.numPartners (s : State β γ) (a : Anchor) (j : ℕ) : ℕ :=
  match s.lists a j with
  | none => (c.stageLengths j).length
  | some row => row.indices.length

/-- `_cum_of`. -/
def State.cum (s : State β γ) (a : Anchor) (j : ℕ) : List ℕ := cumulative (s.lengths c a j)

/-- Indices into the stage's partner list for one launched group. -/
def State.partnerIndices (s : State β γ) (a : Anchor) (j start stop : ℕ) : List ℕ :=
  match s.lists a j with
  | none => (List.range stop).drop start
  | some row => (row.indices.take stop).drop start

/-- `_suffix`. -/
def State.suffix (s : State β γ) (a : Anchor) (j i : ℕ) : ℕ :=
  (s.cum c a j).getD (i + 1) 0 - (s.cum c a j).getD i 0

/-- `_first_cost`. -/
def State.firstCost (s : State β γ) (a : Anchor) (j i : ℕ) : ℕ :=
  s.suffix c a j i + (if i = 0 then c.frameRows j else 0)

/-- `_suffix_page_cost`. -/
def State.suffixPageCost (s : State β γ) (a : Anchor) (j i : ℕ) : ℕ :=
  c.partnerPages (c.prefixOf a) (c.frames j) (s.suffix c a j i)

/-- Cumulative temporary pages of an anchor's suffixes at a stage (`_page_cums`). -/
def State.pageCum (s : State β γ) (a : Anchor) (j : ℕ) : List ℕ :=
  cumulative ((List.range (s.numPartners c a j)).map (s.suffixPageCost c a j))

/-- A run of partners: where it ends, its rows and its temporary pages. -/
structure Taken where
  stop : ℕ
  tokens : ℕ
  pages : ℕ

/-- The partner run that fits the token and temporary page budgets (`_take`). -/
def State.take (s : State β γ) (a : Anchor) (j i room pageRoom : ℕ) : Taken :=
  let cum := s.cum c a j
  let frame := if i = 0 then c.frameRows j else 0
  let fit := bisectRight cum (cum.getD i 0 + room - frame) - 1
  let costs := s.pageCum c a j
  let stop :=
    if c.temporarySuffixPages then min fit (bisectRight costs (costs.getD i 0 + pageRoom) - 1)
    else fit
  { stop
    tokens := frame + cum.getD stop 0 - cum.getD i 0
    pages := if c.temporarySuffixPages then costs.getD stop 0 - costs.getD i 0 else 0 }

/-- Whether every index lies in a list of this length. -/
def badIndex (l : List ℤ) (length : ℕ) : Option ℤ :=
  l.find? fun i => decide (i < 0 ∨ (length : ℤ) ≤ i)

/-- Partner indices and request token counts for a stage (`_partner_list`). -/
def partnerList (a : Anchor) (j : ℕ) (selection : Selection) : Op β γ (Option Row) :=
  match selection with
  | .whole => pure none
  | .own lengths => pure (some ⟨List.range lengths.length, lengths, by simp⟩)
  | .indices l =>
    match badIndex l (c.stageLengths j).length with
    | some i => throw (.value s!"anchor {a} stage {j}: partner {i} is out of range")
    | none => pure (some ⟨l.map Int.toNat,
        l.map fun i => (c.stageLengths j).getD i.toNat 0, by simp⟩)

/-! ## Entering stages -/

/-- Record an anchor's list for a stage. -/
def setList (a : Anchor) (j : ℕ) (row : Option Row) : Op β γ Unit :=
  modify fun s => { s with lists := update s.lists a (update (s.lists a) j row) }

/-- Set an anchor's stage. -/
def State.setStage (s : State β γ) (a : Anchor) (stage : Stage) : State β γ :=
  { s with stage := update s.stage a stage }

/-- An empty row at the last stage finishes, an earlier one drops. -/
def settleEmpty (a : Anchor) (j : ℕ) : Op β γ (Option Kind) := do
  if (← get).numPartners c a j ≠ 0 then return none
  modify fun s => s.setStage a .done
  return some (if j + 1 = c.k then .finished else .dropped)

/-- Advance a document past skipped stages to its next request (`_enter`): `none` when it has
requests to run or waits at a gated stage, and how it ended otherwise. The first number counts the
stages left. -/
def enter (a : Anchor) : ℕ → ℕ → Bool → Op β γ (Option Kind)
  | 0, _, _ => pure none
  | left + 1, j, decided => do
    modify fun s => { s.setStage a (.entered j) with next := update s.next a 0 }
    match c.ask a with
    | none => settleEmpty c a j
    | some ask =>
      if c.isGated j && !decided then do
        modify fun s => { s with entering := s.entering ++ [a] }
        return none
      else match ask j with
        | .drop => do
          modify fun s => s.setStage a .done
          return some .dropped
        | .skip => do
          -- nothing asked here: the anchor passes this stage
          modify fun s => { s with passed := update s.passed a (update (s.passed a) j true) }
          if j + 1 = c.k then do
            modify fun s => { s.setStage a .done with survivors := s.survivors + 1 }
            return some .finished
          else enter a left (j + 1) false
        | .select selection => do
          setList a j (← partnerList c a j selection)
          settleEmpty c a j

/-! ## Settling -/

/-- Anchors admitted and not yet settled (`_live`). -/
def State.live (s : State β γ) : ℕ :=
  (List.range c.n).countP fun a =>
    !c.isDependent a && (match s.stage a with | .entered _ => true | _ => false)

/-- Count a document toward the limit once it and its branches ended (`_count_survivor`). -/
def State.countSurvivor (s : State β γ) (a : Anchor) : State β γ :=
  if s.stage a ≠ .done ∨ s.passed a (c.k - 1) = false ∨ s.counted a then s
  else if (c.allDependents a).all fun d => s.stage d = .done then
    { s with counted := update s.counted a true, survivors := s.survivors + 1 }
  else s

/-- Whether enough documents survived to stop new admissions. -/
def State.limitReached (s : State β γ) : Bool :=
  (c.limit.map fun limit => decide (limit ≤ s.survivors)).getD false

/-- Drop a dependent that was never released, with its document. -/
def State.dropDependent (s : State β γ) (d : Anchor) : State β γ :=
  if s.stage d ≠ .queued ∨ s.released d then s
  else { s.setStage d .done with
    skipped := s.skipped ++ [d]
    settled := s.settled ++ [⟨.dropped, d, false⟩] }

/-- Skip a queued anchor of a group that has a survivor. -/
def State.skipMember (s : State β γ) (b : Anchor) : State β γ :=
  { s.setStage b .done with
    zeroCost := if s.pageCosts b = 0 then s.zeroCost - 1 else s.zeroCost
    dead := s.dead + 1
    skipped := s.skipped ++ [b] }

/-- Free the anchor's group for its next anchor, or skip the rest (`_settle_group`). -/
def State.settleGroup (s : State β γ) (a : Anchor) (survived : Bool) : State β γ :=
  let s := (c.allDependents a).foldl State.dropDependent s
  match c.groupOf a with
  | none => s
  | some group =>
    let s := { s with groupBusy := update s.groupBusy group (s.groupBusy group - 1) }
    if survived = false ∨ s.groupDone group then s
    else
      let members := ((s.groupMembers group).getD []).insertionSort (· ≤ ·)
      members.foldl State.skipMember
        { s with
          groupDone := update s.groupDone group true
          groupMembers := update s.groupMembers group none }

/-- `_settle_group` for each settlement of a list. -/
def State.settleGroups (s : State β γ) (settlements : List Settlement) : State β γ :=
  settlements.foldl (fun s e => s.settleGroup c e.anchor e.survived) s

/-- Remove and return documents settled without a forward pass (`take_settled`); each turn settles
the ones the turn before dropped. -/
def takeSettledTurns : ℕ → List Settlement → Op β γ (List Settlement)
  | 0, events => pure events
  | turns + 1, events => do
    let pending := (← get).settled
    if pending = [] then return events
    modify fun s => ({ s with settled := [] }).settleGroups c pending
    takeSettledTurns turns (events ++ pending)

/-- `take_settled`. -/
def takeSettled : Op β γ (List Settlement) := takeSettledTurns c (c.n + 1) []

/-- Remove and return the queued anchors a done group skipped. -/
def takeSkipped : Op β γ (List Anchor) := do
  let skipped := (← get).skipped
  modify fun s => { s with skipped := [] }
  return skipped

end Quail.Admission
