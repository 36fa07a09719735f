import Quail.Lib.Dict
import Quail.Lib.Program
import Quail.Lib.Python
import Quail.Prefix.Index
import Mathlib.Algebra.Order.Floor.Div
import Mathlib.Data.Rat.Defs
import Mathlib.Algebra.Order.Ring.Unbundled.Rat
import Mathlib.Order.WithBot
import Mathlib.Order.Lattice.Nat
import Mathlib.Algebra.Order.Monoid.Unbundled.WithTop

/-!
# What a join admission is built from

The arguments of `JoinAdmission` of `executor/admission.py`, and the records it keeps of them.
Anchors, partners and stages are numbered from zero. `β` are the answers to a request, `γ` the stop
keys. A callable that is asked at most once for each argument in a run (the requests of an anchor at
a stage, the decision on a whole row) is a function of that argument; `can_borrow` and `reserve`,
asked again in every chunk, are arguments of the chunk.
-/

namespace Quail.Admission

abbrev Anchor := ℕ

/-- Pages needed for `tokens` rows (`pages_for`). -/
def pagesFor (tokens pageTokens : ℕ) : ℕ := tokens ⌈/⌉ pageTokens

/-- One stage's requests of an anchor: the stage's whole list, indices into it, or sequences of the
document's own with these lengths (`OwnRequests`). -/
inductive Selection where
  | whole
  | indices (l : List ℤ)
  | own (lengths : List ℕ)
  deriving DecidableEq

/-- What a callable answers for a stage. -/
inductive Request where
  | drop
  | skip
  | select (s : Selection)
  deriving DecidableEq

/-- An entry of `anchor_partners`; an omitted anchor is `whole`. -/
inductive AnchorPartners where
  | whole
  | lists (l : List Selection)
  | ask (request : ℕ → Request)

/-- A recorded list of partner requests: its indices and their token counts. -/
structure Row where
  indices : List ℕ
  lengths : List ℕ
  size : lengths.length = indices.length

/-- An anchor's stage: not yet admitted (`-1`), a stage index, or `_DONE`. -/
inductive Stage where
  | queued
  | entered (j : ℕ)
  | done
  deriving DecidableEq

/-- A launched group: partners `start` up to `stop` of the anchor's list at a stage. -/
structure Group where
  anchor : Anchor
  stage : ℕ
  start : ℕ
  stop : ℕ
  carried : Bool
  deriving DecidableEq

/-- How an anchor ended. -/
inductive Kind where
  | dropped
  | finished
  deriving DecidableEq

/-- Completion record of an anchor. -/
structure Settlement where
  kind : Kind
  anchor : Anchor
  survived : Bool
  deriving DecidableEq

/-- Settlements and stage transitions caused by a group's answers (`AdmissionReport`). -/
structure AdmissionReport where
  settlements : List Settlement
  transitions : List (Anchor × ℕ × Bool)
  deriving DecidableEq

/-- The arguments of `JoinAdmission`. -/
structure Config (β γ : Type) where
  prefixTokens : List ℕ
  stageSuffixes : List (List ℕ)
  chunkBudget : ℕ
  arenaPages : ℕ
  pageTokens : ℕ
  /-- Per stage; the empty list is no frames. -/
  frameTokens : List ℕ
  /-- Per stage; `none` writes every frame. -/
  frameWrites : Option (List Bool)
  frameCanvasTokens : ℕ
  extraTokens : Option ℕ
  resident : Dict Anchor ℕ
  anchorPartners : Anchor → AnchorPartners
  temporarySuffixPages : Bool
  /-- `page_cost(tokens, base_tokens)`; `none` is the base left out. -/
  pageCost : ℕ → Option ℕ → ℕ
  tree : Option Prefix.PrefixTree
  /-- Whether an anchor goes on, once its whole row is in; `none` asks for one true answer. -/
  advance : Option (Anchor → ℕ → List β → Bool)
  truth : β → Bool
  limit : Option ℕ
  survival : Option ℚ
  stopGroups : Option (List γ)
  stopWidth : ℤ
  gated : List ℕ
  dependencies : Dict Anchor (Anchor × ℕ)

/-- The price of one pool of pages, when no `page_cost` is given. -/
def onePool (pageTokens : ℕ) : ℕ → Option ℕ → ℕ := fun tokens _ => pagesFor tokens pageTokens

namespace Config

variable {β γ : Type} (c : Config β γ)

/-- Number of anchors. -/
def n : ℕ := c.prefixTokens.length

/-- Number of stages. -/
def k : ℕ := c.stageSuffixes.length

/-- Prefix tokens of an anchor. -/
def prefixOf (a : Anchor) : ℕ := c.prefixTokens.getD a 0

/-- The suffix lengths of a stage's whole list. -/
def stageLengths (j : ℕ) : List ℕ := c.stageSuffixes.getD j []

/-- The frame rows a stage keeps in the anchor's KV. -/
def frames (j : ℕ) : ℕ := c.frameTokens.getD j 0

/-- Whether a stage's frame is written. -/
def writes (j : ℕ) : Bool := (c.frameWrites.map fun w => w.getD j true).getD true

/-- The rows a frame entry packs, canvas included. -/
def frameRows (j : ℕ) : ℕ :=
  if c.frames j ≠ 0 ∧ c.writes j then c.frames j + c.frameCanvasTokens else 0

/-- Rows past the prefix that an anchor's pages must cover (`_extra`). -/
def extra : ℕ := max (((List.range c.k).map c.frameRows).foldr max 0) (c.extraTokens.getD 0)

/-- `page_cost(tokens)`. -/
def cost (tokens : ℕ) : ℕ := c.pageCost tokens none

/-- Temporary pages one partner's rows take on the unified path (`partner_pages`). -/
def partnerPages (prefixTokens frameTokens suffixRows : ℕ) : ℕ :=
  c.pageCost ((prefixTokens + frameTokens) % c.pageTokens + suffixRows) (some 0)

/-- The tree's parent of a document (`tree_parent` before `detach`). -/
def treeParent (a : Anchor) : Option Anchor := c.tree.bind fun t => t.parent a

/-- The tokens a document shares with its parent (`tree_shared` before `detach`). -/
def treeShared (a : Anchor) : ℕ := (c.tree.map fun t => t.shared a).getD 0

/-- The order fresh anchors are admitted in. -/
def freshOrder : List Anchor := (c.tree.map fun t => t.order).getD (List.range c.n)

/-- A dependent's parent and start stage. -/
def dependency (a : Anchor) : Option (Anchor × ℕ) := c.dependencies.get? a

/-- Whether the anchor is a dependent. -/
def isDependent (a : Anchor) : Bool := c.dependencies.contains a

/-- The stage an anchor starts at: a dependent's own, the first for any other. -/
def startStage (a : Anchor) : ℕ := ((c.dependency a).map fun d => d.2).getD 0

/-- The dependents that wait for an anchor's launch at a stage (`dependents`). -/
def dependents (a : Anchor) (j : ℕ) : List Anchor :=
  (c.dependencies.entries.filter fun e => e.2 = (a, j)).map fun e => e.1

/-- The anchor's dependents over all stages, in stage order. -/
def allDependents (a : Anchor) : List Anchor := (List.range c.k).flatMap (c.dependents a)

/-- The most pages a dependent of the anchor needs (`_dependent_pages`). A deferred parent cannot
free its pages before a dependent runs. -/
def dependentPages (a : Anchor) : ℕ :=
  ((c.dependencies.entries.filter fun e => e.2.1 = a).map
    fun e => c.cost (c.prefixOf e.1 - c.treeShared e.1 + c.extra)).foldr max 0

/-- The callable of a lazily asked anchor (`_lazy`). -/
def ask (a : Anchor) : Option (ℕ → Request) :=
  match c.anchorPartners a with
  | .ask request => some request
  | _ => none

/-- Whether a stage's conditions decide its anchors together. -/
def isGated (j : ℕ) : Bool := decide (j ∈ c.gated)

/-- Anchors of one group in flight at once (`_group_width`). -/
def groupWidth : ℕ := (max 1 c.stopWidth).toNat

/-- An anchor's stop key group. -/
def groupOf (a : Anchor) : Option γ := c.stopGroups.bind fun g => g[a]?

end Config

end Quail.Admission
