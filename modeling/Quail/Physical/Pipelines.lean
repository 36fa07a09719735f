import Quail.Physical.Graph
import Mathlib.Data.List.Sort

/-!
# Pipelines

`build_pipelines` and `execution_groups` of `physical/pipelines.py`: per-document operators that follow one
another are grouped, as long as the groups can run one after another.
-/

namespace Quail.Physical
open Topological PhysicalNode PhysicalGraph

variable {N : Type} [PhysicalNode N]

/-- The pipeline of each node that is in one. -/
abbrev Pipelines (N : Type) := Dict NodeId (List N)

/-- The consumers of an output, one for each input that reads it. -/
def consumers (g : PhysicalGraph N) (ref : PortRef) : List N :=
  g.nodes.flatMap fun node => (inputs node).filterMap fun input =>
    if input.source = ref then some node else none

/-- Whether a consumer reads an output of a producer. -/
def readsFrom (consumer producer : N) : Bool :=
  (inputs consumer).any fun input => input.source.nodeId == nodeId producer

/-- Whether a list holds a node. -/
def holds (nodes : List N) (node : N) : Bool := nodes.any fun other => nodeId other == nodeId node

/-! ## Groups -/

/-- The pipeline of a node, or the node alone. -/
def groupOf (pipelines : Pipelines N) (node : N) : List N :=
  (pipelines.get? (nodeId node)).getD [node]

/-- The id of a group: its first node's. -/
def ownerOf (pipelines : Pipelines N) (node : N) : NodeId :=
  ((groupOf pipelines node).head?.map nodeId).getD (nodeId node)

/-- The groups by their ids. -/
def groups (g : PhysicalGraph N) (pipelines : Pipelines N) : Pipelines N :=
  g.nodes.foldl (fun groups node => groups.set (ownerOf pipelines node) (groupOf pipelines node)) .empty

/-- The group of each node. -/
def owners (g : PhysicalGraph N) (pipelines : Pipelines N) : Dict NodeId NodeId :=
  g.nodes.foldl (fun owners node => owners.set (nodeId node) (ownerOf pipelines node)) .empty

/-- The other groups a group reads from. -/
def dependencies (g : PhysicalGraph N) (pipelines : Pipelines N) (owner : NodeId) : List NodeId :=
  let group := ((groups g pipelines).get? owner).getD []
  ((group.flatMap inputs).filterMap fun input => (owners g pipelines).get? input.source.nodeId).filter
    (· ≠ owner)

/-- The pipelines and single nodes in an order after the outputs they read, if there is one. -/
def executionGroups (g : PhysicalGraph N) (pipelines : Pipelines N) : Option (List (List N)) :=
  (staticOrder (dependencies g pipelines) (groups g pipelines).keys).map fun ordered =>
    ordered.filterMap (groups g pipelines).get?

/-! ## Pipelines -/

/-- The consumers of a node's documents that can continue its pipeline. -/
def following (g : PhysicalGraph N) (completed : List NodeId) (node : N) (a : Alias) (first : N) :
    List N :=
  (documentOutputs node a).foldl (fun found port =>
    (consumers g ⟨nodeId node, port⟩).foldl (fun found consumer =>
      if nodeId consumer ∈ completed then found
      else if !canPrecede node consumer || !canFollow consumer node first then found
      else if decide (documentAlias consumer = some a) && !holds found consumer then
        found ++ [consumer]
      else found) found) []

/-- Find consumers that can continue this operator's pipeline: one, or several of which each reads the one
before it. -/
def continuation (g : PhysicalGraph N) (completed : List NodeId) (node : N) (a : Alias) (first : N) :
    List N :=
  let found := following g completed node a first
  let nextJoins := found.filter isJoin
  let found := if isJoin node && !nextJoins.isEmpty then nextJoins else found
  let order := g.topologicalNodes.map nodeId
  let found := found.insertionSort fun a b => order.idxOf (nodeId a) ≤ order.idxOf (nodeId b)
  if (found.zip found.tail).any fun pair => !readsFrom pair.2 pair.1 then [] else found

/-- Make some nodes a pipeline. -/
def addPipeline (pipelines : Pipelines N) (members : List N) : Pipelines N :=
  members.foldl (fun pipelines member => pipelines.set (nodeId member) members) pipelines

/-- Whether a pipeline of members leaves the graph's groups acyclic. -/
def canGroup (g : PhysicalGraph N) (pipelines : Pipelines N) (members : List N) : Bool :=
  (executionGroups g (addPipeline pipelines members)).isSome

/-- Extend a pipeline by the consumers of its last member while there are any. Each round follows a new
node, so the number of nodes bounds them. -/
def grow (g : PhysicalGraph N) (completed : List NodeId) (pipelines : Pipelines N) (a : Alias)
    (first : N) : ℕ → List N → List NodeId → List N × List NodeId
  | 0, members, followed => (members, followed)
  | fuel + 1, members, followed =>
    let after := (continuation g completed (members.getLastD first) a first).filter fun consumer =>
      decide (nodeId consumer ∉ followed)
    if after.isEmpty || !canGroup g pipelines (members ++ after) then (members, followed)
    else grow g completed pipelines a first fuel (members ++ after) (followed ++ after.map nodeId)

/-- Add the one classification of a join's answers. -/
def addClassification (g : PhysicalGraph N) (pipelines : Pipelines N)
    (state : List N × List NodeId) (join : N) : List N × List NodeId :=
  let candidates := (consumers g ⟨nodeId join, joinAnswers join⟩).filter fun consumer =>
    isClassify consumer && classifiesJoin consumer join
  match candidates with
  | [candidate] =>
    if decide (nodeId candidate ∉ state.2) && canGroup g pipelines (state.1 ++ [candidate]) then
      (state.1 ++ [candidate], state.2 ++ [nodeId candidate])
    else state
  | _ => state

/-- Start a pipeline at a node, unless it is in one, reads no documents one at a time, or asks no model. -/
def startPipeline (g : PhysicalGraph N) (completed : List NodeId)
    (state : Pipelines N × List NodeId) (node : N) : Pipelines N × List NodeId :=
  match documentAlias node with
  | none => state
  | some a =>
    if decide (nodeId node ∈ state.2) || (backend node).isNone then state
    else
      let grown := grow g completed state.1 a node g.nodes.length [node] (state.2 ++ [nodeId node])
      let ended := (grown.1.filter isJoin).foldl (addClassification g state.1) grown
      (addPipeline state.1 ended.1, ended.2)

/-- Group compatible per-document operators into pipelines. -/
def buildPipelines (g : PhysicalGraph N) (completed : List NodeId) : Pipelines N :=
  (g.topologicalNodes.foldl (startPipeline g completed) (.empty, completed)).1

end Quail.Physical
