import Quail.Physical.Grouping

/-!
# The runner

`GenericRunner.run` of `execution/runner.py`: the nodes in the order of `topological_nodes`, a pipeline at
its last member's place, with the values computed so far. The runtimes and the pipelines' executor are
parameters.
-/

namespace Quail.Physical
open PhysicalNode PhysicalGraph

variable {N V : Type} [PhysicalNode N]

/-- Why a run stops. -/
inductive RunError
  | invalid (error : GraphValidationError)
  | missingValue (ref : PortRef)
  | wrongPorts (id : NodeId)
  | partialOutputs (id : NodeId)

/-- What a run executes its nodes with: the registered keys, the runtime of a node, whether there is an
executor of pipelines, and the executor. Each answers the values of a node's ports. -/
structure ExecutionContext (N V : Type) where
  keys : List String
  execute : N → List (String × V) → List (Port × V)
  pipelined : Bool
  runPipeline : List N → List (NodeId × List (String × V)) → NodeId → List (Port × V)

/-- The values computed so far, and the groups executed, in order. -/
structure RunState (N V : Type) where
  values : Dict PortRef V
  ran : List (List N)

/-- Read a node's inputs, but those from some nodes. -/
def readInputs (values : Dict PortRef V) (inside : List NodeId) (node : N) :
    Except RunError (List (String × V)) :=
  ((inputs node).filter fun input => decide (input.source.nodeId ∉ inside)).mapM fun input =>
    match values.get? input.source with
    | none => .error (.missingValue input.source)
    | some value => .ok (input.name, value)

/-- Keep the values of a node's ports, if they are the node's ports. -/
def record (values : Dict PortRef V) (node : N) (result : List (Port × V)) :
    Except RunError (Dict PortRef V) :=
  if (∀ output ∈ outputs node, output.name ∈ result.map Prod.fst) ∧
      ∀ port ∈ result.map Prod.fst, port ∈ (outputs node).map (·.name) then
    .ok (result.foldl (fun values entry => values.set ⟨nodeId node, entry.1⟩ entry.2) values)
  else .error (.wrongPorts (nodeId node))

/-- Execute a pipeline on what its members read from outside. -/
def runMembers (context : ExecutionContext N V) (values : Dict PortRef V) (pipeline : List N) :
    Except RunError (Dict PortRef V) := do
  let read ← pipeline.mapM fun member =>
    (readInputs values (pipeline.map nodeId) member).map fun read => (nodeId member, read)
  let results := context.runPipeline pipeline read
  pipeline.foldlM (fun values member => record values member (results (nodeId member))) values

/-- The outputs of a node that have values. -/
def supplied (values : Dict PortRef V) (node : N) : List (Port × V) :=
  (outputs node).filterMap fun output =>
    (values.get? ⟨nodeId node, output.name⟩).map fun value => (output.name, value)

/-- Execute a node, unless its outputs were supplied. -/
def runSingle (context : ExecutionContext N V) (state : RunState N V) (node : N) :
    Except RunError (RunState N V) :=
  if (supplied state.values node).isEmpty then do
    let read ← readInputs state.values [] node
    let values ← record state.values node (context.execute node read)
    return ⟨values, state.ran ++ [[node]]⟩
  else if ∃ output ∈ outputs node, state.values.get? ⟨nodeId node, output.name⟩ = none then
    .error (.partialOutputs (nodeId node))
  else do
    let values ← record state.values node (supplied state.values node)
    return ⟨values, state.ran⟩

/-- Come to a node: execute its pipeline at the last member, or the node. -/
def runNode (context : ExecutionContext N V) (pipelines : Pipelines N) (state : RunState N V) (node : N) :
    Except RunError (RunState N V) :=
  match pipelines.get? (nodeId node) with
  | some pipeline =>
    if pipeline.getLast?.map nodeId ≠ some (nodeId node) then .ok state
    else do
      let values ← runMembers context state.values pipeline
      return ⟨values, state.ran ++ [pipeline]⟩
  | none => runSingle context state node

/-- The nodes whose outputs are supplied, once each. -/
def completedOf (initial : Dict PortRef V) : List NodeId :=
  (initial.keys.map (·.nodeId)).eraseDups

/-- The pipelines of a run. -/
def pipelinesOf (context : ExecutionContext N V) (g : PhysicalGraph N) (initial : Dict PortRef V) :
    Pipelines N :=
  if context.pipelined then buildPipelines g (completedOf initial) else .empty

/-- The value of the output at the root. -/
def rootValue (g : PhysicalGraph N) (state : RunState N V) : Except RunError (V × RunState N V) :=
  match state.values.get? g.root with
  | none => .error (.missingValue g.root)
  | some value => .ok (value, state)

/-- Run a graph from supplied outputs. -/
def run (context : ExecutionContext N V) (g : PhysicalGraph N) (initial : Dict PortRef V) :
    Except RunError (V × RunState N V) :=
  match g.validate (some context.keys) with
  | .error error => .error (.invalid error)
  | .ok () => do
    let state ← g.topologicalNodes.foldlM (runNode context (pipelinesOf context g initial)) ⟨initial, []⟩
    rootValue g state

/-! ## What is read and kept -/

variable {context : ExecutionContext N V} {g : PhysicalGraph N} {pipelines : Pipelines N}
  {initial values : Dict PortRef V} {node : N}

/-- A loop of fallible steps succeeds where each step does. -/
lemma mapM_ok_iff {α β ε : Type} {f : α → Except ε β} {l : List α} :
    (∃ r, l.mapM f = .ok r) ↔ ∀ x ∈ l, ∃ y, f x = .ok y := by
  induction l with
  | nil => exact ⟨fun _ _ h => absurd h List.not_mem_nil, fun _ => ⟨[], rfl⟩⟩
  | cons x l ih =>
    rw [List.forall_mem_cons, ← ih, List.mapM_cons]
    constructor
    · rintro ⟨r, hr⟩
      cases hx : f x with
      | error e => rw [hx] at hr; cases hr
      | ok y =>
        cases hl : l.mapM f with
        | error e => rw [hx, hl] at hr; cases hr
        | ok ys => exact ⟨⟨y, rfl⟩, ys, rfl⟩
    · rintro ⟨⟨y, hy⟩, ys, hys⟩
      exact ⟨y :: ys, by rw [hy, hys]; rfl⟩

/-- A node's outputs hold a reference. -/
def Supplies (node : N) (ref : PortRef) : Prop :=
  nodeId node = ref.nodeId ∧ ∃ output ∈ outputs node, output.name = ref.port

/-- The values a node reads from outside some nodes have been computed. -/
def Ready (values : Dict PortRef V) (inside : List NodeId) (node : N) : Prop :=
  ∀ input ∈ inputs node, input.source.nodeId ∉ inside → values.contains input.source

/-- A node's inputs can be read when they have been computed. -/
lemma readInputs_ok {inside : List NodeId} :
    (∃ read, readInputs values inside node = .ok read) ↔ Ready values inside node := by
  unfold readInputs
  rw [mapM_ok_iff]
  constructor
  · intro h input hinput hinside
    obtain ⟨read, hread⟩ := h input (List.mem_filter.2 ⟨hinput, decide_eq_true hinside⟩)
    rw [Dict.contains_iff]
    cases hvalue : values.get? input.source with
    | none => rw [hvalue] at hread; cases hread
    | some value => exact ⟨value, rfl⟩
  · intro h input hinput
    obtain ⟨hinput, hinside⟩ := List.mem_filter.1 hinput
    obtain ⟨value, hvalue⟩ := Dict.contains_iff.1 (h input hinput (of_decide_eq_true hinside))
    exact ⟨(input.name, value), by rw [hvalue]⟩

/-- The ports of a result are the node's. -/
def SamePorts (node : N) (result : List (Port × V)) : Prop :=
  ∀ port, port ∈ result.map Prod.fst ↔ ∃ output ∈ outputs node, output.name = port

/-- The values of a node's own ports are kept. -/
lemma record_ok (values : Dict PortRef V) {result : List (Port × V)} (hports : SamePorts node result) :
    ∃ values', record values node result = .ok values' ∧
      ∀ ref, values'.contains ref ↔ values.contains ref ∨ Supplies node ref := by
  have hsame : (∀ output ∈ outputs node, output.name ∈ result.map Prod.fst) ∧
      ∀ port ∈ result.map Prod.fst, port ∈ (outputs node).map (·.name) :=
    ⟨fun output houtput => (hports _).2 ⟨output, houtput, rfl⟩,
      fun port hport => List.mem_map.2 ((hports port).1 hport)⟩
  refine ⟨_, by rw [record, if_pos hsame], fun ref => ?_⟩
  rw [Dict.contains_iff_mem_keys, Dict.contains_iff_mem_keys, Dict.mem_keys_foldl_set]
  refine or_congr_right ⟨?_, ?_⟩
  · rintro ⟨entry, hentry, rfl⟩
    exact ⟨rfl, (hports _).1 (List.mem_map_of_mem hentry)⟩
  · rintro ⟨hid, houtput⟩
    obtain ⟨entry, hentry, hport⟩ := List.mem_map.1 ((hports _).2 houtput)
    exact ⟨entry, hentry, by rw [hid, hport]⟩

/-- The values of the ports of several nodes are kept. -/
lemma recordAll_ok (values : Dict PortRef V) {results : NodeId → List (Port × V)} {members : List N}
    (hports : ∀ member ∈ members, SamePorts member (results (nodeId member))) :
    ∃ values', members.foldlM (fun values member => record values member (results (nodeId member)))
        values = .ok values' ∧
      ∀ ref, values'.contains ref ↔ values.contains ref ∨ ∃ member ∈ members, Supplies member ref := by
  induction members generalizing values with
  | nil => exact ⟨values, rfl, fun ref => by simp⟩
  | cons member members ih =>
    obtain ⟨hmember, hports⟩ := List.forall_mem_cons.1 hports
    obtain ⟨middle, hmiddle, hfirst⟩ := record_ok values hmember
    obtain ⟨values', hrest, hcontains⟩ := ih middle hports
    refine ⟨values', ?_, fun ref => ?_⟩
    · rw [List.foldlM_cons, hmiddle]
      exact hrest
    · rw [hcontains, hfirst, List.exists_mem_cons_iff, or_assoc]

/-- The runtimes answer the values of their nodes' ports. -/
structure ReturnsPorts (context : ExecutionContext N V) : Prop where
  execute : ∀ node read, SamePorts node (context.execute node read)
  runPipeline : ∀ pipeline : List N, (pipeline.map nodeId).Nodup → ∀ read, ∀ member ∈ pipeline,
    SamePorts member (context.runPipeline pipeline read (nodeId member))

/-- A pipeline runs when the values its members read from outside have been computed. -/
lemma runMembers_ok (hports : ReturnsPorts context) {pipeline : List N}
    (hnodup : (pipeline.map nodeId).Nodup)
    (hready : ∀ member ∈ pipeline, Ready values (pipeline.map nodeId) member) :
    ∃ values', runMembers context values pipeline = .ok values' ∧
      ∀ ref, values'.contains ref ↔ values.contains ref ∨ ∃ member ∈ pipeline, Supplies member ref := by
  obtain ⟨read, hread⟩ : ∃ read, pipeline.mapM (fun member =>
      (readInputs values (pipeline.map nodeId) member).map fun read => (nodeId member, read)) =
        .ok read := by
    rw [mapM_ok_iff]
    intro member hmember
    obtain ⟨read, hread⟩ := readInputs_ok.2 (hready member hmember)
    exact ⟨(nodeId member, read), by rw [hread]; rfl⟩
  obtain ⟨values', hvalues, hcontains⟩ :=
    recordAll_ok values (hports.runPipeline pipeline hnodup read)
  refine ⟨values', ?_, hcontains⟩
  unfold runMembers
  rw [hread]
  exact hvalues

/-- A pipeline that runs had the values its members read from outside. -/
lemma runMembers_ready {pipeline : List N} {values' : Dict PortRef V}
    (h : runMembers context values pipeline = .ok values') :
    ∀ member ∈ pipeline, Ready values (pipeline.map nodeId) member := by
  intro member hmember
  unfold runMembers at h
  cases hread : pipeline.mapM (fun member =>
      (readInputs values (pipeline.map nodeId) member).map fun read => (nodeId member, read)) with
  | error e => rw [hread] at h; cases h
  | ok read =>
    obtain ⟨entry, hentry⟩ := mapM_ok_iff.1 ⟨read, hread⟩ member hmember
    refine readInputs_ok.1 ?_
    cases hmem : readInputs values (pipeline.map nodeId) member with
    | error e => rw [hmem] at hentry; cases hentry
    | ok read => exact ⟨read, rfl⟩

end Quail.Physical
