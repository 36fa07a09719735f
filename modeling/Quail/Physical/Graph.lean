import Quail.Lib.Topological
import Quail.Lib.Dict

/-!
# Physical graphs

The nodes, ports and graph of `physical/base.py`: what a node says of itself, what `validate` checks,
and the order of `topological_nodes`.
-/

namespace Quail.Physical
open Topological

abbrev NodeId := String
abbrev Port := String
abbrev Alias := String

/-- What a port carries. -/
inductive ValueType
  | filterAnswers
  | joinAnswers
  | labelAnswers
  | extractAnswers
  | pairs
  | rows
  | any
  deriving DecidableEq

/-- A reference to one output port on another node. -/
structure PortRef where
  nodeId : NodeId
  port : Port
  deriving DecidableEq

/-- A named input and the output port that supplies it. -/
structure InputPort where
  name : String
  valueType : ValueType
  source : PortRef
  schema : List String

/-- A named output produced by a node. -/
structure OutputPort where
  name : Port
  valueType : ValueType
  schema : List String

/-- What a node of a graph says of itself: its ports, its runtime, its model backend, the alias it can
process one document at a time (no node has several), and which operators it can follow and precede. -/
class PhysicalNode (N : Type) where
  nodeId : N → NodeId
  inputs : N → List InputPort
  outputs : N → List OutputPort
  runtimeKey : N → String
  backend : N → Option String
  documentAlias : N → Option Alias
  documentOutputs : N → Alias → List Port
  canFollow : N → N → N → Bool
  canPrecede : N → N → Bool
  isJoin : N → Bool
  isClassify : N → Bool
  joinAnswers : N → Port
  classifiesJoin : N → N → Bool

open PhysicalNode

/-- Why a graph is invalid. -/
inductive GraphValidationError
  | duplicateId (id : NodeId)
  | missingOutput (reader : NodeId) (source : PortRef)
  | wrongType (reader : NodeId) (input : String) (expected actual : ValueType)
  | wrongSchema (reader : NodeId) (input : String)
  | missingRoot (root : PortRef)
  | cycle
  | unregistered (missing : List String)

/-- An immutable graph of typed nodes. -/
structure PhysicalGraph (N : Type) where
  nodes : List N
  root : PortRef

namespace PhysicalGraph

variable {N : Type} [PhysicalNode N]

/-- The node of an id. -/
def node? (g : PhysicalGraph N) (id : NodeId) : Option N := g.nodes.find? fun node => nodeId node == id

/-- The ids of the nodes. -/
def ids (g : PhysicalGraph N) : List NodeId := g.nodes.map nodeId

/-- The output at a port. -/
def output? (g : PhysicalGraph N) (ref : PortRef) : Option OutputPort :=
  (g.node? ref.nodeId).bind fun node => (outputs node).find? fun output => output.name == ref.port

/-- The type of an output: the last one's, where a node has several of a name. -/
def outputType? (g : PhysicalGraph N) (ref : PortRef) : Option ValueType :=
  (g.node? ref.nodeId).bind fun node =>
    ((outputs node).reverse.find? fun output => output.name == ref.port).map (·.valueType)

/-- The nodes a node reads from. -/
def sources (g : PhysicalGraph N) (id : NodeId) : List NodeId :=
  match g.node? id with
  | none => []
  | some node => (inputs node).map fun input => input.source.nodeId

/-- No id is used twice. -/
def checkIds : List NodeId → List NodeId → Except GraphValidationError Unit
  | _, [] => .ok ()
  | seen, id :: ids => if id ∈ seen then .error (.duplicateId id) else checkIds (id :: seen) ids

/-- An input reads an output of its type and schema. -/
def checkInput (g : PhysicalGraph N) (reader : N) (input : InputPort) :
    Except GraphValidationError Unit :=
  match g.outputType? input.source with
  | none => .error (.missingOutput (nodeId reader) input.source)
  | some actual =>
    if input.valueType ≠ .any ∧ actual ≠ .any ∧ input.valueType ≠ actual then
      .error (.wrongType (nodeId reader) input.name input.valueType actual)
    else
      let schema := ((g.output? input.source).map (·.schema)).getD []
      if input.schema ≠ [] ∧ schema ≠ [] ∧ input.schema ≠ schema then
        .error (.wrongSchema (nodeId reader) input.name)
      else .ok ()

/-- The root reads an output. -/
def checkRoot (g : PhysicalGraph N) : Except GraphValidationError Unit :=
  if (g.outputType? g.root).isNone then .error (.missingRoot g.root) else .ok ()

/-- No node reads, through others, from itself: a chain of distinct nodes is no longer than the graph. -/
def checkCycles (g : PhysicalGraph N) : Except GraphValidationError Unit :=
  if (checkAll g.sources (g.nodes.length + 1) g.ids).isNone then .error .cycle else .ok ()

/-- Every node has a runtime. -/
def checkRuntimes (g : PhysicalGraph N) (runtimeKeys : Option (List String)) :
    Except GraphValidationError Unit :=
  match runtimeKeys with
  | none => .ok ()
  | some keys =>
    let missing := (g.nodes.map runtimeKey).filter fun key => decide (key ∉ keys)
    if missing.isEmpty then .ok () else .error (.unregistered missing)

/-- Check ids, ports, types, root, cycles, and runtimes. -/
def validate (g : PhysicalGraph N) (runtimeKeys : Option (List String)) :
    Except GraphValidationError Unit := do
  checkIds [] g.ids
  g.nodes.forM fun node => (inputs node).forM (g.checkInput node)
  g.checkRoot
  g.checkCycles
  g.checkRuntimes runtimeKeys

/-- The nodes ordered after all their inputs. -/
def topologicalNodes (g : PhysicalGraph N) : List N :=
  (visitAll g.sources (g.nodes.length + 1) g.ids).filterMap g.node?

/-! ## What is accepted -/

/-- A graph whose ids are distinct, whose inputs and root exist, and that has no cycle. -/
structure Accepted (g : PhysicalGraph N) : Prop where
  nodup : g.ids.Nodup
  reads : ∀ node ∈ g.nodes, ∀ input ∈ inputs node, (g.output? input.source).isSome
  root : (g.output? g.root).isSome
  acyclic : (checkAll g.sources (g.nodes.length + 1) g.ids).isSome

lemma checkIds_ok {seen ids : List NodeId} (h : checkIds seen ids = .ok ()) :
    ids.Nodup ∧ ∀ id ∈ ids, id ∉ seen := by
  induction ids generalizing seen with
  | nil => exact ⟨List.nodup_nil, fun _ h => absurd h List.not_mem_nil⟩
  | cons id ids ih =>
    rw [checkIds] at h
    split_ifs at h with hid
    obtain ⟨hnodup, hfresh⟩ := ih h
    refine ⟨List.nodup_cons.2 ⟨fun hmem => hfresh id hmem List.mem_cons_self, hnodup⟩,
      List.forall_mem_cons.2 ⟨hid, fun other hother hmem => ?_⟩⟩
    exact hfresh other hother (List.mem_cons_of_mem _ hmem)

lemma isSome_outputType? {g : PhysicalGraph N} {ref : PortRef} :
    (g.outputType? ref).isSome = (g.output? ref).isSome := by
  unfold outputType? output?
  cases g.node? ref.nodeId with
  | none => rfl
  | some node =>
    rw [Option.bind_some, Option.bind_some, Option.isSome_map, Bool.eq_iff_iff, List.find?_isSome,
      List.find?_isSome]
    simp only [List.mem_reverse]

lemma checkInput_ok {g : PhysicalGraph N} {reader : N} {input : InputPort}
    (h : g.checkInput reader input = .ok ()) : (g.output? input.source).isSome := by
  unfold checkInput at h
  rw [← isSome_outputType?]
  cases hout : g.outputType? input.source with
  | none => rw [hout] at h; cases h
  | some actual => rfl

lemma checkRoot_ok {g : PhysicalGraph N} (h : g.checkRoot = .ok ()) : (g.output? g.root).isSome := by
  unfold checkRoot at h
  rw [← isSome_outputType?]
  cases hout : g.outputType? g.root with
  | none => rw [hout] at h; cases h
  | some actual => rfl

/-- A loop of checks succeeds where each check does. -/
lemma forM_ok {α ε : Type} {f : α → Except ε Unit} {l : List α} (h : l.forM f = .ok ()) :
    ∀ x ∈ l, f x = .ok () := by
  induction l with
  | nil => exact fun _ h => absurd h List.not_mem_nil
  | cons x l ih =>
    rw [List.forM_eq_forM, List.forM_cons] at h
    cases hx : f x with
    | error e => rw [hx] at h; cases h
    | ok u => rw [hx] at h; exact List.forall_mem_cons.2 ⟨hx, ih h⟩

/-- A valid graph is accepted. -/
theorem validate_ok {g : PhysicalGraph N} {runtimeKeys : Option (List String)}
    (h : g.validate runtimeKeys = .ok ()) : g.Accepted := by
  unfold validate at h
  cases hids : checkIds [] g.ids with
  | error e => rw [hids] at h; cases h
  | ok u =>
    cases hinputs : g.nodes.forM fun node => (inputs node).forM (g.checkInput node) with
    | error e => rw [hids, hinputs] at h; cases h
    | ok u =>
      cases hroot : g.checkRoot with
      | error e => rw [hids, hinputs, hroot] at h; cases h
      | ok u =>
        refine ⟨(checkIds_ok hids).1, fun node hnode input hinput => ?_, checkRoot_ok hroot, ?_⟩
        · exact checkInput_ok (forM_ok (forM_ok hinputs node hnode) input hinput)
        · rw [hids, hinputs, hroot] at h
          unfold checkCycles at h
          rw [← Option.isNone_eq_false_iff]
          by_contra hcycle
          rw [Bool.not_eq_false] at hcycle
          rw [if_pos hcycle] at h
          cases h

namespace Accepted

variable {g : PhysicalGraph N}

/-- The ids in the order of `topological_nodes`. -/
def order (g : PhysicalGraph N) : List NodeId := visitAll g.sources (g.nodes.length + 1) g.ids

lemma node?_mem {id : NodeId} {node : N} (h : g.node? id = some node) :
    node ∈ g.nodes ∧ nodeId node = id :=
  ⟨List.mem_of_find?_eq_some h, by simpa using List.find?_some h⟩

/-- A node of the graph is the node of its id. -/
lemma node?_eq (h : g.Accepted) {node : N} (hnode : node ∈ g.nodes) :
    g.node? (nodeId node) = some node := by
  obtain ⟨found, hfound⟩ : ∃ found, g.node? (nodeId node) = some found :=
    Option.isSome_iff_exists.1 (List.find?_isSome.2 ⟨node, hnode, beq_self_eq_true _⟩)
  obtain ⟨hmem, hid⟩ := node?_mem hfound
  rw [hfound, List.inj_on_of_nodup_map h.nodup hmem hnode hid]

lemma mem_ids {id : NodeId} : id ∈ g.ids ↔ ∃ node, g.node? id = some node := by
  constructor
  · intro h
    obtain ⟨node, hnode, rfl⟩ := List.mem_map.1 h
    exact Option.isSome_iff_exists.1 (List.find?_isSome.2 ⟨node, hnode, beq_self_eq_true _⟩)
  · rintro ⟨node, hnode⟩
    obtain ⟨hmem, rfl⟩ := node?_mem hnode
    exact List.mem_map_of_mem hmem

/-- An input reads from a node of the graph. -/
lemma source_of_input (h : g.Accepted) {node : N} (hnode : node ∈ g.nodes) {input : InputPort}
    (hinput : input ∈ inputs node) : ∃ source ∈ g.nodes, nodeId source = input.source.nodeId := by
  obtain ⟨output, houtput⟩ := Option.isSome_iff_exists.1 (h.reads node hnode input hinput)
  obtain ⟨source, hsource, -⟩ := Option.bind_eq_some_iff.1 houtput
  exact ⟨source, (node?_mem hsource).1, (node?_mem hsource).2⟩

/-- The nodes a node of the graph reads from. -/
lemma mem_sources (h : g.Accepted) {node : N} (hnode : node ∈ g.nodes) {source : NodeId} :
    source ∈ g.sources (nodeId node) ↔ ∃ input ∈ inputs node, input.source.nodeId = source := by
  rw [sources, h.node?_eq hnode]
  exact List.mem_map

/-- A node reads from nodes of the graph. -/
lemma sources_mem (h : g.Accepted) {id source : NodeId} (hs : source ∈ g.sources id) :
    source ∈ g.ids := by
  unfold sources at hs
  cases hid : g.node? id with
  | none => rw [hid] at hs; cases hs
  | some node =>
    rw [hid] at hs
    obtain ⟨input, hinput, rfl⟩ := List.mem_map.1 hs
    obtain ⟨found, hfound, heq⟩ := h.source_of_input (node?_mem hid).1 hinput
    exact heq ▸ List.mem_map_of_mem hfound

/-- The order lists the ids once each, after those they read from. -/
lemma order_spec (h : g.Accepted) :
    Ordered g.sources (order g) ∧ (order g).Nodup ∧ ∀ id, id ∈ order g ↔ id ∈ g.ids := by
  obtain ⟨l, hl⟩ := Option.isSome_iff_exists.1 h.acyclic
  obtain ⟨hordered, hnodup, hall, hvisit⟩ := checkAll_spec hl
  rw [order, hvisit]
  refine ⟨hordered, hnodup, fun id => ⟨fun hid => ?_, hall id⟩⟩
  rw [← hvisit] at hid
  exact visitAll_within (fun _ _ _ hs => h.sources_mem hs) (fun _ hx => hx) id hid

lemma map_topologicalNodes (h : g.Accepted) : g.topologicalNodes.map nodeId = order g := by
  rw [topologicalNodes, List.map_filterMap, ← order]
  have hnode : ∀ id ∈ order g, (g.node? id).map nodeId = some id := by
    intro id hid
    obtain ⟨node, hnode⟩ := mem_ids.1 (((h.order_spec).2.2 id).1 hid)
    rw [hnode, Option.map_some, (node?_mem hnode).2]
  rw [List.filterMap_congr hnode, List.filterMap_some]

end Accepted

end PhysicalGraph

end Quail.Physical
