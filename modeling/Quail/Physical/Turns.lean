import Quail.Physical.Runner
import Quail.Physical.Nodes

/-!
# What a run executes, and when

A run comes to the nodes in the order of `topological_nodes` and executes a pipeline at its last member's
place. Every value is there when it is read exactly if that place comes after what the members read from
outside, and before what reads them.
-/

namespace Quail.Physical
open Topological PhysicalNode PhysicalGraph

variable {N V : Type} [PhysicalNode N] {context : ExecutionContext N V} {g : PhysicalGraph N}
  {pipelines : Pipelines N} {initial values : Dict PortRef V} {node : N}

/-! ## One node -/

/-- The group a run executes at a node: a pipeline at its last member, a node alone unless its outputs are
supplied. -/
def due (pipelines : Pipelines N) (completed : List NodeId) (node : N) : Option (List N) :=
  match pipelines.get? (nodeId node) with
  | some pipeline =>
    if pipeline.getLast?.map nodeId = some (nodeId node) then some pipeline else none
  | none => if nodeId node ∈ completed then none else some [node]

/-- The nodes executed when a run has come to some nodes. -/
def produced (pipelines : Pipelines N) (completed : List NodeId) (nodes : List N) : List N :=
  (nodes.filterMap (due pipelines completed)).flatten

/-- The supplied outputs are all the outputs of some nodes. -/
def Full (g : PhysicalGraph N) (initial : Dict PortRef V) : Prop :=
  ∀ ref, initial.contains ref → ∃ node ∈ g.nodes, Supplies node ref ∧
    ∀ output ∈ outputs node, initial.contains ⟨nodeId node, output.name⟩

/-- A value is there when a run has come to some nodes. -/
def Available (pipelines : Pipelines N) (initial : Dict PortRef V) (nodes : List N) (ref : PortRef) : Prop :=
  initial.contains ref ∨ ∃ member ∈ produced pipelines (completedOf initial) nodes, Supplies member ref

/-- The state of a run that has come to some nodes. -/
structure After (pipelines : Pipelines N) (initial : Dict PortRef V) (nodes : List N)
    (state : RunState N V) : Prop where
  ran : state.ran = nodes.filterMap (due pipelines (completedOf initial))
  values : ∀ ref, state.values.contains ref ↔ Available pipelines initial nodes ref

/-- What the group due at a node reads from outside is there. -/
def DueReady (pipelines : Pipelines N) (initial : Dict PortRef V) (before : List N) (node : N) : Prop :=
  ∀ group, due pipelines (completedOf initial) node = some group → ∀ member ∈ group,
    ∀ input ∈ inputs member, input.source.nodeId ∉ group.map nodeId →
      Available pipelines initial before input.source

lemma mem_completedOf {id : NodeId} :
    id ∈ completedOf initial ↔ ∃ ref, initial.contains ref ∧ ref.nodeId = id := by
  unfold completedOf
  rw [List.mem_eraseDups, List.mem_map]
  simp only [Dict.contains_iff_mem_keys]

/-- A node reads nothing of its own. -/
lemma source_ne (hg : g.Accepted) (hnode : node ∈ g.nodes) {input : InputPort}
    (hinput : input ∈ inputs node) : input.source.nodeId ≠ nodeId node := by
  intro heq
  obtain ⟨hordered, hnodup, hmem⟩ := hg.order_spec
  obtain ⟨before, after, horder⟩ := List.append_of_mem ((hmem _).2 (List.mem_map_of_mem hnode))
  have hbefore : nodeId node ∈ before :=
    hordered before _ after horder _ ((hg.mem_sources hnode).2 ⟨input, hinput, heq⟩)
  rw [horder] at hnodup
  exact (List.nodup_append.1 hnodup).2.2 _ hbefore _ List.mem_cons_self rfl

/-- The outputs of a completed node are supplied. -/
lemma Full.outputs_mem (hg : g.Accepted) (hfull : Full g initial) (hnode : node ∈ g.nodes)
    (hcompleted : nodeId node ∈ completedOf initial) {ref : PortRef} (hs : Supplies node ref) :
    initial.contains ref := by
  obtain ⟨other, hother, hid⟩ := mem_completedOf.1 hcompleted
  obtain ⟨found, hfound, hsupplies, hall⟩ := hfull other hother
  obtain rfl : found = node :=
    List.inj_on_of_nodup_map hg.nodup hfound hnode (hsupplies.1.trans hid)
  obtain ⟨heq, output, houtput, hport⟩ := hs
  have := hall output houtput
  rwa [heq, hport] at this

/-- A completed node has outputs. -/
lemma Full.exists_output (hg : g.Accepted) (hfull : Full g initial) (hnode : node ∈ g.nodes)
    (hcompleted : nodeId node ∈ completedOf initial) : ∃ output, output ∈ outputs node := by
  obtain ⟨other, hother, hid⟩ := mem_completedOf.1 hcompleted
  obtain ⟨found, hfound, hsupplies, -⟩ := hfull other hother
  obtain rfl : found = node :=
    List.inj_on_of_nodup_map hg.nodup hfound hnode (hsupplies.1.trans hid)
  obtain ⟨-, output, houtput, -⟩ := hsupplies
  exact ⟨output, houtput⟩

/-- A node in no pipeline has not been executed before the run comes to it. -/
lemma not_produced (hp : Parted g pipelines) {completed : List NodeId} {nodes : List N}
    (hnone : pipelines.get? (nodeId node) = none) (hfresh : nodeId node ∉ nodes.map nodeId) :
    ∀ member ∈ produced pipelines completed nodes, nodeId member ≠ nodeId node := by
  intro member hmember heq
  obtain ⟨group, hgroup, hmember⟩ := List.mem_flatten.1 hmember
  obtain ⟨other, hother, hdue⟩ := List.mem_filterMap.1 hgroup
  unfold due at hdue
  cases hget : pipelines.get? (nodeId other) with
  | some pipeline =>
    rw [hget] at hdue
    dsimp only at hdue
    split_ifs at hdue
    cases hdue
    have hone := hp.one _ _ hget member hmember
    rw [heq, hnone] at hone
    cases hone
  | none =>
    rw [hget] at hdue
    dsimp only at hdue
    split_ifs at hdue
    cases hdue
    obtain rfl := List.mem_singleton.1 hmember
    exact hfresh (heq ▸ List.mem_map_of_mem hother)

lemma produced_concat {completed : List NodeId} {nodes : List N} : produced pipelines completed (nodes ++ [node]) =
    produced pipelines completed nodes ++ (due pipelines completed node).toList.flatten := by
  unfold produced
  rw [List.filterMap_append, List.flatten_append]
  cases hdue : due pipelines completed node with
  | none => rw [List.filterMap_cons_none hdue]; rfl
  | some group => rw [List.filterMap_cons_some hdue]; rfl

/-- Executing the group due at a node makes its outputs available. -/
lemma After.concat {nodes : List N} {state : RunState N V} (h : After pipelines initial nodes state)
    {group : List N} (hdue : due pipelines (completedOf initial) node = some group)
    {values : Dict PortRef V} (hvalues : ∀ ref, values.contains ref ↔
      state.values.contains ref ∨ ∃ member ∈ group, Supplies member ref) :
    After pipelines initial (nodes ++ [node]) ⟨values, state.ran ++ [group]⟩ := by
  refine ⟨?_, fun ref => ?_⟩
  · rw [List.filterMap_append, List.filterMap_cons_some hdue, List.filterMap_nil, h.ran]
  · rw [hvalues, h.values, Available, Available, produced_concat, hdue, or_assoc]
    refine or_congr_right ?_
    simp only [Option.toList_some, List.flatten_cons, List.flatten_nil, List.append_nil, List.mem_append]
    constructor
    · rintro (⟨member, hmember, hs⟩ | ⟨member, hmember, hs⟩)
      · exact ⟨member, .inl hmember, hs⟩
      · exact ⟨member, .inr hmember, hs⟩
    · rintro ⟨member, hmember | hmember, hs⟩
      · exact .inl ⟨member, hmember, hs⟩
      · exact .inr ⟨member, hmember, hs⟩

/-- Where nothing is due at a node, nothing becomes available. -/
lemma After.skip {nodes : List N} {state : RunState N V} (h : After pipelines initial nodes state)
    (hdue : due pipelines (completedOf initial) node = none) {values : Dict PortRef V}
    (hvalues : ∀ ref, values.contains ref ↔ state.values.contains ref) :
    After pipelines initial (nodes ++ [node]) ⟨values, state.ran⟩ := by
  refine ⟨?_, fun ref => ?_⟩
  · rw [List.filterMap_append, List.filterMap_cons_none hdue, List.filterMap_nil, List.append_nil, h.ran]
  · rw [hvalues, h.values, Available, Available, produced_concat, hdue]
    simp only [Option.toList_none, List.flatten_nil, List.append_nil]

lemma mem_supplied {port : Port} :
    port ∈ (supplied values node).map Prod.fst ↔
      ∃ output ∈ outputs node, output.name = port ∧ values.contains ⟨nodeId node, port⟩ := by
  unfold supplied
  rw [List.mem_map]
  constructor
  · rintro ⟨entry, hentry, rfl⟩
    obtain ⟨output, houtput, hvalue⟩ := List.mem_filterMap.1 hentry
    obtain ⟨value, hget, rfl⟩ := Option.map_eq_some_iff.1 hvalue
    exact ⟨output, houtput, rfl, Dict.contains_iff.2 ⟨value, hget⟩⟩
  · rintro ⟨output, houtput, rfl, hcontains⟩
    obtain ⟨value, hget⟩ := Dict.contains_iff.1 hcontains
    exact ⟨(output.name, value), List.mem_filterMap.2 ⟨output, houtput, by rw [hget]; rfl⟩, rfl⟩

/-- A completed node is not executed. -/
lemma runSingle_completed (hg : g.Accepted) (hfull : Full g initial) (hnode : node ∈ g.nodes)
    (hcompleted : nodeId node ∈ completedOf initial) (hnone : pipelines.get? (nodeId node) = none)
    {nodes : List N} {state : RunState N V} (h : After pipelines initial nodes state) :
    ∃ state', runSingle context state node = .ok state' ∧
      After pipelines initial (nodes ++ [node]) state' := by
  have hall : ∀ output ∈ outputs node, state.values.contains ⟨nodeId node, output.name⟩ :=
    fun output houtput => (h.values _).2
      (.inl (hfull.outputs_mem hg hnode hcompleted ⟨rfl, output, houtput, rfl⟩))
  have hports : SamePorts node (supplied state.values node) := by
    intro port
    rw [mem_supplied]
    refine ⟨Exists.imp fun output h => ⟨h.1, h.2.1⟩, ?_⟩
    rintro ⟨output, houtput, rfl⟩
    exact ⟨output, houtput, rfl, hall output houtput⟩
  obtain ⟨output, houtput⟩ := hfull.exists_output hg hnode hcompleted
  have hsome : ¬(supplied state.values node).isEmpty := by
    intro hempty
    have hmem := (hports output.name).2 ⟨output, houtput, rfl⟩
    rw [List.isEmpty_iff.1 hempty] at hmem
    cases hmem
  have hcomplete : ¬∃ output ∈ outputs node, state.values.get? ⟨nodeId node, output.name⟩ = none := by
    rintro ⟨output, houtput, hget⟩
    have hcontains := hall output houtput
    rw [Dict.contains_eq_false.2 hget] at hcontains
    cases hcontains
  obtain ⟨values', hrecord, hvalues⟩ := record_ok state.values hports
  refine ⟨⟨values', state.ran⟩, ?_, h.skip ?_ fun ref => ?_⟩
  · rw [runSingle, if_neg hsome, if_neg hcomplete, hrecord]
    rfl
  · rw [due, hnone]
    exact if_pos hcompleted
  · rw [hvalues, or_iff_left_iff_imp]
    rintro ⟨hid, output, houtput, hport⟩
    have := hall output houtput
    rwa [hid, hport] at this

/-- A node that is not completed is executed when its inputs are there. -/
lemma runSingle_due (hg : g.Accepted) (hp : Parted g pipelines) (hports : ReturnsPorts context)
    (hnode : node ∈ g.nodes) (hcompleted : nodeId node ∉ completedOf initial)
    (hnone : pipelines.get? (nodeId node) = none) {nodes : List N}
    (hfresh : nodeId node ∉ nodes.map nodeId) {state : RunState N V}
    (h : After pipelines initial nodes state) :
    (∃ state', runSingle context state node = .ok state' ∧
        After pipelines initial (nodes ++ [node]) state' ∧ DueReady pipelines initial nodes node) ∨
      (∃ error, runSingle context state node = .error error) ∧ ¬DueReady pipelines initial nodes node := by
  have hdue : due pipelines (completedOf initial) node = some [node] := by
    rw [due, hnone]
    exact if_neg hcompleted
  -- the node has not been executed, so none of its outputs has a value
  have hempty : (supplied state.values node).isEmpty := by
    rw [List.isEmpty_iff, ← List.map_eq_nil_iff (f := Prod.fst), List.eq_nil_iff_forall_not_mem]
    intro port hport
    obtain ⟨output, -, -, hcontains⟩ := mem_supplied.1 hport
    obtain hinitial | ⟨member, hmember, hs⟩ := (h.values _).1 hcontains
    · exact hcompleted (mem_completedOf.2 ⟨_, hinitial, rfl⟩)
    · exact not_produced hp hnone hfresh member hmember hs.1
  have hready : DueReady pipelines initial nodes node ↔ Ready state.values [] node := by
    constructor
    · intro hr input hinput _
      refine (h.values _).2 (hr [node] hdue node List.mem_cons_self input hinput ?_)
      exact fun hmem => source_ne hg hnode hinput (List.mem_singleton.1 hmem)
    · intro hr group hgroup member hmember input hinput _
      rw [hdue] at hgroup
      cases hgroup
      obtain rfl := List.mem_singleton.1 hmember
      exact (h.values _).1 (hr input hinput List.not_mem_nil)
  rw [runSingle, if_pos hempty]
  cases hread : readInputs state.values [] node with
  | error e =>
    refine .inr ⟨⟨e, rfl⟩, fun hr => ?_⟩
    obtain ⟨read, hok⟩ := readInputs_ok.2 (hready.1 hr)
    rw [hread] at hok
    cases hok
  | ok read =>
    obtain ⟨values', hrecord, hvalues⟩ := record_ok state.values (hports.execute node read)
    refine .inl ⟨⟨values', state.ran ++ [[node]]⟩, ?_, ?_, hready.2 (readInputs_ok.1 ⟨read, hread⟩)⟩
    · dsimp only [bind, Except.bind]
      rw [hrecord]
      rfl
    · refine h.concat hdue fun ref => ?_
      rw [hvalues]
      simp only [List.mem_singleton, exists_eq_left]

/-- Coming to a node executes the group due there when what it reads from outside is there, and fails
otherwise. -/
lemma runNode_spec (hg : g.Accepted) (hp : Parted g pipelines) (hports : ReturnsPorts context)
    (hfull : Full g initial) (hnode : node ∈ g.nodes) {nodes : List N}
    (hfresh : nodeId node ∉ nodes.map nodeId) {state : RunState N V}
    (h : After pipelines initial nodes state) :
    (∃ state', runNode context pipelines state node = .ok state' ∧
        After pipelines initial (nodes ++ [node]) state' ∧ DueReady pipelines initial nodes node) ∨
      (∃ error, runNode context pipelines state node = .error error) ∧
        ¬DueReady pipelines initial nodes node := by
  unfold runNode
  cases hget : pipelines.get? (nodeId node) with
  | none =>
    by_cases hcompleted : nodeId node ∈ completedOf initial
    · obtain ⟨state', hok, hafter⟩ : ∃ state', runSingle context state node = .ok state' ∧
          After pipelines initial (nodes ++ [node]) state' :=
        runSingle_completed hg hfull hnode hcompleted hget h
      refine .inl ⟨state', hok, hafter, fun group hgroup => ?_⟩
      rw [due, hget] at hgroup
      dsimp only at hgroup
      rw [if_pos hcompleted] at hgroup
      cases hgroup
    · exact runSingle_due hg hp hports hnode hcompleted hget hfresh h
  | some pipeline =>
    dsimp only
    by_cases hlast : pipeline.getLast?.map nodeId = some (nodeId node)
    · have hdue : due pipelines (completedOf initial) node = some pipeline := by
        rw [due, hget]
        exact if_pos hlast
      rw [if_neg (not_not.2 hlast)]
      have hready : DueReady pipelines initial nodes node ↔
          ∀ member ∈ pipeline, Ready state.values (pipeline.map nodeId) member := by
        constructor
        · exact fun hr member hmember input hinput hinside =>
            (h.values _).2 (hr pipeline hdue member hmember input hinput hinside)
        · intro hr group hgroup member hmember input hinput hinside
          rw [hdue] at hgroup
          cases hgroup
          exact (h.values _).1 (hr member hmember input hinput hinside)
      cases hmembers : runMembers context state.values pipeline with
      | error e =>
        refine .inr ⟨⟨e, rfl⟩, fun hr => ?_⟩
        obtain ⟨values', hok, -⟩ := runMembers_ok hports (hp.distinct _ _ hget).2 (hready.1 hr)
        rw [hmembers] at hok
        cases hok
      | ok values' =>
        have hr := runMembers_ready hmembers
        obtain ⟨values'', hok, hvalues⟩ := runMembers_ok hports (hp.distinct _ _ hget).2 hr
        rw [hmembers] at hok
        cases hok
        exact .inl ⟨⟨values', state.ran ++ [pipeline]⟩, rfl, h.concat hdue hvalues, hready.2 hr⟩
    · have hdue : due pipelines (completedOf initial) node = none := by
        rw [due, hget]
        exact if_neg hlast
      rw [if_pos hlast]
      refine .inl ⟨state, rfl, h.skip hdue fun _ => Iff.rfl, fun group hgroup => ?_⟩
      rw [hdue] at hgroup
      cases hgroup

/-! ## A run -/

/-- What each group reads from outside is there when it is due. -/
def EachReady (pipelines : Pipelines N) (initial : Dict PortRef V) (nodes : List N) : Prop :=
  ∀ before node after, nodes = before ++ node :: after → DueReady pipelines initial before node

/-- A run executes every group due when what it reads from outside is there, and fails otherwise. -/
lemma foldlM_runNode_spec (hg : g.Accepted) (hp : Parted g pipelines) (hports : ReturnsPorts context)
    (hfull : Full g initial) {nodes : List N} (hnodes : Distinct g nodes) :
    (∃ state, nodes.foldlM (runNode context pipelines) ⟨initial, []⟩ = .ok state ∧
        After pipelines initial nodes state ∧ EachReady pipelines initial nodes) ∨
      (∃ error, nodes.foldlM (runNode context pipelines) ⟨initial, []⟩ = .error error) ∧
        ¬EachReady pipelines initial nodes := by
  induction nodes using List.reverseRecOn with
  | nil =>
    refine .inl ⟨⟨initial, []⟩, rfl, ⟨rfl, fun ref => ?_⟩, fun before node after heq => by simp at heq⟩
    simp [Available, produced]
  | append_singleton nodes node ih =>
    obtain ⟨hmem, hnodup⟩ := hnodes
    rw [List.map_append, List.nodup_append] at hnodup
    have hnode : node ∈ g.nodes := hmem node (List.mem_append_right _ List.mem_cons_self)
    have hfresh : nodeId node ∉ nodes.map nodeId := fun hin =>
      hnodup.2.2 _ hin _ (List.mem_singleton_self _) rfl
    rw [EachReady, forall_split_concat, List.foldlM_append]
    obtain ⟨state, hok, hafter, hready⟩ | ⟨⟨error, herror⟩, hnot⟩ :=
      ih ⟨fun other hother => hmem other (List.mem_append_left _ hother), hnodup.1⟩
    · rw [hok]
      obtain ⟨state', hok', hafter', hdue⟩ | ⟨⟨error, herror⟩, hnot⟩ :=
        runNode_spec hg hp hports hfull hnode hfresh hafter
      · refine .inl ⟨state', ?_, hafter', hready, hdue⟩
        dsimp only [bind, Except.bind]
        rw [List.foldlM_cons, hok']
        rfl
      · refine .inr ⟨⟨error, ?_⟩, fun h => hnot h.2⟩
        dsimp only [bind, Except.bind]
        rw [List.foldlM_cons, herror]
        rfl
    · exact .inr ⟨⟨error, by rw [herror]; rfl⟩, fun h => hnot h.1⟩

/-! ## Turns -/

/-- The id of the last node of a node's group. -/
def lastOf (pipelines : Pipelines N) (node : N) : NodeId :=
  ((groupOf pipelines node).getLast?.map nodeId).getD (nodeId node)

/-- When a run executes a node: the place of the last node of its group. -/
def turn (g : PhysicalGraph N) (pipelines : Pipelines N) (node : N) : ℕ :=
  (g.topologicalNodes.map nodeId).idxOf (lastOf pipelines node)

/-- Every node is executed after the nodes outside its group that it reads from. -/
def InTurn (g : PhysicalGraph N) (pipelines : Pipelines N) (completed : List NodeId) : Prop :=
  ∀ node ∈ g.nodes, nodeId node ∉ completed → ∀ source ∈ g.nodes, readsFrom node source = true →
    nodeId source ∉ completed → holds (groupOf pipelines node) source = false →
      turn g pipelines source < turn g pipelines node

instance (g : PhysicalGraph N) (pipelines : Pipelines N) (completed : List NodeId) :
    Decidable (InTurn g pipelines completed) :=
  inferInstanceAs (Decidable (∀ node ∈ g.nodes, nodeId node ∉ completed → ∀ source ∈ g.nodes,
    readsFrom node source = true → nodeId source ∉ completed →
      holds (groupOf pipelines node) source = false → turn g pipelines source < turn g pipelines node))

/-- A group that is due is the group of the node and of its members, and ends with the node. -/
lemma due_some (hp : Parted g pipelines) {completed : List NodeId} {group : List N}
    (hdue : due pipelines completed node = some group) :
    groupOf pipelines node = group ∧ lastOf pipelines node = nodeId node ∧
      ∀ member ∈ group, groupOf pipelines member = group ∧ lastOf pipelines member = nodeId node := by
  have hgroup : groupOf pipelines node = group ∧ group.getLast?.map nodeId = some (nodeId node) := by
    unfold due at hdue
    unfold groupOf
    cases hget : pipelines.get? (nodeId node) with
    | some pipeline =>
      rw [hget] at hdue
      dsimp only at hdue
      split_ifs at hdue with hlast
      cases hdue
      exact ⟨rfl, hlast⟩
    | none =>
      rw [hget] at hdue
      dsimp only at hdue
      split_ifs at hdue
      cases hdue
      exact ⟨rfl, rfl⟩
  obtain ⟨rfl, hlast⟩ := hgroup
  refine ⟨rfl, by rw [lastOf, hlast, Option.getD_some], fun member hmember => ?_⟩
  have hsame := hp.groupOf_eq hmember
  exact ⟨hsame, by rw [lastOf, hsame, hlast, Option.getD_some]⟩

/-- The group of a node that is not completed is due at its last node. -/
lemma exists_due (hg : g.Accepted) {completed : List NodeId} (hp : Grouped g completed pipelines)
    (hnode : node ∈ g.nodes) (hcompleted : nodeId node ∉ completed) :
    ∃ last ∈ g.nodes, nodeId last = lastOf pipelines node ∧
      due pipelines completed last = some (groupOf pipelines node) := by
  have hmem := hp.mem_groupOf hg hnode
  obtain ⟨last, hlast⟩ : ∃ last, (groupOf pipelines node).getLast? = some last :=
    ⟨_, List.getLast?_eq_some_getLast (List.ne_nil_of_mem hmem)⟩
  have hin : last ∈ groupOf pipelines node := List.mem_of_getLast? hlast
  refine ⟨last, hp.groupOf_mem hnode hin, by rw [lastOf, hlast]; rfl, ?_⟩
  unfold groupOf at hlast hin ⊢
  cases hget : pipelines.get? (nodeId node) with
  | some pipeline =>
    rw [hget, Option.getD_some] at hlast hin
    rw [due, hp.one _ _ hget last hin]
    exact if_pos (by rw [hlast]; rfl)
  | none =>
    rw [hget, Option.getD_none] at hin
    obtain rfl := List.mem_singleton.1 hin
    rw [due, hget]
    exact if_neg hcompleted

/-- The order of the run lists the nodes of the graph. -/
lemma mem_topologicalNodes (hg : g.Accepted) : node ∈ g.topologicalNodes ↔ node ∈ g.nodes := by
  constructor
  · intro h
    obtain ⟨id, -, hid⟩ := List.mem_filterMap.1 h
    exact (Accepted.node?_mem hid).1
  · intro h
    exact List.mem_filterMap.2 ⟨_, (hg.order_spec.2.2 _).2 (List.mem_map_of_mem h), hg.node?_eq h⟩

lemma topologicalNodes_distinct (hg : g.Accepted) : Distinct g g.topologicalNodes := by
  refine ⟨fun node hnode => (mem_topologicalNodes hg).1 hnode, ?_⟩
  rw [hg.map_topologicalNodes]
  exact hg.order_spec.2.1

/-- An input reads an output of a node of the graph. -/
lemma supplies_of_output {ref : PortRef} (h : (g.output? ref).isSome) :
    ∃ source ∈ g.nodes, Supplies source ref := by
  obtain ⟨output, houtput⟩ := Option.isSome_iff_exists.1 h
  obtain ⟨source, hsource, hfind⟩ := Option.bind_eq_some_iff.1 houtput
  obtain ⟨hmem, hid⟩ := Accepted.node?_mem hsource
  exact ⟨source, hmem, hid, output, List.mem_of_find?_eq_some hfind,
    by simpa using List.find?_some hfind⟩

/-- The nodes of the graph come before a node when their places do. -/
lemma idxOf_topologicalNodes (hg : g.Accepted) {before after : List N}
    (heq : g.topologicalNodes = before ++ node :: after) {id : NodeId} :
    (g.topologicalNodes.map nodeId).idxOf id < (g.topologicalNodes.map nodeId).idxOf (nodeId node) ↔
      id ∈ before.map nodeId := by
  have hnodup := (topologicalNodes_distinct hg).2
  rw [heq, List.map_append, List.map_cons] at hnodup ⊢
  exact idxOf_lt_idxOf hnodup

/-- What each group reads is there when the groups are executed in turn. -/
lemma eachReady_iff (hg : g.Accepted) (hp : Grouped g (completedOf initial) pipelines)
    (hfull : Full g initial) :
    EachReady pipelines initial g.topologicalNodes ↔ InTurn g pipelines (completedOf initial) := by
  constructor
  · intro h node hnode hcompleted source hsource hreads hopen hout
    obtain ⟨last, hlast, hid, hdue⟩ := exists_due hg hp hnode hcompleted
    obtain ⟨before, after, heq⟩ := List.append_of_mem ((mem_topologicalNodes hg).2 hlast)
    obtain ⟨input, hinput, hread⟩ := List.any_eq_true.1 hreads
    have hread : input.source.nodeId = nodeId source := eq_of_beq hread
    rw [turn, turn, ← hid, idxOf_topologicalNodes hg heq]
    have houtside : input.source.nodeId ∉ (groupOf pipelines node).map nodeId := by
      rw [hread, ← holds_iff, hout]
      exact Bool.false_ne_true
    obtain hinitial | ⟨member, hmember, hs⟩ :=
      h before last after heq _ hdue node (hp.mem_groupOf hg hnode) input hinput houtside
    · exact absurd (mem_completedOf.2 ⟨_, hinitial, hread⟩) hopen
    · obtain ⟨group, hgroup, hmember⟩ := List.mem_flatten.1 hmember
      obtain ⟨first, hfirst, hdue'⟩ := List.mem_filterMap.1 hgroup
      obtain ⟨hsame, -, hmembers⟩ := due_some hp.toParted hdue'
      have hfirst' : first ∈ g.nodes :=
        (mem_topologicalNodes hg).1 (heq ▸ List.mem_append_left _ hfirst)
      obtain rfl : member = source := List.inj_on_of_nodup_map hg.nodup
        (hp.groupOf_mem hfirst' (hsame ▸ hmember)) hsource (hs.1.trans hread)
      rw [(hmembers member hmember).2]
      exact List.mem_map_of_mem hfirst
  · intro h before node after heq group hdue member hmember input hinput hinside
    obtain ⟨hsame, -, hmembers⟩ := due_some hp.toParted hdue
    have hnode : node ∈ g.nodes :=
      (mem_topologicalNodes hg).1 (heq ▸ List.mem_append_right _ List.mem_cons_self)
    have hmem : member ∈ g.nodes := hp.groupOf_mem hnode (hsame ▸ hmember)
    obtain ⟨source, hsource, hs⟩ := supplies_of_output (hg.reads member hmem input hinput)
    by_cases hcompleted : nodeId source ∈ completedOf initial
    · exact .inl (hfull.outputs_mem hg hsource hcompleted hs)
    · right
      obtain ⟨last, hlast, hid, hdue'⟩ := exists_due hg hp hsource hcompleted
      have hturn : turn g pipelines source < turn g pipelines member := by
        refine h member hmem (fun hc => ?_) source hsource ?_ hcompleted ?_
        · -- neither a node of a pipeline nor a node due alone is completed
          unfold due at hdue
          cases hget : pipelines.get? (nodeId node) with
          | some pipeline =>
            rw [hget] at hdue
            dsimp only at hdue
            split_ifs at hdue
            cases hdue
            exact hp.open_ _ _ (hp.one _ _ hget member hmember) hc
          | none =>
            rw [hget] at hdue
            dsimp only at hdue
            split_ifs at hdue with hopen
            cases hdue
            exact hopen (List.mem_singleton.1 hmember ▸ hc)
        · exact List.any_eq_true.2 ⟨input, hinput, beq_iff_eq.2 hs.1.symm⟩
        · rw [(hmembers member hmember).1, Bool.eq_false_iff, Ne, holds_iff, hs.1]
          exact hinside
      rw [turn, turn, (hmembers member hmember).2, ← hid, idxOf_topologicalNodes hg heq] at hturn
      obtain ⟨found, hfound, hfid⟩ := List.mem_map.1 hturn
      obtain rfl : found = last := List.inj_on_of_nodup_map hg.nodup
        ((mem_topologicalNodes hg).1 (heq ▸ List.mem_append_left _ hfound)) hlast hfid
      exact ⟨source, List.mem_flatten.2 ⟨_, List.mem_filterMap.2 ⟨found, hfound, hdue'⟩,
        hp.mem_groupOf hg hsource⟩, hs⟩

/-- The nodes that are not completed are executed once each, alone or with their pipelines, after what
they read from outside. -/
structure Executes (g : PhysicalGraph N) (pipelines : Pipelines N) (completed : List NodeId)
    (ran : List (List N)) : Prop where
  groups : ∀ group ∈ ran, ∃ node ∈ g.nodes, group = groupOf pipelines node
  once : (ran.flatten.map nodeId).Nodup
  all : ∀ node ∈ g.nodes, node ∈ ran.flatten ↔ nodeId node ∉ completed
  after : ∀ before group after, ran = before ++ group :: after → ∀ member ∈ group,
    ∀ input ∈ inputs member, input.source.nodeId ∉ group.map nodeId →
      input.source.nodeId ∈ completed ∨ ∃ source ∈ before.flatten, Supplies source input.source

/-- The ids of a node's group are distinct. -/
lemma Parted.groupOf_nodup (h : Parted g pipelines) : ((groupOf pipelines node).map nodeId).Nodup := by
  unfold groupOf
  cases hget : pipelines.get? (nodeId node) with
  | none => exact List.nodup_singleton _
  | some pipeline => exact (h.distinct _ _ hget).2

/-- Groups due at different nodes have no node in common. -/
lemma produced_nodup (hg : g.Accepted) (hp : Parted g pipelines) {completed : List NodeId}
    {nodes : List N} (hnodes : Distinct g nodes) : ((produced pipelines completed nodes).map nodeId).Nodup := by
  unfold produced
  rw [List.map_flatten, List.nodup_flatten]
  constructor
  · intro ids hids
    obtain ⟨group, hgroup, rfl⟩ := List.mem_map.1 hids
    obtain ⟨node, -, hdue⟩ := List.mem_filterMap.1 hgroup
    exact (due_some hp hdue).1 ▸ hp.groupOf_nodup
  · rw [List.pairwise_map, List.pairwise_filterMap]
    refine (List.pairwise_map.1 hnodes.2).imp_of_mem ?_
    intro x y hx hy hne group hgroup group' hgroup' id hid hid'
    obtain ⟨member, hmember, rfl⟩ := List.mem_map.1 hid
    obtain ⟨member', hmember', heq⟩ := List.mem_map.1 hid'
    obtain ⟨hsame, -, hlast⟩ := due_some hp hgroup
    obtain ⟨hsame', -, hlast'⟩ := due_some hp hgroup'
    obtain rfl : member' = member := List.inj_on_of_nodup_map hg.nodup
      (hp.groupOf_mem (hnodes.1 y hy) (hsame' ▸ hmember'))
      (hp.groupOf_mem (hnodes.1 x hx) (hsame ▸ hmember)) heq
    exact hne ((hlast _ hmember).2.symm.trans (hlast' _ hmember').2)

/-- What a run has executed at its end. -/
lemma After.executes (hg : g.Accepted) (hp : Grouped g (completedOf initial) pipelines)
    {state : RunState N V} (h : After pipelines initial g.topologicalNodes state)
    (hready : EachReady pipelines initial g.topologicalNodes) :
    Executes g pipelines (completedOf initial) state.ran := by
  refine ⟨fun group hgroup => ?_, ?_, fun node hnode => ⟨fun hmem hcompleted => ?_, fun hopen => ?_⟩, ?_⟩
  · rw [h.ran] at hgroup
    obtain ⟨node, hnode, hdue⟩ := List.mem_filterMap.1 hgroup
    exact ⟨node, (mem_topologicalNodes hg).1 hnode, (due_some hp.toParted hdue).1.symm⟩
  · rw [h.ran]
    exact produced_nodup hg hp.toParted (topologicalNodes_distinct hg)
  · rw [h.ran] at hmem
    obtain ⟨group, hgroup, hmem⟩ := List.mem_flatten.1 hmem
    obtain ⟨last, -, hdue⟩ := List.mem_filterMap.1 hgroup
    have hsame := ((due_some hp.toParted hdue).2.2 node hmem).1
    unfold due at hdue
    cases hget : pipelines.get? (nodeId last) with
    | some pipeline =>
      rw [hget] at hdue
      dsimp only at hdue
      split_ifs at hdue
      cases hdue
      exact hp.open_ _ _ (hp.one _ _ hget node hmem) hcompleted
    | none =>
      rw [hget] at hdue
      dsimp only at hdue
      split_ifs at hdue with hopen
      cases hdue
      exact hopen (List.mem_singleton.1 hmem ▸ hcompleted)
  · obtain ⟨last, hlast, -, hdue⟩ := exists_due hg hp hnode hopen
    rw [h.ran]
    exact List.mem_flatten.2 ⟨_, List.mem_filterMap.2 ⟨last, (mem_topologicalNodes hg).2 hlast, hdue⟩,
      hp.mem_groupOf hg hnode⟩
  · intro before group after heq member hmember input hinput hinside
    rw [h.ran] at heq
    obtain ⟨first, last, htopo, rfl, hlast⟩ := List.filterMap_eq_append_iff.1 heq
    obtain ⟨skipped, node, rest, rfl, hskipped, hdue, -⟩ := List.filterMap_eq_cons_iff.1 hlast
    rw [← List.append_assoc] at htopo
    obtain hinitial | ⟨source, hsource, hs⟩ :=
      hready _ node rest htopo group hdue member hmember input hinput hinside
    · exact .inl (mem_completedOf.2 ⟨_, hinitial, rfl⟩)
    · right
      refine ⟨source, ?_, hs⟩
      rwa [produced, List.filterMap_append, List.filterMap_eq_nil_iff.2 hskipped, List.append_nil]
        at hsource

/-- A run ends, with what it executed, exactly when the groups are executed in turn. -/
lemma run_iff (hports : ReturnsPorts context) (hvalid : g.validate (some context.keys) = .ok ())
    (hfull : Full g initial) (hp : Grouped g (completedOf initial) (pipelinesOf context g initial)) :
    (∃ value state, run context g initial = .ok (value, state) ∧
        Executes g (pipelinesOf context g initial) (completedOf initial) state.ran) ↔
      InTurn g (pipelinesOf context g initial) (completedOf initial) := by
  have hg := validate_ok hvalid
  rw [← eachReady_iff hg hp hfull, run, hvalid]
  dsimp only
  obtain ⟨state, hok, hafter, hready⟩ | ⟨⟨error, herror⟩, hnot⟩ :=
    foldlM_runNode_spec hg hp.toParted hports hfull (topologicalNodes_distinct hg)
  · refine iff_of_true ?_ hready
    rw [hok]
    dsimp only [bind, Except.bind]
    -- the root is supplied or has been executed
    obtain ⟨node, hnode, hs⟩ := supplies_of_output hg.root
    obtain ⟨value, hvalue⟩ := Dict.contains_iff.1 <| (hafter.values g.root).2 <| by
      by_cases hcompleted : nodeId node ∈ completedOf initial
      · exact .inl (hfull.outputs_mem hg hnode hcompleted hs)
      · refine .inr ⟨node, ?_, hs⟩
        have hmem := ((hafter.executes hg hp hready).all node hnode).2 hcompleted
        rwa [hafter.ran] at hmem
    exact ⟨value, state, by rw [rootValue, hvalue], hafter.executes hg hp hready⟩
  · refine iff_of_false ?_ hnot
    rintro ⟨value, state, hok, -⟩
    rw [herror] at hok
    cases hok

/-- Pipelines of one node each, or none, leave every node alone. -/
lemma pipelinesOf_grouped (hg : g.Accepted) :
    Grouped g (completedOf initial) (pipelinesOf context g initial) := by
  unfold pipelinesOf
  split_ifs
  · exact buildPipelines_grouped hg _
  · exact ⟨.empty, fun _ _ h => absurd h (by simp), executionGroups_empty hg⟩

/-- Every node of a valid graph is in one pipeline at most, and the groups can run one after another. A run
executes the nodes once each, with every value they read computed before, exactly when the groups are in
turn: the place of a pipeline's last member comes after the places of the groups its members read from. -/
theorem run_executes (hports : ReturnsPorts context)
    (hvalid : g.validate (some context.keys) = .ok ()) (hfull : Full g initial) :
    Parted g (pipelinesOf context g initial) ∧
    (∃ groups, executionGroups g (pipelinesOf context g initial) = some groups ∧
      (∀ node ∈ g.nodes, groupOf (pipelinesOf context g initial) node ∈ groups) ∧ InOrder g groups) ∧
    ((∃ value state, run context g initial = .ok (value, state) ∧
        Executes g (pipelinesOf context g initial) (completedOf initial) state.ran) ↔
      InTurn g (pipelinesOf context g initial) (completedOf initial)) := by
  have hg := validate_ok hvalid
  have hp : Grouped g (completedOf initial) (pipelinesOf context g initial) := pipelinesOf_grouped hg
  obtain ⟨groups, hgroups⟩ := Option.isSome_iff_exists.1 hp.acyclic
  exact ⟨hp.toParted, ⟨groups, hgroups, executionGroups_inOrder hg hp.toParted hgroups⟩,
    run_iff hports hvalid hfull hp⟩

/-- Runtimes that answer every port with no data. -/
def portsContext (keys : List String) : ExecutionContext Node Unit where
  keys
  execute node _ := (outputs node).map fun output => (output.name, ())
  pipelined := true
  runPipeline pipeline _ id :=
    ((pipeline.find? fun member => nodeId member == id).map fun member =>
      (outputs member).map fun output => (output.name, ())).getD []

lemma portsContext_returnsPorts (keys : List String) : ReturnsPorts (portsContext keys) := by
  have hsame : ∀ node : Node, SamePorts node ((outputs node).map fun output => (output.name, ())) := by
    intro node port
    rw [List.map_map, List.mem_map]
    rfl
  refine ⟨fun node _ => hsame node, fun pipeline hnodup _ member hmember => ?_⟩
  obtain ⟨found, hfound⟩ : ∃ found, (pipeline.find? fun other => nodeId other == nodeId member) =
      some found :=
    Option.isSome_iff_exists.1 (List.find?_isSome.2 ⟨member, hmember, beq_self_eq_true _⟩)
  obtain rfl : found = member := List.inj_on_of_nodup_map hnodup (List.mem_of_find?_eq_some hfound)
    hmember (by simpa using List.find?_some hfound)
  unfold portsContext
  dsimp only
  rw [hfound]
  exact hsame found

/-- Two filters of a table, and an exchange of the rows the first keeps. -/
def filters (exchangeLast : Bool) : PhysicalGraph Node :=
  let rows (id : NodeId) : List InputPort := [⟨"input:0", .rows, ⟨id, "rows:a"⟩, []⟩]
  let exchange : Node := ⟨"exchange", rows "first", .exchange "a"⟩
  let second : Node := ⟨"second", rows "first", .aiFilter "a" [1]⟩
  ⟨[⟨"scan", [], .scan "a"⟩, ⟨"first", rows "scan", .aiFilter "a" [1]⟩] ++
    (if exchangeLast then [second, exchange] else [exchange, second]), ⟨"second", "rows:a"⟩⟩

/-- The keys of the runtimes of the filters' graph. -/
def filterKeys : List String := ["quail.scan", "quail.ai_filter", "quail.exchange"]

theorem run_executes_filters : ∃ value state,
    run (portsContext filterKeys) (filters true) .empty = .ok (value, state) ∧
      Executes (filters true) (pipelinesOf (portsContext filterKeys) (filters true) .empty)
        (completedOf (.empty : Dict PortRef Unit)) state.ran :=
  (run_executes (portsContext_returnsPorts _) rfl (fun _ h => absurd h (by simp))).2.2.2
    (by decide)

/-- The exchange is listed between the filters of a pipeline, and reads the rows of the first, which are
computed with the second. -/
theorem run_executes_exchange : (filters false).validate (some filterKeys) = .ok () ∧
    ((buildPipelines (filters false) []).get? "first").map (List.map nodeId) = some ["first", "second"] ∧
    run (portsContext filterKeys) (filters false) .empty = .error (.missingValue ⟨"first", "rows:a"⟩) ∧
    ¬∃ value state, run (portsContext filterKeys) (filters false) .empty = .ok (value, state) ∧
      Executes (filters false) (pipelinesOf (portsContext filterKeys) (filters false) .empty)
        (completedOf (.empty : Dict PortRef Unit)) state.ran := by
  have herror : run (portsContext filterKeys) (filters false) .empty =
      .error (.missingValue ⟨"first", "rows:a"⟩) := rfl
  refine ⟨rfl, rfl, herror, ?_⟩
  rintro ⟨value, state, hok, -⟩
  rw [herror] at hok
  cases hok

end Quail.Physical
