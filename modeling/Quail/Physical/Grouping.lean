import Quail.Physical.Pipelines

/-!
# What the pipelines are

A node is in at most one pipeline, and every pipeline is formed so that the groups can run one after
another.
-/

namespace Quail.Physical
open Topological PhysicalNode PhysicalGraph

variable {N : Type} [PhysicalNode N] {g : PhysicalGraph N} {completed : List NodeId}

/-! ## Continuations -/

lemma consumers_mem {ref : PortRef} {node : N} (h : node ∈ consumers g ref) : node ∈ g.nodes := by
  obtain ⟨other, hother, h⟩ := List.mem_flatMap.1 h
  obtain ⟨input, -, h⟩ := List.mem_filterMap.1 h
  split_ifs at h
  cases h
  exact hother

lemma holds_iff {nodes : List N} {node : N} : holds nodes node = true ↔ nodeId node ∈ nodes.map nodeId := by
  simp [holds]

/-- Nodes of the graph, no id twice. -/
def Distinct (g : PhysicalGraph N) (nodes : List N) : Prop :=
  (∀ node ∈ nodes, node ∈ g.nodes) ∧ (nodes.map nodeId).Nodup

lemma Distinct.append {nodes nodes' : List N} (h : Distinct g nodes) (h' : Distinct g nodes')
    (hfresh : ∀ node ∈ nodes', nodeId node ∉ nodes.map nodeId) : Distinct g (nodes ++ nodes') := by
  refine ⟨fun node hnode => (List.mem_append.1 hnode).elim (h.1 node) (h'.1 node), ?_⟩
  rw [List.map_append, List.nodup_append]
  refine ⟨h.2, h'.2, fun id hid id' hid' heq => ?_⟩
  obtain ⟨node, hnode, rfl⟩ := List.mem_map.1 hid'
  exact hfresh node hnode (heq ▸ hid)

lemma Distinct.sublist {nodes nodes' : List N} (h : Distinct g nodes) (hs : nodes'.Sublist nodes) :
    Distinct g nodes' :=
  ⟨fun node hnode => h.1 node (hs.subset hnode), h.2.sublist (hs.map _)⟩

lemma Distinct.perm {nodes nodes' : List N} (h : Distinct g nodes) (hp : nodes'.Perm nodes) :
    Distinct g nodes' :=
  ⟨fun node hnode => h.1 node (hp.mem_iff.1 hnode), (hp.map _).nodup_iff.2 h.2⟩

lemma Distinct.nil : Distinct g [] := ⟨fun _ h => absurd h List.not_mem_nil, List.nodup_nil⟩

lemma Distinct.singleton {node : N} (h : node ∈ g.nodes) : Distinct g [node] :=
  ⟨fun _ hmem => List.mem_singleton.1 hmem ▸ h, List.nodup_singleton _⟩

lemma following_distinct (node : N) (a : Alias) (first : N) :
    Distinct g (following g completed node a first) := by
  refine List.foldlRecOn _ _ (motive := Distinct g) .nil ?_
  intro found hfound port _
  refine List.foldlRecOn _ _ (motive := Distinct g) hfound ?_
  intro found hfound consumer hconsumer
  split_ifs with h₁ h₂ h₃
  · exact hfound
  · exact hfound
  · refine hfound.append (.singleton (consumers_mem hconsumer)) fun other hother hmem => ?_
    rw [Bool.and_eq_true, Bool.not_eq_true', ← Bool.not_eq_true, holds_iff] at h₃
    exact h₃.2 (List.mem_singleton.1 hother ▸ hmem)
  · exact hfound

lemma continuation_distinct (node : N) (a : Alias) (first : N) :
    Distinct g (continuation g completed node a first) := by
  have hfound : Distinct g (following g completed node a first) := following_distinct node a first
  unfold continuation
  dsimp only
  split_ifs
  · exact .nil
  · exact (hfound.sublist List.filter_sublist).perm (List.perm_insertionSort _ _)
  · exact .nil
  · exact hfound.perm (List.perm_insertionSort _ _)

/-! ## A pipeline being formed -/

/-- The members of a pipeline: nodes followed for the first time, alone or as a group that leaves the
groups acyclic. -/
structure Formed (g : PhysicalGraph N) (pipelines : Pipelines N) (before : List NodeId) (node : N)
    (state : List N × List NodeId) : Prop where
  distinct : Distinct g state.1
  fresh : ∀ member ∈ state.1, nodeId member ∉ before
  followed : state.2 = before ++ state.1.map nodeId
  grouped : state.1 = [node] ∨ canGroup g pipelines state.1

variable {pipelines : Pipelines N} {before : List NodeId} {node : N}

/-- More members, not followed before, that leave the groups acyclic. -/
lemma Formed.extend {members after : List N} {followed : List NodeId}
    (h : Formed g pipelines before node (members, followed)) (hafter : Distinct g after)
    (hfresh : ∀ member ∈ after, nodeId member ∉ followed)
    (hgroup : canGroup g pipelines (members ++ after)) :
    Formed g pipelines before node (members ++ after, followed ++ after.map nodeId) := by
  have hfollowed : followed = before ++ members.map nodeId := h.followed
  refine ⟨h.distinct.append hafter fun member hmember hmem => ?_, fun member hmember hmem => ?_, ?_,
    .inr hgroup⟩
  · exact hfresh member hmember (hfollowed ▸ List.mem_append_right _ hmem)
  · obtain hmember | hmember := List.mem_append.1 hmember
    · exact h.fresh member hmember hmem
    · exact hfresh member hmember (hfollowed ▸ List.mem_append_left _ hmem)
  · rw [hfollowed, List.map_append, List.append_assoc]

lemma grow_formed {a : Alias} {first : N} {fuel : ℕ} {members : List N} {followed : List NodeId}
    (h : Formed g pipelines before node (members, followed)) :
    Formed g pipelines before node (grow g completed pipelines a first fuel members followed) := by
  induction fuel generalizing members followed with
  | zero => exact h
  | succ fuel ih =>
    rw [grow]
    split_ifs with hstop
    · exact h
    · rw [Bool.or_eq_true, not_or, Bool.not_eq_true', Bool.not_eq_false] at hstop
      refine ih (h.extend ?_ (fun member hmember => ?_) hstop.2)
      · exact (continuation_distinct _ _ _).sublist List.filter_sublist
      · exact of_decide_eq_true (List.mem_filter.1 hmember).2

lemma addClassification_formed {state : List N × List NodeId} {join : N}
    (h : Formed g pipelines before node state) :
    Formed g pipelines before node (addClassification g pipelines state join) := by
  unfold addClassification
  dsimp only
  split
  · rename_i candidate hcandidate
    split_ifs with hadd
    · rw [Bool.and_eq_true, decide_eq_true_iff] at hadd
      have hmem : candidate ∈ (consumers g ⟨nodeId join, joinAnswers join⟩).filter fun consumer =>
          isClassify consumer && classifiesJoin consumer join := hcandidate ▸ List.mem_cons_self
      exact h.extend (.singleton (consumers_mem (List.mem_filter.1 hmem).1))
        (fun member hmember => List.mem_singleton.1 hmember ▸ hadd.1) hadd.2
    · exact h
  · exact h

/-! ## Groups -/

lemma get?_addPipeline {members : List N} {id : NodeId} :
    (addPipeline pipelines members).get? id =
      if id ∈ members.map nodeId then some members else pipelines.get? id := by
  have hfold : ∀ rest : List N, ∀ d : Pipelines N,
      (rest.foldl (fun d member => d.set (nodeId member) members) d).get? id =
        if id ∈ rest.map nodeId then some members else d.get? id := by
    intro rest
    induction rest with
    | nil => exact fun d => by simp
    | cons member rest ih =>
      intro d
      rw [List.foldl_cons, ih, Dict.get?_set]
      by_cases hid : nodeId member = id
      · simp [hid]
      · simp [hid, Ne.symm hid]
  exact hfold members pipelines

/-- Pipelines that group the nodes alike give the same groups. -/
lemma executionGroups_congr {pipelines' : Pipelines N}
    (h : ∀ node ∈ g.nodes, groupOf pipelines node = groupOf pipelines' node) :
    executionGroups g pipelines = executionGroups g pipelines' := by
  have howner : ∀ node ∈ g.nodes, ownerOf pipelines node = ownerOf pipelines' node := by
    intro node hnode
    rw [ownerOf, h node hnode, ownerOf]
  have hgroups : groups g pipelines = groups g pipelines' :=
    List.foldl_ext _ _ _ fun d node hnode => by rw [howner node hnode, h node hnode]
  have howners : owners g pipelines = owners g pipelines' :=
    List.foldl_ext _ _ _ fun d node hnode => by rw [howner node hnode]
  have hdependencies : dependencies g pipelines = dependencies g pipelines' := by
    funext owner
    rw [dependencies, dependencies, hgroups, howners]
  rw [executionGroups, executionGroups, hgroups, hdependencies]

/-- Each node of a pipeline is in that pipeline alone. -/
structure Parted (g : PhysicalGraph N) (pipelines : Pipelines N) : Prop where
  distinct : ∀ id pipeline, pipelines.get? id = some pipeline → Distinct g pipeline
  listed : ∀ id pipeline, pipelines.get? id = some pipeline → id ∈ pipeline.map nodeId
  one : ∀ id pipeline, pipelines.get? id = some pipeline →
    ∀ member ∈ pipeline, pipelines.get? (nodeId member) = some pipeline

/-- Each node of a pipeline is in that pipeline alone, no node is completed, and the groups can run one
after another. -/
structure Grouped (g : PhysicalGraph N) (completed : List NodeId) (pipelines : Pipelines N) : Prop
    extends Parted g pipelines where
  open_ : ∀ id pipeline, pipelines.get? id = some pipeline → id ∉ completed
  acyclic : (executionGroups g pipelines).isSome

/-- A pipeline that is formed keeps the pipelines apart and the groups acyclic. -/
lemma Grouped.add (hg : g.Accepted) (h : Grouped g completed pipelines) {before : List NodeId}
    (hbefore : ∀ id, pipelines.contains id → id ∈ before) (hcompleted : completed ⊆ before)
    {state : List N × List NodeId} (hformed : Formed g pipelines before node state) :
    Grouped g completed (addPipeline pipelines state.1) := by
  have hfresh : ∀ member ∈ state.1, pipelines.get? (nodeId member) = none := by
    intro member hmember
    rw [← Dict.contains_eq_false]
    by_contra hcontains
    exact hformed.fresh member hmember (hbefore _ (by simpa using hcontains))
  refine ⟨⟨fun id pipeline hget => ?_, fun id pipeline hget => ?_, fun id pipeline hget => ?_⟩,
    fun id pipeline hget => ?_, ?_⟩
  · rw [get?_addPipeline] at hget
    split_ifs at hget with hid
    · cases hget
      exact hformed.distinct
    · exact h.distinct id pipeline hget
  · rw [get?_addPipeline] at hget
    split_ifs at hget with hid
    · cases hget
      exact hid
    · exact h.listed id pipeline hget
  · intro member hmember
    rw [get?_addPipeline] at hget ⊢
    split_ifs at hget with hid
    · cases hget
      rw [if_pos (List.mem_map_of_mem hmember)]
    · have hone := h.one id pipeline hget member hmember
      rw [if_neg, hone]
      intro hmem
      obtain ⟨other, hother, heq⟩ := List.mem_map.1 hmem
      have hnone := hfresh other hother
      rw [heq, hone] at hnone
      cases hnone
  · rw [get?_addPipeline] at hget
    split_ifs at hget with hid
    · obtain ⟨member, hmember, rfl⟩ := List.mem_map.1 hid
      exact fun hmem => hformed.fresh member hmember (hcompleted hmem)
    · exact h.open_ id pipeline hget
  · obtain halone | hgroup := hformed.grouped
    · -- a node alone is in the same group with or without a pipeline of its own
      have hnode : node ∈ g.nodes := hformed.distinct.1 node (halone ▸ List.mem_cons_self)
      have hnone : pipelines.get? (nodeId node) = none := hfresh node (halone ▸ List.mem_cons_self)
      have hsame : executionGroups g pipelines = executionGroups g (addPipeline pipelines [node]) := by
        refine executionGroups_congr fun other hother => ?_
        rw [groupOf, groupOf, get?_addPipeline]
        split_ifs with hid
        · have heq : nodeId other = nodeId node := List.mem_singleton.1 hid
          rw [List.inj_on_of_nodup_map hg.nodup hother hnode heq, hnone]
          rfl
        · rfl
      rw [halone, ← hsame]
      exact h.acyclic
    · exact hgroup

/-! ## The order of the groups -/

lemma Parted.empty : Parted g (.empty : Pipelines N) :=
  ⟨fun _ _ h => absurd h (by simp), fun _ _ h => absurd h (by simp), fun _ _ h => absurd h (by simp)⟩

namespace Parted

/-- A node is in its group. -/
lemma mem_groupOf (hg : g.Accepted) (h : Parted g pipelines) {node : N} (hnode : node ∈ g.nodes) :
    node ∈ groupOf pipelines node := by
  unfold groupOf
  cases hget : pipelines.get? (nodeId node) with
  | none => exact List.mem_cons_self
  | some pipeline =>
    obtain ⟨member, hmember, hid⟩ := List.mem_map.1 (h.listed _ _ hget)
    have hin := (h.distinct _ _ hget).1 member hmember
    exact List.inj_on_of_nodup_map hg.nodup hin hnode hid ▸ hmember

/-- The members of a group are in the same group. -/
lemma groupOf_eq (h : Parted g pipelines) {node member : N} (hmember : member ∈ groupOf pipelines node) :
    groupOf pipelines member = groupOf pipelines node := by
  unfold groupOf at hmember ⊢
  cases hget : pipelines.get? (nodeId node) with
  | none =>
    rw [hget] at hmember
    rw [List.mem_singleton.1 hmember, hget]
  | some pipeline =>
    rw [hget] at hmember
    rw [h.one _ _ hget member hmember]
    rfl

/-- The id of a group is one of its members'. -/
lemma owner_mem (hg : g.Accepted) (h : Parted g pipelines) {node : N} (hnode : node ∈ g.nodes) :
    ∃ member ∈ groupOf pipelines node, ownerOf pipelines node = nodeId member := by
  have hmem := h.mem_groupOf hg hnode
  unfold ownerOf
  cases hgroup : groupOf pipelines node with
  | nil => rw [hgroup] at hmem; cases hmem
  | cons first rest => exact ⟨first, List.mem_cons_self, rfl⟩

lemma groupOf_mem (h : Parted g pipelines) {node member : N} (hnode : node ∈ g.nodes)
    (hmember : member ∈ groupOf pipelines node) : member ∈ g.nodes := by
  unfold groupOf at hmember
  cases hget : pipelines.get? (nodeId node) with
  | none =>
    rw [hget] at hmember
    exact List.mem_singleton.1 hmember ▸ hnode
  | some pipeline =>
    rw [hget] at hmember
    exact (h.distinct _ _ hget).1 member hmember

/-- Nodes whose groups have one id are in one group. -/
lemma groupOf_of_owner (hg : g.Accepted) (h : Parted g pipelines) {node other : N}
    (hnode : node ∈ g.nodes) (hother : other ∈ g.nodes)
    (heq : ownerOf pipelines other = ownerOf pipelines node) :
    groupOf pipelines other = groupOf pipelines node := by
  obtain ⟨member, hmember, howner⟩ := h.owner_mem hg hnode
  obtain ⟨member', hmember', howner'⟩ := h.owner_mem hg hother
  have hid : nodeId member' = nodeId member := by rw [← howner', heq, howner]
  have hsame : member' = member := List.inj_on_of_nodup_map hg.nodup
    (h.groupOf_mem hother hmember') (h.groupOf_mem hnode hmember) hid
  rw [← h.groupOf_eq hmember', hsame, h.groupOf_eq hmember]

lemma get?_groups (hg : g.Accepted) (h : Parted g pipelines) {node : N} (hnode : node ∈ g.nodes) :
    (groups g pipelines).get? (ownerOf pipelines node) = some (groupOf pipelines node) :=
  Dict.get?_foldl_set hnode fun _ hother heq => h.groupOf_of_owner hg hnode hother heq

lemma get?_owners (hg : g.Accepted) {node : N} (hnode : node ∈ g.nodes) :
    (owners g pipelines).get? (nodeId node) = some (ownerOf pipelines node) :=
  Dict.get?_foldl_set hnode fun other hother heq => by
    rw [List.inj_on_of_nodup_map hg.nodup hother hnode heq]

/-- A group depends on the other groups its members read from. -/
lemma mem_dependencies (hg : g.Accepted) (h : Parted g pipelines) {node : N} (hnode : node ∈ g.nodes)
    {owner : NodeId} : owner ∈ dependencies g pipelines (ownerOf pipelines node) ↔
      owner ≠ ownerOf pipelines node ∧ ∃ member ∈ groupOf pipelines node, ∃ source ∈ g.nodes,
        readsFrom member source ∧ ownerOf pipelines source = owner := by
  unfold dependencies
  dsimp only
  rw [h.get?_groups hg hnode, Option.getD_some, List.mem_filter, decide_eq_true_iff, and_comm]
  refine and_congr_right fun _ => ?_
  rw [List.mem_filterMap]
  constructor
  · rintro ⟨input, hinput, howner⟩
    obtain ⟨member, hmember, hinput⟩ := List.mem_flatMap.1 hinput
    obtain ⟨source, hsource, heq⟩ := hg.source_of_input (h.groupOf_mem hnode hmember) hinput
    rw [← heq, get?_owners hg hsource] at howner
    exact ⟨member, hmember, source, hsource,
      List.any_eq_true.2 ⟨input, hinput, beq_iff_eq.2 heq.symm⟩, Option.some.inj howner⟩
  · rintro ⟨member, hmember, source, hsource, hreads, rfl⟩
    obtain ⟨input, hinput, heq⟩ := List.any_eq_true.1 hreads
    refine ⟨input, List.mem_flatMap.2 ⟨member, hmember, hinput⟩, ?_⟩
    rw [eq_of_beq heq, get?_owners hg hsource]

end Parted

/-- Single nodes can run one after another. -/
lemma executionGroups_empty (hg : g.Accepted) : (executionGroups g .empty).isSome := by
  rw [executionGroups, Option.isSome_map]
  obtain ⟨hordered, -, hmem⟩ := hg.order_spec
  have hkeys : ∀ id, id ∈ Accepted.order g ↔ id ∈ (groups g .empty).keys := by
    intro id
    rw [hmem, groups, Dict.mem_keys_foldl_set]
    simp only [Dict.keys_empty, List.not_mem_nil, false_or]
    exact List.mem_map
  refine staticOrder_isSome ?_ hkeys
  intro before id after heq owner howner
  have hid : id ∈ g.ids := (hmem id).1 (heq ▸ List.mem_append_right _ List.mem_cons_self)
  obtain ⟨node, hnode, rfl⟩ := List.mem_map.1 hid
  obtain ⟨-, member, hmember, source, hsource, hreads, rfl⟩ :=
    (Parted.empty.mem_dependencies hg hnode).1 howner
  obtain rfl : member = node := List.mem_singleton.1 hmember
  obtain ⟨input, hinput, hid⟩ := List.any_eq_true.1 hreads
  exact hordered before _ after heq _ ((hg.mem_sources hnode).2 ⟨input, hinput, eq_of_beq hid⟩)

/-- Each group comes after the groups its members read from. -/
def InOrder (g : PhysicalGraph N) (groups : List (List N)) : Prop :=
  ∀ before group after, groups = before ++ group :: after → ∀ member ∈ group, ∀ source ∈ g.nodes,
    readsFrom member source → source ∈ group ∨ ∃ earlier ∈ before, source ∈ earlier

/-- The groups found hold every node, in order. -/
lemma executionGroups_inOrder (hg : g.Accepted) (h : Parted g pipelines) {found : List (List N)}
    (hfound : executionGroups g pipelines = some found) :
    (∀ node ∈ g.nodes, groupOf pipelines node ∈ found) ∧ InOrder g found := by
  obtain ⟨ordered, hordered, rfl⟩ := Option.map_eq_some_iff.1 hfound
  obtain ⟨hafter, hperm⟩ := staticOrder_spec hordered
  have hkey : ∀ owner, owner ∈ ordered ↔ ∃ node ∈ g.nodes, ownerOf pipelines node = owner := by
    intro owner
    rw [hperm.mem_iff, groups, Dict.mem_keys_foldl_set]
    simp only [Dict.keys_empty, List.not_mem_nil, false_or]
  constructor
  · intro node hnode
    exact List.mem_filterMap.2 ⟨_, (hkey _).2 ⟨node, hnode, rfl⟩, h.get?_groups hg hnode⟩
  · intro before group after heq member hmember source hsource hreads
    obtain ⟨first, last, rfl, rfl, hlast⟩ := List.filterMap_eq_append_iff.1 heq
    obtain ⟨skipped, owner, rest, rfl, hskipped, howner, -⟩ := List.filterMap_eq_cons_iff.1 hlast
    obtain ⟨node, hnode, rfl⟩ := (hkey owner).1 (by simp)
    rw [h.get?_groups hg hnode] at howner
    cases howner
    by_cases hsame : ownerOf pipelines source = ownerOf pipelines node
    · left
      exact h.groupOf_of_owner hg hnode hsource hsame ▸ h.mem_groupOf hg hsource
    · -- another group the member reads from is listed before
      right
      have hdep : ownerOf pipelines source ∈ dependencies g pipelines (ownerOf pipelines node) :=
        (h.mem_dependencies hg hnode).2 ⟨hsame, member, hmember, source, hsource, hreads, rfl⟩
      have hearlier := hafter (first ++ skipped) _ rest (by rw [List.append_assoc]) _ hdep
      refine ⟨groupOf pipelines source, ?_, h.mem_groupOf hg hsource⟩
      obtain hearlier | hearlier := List.mem_append.1 hearlier
      · exact List.mem_filterMap.2 ⟨_, hearlier, h.get?_groups hg hsource⟩
      · obtain ⟨other, hother, heq⟩ := (hkey _).1 (List.mem_append_right first
          (List.mem_append_left _ hearlier))
        have hnone := hskipped _ hearlier
        rw [← heq, h.get?_groups hg hother] at hnone
        cases hnone

/-! ## The pipelines built -/

/-- The pipelines so far, whose nodes have all been followed. -/
structure Started (g : PhysicalGraph N) (completed : List NodeId) (state : Pipelines N × List NodeId) :
    Prop where
  grouped : Grouped g completed state.1
  followed : ∀ id, state.1.contains id → id ∈ state.2
  completed : completed ⊆ state.2

/-- Starting a pipeline keeps the pipelines grouped. -/
lemma Started.start (hg : g.Accepted) {state : Pipelines N × List NodeId}
    (h : Started g completed state) (hnode : node ∈ g.nodes) :
    Started g completed (startPipeline g completed state node) := by
  unfold startPipeline
  split
  · exact h
  · split_ifs with hskip
    · exact h
    · rename_i a _
      rw [Bool.or_eq_true, not_or, decide_eq_true_iff] at hskip
      have halone : Formed g state.1 state.2 node ([node], state.2 ++ [nodeId node]) :=
        ⟨.singleton hnode, fun member hmember => List.mem_singleton.1 hmember ▸ hskip.1, rfl, .inl rfl⟩
      have hgrown : Formed g state.1 state.2 node (grow g completed state.1 a node g.nodes.length
          [node] (state.2 ++ [nodeId node])) := grow_formed halone
      dsimp only
      generalize hended : (List.filter isJoin _).foldl (addClassification g state.1) _ = ended
      have hformed : Formed g state.1 state.2 node ended := by
        rw [← hended]
        refine List.foldlRecOn _ _ (motive := Formed g state.1 state.2 node) hgrown ?_
        exact fun grown hgrown join _ => addClassification_formed hgrown
      refine ⟨h.grouped.add hg h.followed h.completed hformed, fun id hid => ?_, fun id hid => ?_⟩
      · rw [hformed.followed, List.mem_append]
        rw [Dict.contains, get?_addPipeline] at hid
        split_ifs at hid with hmem
        · exact .inr hmem
        · exact .inl (h.followed id hid)
      · rw [hformed.followed]
        exact List.mem_append_left _ (h.completed hid)

/-- The pipelines of a graph: each node is in one at most, and the groups can run one after another. -/
theorem buildPipelines_grouped (hg : g.Accepted) (completed : List NodeId) :
    Grouped g completed (buildPipelines g completed) := by
  have hempty : Started g completed (.empty, completed) :=
    ⟨⟨.empty, fun _ _ h => absurd h (by simp), executionGroups_empty hg⟩,
      fun _ h => absurd h (by simp [Dict.contains]), List.Subset.refl _⟩
  refine (List.foldlRecOn g.topologicalNodes _ (motive := Started g completed) hempty ?_).grouped
  intro state hstate node hnode
  obtain ⟨id, -, hid⟩ := List.mem_filterMap.1 hnode
  exact hstate.start hg (Accepted.node?_mem hid).1

end Quail.Physical
