import Quail.Physical.Nodes
import Quail.Physical.Pipelines
import Quail.Relational.Unnest
import Quail.Lib.Fewest

/-!
# The limit of the filter run

`ShouldPushDownLimit` of `planner/rules/physical.py` ends a pipeline once as many documents survived as the
LIMIT asks for. The result nodes above the pipeline make rows of the survivors: Project one of each, an
Unnest several or none, a Filter one or none.
-/

namespace Quail.Planner
open Quail.Physical Quail.Relational PhysicalGraph Fewest

variable {V : Type}

/-! ## The rule -/

/-- The count of a Limit. -/
def limitCount (node : Node) : Option ℕ :=
  match node.operator with
  | .limit count => some count
  | _ => none

/-- Nodes that need every survivor. -/
def blocksLimit (node : Node) : Bool :=
  match node.operator with
  | .sort .. | .aggregate .. | .window .. | .aiJoin .. => true
  | _ => false

/-- The `filter_limit` setting the rule leaves. -/
def shouldPushDownLimit (g : PhysicalGraph Node) : Option ℕ :=
  let limit := g.nodes.findSome? limitCount
  let pipelines := ((buildPipelines g []).entries.map fun e => e.2.map Node.id).eraseDups
  let blocked := decide (1 < pipelines.length) || g.nodes.any blocksLimit
  if blocked then none else limit

/-! ## Result nodes -/

/-- What the result nodes read of the plan and its rows: the fields of list columns, the rows a Filter's
predicate accepts, and the row a Project makes of a row. -/
structure ResultFunctions (V : Type) where
  fields : NodeId → String → List String
  accepts : NodeId → ResultRow V → Bool
  project : NodeId → ResultRow V → ResultRow V

/-- The chosen columns of a row. -/
def select (columns : List String) (row : ResultRow V) : ResultRow V := fun column =>
  if column ∈ columns then row column else .null

/-- The rows a result node makes of its input's. -/
def runNode (f : ResultFunctions V) (node : Node) (rows : List (ResultRow V)) : List (ResultRow V) :=
  match node.operator with
  | .filter _ _ columns => (rows.filter (f.accepts node.id)).map (select columns)
  | .unnest lists outer columns => UnnestSpec.unnestBatch ⟨lists, f.fields node.id, outer, columns⟩ rows
  | .project .. => rows.map (f.project node.id)
  | .limit count => rows.take count
  | _ => rows

/-- Whether a node makes result rows of each result row by itself. -/
def isRowwise (node : Node) : Bool :=
  match node.operator with
  | .filter [] _ _ => true
  | .unnest .. => true
  | .project _ fromRows => fromRows
  | _ => false

/-- The result nodes that lead from the rows of the survivors to an input, in order. -/
def resultChain (g : PhysicalGraph Node) : ℕ → List InputPort → List Node
  | 0, _ => []
  | fuel + 1, inputs =>
    match inputs.head?.bind fun input => g.node? input.source.nodeId with
    | none => []
    | some node => if isRowwise node then resultChain g fuel node.inputs ++ [node] else []

/-- The result nodes under the Limit a graph ends in. -/
def resultNodes (g : PhysicalGraph Node) : List Node :=
  match g.node? g.root.nodeId with
  | none => []
  | some root => resultChain g g.nodes.length root.inputs

/-- The rows of the query without its Limit. -/
def unlimitedRows (g : PhysicalGraph Node) (f : ResultFunctions V) (rows : List (ResultRow V)) :
    List (ResultRow V) :=
  (resultNodes g).foldl (fun rows node => runNode f node rows) rows

/-- The rows of the query. -/
def resultRows (g : PhysicalGraph Node) (f : ResultFunctions V) (rows : List (ResultRow V)) :
    List (ResultRow V) :=
  match g.node? g.root.nodeId with
  | none => unlimitedRows g f rows
  | some root => runNode f root (unlimitedRows g f rows)

/-! ## Rows one by one -/

/-- A result node under the Limit makes its rows of each row by itself. -/
lemma runNode_flatMap (f : ResultFunctions V) {node : Node} (h : isRowwise node) (rows : List (ResultRow V)) :
    runNode f node rows = rows.flatMap fun row => runNode f node [row] := by
  obtain ⟨id, inputs, operator⟩ := node
  unfold isRowwise at h
  unfold runNode
  cases operator with
  | filter aliases position columns =>
    dsimp only
    induction rows with
    | nil => rfl
    | cons row rows ih =>
      rw [List.flatMap_cons, ← ih, List.filter_cons]
      by_cases haccepts : f.accepts id row
      · rw [if_pos haccepts, List.filter_cons_of_pos haccepts, List.filter_nil, List.map_cons]
        rfl
      · rw [if_neg haccepts, List.filter_cons_of_neg haccepts, List.filter_nil, List.map_nil,
          List.nil_append]
  | unnest lists outer columns =>
    dsimp only
    rw [UnnestSpec.unnestBatch_eq]
    refine List.flatMap_congr fun row _ => ?_
    rw [UnnestSpec.unnestBatch_eq, List.flatMap_singleton]
  | project columns fromRows => exact List.map_eq_flatMap
  | _ => cases h

lemma resultChain_rowwise {g : PhysicalGraph Node} {fuel : ℕ} {inputs : List InputPort} :
    ∀ node ∈ resultChain g fuel inputs, isRowwise node := by
  induction fuel generalizing inputs with
  | zero => exact fun _ h => absurd h List.not_mem_nil
  | succ fuel ih =>
    rw [resultChain]
    split
    · exact fun _ h => absurd h List.not_mem_nil
    · split_ifs with hrow
      · intro other hother
        obtain hother | hother := List.mem_append.1 hother
        · exact ih other hother
        · exact List.mem_singleton.1 hother ▸ hrow
      · exact fun _ h => absurd h List.not_mem_nil

/-- The query without its Limit makes its rows of each survivor by itself. -/
lemma unlimitedRows_flatMap (g : PhysicalGraph Node) (f : ResultFunctions V) (rows : List (ResultRow V)) :
    unlimitedRows g f rows = rows.flatMap fun row => unlimitedRows g f [row] := by
  have hrow : ∀ node ∈ resultNodes g, isRowwise node := by
    unfold resultNodes
    split
    · exact fun _ h => absurd h List.not_mem_nil
    · exact resultChain_rowwise
  unfold unlimitedRows
  generalize resultNodes g = nodes at hrow
  induction nodes generalizing rows with
  | nil => simp
  | cons node nodes ih =>
    obtain ⟨hnode, hnodes⟩ := List.forall_mem_cons.1 hrow
    rw [List.foldl_cons, runNode_flatMap f hnode, ih _ hnodes, List.flatMap_assoc]
    refine List.flatMap_congr fun row _ => ?_
    rw [List.foldl_cons, ih (runNode f node [row]) hnodes]

/-! ## The rows of the first survivors -/

/-- A query over a sequence of survivors returns as many rows as its Limit asks for, each a row of the query
without the Limit over all of them. -/
def Answers (g : PhysicalGraph Node) (f : ResultFunctions V) (row : ℕ → ResultRow V) (n : ℕ)
    (survivors kept : List ℕ) : Prop :=
  (resultRows g f (kept.map row)).length = min n (unlimitedRows g f (survivors.map row)).length ∧
    ∀ r ∈ resultRows g f (kept.map row), r ∈ unlimitedRows g f (survivors.map row)

/-- The number of rows each survivor makes. -/
def rowCounts (g : PhysicalGraph Node) (f : ResultFunctions V) (row : ℕ → ResultRow V)
    (survivors : List ℕ) : List ℕ :=
  survivors.map fun document => (unlimitedRows g f [row document]).length

lemma length_unlimitedRows (g : PhysicalGraph Node) (f : ResultFunctions V) (row : ℕ → ResultRow V)
    (survivors : List ℕ) :
    (unlimitedRows g f (survivors.map row)).length = (rowCounts g f row survivors).sum := by
  rw [unlimitedRows_flatMap, List.length_flatMap, List.map_map]
  rfl

/-- The setting is the count of the graph's Limit. -/
lemma filterLimit_eq {g : PhysicalGraph Node} {count n : ℕ}
    (hone : ∀ node ∈ g.nodes, ∀ c ∈ limitCount node, c = count)
    (hset : shouldPushDownLimit g = some n) : n = count := by
  unfold shouldPushDownLimit at hset
  dsimp only at hset
  split_ifs at hset
  obtain ⟨node, hnode, hcount⟩ := List.exists_of_findSome?_eq_some hset
  exact hone node hnode n hcount

/-- A filter of a table whose rows are unnested, under a limit of one row. -/
def unnested (outer : Bool) : PhysicalGraph Node :=
  let rows (id : NodeId) (port : Port) : List InputPort := [⟨"input:0", .rows, ⟨id, port⟩, []⟩]
  ⟨[⟨"scan", [], .scan "a"⟩, ⟨"filter", rows "scan" "rows:a", .aiFilter "a" [1]⟩,
      ⟨"project", rows "filter" "rows:a", .project ["tags"] false⟩,
      ⟨"unnest_0", rows "project" "rows", .unnest ["tags"] outer ["tags.name"]⟩,
      ⟨"limit", rows "unnest_0" "rows", .limit 1⟩], ⟨"limit", "rows"⟩⟩

/-- The result nodes of plans without Filters and later Projects. -/
def plainFunctions : ResultFunctions ℕ := ⟨fun _ _ => ["name"], fun _ _ => true, fun _ row => row⟩

/-- The first document has no tags, the second one. -/
def tags (document : ℕ) : ResultRow ℕ := fun column =>
  if column = "tags" then .list (if document = 0 then [] else [fun _ => some document]) else .null

end Quail.Planner
