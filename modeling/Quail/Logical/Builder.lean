import Quail.Logical.Placement

/-!
# Building logical plans

`LogicalPlanBuilder` of `logical/builder.py`: `add_scan` stacks a table's filters and column operators over
its Scan, `add_join`, `add_cross_join` and `add_classify` join the tables, and `project` puts the result rows'
nodes above them. `place_relation` of `logical/naive.py` places the conditions and calls them in this order.
-/

namespace Quail.Logical

/-- The refusals of the builder. -/
inductive BuildError
  | placement (e : PlacementError)
  | duplicateTable (table : String)
  | unknownTable (table : String)
  | unknownLabel (condition : ColumnCondition)
  | notReturned (condition : ColumnCondition)
  | joinConditionOutside
  | noJoin
  | noPairJoin (call : ModelCall)
  | notAPair (call : ModelCall)
  | noInput
  | noColumns
  | groupedStructs
  | invalidUnnest (columns : List String)
  | noResultRow (condition : ColumnCondition)

/-- `condition_columns`: the names of the columns a condition's tests read, unqualified. -/
def conditionColumns (condition : ColumnCondition) : List String :=
  (condition.references.map ColumnRef.column).eraseDups

/-! ## Tables -/

/-- A call with the name of its answer column. -/
abbrev NamedCall := ModelCall × String

/-- What `add_scan` is given of a table, its conditions apart. -/
structure Table where
  table : String
  provider : String
  column : DocumentColumn
  schema : List String
  predicates : List ModelPredicate
  labels : List NamedCall
  extracts : List NamedCall
  saeFeatures : List NamedCall
  maps : List NamedCall

namespace Table

/-- The classifications, by name. -/
def calls (t : Table) : Dict String ModelCall :=
  t.labels.foldl (fun calls label => calls.set label.2 label.1) Dict.empty

/-- The extractions, feature calls and maps, in the order they are stacked. -/
def columnOperators (t : Table) : List SemanticColumn :=
  t.extracts.map (fun call => ⟨.extract, call.1, call.2⟩) ++
    t.saeFeatures.map (fun call => ⟨.saeFeatures, call.1, call.2⟩) ++
      t.maps.map fun call => ⟨.map, call.1, call.2⟩

/-- The answer and span columns a test may wait for. -/
def answers (t : Table) : List String := t.columnOperators.flatMap fun c => [c.name, c.name ++ spanSuffix]

/-- The classification of a named call. -/
def classify (call : NamedCall) : SemanticColumn := ⟨.classify, call.1, call.2⟩

/-- The table's Scan, below its `AI.IF` predicates. -/
def base (t : Table) (scanConditions : List ColumnCondition) : DocumentNode :=
  let scan := DocumentNode.scan ⟨t.provider, t.table, t.column, [], scanConditions, some t.schema⟩
  if t.predicates.isEmpty then scan else .over (.semanticFilter t.predicates []) scan

end Table

/-- A tested label is classified, unless it was. -/
def classifyTested (calls : Dict String ModelCall) (state : DocumentNode × List ModelCall) (name : String) :
    DocumentNode × List ModelCall :=
  match calls.get? name with
  | some call =>
    if call ∈ state.2 then state
    else (.over (.column (Table.classify (call, name))) state.1, state.2 ++ [call])
  | none => state

/-- A label filter stands above the classifications it tests. `listed` is `_check_labels`: whether a condition
lists the classifications' own values only. -/
def addLabelFilter (listed : ColumnCondition → Bool) (calls : Dict String ModelCall)
    (state : DocumentNode × List ModelCall) (test : Hinted) : Except BuildError (DocumentNode × List ModelCall) :=
  let state := (conditionColumns test.1).foldl (classifyTested calls) state
  if listed test.1 then .ok (.over (.filter test.1) state.1, state.2) else .error (.unknownLabel test.1)

/-- A classification that no label filter tests. -/
def addLabel (state : DocumentNode × List ModelCall) (label : NamedCall) : DocumentNode × List ModelCall :=
  if label.1 ∈ state.2 then state
  else (.over (.column (Table.classify label)) state.1, state.2 ++ [label.1])

/-- The node, the tests that wait, and the columns computed so far. -/
structure ColumnState where
  node : DocumentNode
  tests : List Hinted
  done : List String

/-- Whether a test's answer columns are computed. -/
def ready (answers done : List String) (test : Hinted) : Bool :=
  (conditionColumns test.1).all fun column => column ∉ answers || column ∈ done

/-- A column operator, under the tests that read its columns last. -/
def addColumn (answers : List String) (state : ColumnState) (column : SemanticColumn) : ColumnState :=
  let done := state.done ++ column.addedColumns
  { node := (state.tests.filter (ready answers done)).foldl (fun node test => .over (.filter test.1) node)
      (.over (.column column) state.node)
    tests := state.tests.filter fun test => !ready answers done test
    done := done }

/-- `add_scan`: one table with its filters, classifications and extractions. -/
def addScan (listed : ColumnCondition → Bool) (t : Table) (scanConditions : List ColumnCondition)
    (computedFilters : List Hinted) : Except BuildError DocumentNode := do
  let testsLabel := fun (test : Hinted) => (conditionColumns test.1).any (t.calls.contains ·)
  let state ← (computedFilters.filter testsLabel).foldlM (addLabelFilter listed t.calls)
    (t.base scanConditions, [])
  let labelled := t.labels.foldl addLabel state
  let columns := t.columnOperators.foldl (addColumn t.answers)
    ⟨labelled.1, computedFilters.filter fun test => !testsLabel test, []⟩
  match columns.tests with
  | [] => pure columns.node
  | test :: _ => throw (.notReturned test.1)

/-! ## Joins -/

/-- `JoinSpec`: a join predicate, with the tables it brings in. -/
structure JoinSpec where
  tables : List String
  predicate : ModelPredicate
  semantics : Semantics
  anchor : Option String
  on : List Equality

/-- Join a table onto the tree. -/
def joinTable (nodes : Dict String DocumentNode) (root : DocumentNode) (table : String) :
    Except BuildError DocumentNode :=
  match nodes.get? table with
  | some node => .ok (.join root node [])
  | none => .error (.unknownTable table)

/-- The equalities of a join, on the Join that brings its last table in. -/
def onLast (on : List Equality) (root : DocumentNode) : Except BuildError DocumentNode :=
  let present := root.outputSchema.map ColumnRef.table
  if on.any fun equality => equality.references.any (·.table ∉ present) then .error .joinConditionOutside
  else if on.isEmpty then .ok root
  else match root with
    | .join left right _ => .ok (.join left right on)
    | _ => .error .noJoin

/-- `add_join`: join each new table onto the tree, then ask the prompt. -/
def addJoin (nodes : Dict String DocumentNode) (root : DocumentNode) (join : JoinSpec) :
    Except BuildError DocumentNode := do
  let root ← join.tables.foldlM (joinTable nodes) root
  let root ← onLast join.on root
  pure (.over (.semanticJoin join.predicate join.semantics join.anchor) root)

/-- `insert` of `add_classify`: above the join of the call's two tables. -/
def insertClassify (call : ModelCall) (name : String) : DocumentNode → Except BuildError DocumentNode
  | .over (.semanticJoin predicate semantics anchor) input =>
    if predicate.modelCall.aliases ⊆ call.aliases ∧ call.aliases ⊆ predicate.modelCall.aliases then
      pure (.over (.column (Table.classify (call, name))) (.over (.semanticJoin predicate semantics anchor) input))
    else do
      let input ← insertClassify call name input
      pure (.over (.semanticJoin predicate semantics anchor) input)
  | .over (.column c) input =>
    if c.kind = .classify then do
      let input ← insertClassify call name input
      pure (.over (.column c) input)
    else throw (.noPairJoin call)
  | .join left right on => do
    let left ← insertClassify call name left
    pure (.join left right on)
  | _ => throw (.noPairJoin call)

/-- `add_classify`: classify the rows of the join the call reads. -/
def addClassify (root : DocumentNode) (label : NamedCall) : Except BuildError DocumentNode :=
  if label.1.aliases.length ≠ 2 then .error (.notAPair label.1) else insertClassify label.1 label.2 root

/-! ## Result rows -/

namespace RowNode

/-- The struct columns of the nearest Project. -/
def packing : RowNode → List (String × List (String × String))
  | .project _ _ structs => structs.flatMap ExtractStruct.packing
  | .over (.project _ structs) _ => structs.flatMap ExtractStruct.packing
  | .over _ input => input.packing

/-- The feature lists a projection returns. -/
def featureLists (columns : List ResultColumn) : List String :=
  columns.filterMap fun column => match column with
    | .call call name => if call.kind = .features then some name else none
    | _ => none

/-- `list_types`: the list columns of the rows. -/
def listColumns : RowNode → List String
  | .project _ columns _ => featureLists columns
  | .over (.project columns _) _ => featureLists columns
  | .over (.unnest columns _) input => input.listColumns.filter (· ∉ columns)
  | .over _ input => input.listColumns

/-- `result_columns`. -/
def resultColumns : RowNode → List String
  | .project _ columns structs => projectedColumns columns structs
  | .over (.project columns structs) _ => projectedColumns columns structs
  | .over (.filter _) input => input.resultColumns
  | .over (.unnest columns _) input => input.resultColumns.flatMap fun name =>
      if name ∈ columns then featureFields.map (name ++ "." ++ ·) else [name]
  | .over (.aggregate _ output) _ => output
  | .over (.window output) _ => output

/-- `readable_columns`: the result columns, and the fields of the struct columns among them. -/
def readableColumns (node : RowNode) : List String :=
  node.resultColumns ++ (node.packing.filter (·.1 ∈ node.resultColumns)).flatMap fun struct =>
    struct.2.map fun field => struct.1 ++ "." ++ field.1

/-- `Unnest.validate`. -/
def validUnnest (columns : List String) (outer : Bool) (input : RowNode) : Prop :=
  columns ≠ [] ∧ columns.Nodup ∧ (∀ column ∈ columns, column ∈ input.listColumns) ∧
    (RowNode.over (.unnest columns outer) input).resultColumns.Nodup

instance (columns : List String) (outer : Bool) (input : RowNode) : Decidable (validUnnest columns outer input) :=
  inferInstanceAs (Decidable (_ ∧ _ ∧ _ ∧ _))

end RowNode

namespace Expression

mutual

/-- The references of a packed member as fields of its struct column. -/
def packed (members : List (String × (String × String))) : Expression → Expression
  | .column ref =>
    match members.find? (·.1 = ref.column) with
    | some member => .column ⟨member.2.1, "", member.2.2⟩
    | none => .column ref
  | .getField input field => .getField (packed members input) field
  | .scalarFunction function args => .scalarFunction function (packedAll members args)
  | .aliased expression name => .aliased (packed members expression) name
  | .literal value => .literal value

/-- Several expressions, packed. -/
def packedAll (members : List (String × (String × String))) : List Expression → List Expression
  | [] => []
  | e :: es => packed members e :: packedAll members es

end

end Expression

namespace Condition

variable {E F V : Type}

mutual

/-- The condition with its tests' expressions rewritten. -/
def mapExpressions (f : E → F) : Condition E V → Condition F V
  | .test p => .test ⟨f p.expression, p.comparison, p.value⟩
  | .not c => .not (mapExpressions f c)
  | .connect k cs => .connect k (mapAllExpressions f cs)

/-- The conditions with their tests' expressions rewritten. -/
def mapAllExpressions (f : E → F) : List (Condition E V) → List (Condition F V)
  | [] => []
  | c :: cs => mapExpressions f c :: mapAllExpressions f cs

end

end Condition

/-- `result_row_condition`: the condition over result rows, where struct columns hold answers. A member packed
twice is read from the struct that packs it last. -/
def resultRowCondition (condition : ColumnCondition) (packing : List (String × List (String × String))) :
    ColumnCondition :=
  let members := packing.flatMap fun struct => struct.2.map fun field => (field.2, (struct.1, field.1))
  condition.mapExpressions (Expression.packed members.reverse)

/-- `result_columns_read`: the result row columns a rewritten condition reads, by name. -/
def resultColumnsRead (condition : ColumnCondition) : List String :=
  (condition.references.map fun ref => (Expression.column ref).columnName).eraseDups

/-- `_row_test_columns`: the source columns result row tests read that the Project lacks. -/
def rowTestColumns (tests : List ColumnCondition) (unnested : List String) (present : List String) :
    List ColumnRef :=
  ((tests.flatMap Condition.references).foldl (fun (extra, present) ref =>
    let name := (Expression.column ref).columnName
    if ref.provider ≠ "" ∧ ref.table ∉ unnested ∧ name ∉ present then (extra ++ [ref], present ++ [name])
    else (extra, present)) (([] : List ColumnRef), present)).1

/-- `place` of `_unnested`: the tests whose columns the rows hold, and those that wait. -/
def placeRowTests (node : RowNode) (tests : List ColumnCondition) : RowNode × List ColumnCondition :=
  let ready := fun test => (resultColumnsRead test).all (· ∈ node.readableColumns)
  ((tests.filter ready).foldl (fun node test => .over (.filter test) node) node, tests.filter (!ready ·))

/-- The Unnests, each under the tests that read its fields last. -/
def addUnnests : RowNode → List ColumnCondition → List (List String × Bool) →
    Except BuildError (RowNode × List ColumnCondition)
  | node, tests, [] => pure (node, tests)
  | node, tests, (columns, outer) :: unnests =>
    if RowNode.validUnnest columns outer node then
      let (node, tests) := placeRowTests (.over (.unnest columns outer) node) tests
      addUnnests node tests unnests
    else .error (.invalidUnnest columns)

/-- `_unnested`: the node under its Unnests and result row Filters. -/
def unnestedRows (node : RowNode) (unnests : List (List String × Bool)) (tests : List ColumnCondition) :
    Except BuildError RowNode := do
  let (node, tests) := placeRowTests node tests
  let (node, tests) ← addUnnests node tests unnests
  match tests with
  | [] => pure node
  | test :: _ => throw (.noResultRow test)

/-- What `project` is given: the SELECT list and the clauses over the result rows. -/
structure Projection where
  columns : List ResultColumn
  structs : List ExtractStruct
  order : List SortKey
  aggregation : Option (List String × List String)
  windows : Bool
  output : List String
  unnests : List (List String × Bool)

/-- The list columns that are unnested. -/
def Projection.unnested (p : Projection) : List String := p.unnests.flatMap Prod.fst

/-- The columns of unnested fields, by name. -/
def Projection.expanded (p : Projection) : List (String × ResultColumn) :=
  (p.columns.filter fun column => column.columnReferences.any (·.table ∈ p.unnested)).map
    fun column => (column.columnName, column)

/-- The columns of the lowest Project, with those that ORDER BY and the row tests read. -/
def Projection.source (p : Projection) (tests : List ColumnCondition) (returned : List String) :
    List ResultColumn :=
  let source := p.columns.filter fun column => column.columnName ∉ p.expanded.map Prod.fst
  let ordered :=
    if (p.unnests.isEmpty && tests.isEmpty) || p.aggregation.isSome then []
    else (p.order.map SortKey.expression).filter fun key =>
      !key.columnReferences.isEmpty && key.columnReferences.all (·.table ∉ p.unnested) && key ∉ source
  let source := source ++ ordered
  source ++ (rowTestColumns tests p.unnested (returned ++ source.map ResultColumn.columnName)).map
    fun ref => .value (.column ref)

/-- The Project over the rows of Unnests and tests, which drops the columns only they read. -/
def Projection.select (p : Projection) (returned : List String) (node : RowNode) : RowNode :=
  let selected :=
    if p.aggregation.isSome || p.windows then
      (p.columns.map ResultColumn.columnName).filter (· ∉ p.unnested)
    else if p.unnests.isEmpty then returned else p.output
  .over (.project (selected.map fun name =>
    ((p.expanded.find? (·.1 = name)).map Prod.snd).getD (.name name)) []) node

/-- The nodes above the tested rows: the Project, the Aggregate and the Window that the query asks for. -/
def Projection.above (p : Projection) (returned : List String) (rowTests : List ColumnCondition)
    (node : RowNode) : RowNode :=
  let node := if p.unnests.isEmpty && rowTests.isEmpty then node else p.select returned node
  let node := p.aggregation.elim node fun aggregation => .over (.aggregate aggregation.1 aggregation.2) node
  if p.windows then .over (.window p.output) node else node

/-- `project`: the result nodes over the projected columns. -/
def project (root : DocumentNode) (p : Projection) (rowTests : List ColumnCondition) :
    Except BuildError RowNode :=
  if p.columns.isEmpty && p.aggregation.isNone then .error .noColumns
  else if !p.structs.isEmpty && p.aggregation.isSome then .error .groupedStructs
  else do
    let written := RowNode.project root
      (p.columns.filter fun column => column.columnName ∉ p.expanded.map Prod.fst) p.structs
    let returned := written.resultColumns
    let tests := rowTests.map (resultRowCondition · written.packing)
    let node ← unnestedRows (.project root (p.source tests returned) p.structs) p.unnests tests
    pure (p.above returned rowTests node)

end Quail.Logical
