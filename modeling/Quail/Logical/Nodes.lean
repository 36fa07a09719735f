import Quail.Logical.Expressions

/-!
# Logical nodes

The nodes of a query plan, `logical/nodes/*.py`. A plan is a relation of documents, under a Project, under
nodes that read result rows. The source keeps all of them in one hierarchy and asks `reads_projection` which
side of the Project a Filter stands on; here the two sides are two types.
-/

namespace Quail.Logical

/-- A condition over value expressions. -/
abbrev ColumnCondition := Condition Expression Literal

/-- The columns a condition's tests read. -/
def Condition.references (condition : ColumnCondition) : List ColumnRef :=
  condition.tests.flatMap fun test => test.expression.columnReferences

/-- `Equality`: columns of two tables are equal. -/
structure Equality where
  left : Expression
  right : Expression

/-- The columns an equality reads. -/
def Equality.references (equality : Equality) : List ColumnRef :=
  equality.left.columnReferences ++ equality.right.columnReferences

/-- `Scan`: the table whose column supplies the document text, the source columns kept as values, and the
conditions its documents pass before any operator reads them. -/
structure Scan where
  provider : String
  table : String
  column : DocumentColumn
  columns : List String
  predicates : List ColumnCondition
  schema : Option (List String)

/-- `Scan.output_schema`. -/
def Scan.outputSchema (scan : Scan) : List ColumnRef :=
  let sources := match scan.column with
    | .name "" => scan.schema.getD []
    | column => column.sourceColumns
  (sources ++ scan.columns.filter (· ∉ sources)).map fun column => ⟨scan.table, scan.provider, column⟩

/-- The subclasses of `SemanticColumn`. -/
inductive ColumnKind
  | classify | extract | saeFeatures | map
  deriving Repr, DecidableEq

/-- `SemanticColumn`: one model call over its input rows, adding its answer columns. -/
structure SemanticColumn where
  kind : ColumnKind
  call : ModelCall
  name : String

namespace SemanticColumn

/-- `alias`: the table the answer columns belong to. A call that reads no column is refused. -/
def table (c : SemanticColumn) : String := c.call.aliases.headD ""

/-- `added_columns`. -/
def addedColumns (c : SemanticColumn) : List String :=
  match c.kind with
  | .classify => if c.call.probabilities then [c.name, c.name ++ probabilitiesSuffix] else [c.name]
  | .extract => [c.name, c.name ++ spanSuffix]
  | .saeFeatures | .map => [c.name]

/-- The added columns with their table. -/
def added (c : SemanticColumn) : List ColumnKey := c.addedColumns.map (c.table, ·)

end SemanticColumn

/-- The semantics of a SemanticJoin: every pair that passes, or the anchors with some or no partner. -/
inductive Semantics
  | full | exists | anti
  deriving Repr, DecidableEq

/-- An operator over a relation of documents. -/
inductive DocumentOperator
  | semanticFilter (predicates : List ModelPredicate) (stopKey : List String)
  | filter (condition : ColumnCondition)
  | column (c : SemanticColumn)
  | semanticJoin (predicate : ModelPredicate) (semantics : Semantics) (anchor : Option String)

/-- A relation of documents: the nodes below the Project. -/
inductive DocumentNode
  | scan (s : Scan)
  | over (op : DocumentOperator) (input : DocumentNode)
  | join (left right : DocumentNode) (on : List Equality)

namespace DocumentNode

/-- `output_schema`. -/
def outputSchema : DocumentNode → List ColumnRef
  | .scan s => s.outputSchema
  | .over (.column c) input =>
    let fields := input.outputSchema
    let provider := ((fields.find? (·.table = c.table)).map ColumnRef.provider).getD ""
    fields ++ c.addedColumns.map fun name => ⟨c.table, provider, name⟩
  | .over _ input => input.outputSchema
  | .join left right _ =>
    right.outputSchema.foldl (fun fields field => if field ∈ fields then fields else fields ++ [field])
      left.outputSchema

/-- `walk`: the nodes, each child before its parent. -/
def walk : DocumentNode → List DocumentNode
  | .scan s => [.scan s]
  | .over op input => walk input ++ [.over op input]
  | .join left right on => walk left ++ walk right ++ [.join left right on]

/-- The Scans, left to right. -/
def scans : DocumentNode → List Scan
  | .scan s => [s]
  | .over _ input => input.scans
  | .join left right _ => left.scans ++ right.scans

/-- The column operators, each below those above it. -/
def columns : DocumentNode → List SemanticColumn
  | .scan _ => []
  | .over (.column c) input => input.columns ++ [c]
  | .over _ input => input.columns
  | .join left right _ => left.columns ++ right.columns

/-- The conditions of the Filters. -/
def filters : DocumentNode → List ColumnCondition
  | .scan _ => []
  | .over (.filter condition) input => input.filters ++ [condition]
  | .over _ input => input.filters
  | .join left right _ => left.filters ++ right.filters

/-- Whether a column is a source column of a Scan of the relation, or added by an operator of it. -/
def Provides (node : DocumentNode) (key : ColumnKey) : Prop :=
  (∃ s ∈ node.scans, s.table = key.1 ∧ key.2 ∈ s.schema.getD []) ∨ ∃ c ∈ node.columns, key ∈ c.added

end DocumentNode

/-- An operator over result rows, above the lowest Project. -/
inductive RowOperator
  | filter (condition : ColumnCondition)
  | unnest (columns : List String) (outer : Bool)
  | project (columns : List ResultColumn) (structs : List ExtractStruct)
  | aggregate (keys output : List String)
  | window (output : List String)

/-- Result rows: the Project over a relation of documents, and the nodes above it. -/
inductive RowNode
  | project (input : DocumentNode) (columns : List ResultColumn) (structs : List ExtractStruct)
  | over (op : RowOperator) (input : RowNode)

/-- `Project.result_columns`: the selected column names, with struct fields packed. -/
def projectedColumns (columns : List ResultColumn) (structs : List ExtractStruct) : List String :=
  packedColumns (columns.map ResultColumn.columnName) (structs.flatMap ExtractStruct.packing)

/-- The references of the named columns among the fields, the later ones first, and a bare name for any
other. -/
def namedSchema (fields : List ColumnRef) (output : List String) : List ColumnRef :=
  let byName := fields.foldl (fun byName ref => byName.set (Expression.column ref).columnName ref)
    (Dict.empty : Dict String ColumnRef)
  output.map fun name => (byName.get? name).getD ⟨"", "", name⟩

/-- `Project.output_schema`, from the schema of the input. -/
def projectSchema (input : List ColumnRef) (columns : List ResultColumn) (structs : List ExtractStruct) :
    List ColumnRef :=
  namedSchema (input ++ columns.filterMap ResultColumn.reference?) (projectedColumns columns structs)

/-- The fields of an element of a feature list, the one type of list column there is. -/
def featureFields : List String := ["feature", "strength"]

namespace RowNode

/-- `output_schema`. -/
def outputSchema : RowNode → List ColumnRef
  | .project input columns structs => projectSchema input.outputSchema columns structs
  | .over (.project columns structs) input => projectSchema input.outputSchema columns structs
  | .over (.filter _) input => input.outputSchema
  | .over (.unnest columns _) input => input.outputSchema.flatMap fun column =>
      let name := (Expression.column column).columnName
      if name ∈ columns then featureFields.map fun field => ⟨name, "", field⟩ else [column]
  | .over (.aggregate _ output) input => namedSchema input.outputSchema output
  | .over (.window output) input => namedSchema input.outputSchema output

/-- The relation of documents the rows come from. -/
def documents : RowNode → DocumentNode
  | .project input _ _ => input
  | .over _ input => input.documents

/-- The rows over another relation of documents. -/
def withDocuments (d : DocumentNode) : RowNode → RowNode
  | .project _ columns structs => .project d columns structs
  | .over op input => .over op (input.withDocuments d)

/-- `LogicalPlan.projection`: the columns of the first Project, the one over the documents. -/
def projection : RowNode → List ResultColumn
  | .project _ columns _ => columns
  | .over _ input => input.projection

end RowNode

/-- `SortKey`: one term of ORDER BY. -/
structure SortKey where
  expression : ResultColumn
  descending : Bool
  nullsFirst : Bool

/-- `LogicalPlan`: the result rows and the order of the root's Result, empty when there is none. -/
structure LogicalPlan where
  rows : RowNode
  order : List SortKey

end Quail.Logical
