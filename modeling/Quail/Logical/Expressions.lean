import Quail.Logical.Condition
import Quail.Lib.Dict

/-!
# Expressions

The value expressions and model calls of `logical/expressions.py`: which source columns an expression reads,
the name a result column carries, and the columns a model call reads.
-/

namespace Quail.Logical

/-- `ColumnRef`: a column of a table, by the alias of the table in the query. -/
structure ColumnRef where
  table : String
  provider : String
  column : String
  deriving Repr, DecidableEq

/-- A column by its table and name, whichever provider it comes from. -/
abbrev ColumnKey := String × String

/-- The table and name of a reference. -/
def ColumnRef.key (ref : ColumnRef) : ColumnKey := (ref.table, ref.column)

/-- A constant, as it is printed. -/
structure Literal where
  repr : String
  deriving Repr, DecidableEq

/-- `Expression`: a column, a field of a struct, a function computed row by row, a constant, or one of these
under a name. -/
inductive Expression
  | column (ref : ColumnRef)
  | getField (input : Expression) (field : String)
  | scalarFunction (function : String) (args : List Expression)
  | literal (value : Literal)
  | aliased (expression : Expression) (name : String)

namespace Expression

mutual

/-- Equality of expressions is decidable. -/
def decEq : (a b : Expression) → Decidable (a = b)
  | .column r, .column r' => decidable_of_iff (r = r') ⟨congrArg _, fun h => by cases h; rfl⟩
  | .getField e f, .getField e' f' =>
    have := decEq e e'
    decidable_of_iff (e = e' ∧ f = f') ⟨fun h => by rw [h.1, h.2], fun h => by cases h; exact ⟨rfl, rfl⟩⟩
  | .scalarFunction f es, .scalarFunction f' es' =>
    have := decEqAll es es'
    decidable_of_iff (f = f' ∧ es = es') ⟨fun h => by rw [h.1, h.2], fun h => by cases h; exact ⟨rfl, rfl⟩⟩
  | .literal v, .literal v' => decidable_of_iff (v = v') ⟨congrArg _, fun h => by cases h; rfl⟩
  | .aliased e n, .aliased e' n' =>
    have := decEq e e'
    decidable_of_iff (e = e' ∧ n = n') ⟨fun h => by rw [h.1, h.2], fun h => by cases h; exact ⟨rfl, rfl⟩⟩
  | .column _, .getField _ _ | .column _, .scalarFunction _ _ | .column _, .literal _ | .column _, .aliased _ _
  | .getField _ _, .column _ | .getField _ _, .scalarFunction _ _ | .getField _ _, .literal _
  | .getField _ _, .aliased _ _ | .scalarFunction _ _, .column _ | .scalarFunction _ _, .getField _ _
  | .scalarFunction _ _, .literal _ | .scalarFunction _ _, .aliased _ _ | .literal _, .column _
  | .literal _, .getField _ _ | .literal _, .scalarFunction _ _ | .literal _, .aliased _ _
  | .aliased _ _, .column _ | .aliased _ _, .getField _ _ | .aliased _ _, .scalarFunction _ _
  | .aliased _ _, .literal _ => isFalse fun h => by cases h

/-- Equality of several expressions is decidable. -/
def decEqAll : (as bs : List Expression) → Decidable (as = bs)
  | [], [] => isTrue rfl
  | [], _ :: _ | _ :: _, [] => isFalse fun h => by cases h
  | a :: as, b :: bs =>
    have := decEq a b
    have := decEqAll as bs
    decidable_of_iff (a = b ∧ as = bs) ⟨fun h => by rw [h.1, h.2], fun h => by cases h; exact ⟨rfl, rfl⟩⟩

end

instance : DecidableEq Expression := decEq

mutual

/-- `column_references`: the source columns an expression reads, in first use order. -/
def columnReferences : Expression → List ColumnRef
  | .column ref => [ref]
  | .aliased expression _ => columnReferences expression
  | .getField input _ => columnReferences input
  | .scalarFunction _ args => (referencesAll args).eraseDups
  | .literal _ => []

/-- The source columns several expressions read. -/
def referencesAll : List Expression → List ColumnRef
  | [] => []
  | e :: es => columnReferences e ++ referencesAll es

end

mutual

/-- `column_name`, with the table of a column written before it. -/
def columnName : Expression → String
  | .column ref => if ref.table = "" then ref.column else ref.table ++ "." ++ ref.column
  | .getField input field => columnName input ++ "." ++ field
  | .scalarFunction function args => function ++ "(" ++ ", ".intercalate (columnNames args) ++ ")"
  | .literal value => value.repr
  | .aliased _ name => name

/-- The names of several expressions. -/
def columnNames : List Expression → List String
  | [] => []
  | e :: es => columnName e :: columnNames es

end

end Expression

/-- The document column of a Scan: a column by name, or an expression over the table's columns. -/
inductive DocumentColumn
  | name (column : String)
  | expression (e : Expression)

/-- `source_columns`: the names of the source columns a document column reads. -/
def DocumentColumn.sourceColumns : DocumentColumn → List String
  | .name column => [column]
  | .expression e => (e.columnReferences.map ColumnRef.column).eraseDups

/-! ## Model calls -/

/-- `MODEL_CALL_KINDS`: the type of a model call's answer. -/
inductive CallKind
  | boolean | score | label | extract | features | map
  deriving Repr, DecidableEq

/-- `Prompt`: the text of a model call and the columns it reads, in placeholder order. -/
structure Prompt where
  template : String
  args : List Expression
  deriving DecidableEq

/-- `ModelCall`: one prompt asked of every row. -/
structure ModelCall where
  prompt : Prompt
  kind : CallKind
  labels : List String
  probabilities : Bool
  question : String
  pooling : String
  maxAnswerTokens : ℕ
  deriving DecidableEq

/-- The columns a model call reads. -/
def ModelCall.references (call : ModelCall) : List ColumnRef :=
  Expression.referencesAll call.prompt.args

/-- `ModelCall.aliases`: the tables the prompt reads, in placeholder order. -/
def ModelCall.aliases (call : ModelCall) : List String :=
  (call.references.map ColumnRef.table).eraseDups

/-- A predicate a model decides: an `AI.IF` call, or a comparison of an `AI.SCORE` call. -/
inductive ModelPredicate
  | asked (call : ModelCall)
  | compared (call : ModelCall) (comparison : Comparison) (threshold : Literal)

/-- `model_call` of a predicate. -/
def ModelPredicate.modelCall : ModelPredicate → ModelCall
  | .asked call => call
  | .compared call _ _ => call

/-! ## Result columns -/

/-- A column of a projection, or what a sort key sorts on: a value expression, a model call under a name, or
the bare name of a column of the rows below (an aggregate or a window among them). -/
inductive ResultColumn
  | value (e : Expression)
  | call (call : ModelCall) (name : String)
  | name (name : String)
  deriving DecidableEq

namespace ResultColumn

/-- `column_name` of a result column. -/
def columnName : ResultColumn → String
  | .value e => e.columnName
  | .call _ n => n
  | .name n => n

/-- The reference of a column that is one, and not computed from one. -/
def reference? : ResultColumn → Option ColumnRef
  | .value (.column ref) => some ref
  | _ => none

/-- `aliased_call`: the model call a column returns. -/
def aliasedCall : ResultColumn → Option ModelCall
  | .call c _ => some c
  | _ => none

/-- `column_references` of a result column: a model call is none of its expressions. -/
def columnReferences : ResultColumn → List ColumnRef
  | .value e => e.columnReferences
  | _ => []

end ResultColumn

/-- The suffix of the column that holds a label's probabilities. -/
def probabilitiesSuffix : String := "_probabilities"

/-- The suffix of the column that holds an answer's span. -/
def spanSuffix : String := "_span"

/-- `ExtractStruct`: extractions of one table, returned as struct columns. -/
structure ExtractStruct where
  name : String
  fields : List String

/-- `ExtractStruct.packing`: the struct columns of the answers and of the spans, with the extraction each
field is packed from. -/
def ExtractStruct.packing (struct : ExtractStruct) : List (String × List (String × String)) :=
  ["", spanSuffix].map fun suffix =>
    (struct.name ++ suffix, struct.fields.map fun field => (field, struct.name ++ "." ++ field ++ suffix))

/-- `packed_columns`: each struct column takes the place of its first member, and its other members leave. -/
def packedColumns (columns : List String) (packing : List (String × List (String × String))) :
    List String :=
  let owner := (packing.flatMap fun entry => entry.2.map fun field => (field.2, entry.1)).foldl
    (fun owner entry => owner.set entry.1 entry.2) (Dict.empty : Dict String String)
  (columns.map fun column => (owner.get? column).getD column).eraseDups

end Quail.Logical
