import Quail.Lib.Arrays
import Quail.Lib.Dict

/-!
# Tables of answers

What the ports of a physical graph carry to the model operators and back (`physical/base.py`,
`execution/rows.py`, `execution/types.py`): document ids, rows over one or two tables with their value
columns, pair tables, and the answers of filters and joins. A row holds one document id for each
alias; the ids are positions in the alias's document store.
-/

namespace Quail.Copies
open Arrays

abbrev Alias := String
abbrev NodeId := String

/-- What a port carries. -/
inductive ValueType where
  | rows
  | pairs
  | filterAnswers
  | joinAnswers
  | tuples
  deriving DecidableEq

/-- The names of ports: `rows:<alias>`, `rows`, `filter_answers:<alias>`, `join_answers:<position>` and
`pairs:<position>`. -/
inductive PortName where
  | rows (a : Alias)
  | allRows
  | filterAnswers (a : Alias)
  | joinAnswers (position : ℕ)
  | pairs (position : ℕ)
  deriving DecidableEq

/-- `name.split(":", 1)[1]`. -/
def PortName.afterColon : PortName → Except PyError String
  | rows a => .ok a
  | allRows => .error (.index "list index out of range")
  | filterAnswers a => .ok a
  | joinAnswers position => .ok (toString position)
  | pairs position => .ok (toString position)

/-- An input port: its name, what it carries, and the node and port it reads. -/
structure InputPort where
  name : String
  valueType : ValueType
  sourceNode : NodeId
  sourcePort : PortName

/-- An output port. -/
structure OutputPort where
  name : PortName
  valueType : ValueType

/-- The kinds of nodes a group holds: the model operators, and the conditions between them. -/
inductive NodeKind where
  | aiFilter (a : Alias)
  | aiJoin (anchor : Alias) (partners : List Alias) (anti : Bool)
  | aiInference
  | filter (aliases : List Alias)

/-- A node of the physical graph, as far as a group's inputs and outputs need it. -/
structure Node where
  nodeId : NodeId
  kind : NodeKind
  inputs : List InputPort
  outputs : List OutputPort

/-- `isinstance(node, MODEL_NODES)`. -/
def Node.isModel (node : Node) : Bool :=
  match node.kind with
  | .filter _ => false
  | _ => true

/-- `isinstance(node, AiJoin) and len(node.partners) != 1`. -/
def Node.joinsSeveral (node : Node) : Bool :=
  match node.kind with
  | .aiJoin _ partners _ => partners.length ≠ 1
  | _ => false

/-- Which anchors a join keeps, given whether each matched a partner (`AiJoin.keeps`). -/
def keeps (anti matched : Bool) : Bool := matched != anti

/-- A table: its id columns by alias, the number of its value columns, and its rows. -/
structure Table (τ : Type) where
  aliases : List Alias
  columns : ℕ
  rows : List ((Alias → ℕ) × τ)

namespace Table

variable {τ : Type}

/-- One id column. -/
def column (t : Table τ) (a : Alias) : Except PyError (List ℕ) :=
  if a ∈ t.aliases then .ok (t.rows.map fun row => row.1 a)
  else .error (.key a)

/-- The rows at the positions, in that order. -/
def take (t : Table τ) (positions : List ℕ) : Except PyError (Table τ) := do
  return { t with rows := ← pick t.rows positions }

/-- Overwrite one id column. -/
def setColumn (t : Table τ) (a : Alias) (documents : List ℕ) : Table τ :=
  { t with rows := t.rows.zipWith (fun row document =>
      (fun b => if b = a then document else row.1 b, row.2)) documents }

/-- The table of one id column. -/
def ofIds (a : Alias) (documents : List ℕ) (value : τ) : Table τ where
  aliases := [a]
  columns := 0
  rows := documents.map fun document => (fun _ => document, value)

end Table

/-- The executor's own record of a join's answers: per anchor position a row of answers, and the
partner tuples they are about, all of them in order or those the anchor streamed. -/
structure JoinRecord where
  anchor : Alias
  partners : List Alias
  anchorIndex : List ℕ
  partnerIndex : List (List ℕ)
  rows : Dict ℕ (List Bool)
  anchorPartners : Dict ℕ (List ℕ)

/-- The join answer table of a record (`_join_answers_table`). -/
def JoinRecord.table (value : JoinRecord) : Except PyError (Table Bool) := do
  let anchors ← pick value.anchorIndex value.rows.keys
  let anchorParts := anchors.zipWith (fun anchor row => List.replicate row.2.length anchor) value.rows.entries
  let memberParts := value.rows.entries.map fun row =>
    (value.anchorPartners.get? row.1).getD (List.range row.2.length)
  let answers := value.rows.entries.flatMap Prod.snd
  if value.partnerIndex.any fun member => member.length < value.partners.length then
    throw (.index "tuple index out of range")
  let members ← pick value.partnerIndex memberParts.flatten
  if members.length ≠ answers.length then
    throw (.value "columns of different lengths")
  return {
    aliases := value.anchor :: value.partners
    columns := 1
    rows := (anchorParts.flatten.zip members).zipWith (fun ids answer =>
      (fun a => if a = value.anchor then ids.1
        else (ids.2[value.partners.idxOf a]?).getD 0, answer)) answers }

/-- A value at a port. The value columns of rows and pair tables hold cells of a type `γ`; a filter's
answer row is the predicate's position and the answer. -/
inductive Value (γ : Type) where
  | ids (documents : List ℕ)
  | rows (rows : Table (List γ))
  | pairs (table : Table (List γ))
  | filterAnswers (table : Table (ℕ × Bool))
  | joinAnswers (table : Table Bool)
  | joinRecord (record : JoinRecord)

namespace Value

variable {γ : Type}

/-- The aliases of rows, or `none` for any other value. -/
def rowAliases : Value γ → Option (List Alias)
  | .rows r => some r.aliases
  | _ => none

/-- The documents of one table that the value names (`document_ids`). -/
def documentIds : Value γ → Except PyError (List ℕ)
  | .ids documents => .ok documents
  | .rows r =>
    match r.aliases with
    | [a] => r.column a
    | _ => .error (.value "rows over several tables name no single document")
  | .joinRecord _ => .error (.type "document ids must be one column, an array, or a sequence")
  | _ => .error (.value "document ids must be one column, an array, or a sequence")

/-- A port's value as rows: itself, or the ids of one table (`rows_of`). -/
def rowsOf (a : Alias) : Value γ → Except PyError (Table (List γ))
  | .rows r => .ok r
  | value => do return Table.ofIds a (← value.documentIds) []

end Value

end Quail.Copies
