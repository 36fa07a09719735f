import Quail.Relational.Order
import Quail.Lib.Argsort
import Quail.Lib.Dict

/-!
# Windows, sorts and limits

The runtimes of `Window`, `Sort` and `Limit` (`execution/runtimes/relational.py`) over the rows of a
table, and the two rules of `planner/rules/physical.py` that rewrite the end of a graph.
-/

namespace Quail.Relational
open Argsort

variable {C V : Type}

/-- A table: its columns and rows. -/
structure Table (C V : Type) where
  columns : List C
  rows : List (Row C V)

/-- `WINDOW_FUNCTIONS`. -/
inductive WindowFunction
  | rowNumber
  | lag
  | lead
  | sum
  | count
  deriving DecidableEq

/-- One function over the rows of each row's partition, under a name. -/
structure WindowCall (C : Type) where
  function : WindowFunction
  argument : Option C
  partition : List C
  order : List (SortKey C)
  name : C

/-- The sort keys that order rows as the window call's partition and order do. -/
def windowSortKeys (partition : List C) (order : List (SortKey C)) : List (SortKey C) :=
  (partition.map fun name => ⟨name, false, false⟩) ++ order

/-- What `WindowCall.validate` and `Window.validate` check of the calls over projected columns. -/
structure ValidWindow (projected : List C) (calls : List (WindowCall C)) : Prop where
  unique : (projected ++ calls.map WindowCall.name).Nodup
  partition : ∀ call ∈ calls, ∀ name ∈ call.partition, name ∈ projected
  order : ∀ call ∈ calls, ∀ k ∈ call.order, k.column ∈ projected
  argument : ∀ call ∈ calls, ∀ name ∈ call.argument, name ∈ projected
  takesNone : ∀ call ∈ calls, call.function = .rowNumber → call.argument = none
  needsColumn : ∀ call ∈ calls, call.function ∈ [.lag, .lead, .sum] → call.argument.isSome
  needsOrder : ∀ call ∈ calls, call.function ∈ [.lag, .lead] → call.order ≠ []

namespace Cell

def isNull : Cell V → Bool
  | null => true
  | _ => false

/-- Whether two cells differ; null if either is. -/
def notEqual [DecidableEq V] : Cell V → Cell V → Option Bool
  | value v, value w => some (decide (v ≠ w))
  | null, _ | _, null => none
  | _, _ => some true

def add [Add V] : Cell V → Cell V → Cell V
  | value v, value w => value (v + w)
  | null, _ | _, null => null
  | _, _ => nan

def sub [Sub V] : Cell V → Cell V → Cell V
  | value v, value w => value (v - w)
  | null, _ | _, null => null
  | _, _ => nan

end Cell

/-! ## Window columns -/

section
variable [LinearOrder V] [Add V] [Sub V] [NatCast V]

/-- Whether a partition key differs from the row before: a null equals a null. -/
def differs (current previous : Cell V) : Bool :=
  (current.notEqual previous).getD false || (current.isNull ^^ previous.isNull)

/-- Flag the rows whose partition keys differ from the row before. -/
def partitionStarts (keys : List (List (Cell V))) (numRows : ℕ) : List Bool :=
  keys.foldl (fun starts column => starts.zipWith (· || ·)
    ((true :: column.tail.zipWith differs column.dropLast).take numRows))
    (List.replicate (min numRows 1) true ++ List.replicate (numRows - 1) false)

/-- The position each row's partition starts at. -/
def partitionFirsts (starts : List Bool) : List ℕ :=
  let nonzero := (starts.zipIdx.filter Prod.fst).map Prod.snd
  take nonzero ((starts.scanl (fun count start => count + start.toNat) 0).tail.map (· - 1))

/-- The running sum of a column. -/
def cumulativeSum (values : List (Cell V)) : List (Cell V) :=
  (values.scanl Cell.add (.value ((0 : ℕ) : V))).tail

/-- What a running function adds up: the valid cells, the rows, or the cells with null as zero. -/
def counted (function : WindowFunction) (values : Option (List (Cell V))) (numRows : ℕ) :
    List (Cell V) :=
  match values with
  | none => List.replicate numRows (.value ((1 : ℕ) : V))
  | some values =>
    if function = .count then values.map fun c => .value (((!c.isNull).toNat : ℕ) : V)
    else values.map fun c => if c.isNull then .value ((0 : ℕ) : V) else c

/-- One call's column, over the sorted rows. -/
def callColumn (function : WindowFunction) (values : Option (List (Cell V))) (starts : List Bool)
    (numRows : ℕ) : List (Cell V) :=
  let first := partitionFirsts starts
  match function with
  | .rowNumber =>
    (List.range numRows).zipWith (fun position first => .value ((position - first + 1 : ℕ) : V)) first
  | .lag =>
    (starts.take numRows).zipWith (fun edge c => if edge then Cell.null else c)
      ((Cell.null :: (values.getD []).dropLast).take numRows)
  | .lead =>
    ((starts.tail ++ [true]).take numRows).zipWith (fun edge c => if edge then Cell.null else c)
      (((values.getD []).tail ++ [Cell.null]).take numRows)
  | .sum | .count =>
    let running := cumulativeSum (counted function values numRows)
    -- the running value before the partition: none for the first one
    let before := first.map fun first : ℕ =>
      if first = 0 then .value ((0 : ℕ) : V) else (running[first - 1]?).getD .null
    running.zipWith Cell.sub before

end

/-! ## The runtimes -/

/-- The column of a list of rows. -/
def column (rows : List (Row C V)) (name : C) : List (Cell V) := rows.map fun row => row name

variable [DecidableEq C]

/-- Overwrite or append a column. -/
def setColumn (name : C) (values : List (Cell V)) (rows : List (Row C V)) : List (Row C V) :=
  rows.zipWith (fun row c => Function.update row name c) values

/-- Calls over one partition and order share one sort. -/
def groupCalls (calls : List (WindowCall C)) :
    Dict (List C × List (SortKey C)) (List (WindowCall C)) :=
  calls.foldl (fun groups call => groups.set (call.partition, call.order)
    ((groups.get? (call.partition, call.order)).getD [] ++ [call])) .empty

section
variable [LinearOrder V] [Add V] [Sub V] [NatCast V]

/-- The sort order of the rows, and each call's column in that order. -/
def windowColumns (rows : List (Row C V)) (partition : List C) (order : List (SortKey C))
    (calls : List (WindowCall C)) : List ℕ × List (C × List (Cell V)) :=
  let keys := windowSortKeys partition order
  let indices := sortIndices (fun r s => rowLe keys r s) rows
  let starts := partitionStarts (partition.map fun name => take (column rows name) indices)
    rows.length
  (indices, calls.map fun call => (call.name, callColumn call.function
    (call.argument.map fun argument => take (column rows argument) indices) starts rows.length))

/-- Add a group's columns, in the rows' own order, and keep its sort order. -/
def windowGroup (rows : List (Row C V)) (done : List (Row C V) × Option (List ℕ))
    (group : (List C × List (SortKey C)) × List (WindowCall C)) :
    List (Row C V) × Option (List ℕ) :=
  let (indices, computed) := windowColumns rows group.1.1 group.1.2 group.2
  let restore := sortIndices (· ≤ ·) indices
  (computed.foldl (fun done c => setColumn c.1 (take c.2 restore) done) done.1, some indices)

/-- Append the window columns: the rows come out in the last group's order. -/
def windowTable (table : Table C V) (calls : List (WindowCall C)) (columns : List C) : Table C V :=
  let (rows, indices) := (groupCalls calls).entries.foldl (windowGroup table.rows) (table.rows, none)
  { columns := columns
    rows := match indices with
      | none => rows
      | some indices => take rows indices }

omit [Add V] [Sub V] [NatCast V] in
/-- The first row of each distinct value of the columns, in order. -/
def distinctRows (columns : List C) (rows : List (Row C V)) : List (Row C V) :=
  rows.foldl (fun kept row =>
    if kept.any fun old => decide (∀ name ∈ columns, old name = row name) then kept
    else kept ++ [row]) []

omit [Add V] [Sub V] [NatCast V] in
/-- Sort, deduplicate, and bound a table. -/
def sortTable (table : Table C V) (keys : List (SortKey C)) (columns : List C) (distinct : Bool)
    (offset : ℕ) (fetch : Option ℕ) : Table C V :=
  let rows := if distinct then distinctRows columns table.rows else table.rows
  let rows := if keys.isEmpty then rows else take rows (sortIndices (fun r s => rowLe keys r s) rows)
  { columns := columns
    rows := match fetch with
      | none => rows.drop offset
      | some fetch => (rows.take (offset + fetch)).drop offset }

/-! ## The end of a graph -/

/-- The end of a graph: the nodes over the rows that the rest of the graph gives. -/
inductive Plan (C : Type)
  | source (schema : List C)
  | window (calls : List (WindowCall C)) (columns : List C) (input : Plan C)
  | sort (keys : List (SortKey C)) (columns : List C) (distinct : Bool) (offset : ℕ)
      (fetch : Option ℕ) (input : Plan C)
  | limit (count : ℕ) (input : Plan C)

namespace Plan

/-- The schema of a node's output port. -/
def schema : Plan C → List C
  | source schema => schema
  | window _ columns _ => columns
  | sort _ columns _ _ _ _ => columns
  | limit _ _ => []

def hasSort : Plan C → Bool
  | source _ => false
  | window _ _ input => input.hasSort
  | sort .. => true
  | limit _ input => input.hasSort

def hasLimit : Plan C → Bool
  | source _ => false
  | window _ _ input => input.hasLimit
  | sort _ _ _ _ _ input => input.hasLimit
  | limit .. => true

/-- The root's rows over the rows of the source. -/
def run (rows : List (Row C V)) : Plan C → Table C V
  | source schema => ⟨schema, rows⟩
  | window calls columns input => windowTable (input.run rows) calls columns
  | sort keys columns distinct offset fetch input =>
    sortTable (input.run rows) keys columns distinct offset fetch
  | limit count input => { input.run rows with rows := (input.run rows).rows.take count }

end Plan

end

/-- `ShouldEliminateWindowSort`: drop the root sort over a window, if its keys are the last call's. The
rule looks at the graph's first sort, so a sort below the root keeps the graph as it is. -/
def eliminateWindowSort : Plan C → Option (Plan C)
  | .sort keys columns distinct offset fetch (.window calls _ input) =>
    if input.hasSort then none
    else if distinct || offset != 0 || fetch.isSome then none
    else
      match calls.getLast? with
      | none => none
      | some call =>
        if keys = windowSortKeys call.partition call.order then some (.window calls columns input)
        else none
  | _ => none

/-- `ShouldPushDownLimitThroughWindow`: the root limit over a window with one order, no partition and
no `lead` becomes a sort with a fetch under the window. -/
def pushDownLimitThroughWindow : Plan C → Option (Plan C)
  | .limit count (.window calls columns input) =>
    if input.hasLimit then none
    else
      match calls with
      | [] => none
      | call :: rest =>
        if rest.any (fun other => decide (other.order ≠ call.order)) || call.order.isEmpty ||
            (call :: rest).any fun c => !c.partition.isEmpty || decide (c.function = .lead) then none
        else some (.window calls columns (.sort call.order input.schema false 0 (some count) input))
  | _ => none

end Quail.Relational
