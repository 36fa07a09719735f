import Quail.Copies.Deduplicate

/-!
# Expansion

`Deduplicated.expanded` of `execution/deduplicate.py`: every document, or pair, gets the answers of its
key documents. `join` is Arrow's inner join of two key columns, which finds the positions of equal
keys in an order of its own.
-/

namespace Quail.Copies
open Arrays

variable {γ τ : Type}

/-! ## One table -/

/-- Positions `(i, j)` with `wanted[i] = answered[j]`, ordered by `i` (`_matches`). -/
def findMatches (join : List ℕ → List ℕ → List (ℕ × ℕ)) (wanted answered : List ℕ) : List (ℕ × ℕ) :=
  if answered = [] ∨ wanted = [] then [] else byLeft (join wanted answered)

/-- `member[documents]`, where `member` has one flag for each of `size` documents and is set at
`read`. -/
def isMember (size : ℕ) (read documents : List ℕ) : Except PyError (List Bool) :=
  if (∀ d ∈ read, d < size) ∧ ∀ d ∈ documents, d < size then
    .ok (documents.map fun d => decide (d ∈ read))
  else .error (.index "index is out of bounds")

/-- `documents[kept]` of a list of flags. -/
def compress (documents : List ℕ) (kept : List Bool) : List ℕ :=
  ((documents.zip kept).filter Prod.snd).map Prod.fst

/-- One turn of the loop of `_expanded` over the aliases of a full product: the answer rows found so
far, and the documents each of them goes to. -/
def expandAlias (join : List ℕ → List ℕ → List (ℕ × ℕ)) (table : Table τ)
    (every keys : Dict Alias (List ℕ)) (s : List ℕ × List (Alias × List ℕ)) (a : Alias) :
    Except PyError (List ℕ × List (Alias × List ℕ)) := do
  let documents ← lookup every a
  let found := findMatches join (← pick (← lookup keys a) documents) (← pick (← table.column a) s.1)
  let rows ← pick s.1 (found.map Prod.snd)
  let earlier ← s.2.mapM fun e => do return (e.1, ← pick e.2 (found.map Prod.snd))
  return (rows, earlier ++ [(a, ← pick documents (found.map Prod.fst))])

/-- The answer rows for a list of pairs, and the documents each of them goes to. -/
def expandPairs (join : List ℕ → List ℕ → List (ℕ × ℕ)) (table : Table τ) (a b : Alias)
    (every keys : Dict Alias (List ℕ)) (pairs : Table (List γ)) :
    Except PyError (List ℕ × List (Alias × List ℕ)) := do
  let answered := (← table.column a).zipWith pairKey (← table.column b)
  let keysA ← lookup keys a
  let keysB ← lookup keys b
  let listedA ← pairs.column a
  let listedB ← pairs.column b
  let kept := (← isMember keysA.length (← lookup every a) listedA).zipWith and
    (← isMember keysB.length (← lookup every b) listedB)
  let foundA := compress listedA kept
  let foundB := compress listedB kept
  let found := findMatches join ((← pick keysA foundA).zipWith pairKey (← pick keysB foundB)) answered
  return (found.map Prod.snd, [(a, ← pick foundA (found.map Prod.fst)),
    (b, ← pick foundB (found.map Prod.fst))])

/-- The answer rows to give out, and the documents each of them goes to: by the pairs when the answers
cover two tables, or for every combination of the documents. -/
def expandRows (join : List ℕ → List ℕ → List (ℕ × ℕ)) (table : Table τ) (aliases : List Alias)
    (every keys : Dict Alias (List ℕ)) (pairs : Option (Table (List γ))) :
    Except PyError (List ℕ × List (Alias × List ℕ)) :=
  match pairs, aliases with
  | some pairs, [a, b] => expandPairs join table a b every keys pairs
  | _, _ => aliases.foldlM (expandAlias join table every keys) (List.range table.rows.length, [])

/-- Give each answer row to every document whose key document it names (`_expanded`). -/
def expandedTable (join : List ℕ → List ℕ → List (ℕ × ℕ)) (table : Table τ) (aliases : List Alias)
    (every keys : Dict Alias (List ℕ)) (pairs : Option (Table (List γ))) :
    Except PyError (Table τ) := do
  let (rows, found) ← expandRows join table aliases every keys pairs
  let table ← table.take rows
  return found.foldl (fun table e => table.setColumn e.1 e.2) table

/-- Select the document ids whose answer is true (`true_answer_rows`). -/
def trueAnswerRows (table : Table Bool) : Table (List γ) where
  aliases := table.aliases
  columns := 0
  rows := (table.rows.filter Prod.snd).map fun row => (row.1, [])

/-! ## The group -/

/-- The rows an operator reports to have read and written, of its metrics. -/
structure Metrics where
  inputRows : ℕ
  outputRows : ℕ

/-- What a node's run returns. -/
structure NodeResult (γ : Type) where
  outputs : Dict PortName (Value γ)
  metrics : Metrics

/-- What the loop of `expanded` over the group's nodes keeps: the documents of each alias that the next
node reads, and the expanded outputs. -/
structure Expanding (γ : Type) where
  current : Dict Alias (List ℕ)
  expanded : Dict NodeId (NodeResult γ)
  earlierOutputs : List ((NodeId × PortName) × Value γ)

namespace Deduplicated

variable (d : Deduplicated γ)

/-- The ids of an alias that the answers or the pairs can name. -/
def known (pairs : Option (Table (List γ))) (a : Alias) : List ℕ :=
  ((d.every.get? a).getD []) ++
    match pairs with
    | some table => if a ∈ table.aliases then table.rows.map fun row => row.1 a else []
    | none => []

/-- Each alias's key documents; a table without copies is its own key (`_keys`). -/
def keysOf (aliases : List Alias) (pairs : Option (Table (List γ))) : Dict Alias (List ℕ) :=
  aliases.foldl (fun keys a =>
    match d.keys.get? a with
    | some documents => keys.set a documents
    | none => keys.set a (List.range (((d.known pairs a).map (· + 1)).foldr max 0))) Dict.empty

/-- The pairs a node stands for: read from outside, or a join's inside (`_pairs_read`). -/
def pairsRead (node : Node) (earlier : List ((NodeId × PortName) × Value γ)) :
    Except PyError (Option (Table (List γ))) := do
  match d.pairs.get? node.nodeId with
  | some table => return some table
  | none =>
    match node.inputs.find? fun port => port.valueType = .joinAnswers ∧ port.sourceNode ∈ d.inside with
    | none => return none
    | some port =>
      match (earlier.find? fun e => e.1 = (port.sourceNode, port.sourcePort)).map Prod.snd with
      | some (.joinAnswers table) => return some (trueAnswerRows table)
      | some _ => throw (.value "answer table has no answer column")
      | none => throw (.key "no earlier output")

/-- The rows of the first rows port whose documents the group read. -/
def rowsReadAt : List InputPort → Except PyError (Option ℕ)
  | [] => .ok none
  | port :: ports =>
    if port.valueType = .rows then do
      match d.every.get? (← port.sourcePort.afterColon) with
      | some documents => return some documents.length
      | none => rowsReadAt ports
    else rowsReadAt ports

/-- The number of rows a node has read, where the expansion knows it (`_rows_read`). -/
def rowsRead (node : Node) (pairs : Option (Table (List γ))) : Except PyError (Option ℕ) :=
  match pairs with
  | some table => .ok (some table.rows.length)
  | none => d.rowsReadAt node.inputs

/-- The aliases an output's rows name (`_aliases`). -/
def aliasesOf (node : Node) (port : OutputPort) (value : Value γ) : Except PyError (List Alias) :=
  match value.rowAliases with
  | some aliases => .ok aliases
  | none =>
    if port.valueType = .rows then do return [← port.name.afterColon]
    else
      match node.kind with
      | .aiJoin anchor partners _ => .ok (anchor :: partners)
      | .aiFilter a => .ok [a]
      | .filter aliases => .ok aliases
      | .aiInference => .error (.runtime "a node without aliases")

/-- An AI join's anchor rows, from its expanded answers. -/
def joinRows (anti : Bool) (aliases : List Alias) (read : Dict Alias (List ℕ))
    (outputs : Dict PortName (Value γ)) : Except PyError (Value γ) := do
  let joined ← match outputs.entries.findSome? fun e =>
      match e.2 with
      | .joinAnswers table => some table
      | _ => none with
    | some table => pure table
    | none => throw (.runtime "StopIteration")
  match aliases with
  | [anchor] =>
    let reached := (← lookup read anchor).insertionSort (· ≤ ·)
    let answered ← (trueAnswerRows (γ := γ) joined).column anchor
    return .rows (Table.ofIds anchor (reached.filter fun a => keeps anti (decide (a ∈ answered))) [])
  | _ => throw (.value "too many values to unpack")

variable (join : List ℕ → List ℕ → List (ℕ × ℕ))

/-- Expand one output of a node. -/
def expandOutput (node : Node) (pairs : Option (Table (List γ))) (read : Dict Alias (List ℕ))
    (outputs : Dict PortName (Value γ)) (port : OutputPort) (value : Value γ) (aliases : List Alias) :
    Except PyError (Value γ) := do
  let keys := d.keysOf aliases pairs
  match port.valueType, value, node.kind with
  | .joinAnswers, .joinAnswers table, _ =>
    return .joinAnswers (← expandedTable join table aliases read keys pairs)
  | .joinAnswers, .joinRecord record, _ =>
    return .joinAnswers (← expandedTable join (← record.table) aliases read keys pairs)
  | .joinAnswers, _, _ => throw (.type "join answers are a table or a record")
  | .filterAnswers, .filterAnswers table, _ =>
    return .filterAnswers (← expandedTable join table aliases read keys (none (α := Table (List γ))))
  | .filterAnswers, _, _ => throw (.type "filter answers are a table")
  | _, _, .aiJoin _ _ anti => joinRows anti aliases read outputs
  | _, value, _ =>
    match aliases with
    | [] => throw (.index "tuple index out of range")
    | a :: _ =>
      let rows ← value.rowsOf a
      return .rows (← expandedTable join rows aliases read keys
        (if aliases.length = 2 then pairs else none))

/-- The value at an output port. -/
def outputAt (result : NodeResult γ) (name : PortName) : Except PyError (Value γ) :=
  match result.outputs.get? name with
  | some value => .ok value
  | none => .error (.key "no such output")

/-- The documents of each alias that the next node reads, after one output. -/
def readNext (port : OutputPort) (aliases : List Alias) (value : Value γ)
    (current : Dict Alias (List ℕ)) : Except PyError (Dict Alias (List ℕ)) :=
  match port.valueType, aliases with
  | .rows, [a] => do return current.set a (← value.documentIds)
  | _, _ => .ok current

/-- One turn of the loop over a node's output ports. -/
def expandPort (node : Node) (pairs : Option (Table (List γ))) (read : Dict Alias (List ℕ))
    (result : NodeResult γ) (s : Dict PortName (Value γ) × Expanding γ) (port : OutputPort) :
    Except PyError (Dict PortName (Value γ) × Expanding γ) := do
  let value ← outputAt result port.name
  let aliases ← aliasesOf node port value
  if ¬aliases.any d.keys.contains then
    return (s.1.set port.name value, s.2)
  let value ← d.expandOutput join node pairs read s.1 port value aliases
  let current ← readNext port aliases value s.2.current
  return (s.1.set port.name value, { s.2 with
    current := current
    earlierOutputs := ((node.nodeId, port.name), value) :: s.2.earlierOutputs })

/-- A node's metrics over the documents it stands for. -/
def expandMetrics (node : Node) (pairs : Option (Table (List γ))) (outputs : Dict PortName (Value γ))
    (metrics : Metrics) : Except PyError Metrics := do
  let read ← d.rowsRead node pairs
  let written := outputs.entries.findSome? fun e =>
    match e.2 with
    | .rows rows => some rows.rows.length
    | _ => none
  return ⟨read.getD metrics.inputRows, written.getD metrics.outputRows⟩

/-- One turn of the loop over the group's nodes. -/
def expandNode (results : Dict NodeId (NodeResult γ)) (e : Expanding γ) (node : Node) :
    Except PyError (Expanding γ) := do
  let result ← lookup results node.nodeId
  let pairs ← d.pairsRead node e.earlierOutputs
  -- every port stands for the documents the node read, before its survivors become what the next
  -- node reads; join answers come before the rows made from them
  let ports := (node.outputs.filter fun port => port.valueType = .joinAnswers) ++
    node.outputs.filter fun port => port.valueType ≠ .joinAnswers
  let (outputs, e) ← ports.foldlM (d.expandPort join node pairs e.current result) (Dict.empty, e)
  let metrics ← d.expandMetrics node pairs outputs result.metrics
  return { e with expanded := e.expanded.set node.nodeId ⟨outputs, metrics⟩ }

/-- Give every document, or pair, the answers of its key documents (`expanded`). -/
def expanded (results : Dict NodeId (NodeResult γ)) : Except PyError (Dict NodeId (NodeResult γ)) := do
  return (← d.nodes.foldlM (d.expandNode join results) ⟨d.every, Dict.empty, []⟩).expanded

end Deduplicated

end Quail.Copies
