import Quail.Copies.Table

/-!
# Deduplication

`deduplicate` of `execution/deduplicate.py`: a group's outside inputs, reduced to one document, or
pair, for each key. A document's key is the first document with its tokens and its values in the
columns the context names; the sources carry it as a column.

A function that returns `None` where the group runs without deduplication returns `none` here, inside
the exceptions it may raise.
-/

namespace Quail.Copies
open Arrays

variable {γ : Type}

/-! ## Keys -/

/-- Each document's first document of its group (`first_documents_with`), given the number of each
document's group: documents with equal tokens and equal values have one number. -/
def firstDocuments (groups : List ℕ) : Except PyError (List ℕ) :=
  pick (uniqueFirst groups) (uniqueInverse groups)

/-- One number for each pair: the anchor's id, then the partner's (`pair_keys`). -/
def pairKey (anchor partner : ℕ) : ℕ := anchor <<< 32 + partner

/-- What the execution context says of copies: the aliases to deduplicate, and each alias's column of
first documents, if the sources carry it. -/
structure Context where
  deduplicate : List Alias
  firstDocument : Alias → Option (List ℕ)

/-- Load an alias's key documents; false when it has none (`_key`). -/
def loadKey (context : Context) (a : Alias) (keys : Dict Alias (List ℕ)) :
    Except PyError (Bool × Dict Alias (List ℕ)) :=
  if a ∉ context.deduplicate then .ok (false, keys)
  else if keys.contains a then .ok (true, keys)
  else
    match context.firstDocument a with
    | none => .error (.key s!"'{a}' needs its '__first_document' column")
    | some documents => .ok (true, keys.set a documents)

/-- `d[key]`. -/
def lookup {κ β : Type} [DecidableEq κ] [ToString κ] (d : Dict κ β) (key : κ) : Except PyError β :=
  match d.get? key with
  | none => .error (.key (toString key))
  | some v => .ok v

/-! ## Reading the inputs -/

/-- What has been read of the outside inputs. -/
structure Reading (γ : Type) where
  keys : Dict Alias (List ℕ)
  every : Dict Alias (List ℕ)
  pairs : Dict NodeId (Table (List γ))
  reduced : Dict NodeId (Dict String (Value γ))

/-- Overwrite one input of a node. -/
def Reading.setInput (r : Reading γ) (node : NodeId) (port : String) (value : Value γ) :
    Except PyError (Reading γ) := do
  let inputs ← lookup r.reduced node
  return { r with reduced := r.reduced.set node (inputs.set port value) }

/-- Whether an input holds pairs: a pair table, or rows over two tables (`_is_pairs`). -/
def isPairs (port : InputPort) (value : Value γ) : Bool :=
  port.valueType = .pairs ∨ (value.rowAliases.map List.length) = some 2

/-- One row for each key document, or `none` when copies carry different values (`_reduced_rows`). -/
def reducedRows [DecidableEq γ] (value : Value γ) (a : Alias) (ids keys : List ℕ) :
    Except PyError (Option (Value γ)) := do
  let mapped ← pick keys ids
  let kept := unique mapped
  match value with
  | .rows r =>
    if r.columns ≠ 0 then
      let values := r.rows.map Prod.snd
      let copied ← pick values (← pick (uniqueFirst mapped) (uniqueInverse mapped))
      if copied ≠ values then
        return none
      let rows ← r.take (uniqueFirst mapped)
      return some (.rows { rows with
        aliases := [a]
        rows := kept.zipWith (fun document row => (fun _ => document, row.2)) rows.rows })
    else
      return some (.rows (Table.ofIds a kept []))
  | _ => return some (.ids kept)

/-- The distinct documents of a pair table's column, for an alias no rows port has read. -/
def readSide (table : Table (List γ)) (every : Dict Alias (List ℕ)) (a : Alias) :
    Except PyError (Dict Alias (List ℕ)) :=
  if every.contains a then .ok every
  else do return every.set a (unique (← table.column a))

/-- `any(_key(context, alias, keys) for alias in aliases)`: the keys of the first alias that has some. -/
def loadAnyKey (context : Context) :
    List Alias → Dict Alias (List ℕ) → Except PyError (Bool × Dict Alias (List ℕ))
  | [], keys => .ok (false, keys)
  | a :: aliases, keys => do
    match ← loadKey context a keys with
    | (true, keys) => return (true, keys)
    | (false, keys) => loadAnyKey context aliases keys

/-- The key documents of one side of a pair table. -/
def mappedSide (table : Table (List γ)) (keys : Dict Alias (List ℕ)) (a : Alias) :
    Except PyError (List ℕ) := do
  let documents ← table.column a
  match keys.get? a with
  | some keys => pick keys documents
  | none => return documents

/-- The pair table of a list of pair numbers (`pair_ids_table`). -/
def pairIdsTable (left right : Alias) (pairs : List ℕ) : Table (List γ) where
  aliases := [left, right]
  columns := 0
  rows := pairs.map fun key =>
    (fun a => if a = left then key >>> 32 else key &&& 0xFFFFFFFF, [])

/-- Record a pair input and reduce it to one pair of key documents each (`_read_pairs`). -/
def readPairs (context : Context) (left right : Alias) (table : Table (List γ)) (node : Node)
    (port : InputPort) (r : Reading γ) : Except PyError (Reading γ) := do
  let every ← readSide table (← readSide table r.every left) right
  let (found, keys) ← loadAnyKey context [left, right] r.keys
  let r := { r with every := every, keys := keys }
  if !found then
    return r
  let sides := (← mappedSide table keys left).zipWith pairKey (← mappedSide table keys right)
  let value := pairIdsTable left right (unique sides)
  Reading.setInput { r with pairs := r.pairs.set node.nodeId table } node.nodeId port.name
    (if port.valueType = .rows then .rows value else .pairs value)

/-- The table of a pair input. -/
def pairTable : Value γ → Except PyError (Table (List γ))
  | .rows r => .ok r
  | .pairs table => .ok table
  | _ => .error (.type "a pair input has no columns")

/-- The alias whose documents an input carries. -/
def aliasAt (port : InputPort) (value : Value γ) : Except PyError Alias :=
  match value.rowAliases with
  | some (a :: _) => .ok a
  | _ => port.sourcePort.afterColon

/-- Record the documents of an input and reduce it to one row for each key document. -/
def readDocuments [DecidableEq γ] (context : Context) (node : Node) (port : InputPort) (value : Value γ)
    (a : Alias) (ids : List ℕ) (r : Reading γ) : Except PyError (Option (Reading γ)) := do
  let (found, keys) ← loadKey context a r.keys
  let r := { r with every := r.every.set a ids, keys := keys }
  if !found then
    return some r
  match ← reducedRows value a ids (← lookup keys a) with
  | none => return none
  | some value => return some (← r.setInput node.nodeId port.name value)

/-- Read one outside input: one turn of the loop of `deduplicate`. -/
def readInput [DecidableEq γ] (context : Context) (node : Node) (port : InputPort) (value : Value γ)
    (r : Reading γ) : Except PyError (Option (Reading γ)) := do
  if isPairs port value then
    let table ← pairTable value
    match table.aliases, table.columns with
    | [left, right], 0 => return some (← readPairs context left right table node port r)
    | _, _ => return none
  else if port.valueType = .rows then
    let a ← aliasAt port value
    let ids ← value.documentIds
    if (r.every.get? a).any fun read => read ≠ ids then
      return none
    readDocuments context node port value a ids r
  else
    return none

/-- Read the outside inputs in turn, until one cannot be given back to every copy. -/
def readInputs [DecidableEq γ] (context : Context) :
    List (Node × InputPort × Value γ) → Reading γ → Except PyError (Option (Reading γ))
  | [], r => .ok (some r)
  | (node, port, value) :: rest, r => do
    match ← readInput context node port value r with
    | none => return none
    | some r => readInputs context rest r

/-! ## The group -/

/-- A group's inputs over key documents, and what its results are expanded by (`Deduplicated`). -/
structure Deduplicated (γ : Type) where
  inputs : Dict NodeId (Dict String (Value γ))
  keys : Dict Alias (List ℕ)
  every : Dict Alias (List ℕ)
  pairs : Dict NodeId (Table (List γ))
  inside : List NodeId
  nodes : List Node

/-- The inputs a group reads from outside, each with its value. -/
def outsideInputs (nodes : List Node) (inputs : Dict NodeId (Dict String (Value γ))) :
    Except PyError (List (Node × InputPort × Value γ)) :=
  (nodes.flatMap fun node => (node.inputs.filter fun port =>
      port.sourceNode ∉ nodes.map Node.nodeId).map fun port => (node, port)).mapM fun e => do
    return (e.1, e.2, ← lookup (← lookup inputs e.1.nodeId) e.2.name)

/-- Reduce a group's outside inputs to one document, or pair, for each key (`deduplicate`). -/
def deduplicate [DecidableEq γ] (nodes : List Node) (inputs : Dict NodeId (Dict String (Value γ)))
    (context : Context) : Except PyError (Option (Deduplicated γ)) := do
  if context.deduplicate = [] ∨ ¬nodes.any Node.isModel then
    return none
  if nodes.any Node.joinsSeveral then
    return none
  let reduced := nodes.foldl (fun reduced node =>
    reduced.set node.nodeId ((inputs.get? node.nodeId).getD Dict.empty)) Dict.empty
  let outside ← outsideInputs nodes inputs
  -- `sorted` is stable: the rows ports first, each kind in its order
  let ordered := (outside.filter fun e => !isPairs e.2.1 e.2.2) ++
    outside.filter fun e => isPairs e.2.1 e.2.2
  match ← readInputs context ordered ⟨Dict.empty, Dict.empty, Dict.empty, reduced⟩ with
  | none => return none
  | some r =>
    if r.keys.entries = [] then
      return none
    return some ⟨r.reduced, r.keys, r.every, r.pairs, nodes.map Node.nodeId, nodes⟩

end Quail.Copies
