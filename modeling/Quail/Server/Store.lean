import Quail.Lib.Dict
import Quail.Lib.Program
import Mathlib.Data.Rat.Defs
import Mathlib.Algebra.Order.Ring.Rat

/-!
# Query records

`Store` of `server/store.py`: the rows of the `queries` table and the operations that write them. A
dictionary of a record is an opaque `ν` where a caller gives it. The store's lock makes every operation
one step. Left out are the uploaded inputs, the write counters, listeners and waiters, and the reads that
no write makes.
-/

namespace Quail.Server
open Imperative

/-- The states of a record (`STATES`). -/
inductive State where
  | queued | planning | running | succeeded | failed | interrupted | cancelled
  deriving Repr, DecidableEq

namespace State

/-- The state's text. -/
def name : State → String
  | queued => "queued"
  | planning => "planning"
  | running => "running"
  | succeeded => "succeeded"
  | failed => "failed"
  | interrupted => "interrupted"
  | cancelled => "cancelled"

/-- `ACTIVE_STATES`. -/
def active : State → Bool
  | planning | running => true
  | _ => false

/-- `TERMINAL_STATES`. -/
def terminal : State → Bool
  | succeeded | failed | interrupted | cancelled => true
  | _ => false

end State

/-- An error the server reports. -/
inductive ServerError where
  | invalidRequest (text : String)
  | queryIdConflict (text : String)
  | unknownQuery (text : String)
  | value (text : String)
  deriving Repr, DecidableEq

/-- A dictionary of a record: the caller's, or one the store writes. -/
inductive Info (ν : Type) where
  | given (value : ν)
  | phase (name message : String) (recordedAt : ℚ)
  | error (type message : String)

/-- One row of `queries`, less its id. -/
structure Record (ν δ : Type) where
  sessionId : Option String
  specHash : δ
  spec : ν
  config : ν
  inputs : ν
  state : State
  revision : ℕ
  createdAt : ℚ
  updatedAt : ℚ
  startedAt : Option ℚ
  timeout : ℚ
  cancelRequested : Bool
  executionEpoch : ℕ
  phase : Option (Info ν)
  progress : Option (Info ν)
  plan : Option (Info ν)
  error : Option (Info ν)
  result : Option (Info ν)

/-- The database: its records by id, in the order of their rows. -/
abbrev Store (ν δ : Type) := Dict String (Record ν δ)

/-- An operation of the store. -/
abbrev StoreOp (ν δ : Type) : Type → Type := EStateM ServerError (Store ν δ)

variable {ν δ : Type}

/-- `QUERY_ID_PATTERN` matches: 1 to 128 letters, digits, or `. _ : -`, a letter or digit first. -/
def validQueryId (id : String) : Bool :=
  let ascii (c : Char) := c.isAlpha || c.isDigit
  let later (c : Char) := ascii c || c == '.' || c == '_' || c == ':' || c == '-'
  match id.toList with
  | [] => false
  | first :: rest => ascii first && rest.all later && decide (rest.length ≤ 127)

/-- An id as an error shows it. -/
def quoted (id : String) : String := "'" ++ id ++ "'"

/-- `check_query_id`. -/
def checkQueryId (id : String) : StoreOp ν δ String := do
  if validQueryId id = false then
    throw (.invalidRequest (s!"query id {quoted id} must be 1 to 128 letters, digits, or " ++
      "'.', '_', ':', '-', and start with a letter or digit"))
  return id

/-- The record with this id (`get`). -/
def getRecord (id : String) : StoreOp ν δ (Record ν δ) := do
  match (← get).get? id with
  | none => throw (.unknownQuery s!"unknown query {quoted id}")
  | some r => return r

/-- `UPDATE queries SET ... WHERE id = ? AND ...`; the rows it changed. -/
def updateWhere (id : String) (condition : Record ν δ → Bool) (change : Record ν δ → Record ν δ) :
    StoreOp ν δ ℕ := do
  match (← get).get? id with
  | none => return 0
  | some r => do
    if condition r = false then return 0
    modify fun s => s.set id (change r)
    return 1

/-- A record as it is saved first. -/
def Record.new (specHash : δ) (spec config inputs : ν) (timeout : ℚ) (sessionId : Option String)
    (now : ℚ) : Record ν δ where
  sessionId := sessionId
  specHash := specHash
  spec := spec
  config := config
  inputs := inputs
  state := .queued
  revision := 1
  createdAt := now
  updatedAt := now
  startedAt := none
  timeout := timeout
  cancelRequested := false
  executionEpoch := 0
  phase := some (.phase "queued" "Waiting to run" now)
  progress := none
  plan := none
  error := none
  result := none

/-- The id the client chose, or one the store picks. -/
def chosenId (queryId : Option String) (fresh : String) : StoreOp ν δ String :=
  match queryId with
  | none => pure fresh
  | some id => checkQueryId id

/-- Save a new record in the queued state and return its snapshot; a repeated id with the same
specification returns the record it created before. `fresh` is the id the store picks. -/
def create [DecidableEq δ] (specHash : ν → ν → ν → ℚ → δ) (spec config inputs : ν) (timeout : ℚ)
    (queryId : Option String) (fresh : String) (sessionId : Option String) (now : ℚ) :
    StoreOp ν δ (Record ν δ) := do
  if timeout ≤ 0 then throw (.invalidRequest "timeout_s must be positive")
  let id ← chosenId queryId fresh
  let digest := specHash spec config inputs timeout
  match (← get).get? id with
  | some r => do
    if r.specHash ≠ digest then
      throw (.queryIdConflict
        (s!"query id {quoted id} was already used for a " ++ "different specification"))
    return r
  | none => do
    modify fun s => s.set id (.new digest spec config inputs timeout sessionId now)
    getRecord id

/-- Cancel a queued record now, or ask a running one to stop (`request_cancel`). -/
def requestCancel (id : String) (now : ℚ) : StoreOp ν δ (Record ν δ) := do
  let r ← getRecord id
  if r.state = .queued then
    discard (updateWhere id (fun r => decide (r.state = .queued)) fun r => { r with
      state := .cancelled
      error := some (.error "Cancelled" "cancelled before execution started")
      phase := some (.phase "cancelled" "Query cancelled" now)
      revision := r.revision + 1
      updatedAt := now })
  else if r.state.active ∧ r.cancelRequested = false then
    discard (updateWhere id (fun _ => true) fun r => { r with
      cancelRequested := true
      revision := r.revision + 1
      updatedAt := now })
  getRecord id

/-- Remove a queued record, or ask a started one to cancel (`discard`); whether it was deleted. -/
def discardRecord (id : String) (now : ℚ) : StoreOp ν δ Bool := do
  let deleted ← match (← get).get? id with
    | none => pure 0
    | some r => do
      if r.state ≠ .queued then pure 0
      else do
        modify fun s => s.erase id
        pure 1
  if deleted = 1 then return true
  discard (requestCancel id now)
  return false

/-- Start input preparation and return the execution epoch. -/
def begin (id : String) (now : ℚ) : StoreOp ν δ ℕ := do
  let r ← getRecord id
  if r.state ≠ .queued then
    throw (.invalidRequest s!"query {id} is {r.state.name}, not queued")
  let epoch := r.executionEpoch + 1
  discard (updateWhere id (fun r => decide (r.state = .queued)) fun r => { r with
    state := .planning
    executionEpoch := epoch
    startedAt := some now
    phase := some (.phase "resolving_inputs" "Resolving and preparing inputs" now)
    revision := r.revision + 1
    updatedAt := now })
  return epoch

/-- The record is executing this epoch. -/
def executing (epoch : ℕ) (r : Record ν δ) : Bool := r.executionEpoch == epoch && r.state.active

/-- Record execution progress (`update`); false for a closed execution. -/
def update (id : String) (epoch : ℕ) (state : Option State) (phase progress plan : Option ν)
    (now : ℚ) : StoreOp ν δ Bool := do
  match state with
  | some state => if state.active = false then
      throw (.value s!"update() cannot set state {quoted state.name}")
  | none => pure ()
  let count ← updateWhere id (executing epoch) fun r => { r with
    revision := r.revision + 1
    updatedAt := now
    state := state.getD r.state
    phase := (phase.map Info.given).or r.phase
    progress := (progress.map Info.given).or r.progress
    plan := (plan.map Info.given).or r.plan }
  return count == 1

/-- The message of a terminal phase. -/
def finishMessage : State → String
  | .succeeded => "Query completed"
  | .failed => "Query failed"
  | .interrupted => "Query interrupted"
  | _ => "Query cancelled"

/-- Close an execution (`finish`); false when the record was closed already. -/
def finish (id : String) (epoch : ℕ) (state : State) (error result : Option ν) (now : ℚ) :
    StoreOp ν δ Bool := do
  if state.terminal = false then
    throw (.value s!"finish() needs a terminal state, not {quoted state.name}")
  if state = .succeeded ∧ result.isNone then
    throw (.value "a succeeded record needs its result manifest")
  let count ← updateWhere id (executing epoch) fun r => { r with
    state
    error := error.map Info.given
    result := result.map Info.given
    phase := some (.phase state.name (finishMessage state) now)
    revision := r.revision + 1
    updatedAt := now }
  return count == 1

/-- Close the records of these ids. -/
def recoverEach (now : String → ℚ) : List String → StoreOp ν δ Unit
  | [] => pure ()
  | id :: ids => do
    discard (updateWhere id (fun _ => true) fun r => { r with
      state := .interrupted
      error := some (.error "Interrupted" "the server restarted while this query was executing")
      phase := some (.phase "interrupted" "Query interrupted by a server restart" (now id))
      revision := r.revision + 1
      updatedAt := now id })
    recoverEach now ids

/-- Mark records left active by an earlier process as interrupted (`recover`); their ids. -/
def recover (now : String → ℚ) : StoreOp ν δ (List String) := do
  let ids := ((← get).entries.filter fun e => e.2.state.active).map Prod.fst
  recoverEach now ids
  return ids

/-! ## Runs -/

/-- A call of the store. An id the store picks is a valid one. -/
inductive Call (ν : Type) where
  | create (spec config inputs : ν) (timeout : ℚ) (queryId : Option String)
      (fresh : { id : String // validQueryId id = true }) (sessionId : Option String) (now : ℚ)
  | begin (id : String) (now : ℚ)
  | update (id : String) (epoch : ℕ) (state : Option State) (phase progress plan : Option ν) (now : ℚ)
  | finish (id : String) (epoch : ℕ) (state : State) (error result : Option ν) (now : ℚ)
  | requestCancel (id : String) (now : ℚ)
  | discard (id : String) (now : ℚ)
  | recover (now : String → ℚ)

/-- The operation of a call. -/
def Call.perform [DecidableEq δ] (specHash : ν → ν → ν → ℚ → δ) : Call ν → StoreOp ν δ Unit
  | .create spec config inputs timeout queryId fresh sessionId now =>
    Functor.discard (Server.create specHash spec config inputs timeout queryId fresh.1 sessionId now)
  | .begin id now => Functor.discard (Server.begin id now)
  | .update id epoch state phase progress plan now =>
    Functor.discard (Server.update id epoch state phase progress plan now)
  | .finish id epoch state error result now =>
    Functor.discard (Server.finish id epoch state error result now)
  | .requestCancel id now => Functor.discard (Server.requestCancel id now)
  | .discard id now => Functor.discard (discardRecord id now)
  | .recover now => Functor.discard (Server.recover now)

/-- The store after a call, whether or not it raised. -/
def Call.step [DecidableEq δ] (specHash : ν → ν → ν → ℚ → δ) (s : Store ν δ) (c : Call ν) : Store ν δ :=
  final (c.perform specHash) s

end Quail.Server
