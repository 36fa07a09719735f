import Quail.Server.Records

/-!
# One query through the scheduler

`Scheduler.run_one` of `server/scheduler.py` beside the thread that calls its `emit`. The two threads and
every other caller of the store interleave at the store's operations; what an executor, the clocks and the
file system answer comes with each event. `first` remembers which close of the record came first. The
execution's `stop` returns, and a line of the answers is written whole.
-/

namespace Quail.Server
open Imperative

/-! ## Payloads and events -/

/-- A value of a JSON object; `other` is any nested value's text. -/
inductive Json where
  | null
  | number (value : ℚ)
  | text (value : String)
  | other (text : String)
  deriving DecidableEq

namespace Json

/-- `bool(value)` -/
def truthy : Json → Bool
  | null => false
  | number value => value ≠ 0
  | text value => value ≠ ""
  | other nested => nested ∉ ["[]", "\x7b\x7d", "false"]

end Json

/-- A payload of an event. -/
abbrev Payload := Dict String Json

/-- An error of a record. -/
def errorPayload (type message : String) : Payload :=
  ((Dict.empty).set "type" (.text type)).set "message" (.text message)

/-- `payload.get("total") and payload.get("done") == payload.get("total")` -/
def complete (payload : Payload) : Bool :=
  match payload.get? "total" with
  | none => false
  | some total => total.truthy && payload.get? "done" == some total

/-- What the execution emits. A `state` payload carries the state's name. -/
inductive Emitted where
  | state (state : State) (phase : Option Payload)
  | phase (payload : Payload)
  | plan (payload : Payload)
  | progress (payload : Payload)
  | answers (payload : Payload)
  | finished (payload : Payload)
  | failed (payload : Payload)
  | other (kind : String)

/-- The event closes the record. -/
def Emitted.closing : Emitted → Bool
  | finished _ | failed _ => true
  | _ => false

/-- What closes a record, with what its answers were then: whether anything was reported, and the lines
that were saved. -/
inductive Closing where
  | finished (verified : Bool) (reported : Bool) (lines : ℕ)
  | failed (reported : Bool) (lines : ℕ)
  | interrupted
  | cancelled
  | timeout
  | exit
  | raised

/-- The state of a record closed so. -/
def Closing.state : Closing → State
  | finished true _ _ => .succeeded
  | interrupted => .interrupted
  | cancelled => .cancelled
  | _ => .failed

/-! ## The run -/

/-- What is left to do of an `emit`. -/
inductive Action where
  | progress (payload : Payload)
  | apply (event : Emitted)
  | settle (payload : Payload) (verified : Except String Unit)

/-- Where `run_one` is. -/
inductive Loop (δ : Type) where
  | begin
  | job
  | start
  | wait (deadline : ℚ) (finishedDeadline : Option ℚ)
  | get (deadline : ℚ) (finishedDeadline : Option ℚ)
  | polled (deadline : ℚ) (finishedDeadline : Option ℚ) (current : Record Payload δ)
  | close (why : Closing)
  | stop
  | check
  | exit
  | raised (error : Payload) (executing : Bool)
  | abort
  | last
  | returned (status : Record Payload δ)
  | escaped (error : ServerError)

/-- The record that `run_one` is called for. -/
structure Task where
  id : String
  timeout : ℚ
  /-- The timeout as `:g` shows it. -/
  timeoutText : String
  /-- The result directory, relative to the data directory. -/
  directory : String

/-- The store, the variables of `run_one` and where its two threads are. -/
structure Execution (δ : Type) where
  store : Store Payload δ
  /-- The lines of the answers file. -/
  lines : List Payload
  counts : Option Payload
  written : ℕ
  lastProgress : ℚ
  epoch : ℕ
  /-- The execution has its `emit`. -/
  armed : Bool
  queue : List Action
  loop : Loop δ
  /-- The scheduler was asked to stop. -/
  stopping : Bool
  first : Option Closing

/-- What the world outside answers in a turn of `run_one`. -/
structure World where
  clock : ℚ
  time : ℚ
  job : Except Payload Unit
  start : Except Payload Unit
  waited : Except Payload Bool
  trace : String

/-- One move: an event of the execution arrives, its thread goes on, `run_one` goes on, another caller
uses the store, or the server asks to stop. -/
inductive Move where
  | emit (event : Emitted) (now : ℚ)
  | act (verified : Except String Unit) (time : ℚ)
  | turn (world : World)
  | other (call : Call Payload)
  | stop

/-- `PROGRESS_WRITE_INTERVAL_S` -/
def progressInterval : ℚ := 1 / 2

/-- `FINISH_GRACE_S` -/
def finishGrace : ℚ := 30

/-- `error_event` of what the store raised. -/
def storeError (error : ServerError) (trace : String) : Payload :=
  let (type, message) := match error with
    | .invalidRequest text => ("InvalidRequestError", text)
    | .queryIdConflict text => ("QueryIdConflictError", text)
    | .unknownQuery text => ("UnknownQueryError", text)
    | .value text => ("ValueError", text)
  (errorPayload type message).set "traceback" (.text trace)

namespace Execution

variable {δ : Type}

/-! ## `emit` -/

/-- `write_progress`: the count it writes is remembered before the record is written. -/
def writeProgress (s : Execution δ) (payload : Payload) : Execution δ :=
  { s with
    written := s.lines.length
    queue := [.progress (payload.set "answers_saved" (.number s.lines.length))] }

/-- The rate limit of the progress writes. -/
def report (s : Execution δ) (payload : Payload) (complete : Bool) (now : ℚ) : Execution δ :=
  if complete = false ∧ now - s.lastProgress < progressInterval then s
  else { s with lastProgress := now }.writeProgress payload

/-- The record's count must be right before it closes. -/
def beforeClose (s : Execution δ) (event : Emitted) : Execution δ :=
  if s.written ≠ s.lines.length then
    let s' := s.writeProgress (s.counts.getD .empty)
    { s' with queue := s'.queue ++ [.apply event] }
  else { s with queue := [.apply event] }

/-- `emit`, up to the first operation of the store. -/
def emit (s : Execution δ) (event : Emitted) (now : ℚ) : Execution δ :=
  match s.queue with
  | _ :: _ => s
  | [] =>
    if s.armed = false then s
    else
      match event with
      | .answers payload =>
        { s with lines := s.lines ++ [payload] }.report (s.counts.getD .empty) false now
      | .progress payload => { s with counts := some payload }.report payload (complete payload) now
      | .state state phase => { s with queue := [.apply (.state state phase)] }
      | .phase payload => { s with queue := [.apply (.phase payload)] }
      | .plan payload => { s with queue := [.apply (.plan payload)] }
      | .other kind => { s with queue := [.apply (.other kind)] }
      | .finished payload => s.beforeClose (.finished payload)
      | .failed payload => s.beforeClose (.failed payload)

/-- `store.update(query_id, epoch, ...)`; a raise leaves the rest of the `emit`. -/
def update (task : Task) (s : Execution δ) (state : Option State) (phase progress plan : Option Payload)
    (time : ℚ) (rest : List Action) : Execution δ :=
  match perform (Server.update task.id s.epoch state phase progress plan time) s.store with
  | (.ok _, store) => { s with store, queue := rest }
  | (.error _, store) => { s with store, queue := [] }

/-- `store.finish(query_id, epoch, ...)` -/
def finish (task : Task) (s : Execution δ) (why : Closing) (error result : Option Payload) (time : ℚ) :
    Except ServerError Unit × Execution δ :=
  match perform (Server.finish task.id s.epoch why.state error result time) s.store with
  | (.ok _, store) => (.ok (), { s with store, first := s.first.or (some why) })
  | (.error e, store) => (.error e, { s with store })

/-- Something was reported. -/
def reported (s : Execution δ) : Bool := s.counts.isSome || !s.lines.isEmpty

/-- The execution's thread goes on to its next operation of the store (`_apply`). -/
def act (task : Task) (s : Execution δ) (verified : Except String Unit) (time : ℚ) : Execution δ :=
  match s.queue with
  | [] => s
  | .progress payload :: rest => s.update task none none (some payload) none time rest
  | .apply event :: rest =>
    match event with
    | .state state phase => s.update task (some state) phase none none time rest
    | .phase payload => s.update task none (some payload) none none time rest
    | .plan payload => s.update task none none none (some payload) time rest
    | .progress payload => s.update task none none (some payload) none time rest
    | .failed payload =>
      { (s.finish task (.failed s.reported s.lines.length) (some payload) none time).2 with queue := rest }
    | .finished payload => { s with queue := .settle payload verified :: rest }
    | .answers _ => { s with queue := rest }
    | .other _ => { s with queue := rest }
  | .settle payload verified :: rest =>
    match verified with
    | .error error =>
      { (s.finish task (.finished false s.reported s.lines.length) (some (errorPayload "PublishError"
          s!"the saved result could not be read back: {error}")) none time).2 with queue := rest }
    | .ok () =>
      { (s.finish task (.finished true s.reported s.lines.length) none
          (some (payload.set "directory" (.text task.directory))) time).2 with queue := rest }

/-! ## `run_one` -/

/-- The error of a close by `run_one`. -/
def loopError (task : Task) : Closing → Payload
  | .interrupted => errorPayload "Interrupted" "the server stopped while this query ran"
  | .cancelled => errorPayload "Cancelled" "cancelled while executing"
  | .timeout => errorPayload "TimeoutError"
      (s!"execution exceeded the query's " ++ s!"{task.timeoutText} s timeout")
  | _ => errorPayload "ExecutorExit" "the execution ended without a result"

/-- What the poll decides. -/
def poll (s : Execution δ) (deadline : ℚ) (finishedDeadline : Option ℚ) (current : Record Payload δ)
    (now : ℚ) : Loop δ :=
  if current.state.terminal then
    let finishedDeadline := finishedDeadline.getD (now + finishGrace)
    if s.stopping ∨ finishedDeadline ≤ now then .stop else .wait deadline (some finishedDeadline)
  else if s.stopping then .close .interrupted
  else if current.cancelRequested then .close .cancelled
  else if deadline < now then .close .timeout
  else .wait deadline finishedDeadline

/-- `run_one` goes on. -/
def turn (task : Task) (s : Execution δ) (w : World) : Execution δ :=
  match s.loop with
  | .begin =>
    match perform (Server.begin task.id w.time) s.store with
    | (.ok epoch, store) => { s with store, epoch, loop := .job }
    | (.error (.invalidRequest _), store) => { s with store, loop := .last }
    | (.error e, store) => { s with store, loop := .escaped e }
  | .job =>
    match w.job with
    | .ok () => { s with armed := true, loop := .start }
    | .error error => { s with loop := .raised error false }
  | .start =>
    match w.start with
    | .ok () => { s with loop := .wait (w.clock + task.timeout) none }
    | .error error => { s with loop := .raised error false }
  | .wait deadline finishedDeadline =>
    match w.waited with
    | .ok true => { s with loop := .check }
    | .ok false => { s with loop := .get deadline finishedDeadline }
    | .error error => { s with loop := .raised error true }
  | .get deadline finishedDeadline =>
    match perform (getRecord task.id) s.store with
    | (.ok current, _) => { s with loop := .polled deadline finishedDeadline current }
    | (.error e, _) => { s with loop := .raised (storeError e w.trace) true }
  | .polled deadline finishedDeadline current =>
    { s with loop := s.poll deadline finishedDeadline current w.clock }
  | .close why =>
    match s.finish task why (some (loopError task why)) none w.time with
    | (.ok (), s') => { s' with loop := .stop }
    | (.error e, s') => { s' with loop := .raised (storeError e w.trace) true }
  | .stop => { s with loop := .check }
  | .check =>
    match perform (getRecord task.id) s.store with
    | (.ok current, _) => { s with loop := if current.state.terminal then .last else .exit }
    | (.error e, _) => { s with loop := .raised (storeError e w.trace) true }
  | .exit =>
    match s.finish task .exit (some (loopError task .exit)) none w.time with
    | (.ok (), s') => { s' with loop := .last }
    | (.error e, s') => { s' with loop := .raised (storeError e w.trace) true }
  | .raised error executing =>
    match s.finish task .raised (some error) none w.time with
    | (.ok (), s') => { s' with loop := if executing then .abort else .last }
    | (.error e, s') => { s' with loop := .escaped e }
  | .abort => { s with loop := .last }
  | .last =>
    match perform (getRecord task.id) s.store with
    | (.ok current, _) => { s with loop := .returned current }
    | (.error e, _) => { s with loop := .escaped e }
  | .returned _ => s
  | .escaped _ => s

/-! ## Runs -/

/-- What other callers of the store do: they submit, cancel, and work on other records. -/
def foreign (task : Task) : Call Payload → Bool
  | .create .. => true
  | .requestCancel .. => true
  | .begin id _ => id ≠ task.id
  | .update id .. => id ≠ task.id
  | .finish id .. => id ≠ task.id
  | .discard id _ => id ≠ task.id
  | .recover _ => false

/-- The execution after a move. -/
def step [DecidableEq δ] (specHash : Payload → Payload → Payload → ℚ → δ) (task : Task)
    (s : Execution δ) : Move → Execution δ
  | .emit event now => s.emit event now
  | .act verified time => s.act task verified time
  | .turn w => s.turn task w
  | .other call => if foreign task call then { s with store := call.step specHash s.store } else s
  | .stop => { s with stopping := true }

/-- `run_one` is called. -/
def start (store : Store Payload δ) : Execution δ where
  store := store
  lines := []
  counts := none
  written := 0
  lastProgress := 0
  epoch := 0
  armed := false
  queue := []
  loop := .begin
  stopping := false
  first := none

end Execution

end Quail.Server
