import Quail.Server.Records

/-!
# Submissions, the checkpoint and the scheduler side by side

The threads around the store of `server/store.py`: the submissions in `Server.accept`, the scheduler's
`next_queued` and `begin`, the callers of `Checkpoint.run_once`, the clients that cancel, and the shutdown
of `Server.stop`. A thread moves one read or one locked block at a time. The store's lock is held until
every write of an operation is counted, since the checkpoint reads the counters without it. `step` leaves
the service as it is where the event cannot happen.
-/

namespace Quail.Server
open Imperative

/-! ## The threads -/

/-- A submission that passed the checks of `accept`. -/
structure Request (ν : Type) where
  spec : ν
  config : ν
  inputs : ν
  timeout : ℚ
  queryId : Option String
  sessionId : Option String
  timeout_pos : 0 < timeout
  valid : ∀ id ∈ queryId, validQueryId id = true

/-- What `accept` raises. -/
inductive AcceptError where
  | store (error : ServerError)
  | closed
  | server (text : String)

/-- What `sqlite3` says of a closed database. -/
def closedText : String := "Cannot operate on a closed database."

/-- What `accept` says of a sync that raised. -/
def unsavedText (error : String) : String := s!"the submission could not be saved durably: {error}"

/-- How the sync of a submission went. -/
inductive Sync where
  | notRun
  | succeeded
  | failed (id : String)

/-- The record's id and snapshot, or what was raised. -/
abbrev Answer (ν δ : Type) := Except AcceptError (String × Record ν δ)

/-- Where a submission is in `accept`. -/
inductive Stage (ν δ : Type) where
  | waiting
  | entered
  | found (existed : Bool)
  | syncing (id : String) (status : Record ν δ)
  | unsynced (id error : String)
  | leaving (sync : Sync) (answer : Answer ν δ)
  | answered (sync : Sync) (answer : Answer ν δ)

/-- Who calls `run_once`: a submission by `sync`, the checkpoint's thread, or `stop`. -/
inductive Caller (τ : Type) where
  | submission (t : τ)
  | thread
  | stop

/-- Where a call of `run_once` is. -/
inductive CopyStage where
  | entered
  | counted (count : ℕ)
  | read (count durable : ℕ)
  | due (count durable : ℕ)
  | saved (count durable : ℕ)

/-- The call of `run_once` that holds the checkpoint's lock. -/
structure Copying (τ : Type) where
  caller : Caller τ
  stage : CopyStage

/-- A counter a write still has to raise. -/
inductive Counter where
  | writes
  | durable
  deriving DecidableEq

/-- The thread that holds the store's lock, and what it has not counted. -/
structure Writer (τ : Type) where
  owner : Option τ
  uncounted : List Counter

/-- Who holds the submission lock. -/
inductive Holder (τ : Type) where
  | submission (t : τ)
  | scheduler

/-- Where the scheduler is. -/
inductive Turn where
  | idle
  | selecting
  | selected (id : String)
  | running (id : String) (epoch : ℕ)

/-- How far `Server.stop` is. -/
inductive Shutdown where
  | serving
  | stopping
  | copied

/-- The store with its locks and counters, the checkpoint, and every thread. -/
structure Service (ν δ τ : Type) where
  store : Store ν δ
  numWrites : ℕ
  numDurableWrites : ℕ
  closed : Bool
  lock : Option (Writer τ)
  submissionLock : Option (Holder τ)
  submissions : τ → Stage ν δ
  scheduler : Turn
  /-- The file at the checkpoint's target. -/
  target : Store ν δ
  /-- What the last commit made of it. -/
  copy : Store ν δ
  seen : ℤ
  seenDurable : ℤ
  copying : Option (Copying τ)
  shutdown : Shutdown

/-- One move of one thread. -/
inductive Event (ν τ : Type) where
  | acquire (t : τ)
  | find (t : τ)
  | create (t : τ) (fresh : { id : String // validQueryId id = true }) (now : ℚ)
  | discard (t : τ) (now : ℚ)
  | leave (t : τ)
  | enter (caller : Caller τ)
  | readCount
  | readDurable
  | test (recent : Bool)
  | backup (failure : Option String)
  | commit (failure : Option (String × Bool))
  | count
  | trySelect
  | select
  | begin (now : ℚ)
  | endRun
  | update (id : String) (epoch : ℕ) (state : Option State) (phase progress plan : Option ν) (now : ℚ)
  | finish (id : String) (epoch : ℕ) (state : State) (error result : Option ν) (now : ℚ)
  | requestCancel (id : String) (now : ℚ)
  | putInput
  | stopScheduler
  | giveUp
  | close

variable {ν δ τ α : Type}

/-! ## Operations of the store -/

/-- What a durable write counts. -/
def durableWrite : List Counter := [.writes, .durable]

/-- What `request_cancel` counts. -/
def cancelWrites (s : Store ν δ) (id : String) : List Counter :=
  match s.get? id with
  | none => []
  | some r => if r.state = .queued ∨ r.state.active ∧ r.cancelRequested = false then durableWrite else []

/-- What `discard` counts: its deletion, and the cancellation where nothing was deleted. -/
def discardWrites (s : Store ν δ) (id : String) : List Counter :=
  match s.get? id with
  | none => durableWrite
  | some r => if r.state = .queued then durableWrite else durableWrite ++ cancelWrites s id

/-- The older of two queued records, by its time and then its row. -/
def older (best : Option (String × Record ν δ)) (e : String × Record ν δ) :
    Option (String × Record ν δ) :=
  match best with
  | none => some e
  | some b => if e.2.createdAt < b.2.createdAt then some e else some b

/-- The row `next_queued` selects. -/
def oldestQueued (s : Store ν δ) : Option (String × Record ν δ) :=
  (s.entries.filter fun e => decide (e.2.state = .queued)).foldl older none

/-- `self.store.create(...)` with the fields of a submission. -/
def Request.create [DecidableEq δ] (specHash : ν → ν → ν → ℚ → δ) (q : Request ν) (fresh : String)
    (now : ℚ) : StoreOp ν δ (Record ν δ) :=
  Server.create specHash q.spec q.config q.inputs q.timeout q.queryId fresh q.sessionId now

namespace Service

/-- The store after an operation of a thread, its lock held while there is something to count. -/
def write (s : Service ν δ τ) (owner : Option τ) (store : Store ν δ) (counters : List Counter) :
    Service ν δ τ :=
  { s with
    store
    lock := if counters = [] then none else some ⟨owner, counters⟩ }

/-- A submission moves on. -/
def move [DecidableEq τ] (s : Service ν δ τ) (t : τ) (stage : Stage ν δ) : Service ν δ τ :=
  { s with submissions := Function.update s.submissions t stage }

/-- `run_once` gives its lock back and returns or raises to its caller. -/
def returned [DecidableEq τ] (s : Service ν δ τ) (caller : Caller τ) (result : Except String Bool) :
    Service ν δ τ :=
  match caller, result with
  | .thread, _ => { s with copying := none }
  | .stop, .ok _ => { s with copying := none, shutdown := .copied }
  | .stop, .error _ => { s with copying := none }
  | .submission t, result =>
    match s.submissions t, result with
    | .syncing id status, .ok _ => { s.move t (.leaving .succeeded (.ok (id, status))) with copying := none }
    | .syncing id _, .error error => { s.move t (.unsynced id error) with copying := none }
    | _, _ => { s with copying := none }

/-- Whether a submission is writing. -/
def writing [DecidableEq τ] (s : Service ν δ τ) (t : τ) : Bool :=
  match s.lock with
  | none => false
  | some w => w.owner = some t

/-! ## Submissions -/

variable [DecidableEq τ]

/-- `with self.store.submission_lock` -/
def acquire (s : Service ν δ τ) (t : τ) : Service ν δ τ :=
  match s.submissions t, s.submissionLock with
  | .waiting, none => { s.move t .entered with submissionLock := some (.submission t) }
  | _, _ => s

/-- `existed = query_id is not None and self.store.find(query_id) is not None` -/
def find (requests : τ → Request ν) (s : Service ν δ τ) (t : τ) : Service ν δ τ :=
  match s.submissions t, s.lock, (requests t).queryId with
  | .entered, _, none => s.move t (.found false)
  | .entered, none, some id =>
    if s.closed then s.move t (.leaving .notRun (.error .closed))
    else s.move t (.found (s.store.contains id))
  | _, _, _ => s

/-- `status = self.store.create(...)`, and the return of a record that existed. An id the store picks is
one it does not have. -/
def create [DecidableEq δ] (specHash : ν → ν → ν → ℚ → δ) (requests : τ → Request ν) (s : Service ν δ τ) (t : τ)
    (fresh : String) (now : ℚ) : Service ν δ τ :=
  let q := requests t
  let id := q.queryId.getD fresh
  match s.submissions t, s.lock with
  | .found existed, none =>
    if s.closed then s.move t (.leaving .notRun (.error .closed))
    else if q.queryId = none ∧ s.store.contains fresh then s
    else
      match perform (q.create specHash fresh now) s.store with
      | (.error error, store) =>
        (s.write (some t) store []).move t (.leaving .notRun (.error (.store error)))
      | (.ok status, store) =>
        let s' := s.write (some t) store (if s.store.contains id then [] else durableWrite)
        if existed then s'.move t (.leaving .notRun (.ok (id, status)))
        else s'.move t (.syncing id status)
  | _, _ => s

/-- `self.store.discard(status.id)` and the error -/
def discard (s : Service ν δ τ) (t : τ) (now : ℚ) : Service ν δ τ :=
  match s.submissions t, s.lock with
  | .unsynced id error, none =>
    if s.closed then s.move t (.leaving (.failed id) (.error .closed))
    else
      match perform (discardRecord id now) s.store with
      | (.error e, store) =>
        (s.write (some t) store (discardWrites s.store id)).move t
          (.leaving (.failed id) (.error (.store e)))
      | (.ok _, store) =>
        (s.write (some t) store (discardWrites s.store id)).move t
          (.leaving (.failed id) (.error (.server (unsavedText error))))
  | _, _ => s

/-- The end of the `with` block. -/
def leave (s : Service ν δ τ) (t : τ) : Service ν δ τ :=
  match s.submissions t with
  | .leaving sync answer =>
    if s.writing t then s else { s.move t (.answered sync answer) with submissionLock := none }
  | _ => s

/-! ## The checkpoint -/

/-- `with self._lock` of the checkpoint -/
def enter (s : Service ν δ τ) (caller : Caller τ) : Service ν δ τ :=
  match s.copying with
  | some _ => s
  | none =>
    match caller with
    | .thread => { s with copying := some ⟨.thread, .entered⟩ }
    | .stop =>
      match s.shutdown with
      | .stopping => { s with copying := some ⟨.stop, .entered⟩ }
      | _ => s
    | .submission t =>
      match s.submissions t with
      | .syncing _ _ => if s.writing t then s else { s with copying := some ⟨.submission t, .entered⟩ }
      | _ => s

/-- `count = self.store.num_writes` -/
def readCount (s : Service ν δ τ) : Service ν δ τ :=
  match s.copying with
  | some ⟨caller, .entered⟩ => { s with copying := some ⟨caller, .counted s.numWrites⟩ }
  | _ => s

/-- `durable = self.store.num_durable_writes` -/
def readDurable (s : Service ν δ τ) : Service ν δ τ :=
  match s.copying with
  | some ⟨caller, .counted count⟩ => { s with copying := some ⟨caller, .read count s.numDurableWrites⟩ }
  | _ => s

/-- Whether the caller passes `force`. -/
def forced : Caller τ → Bool
  | .submission _ => true
  | .thread => false
  | .stop => true

/-- The tests before a copy. The timer of the progress copies may be `recent`. -/
def test (s : Service ν δ τ) (recent : Bool) : Service ν δ τ :=
  match s.copying with
  | some ⟨caller, .read count durable⟩ =>
    if (count : ℤ) = s.seen ∨ s.closed then s.returned caller (.ok false)
    else if (durable : ℤ) = s.seenDurable ∧ forced caller = false ∧ recent then
      s.returned caller (.ok false)
    else { s with copying := some ⟨caller, .due count durable⟩ }
  | _ => s

/-- `self.store.backup(self.target)` -/
def backup (s : Service ν δ τ) (failure : Option String) : Service ν δ τ :=
  match s.copying, s.lock with
  | some ⟨caller, .due count durable⟩, none =>
    if s.closed then s.returned caller (.error closedText)
    else
      match failure with
      | some error => s.returned caller (.error error)
      | none => { s with
          target := s.store
          copying := some ⟨caller, .saved count durable⟩ }
  | _, _ => s

/-- `self.commit()` and what the checkpoint keeps of the copy. A commit that raises may have landed. -/
def commit (s : Service ν δ τ) (failure : Option (String × Bool)) : Service ν δ τ :=
  match s.copying with
  | some ⟨caller, .saved count durable⟩ =>
    match failure with
    | some (error, landed) =>
      { s with copy := if landed then s.target else s.copy }.returned caller (.error error)
    | none =>
      { s with
        copy := s.target
        seen := count
        seenDurable := durable }.returned caller (.ok true)
  | _ => s

/-- `self.num_writes += 1`, or the durable counter; the lock is given back after the last. -/
def count (s : Service ν δ τ) : Service ν δ τ :=
  match s.lock with
  | none => s
  | some ⟨_, []⟩ => { s with lock := none }
  | some ⟨owner, .writes :: rest⟩ =>
    { s with
      numWrites := s.numWrites + 1
      lock := if rest = [] then none else some ⟨owner, rest⟩ }
  | some ⟨owner, .durable :: rest⟩ =>
    { s with
      numDurableWrites := s.numDurableWrites + 1
      lock := if rest = [] then none else some ⟨owner, rest⟩ }

/-! ## The scheduler -/

/-- `submission_lock.acquire(blocking=False)`: a lock that is held selects nothing. -/
def trySelect (s : Service ν δ τ) : Service ν δ τ :=
  match s.scheduler, s.shutdown, s.submissionLock with
  | .idle, .serving, none =>
    { s with
      scheduler := .selecting
      submissionLock := some .scheduler }
  | _, _, _ => s

/-- The row of `next_queued`; the lock is given back. -/
def select (s : Service ν δ τ) : Service ν δ τ :=
  match s.scheduler, s.lock with
  | .selecting, none =>
    { s with
      scheduler := if s.closed then .idle else ((oldestQueued s.store).map Prod.fst).elim .idle .selected
      submissionLock := none }
  | _, _ => s

/-- `epoch = self.store.begin(query_id)`; a record that cannot be begun is left. -/
def begin (s : Service ν δ τ) (now : ℚ) : Service ν δ τ :=
  match s.scheduler, s.lock with
  | .selected id, none =>
    if s.closed then { s with scheduler := .idle }
    else
      match perform (Server.begin id now) s.store with
      | (.error _, store) => { s.write none store [] with scheduler := .idle }
      | (.ok epoch, store) => { s.write none store durableWrite with scheduler := .running id epoch }
  | _, _ => s

/-- The end of `run_one`. -/
def endRun (s : Service ν δ τ) : Service ν δ τ :=
  match s.scheduler with
  | .running _ _ => { s with scheduler := .idle }
  | _ => s

/-! ## Other writes, and the shutdown -/

/-- An operation of another thread. On a closed database it raises. -/
def operate (s : Service ν δ τ) (m : StoreOp ν δ α) (counters : List Counter) : Service ν δ τ :=
  match s.lock with
  | some _ => s
  | none => if s.closed then s else s.write none (perform m s.store).2 counters

/-- What an operation that may refuse its arguments counts. -/
def ifAccepted (s : Service ν δ τ) (m : StoreOp ν δ α) (counters : List Counter) : List Counter :=
  match (perform m s.store).1 with
  | .ok _ => counters
  | .error _ => []

/-- `scheduler.stop()` returns once the scheduler is idle. -/
def stopScheduler (s : Service ν δ τ) : Service ν δ τ :=
  match s.scheduler, s.shutdown with
  | .idle, .serving => { s with shutdown := .stopping }
  | _, _ => s

/-- `checkpoint.stop` reaches its deadline, or was called before. -/
def giveUp (s : Service ν δ τ) : Service ν δ τ :=
  match s.shutdown, s.copying with
  | .stopping, some ⟨.stop, _⟩ => s
  | .stopping, _ => { s with shutdown := .copied }
  | _, _ => s

/-- `store.close()` -/
def close (s : Service ν δ τ) : Service ν δ τ :=
  match s.shutdown, s.lock with
  | .copied, none => { s with closed := true }
  | _, _ => s

/-- The service after an event. -/
def step [DecidableEq δ] (specHash : ν → ν → ν → ℚ → δ) (requests : τ → Request ν) (s : Service ν δ τ) :
    Event ν τ → Service ν δ τ
  | .acquire t => s.acquire t
  | .find t => s.find requests t
  | .create t fresh now => s.create specHash requests t fresh.1 now
  | .discard t now => s.discard t now
  | .leave t => s.leave t
  | .enter caller => s.enter caller
  | .readCount => s.readCount
  | .readDurable => s.readDurable
  | .test recent => s.test recent
  | .backup failure => s.backup failure
  | .commit failure => s.commit failure
  | .count => s.count
  | .trySelect => s.trySelect
  | .select => s.select
  | .begin now => s.begin now
  | .endRun => s.endRun
  | .update id epoch state phase progress plan now =>
    let m : StoreOp ν δ Bool := Server.update id epoch state phase progress plan now
    s.operate m (s.ifAccepted m
      (if state.isSome ∨ phase.isSome ∨ plan.isSome then durableWrite else [.writes]))
  | .finish id epoch state error result now =>
    let m : StoreOp ν δ Bool := Server.finish id epoch state error result now
    s.operate m (s.ifAccepted m durableWrite)
  | .requestCancel id now => s.operate (Server.requestCancel id now) (cancelWrites s.store id)
  | .putInput => s.operate (pure ()) durableWrite
  | .stopScheduler => s.stopScheduler
  | .giveUp => s.giveUp
  | .close => s.close

/-- A server whose database was restored from the durable copy, and recovered. -/
def start (saved : Store ν δ) (now : String → ℚ) : Service ν δ τ where
  store := final (recover now) saved
  numWrites := (saved.entries.filter fun e => e.2.state.active).length
  numDurableWrites := (saved.entries.filter fun e => e.2.state.active).length
  closed := false
  lock := none
  submissionLock := none
  submissions := fun _ => .waiting
  scheduler := .idle
  target := saved
  copy := saved
  seen := -1
  seenDurable := -1
  copying := none
  shutdown := .serving

end Service

end Quail.Server
