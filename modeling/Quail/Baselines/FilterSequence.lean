import Quail.Lib.Program
import Quail.Lib.Python
import Quail.Lib.Stages
import Mathlib.Data.String.Basic

/-!
# Filter sequences

`run_filter_sequence` of `baselines/request_scheduling.py`, which submits the next filter of a document
after it passes the one before, and `run_filter_sequence_async`, whose workers each take a document
through its filters. What the engine does and what `read_answer` and `render_prompt` return or raise are
parameters. `Calls` is what was done with the engine, kept beside the state of the loop.
-/

namespace Quail.Baselines
open Imperative

/-- What a request asks. -/
inductive Prompt where
  | text (text : String)
  | tokenIds (ids : List ℕ)

/-- What the engine says of a request. `answer` is what `read_answer` reads. -/
structure Output (ω : Type) where
  requestId : String
  finished : Bool
  answer : ω
  promptTokenIds : List ℕ
  numCachedTokens : Option ℕ

/-- The engine of a client: `σ` is its state. -/
structure Engine (ε σ ω : Type) where
  addRequest : String → Prompt → EStateM ε σ Unit
  step : EStateM ε σ (List (Output ω))
  abortRequest : List String → EStateM ε σ Unit

/-- The arguments of a filter sequence. `raise` is an exception of Python as one of the engine's. -/
structure Query (ε ω α : Type) where
  bodyIds : List (List ℕ)
  questionIds : List (List ℕ)
  budgetTokens : ℤ
  tag : String
  readAnswer : Output ω → Except ε α
  blockSize : ℤ
  maxNumSeqs : Option ℤ
  bodyTexts : Option (List String)
  questionTexts : Option (List String)
  renderPrompt : Option (String → Except ε String)
  raise : PyError → ε

/-- `xs[i]` -/
def item {β : Type} (xs : List β) (i : ℕ) : Except PyError β :=
  match xs[i]? with
  | some x => .ok x
  | none => .error (.index "list index out of range")

/-- How many documents the KV budget keeps live at once. -/
def filterDocumentCap (bodyIds questionIds : List (List ℕ)) (budgetTokens blockSize : ℤ)
    (maxNumSeqs : Option ℤ) : Except PyError ℤ :=
  if bodyIds = [] then .ok 0
  else match (questionIds.map List.length).max? with
    | none => .error (.value "max() iterable argument is empty")
    | some longestTail =>
      if blockSize = 0 then .error .zeroDivision
      else
        let roundedSizes := bodyIds.map fun body =>
          Int.fdiv (body.length + longestTail + 1 + blockSize - 1) blockSize * blockSize
        let meanRequest := Int.fdiv roundedSizes.sum (max 1 roundedSizes.length)
        if meanRequest = 0 then .error .zeroDivision
        else
          let documentCap := max 1 (Int.fdiv budgetTokens meanRequest)
          match maxNumSeqs with
          | none => .ok documentCap
          | some maxNumSeqs => .ok (min documentCap maxNumSeqs)

/-! ## Answers, survivors and counters -/

/-- Answers, survivors and counters for one filter sequence. -/
structure FilterSequence (α : Type) where
  answers : Dict (ℕ × ℕ) α
  survivors : List ℕ
  requests : ℕ
  promptTokens : ℕ
  cachedTokens : ℕ

/-- What a filter sequence returns, less its wall time and admission settings. -/
structure Result (α : Type) where
  survivors : List ℕ
  answers : Dict (ℕ × ℕ) α
  requests : ℕ
  promptTokens : ℕ
  cachedTokens : ℕ

namespace FilterSequence

variable {ε ω α : Type}

/-- Nothing was recorded. -/
def start : FilterSequence α := ⟨.empty, [], 0, 0, 0⟩

/-- Record one answer; return true when the document advances. -/
def record (q : Query ε ω α) (truthy : α → Bool) (document stage : ℕ) (output : Output ω) :
    EStateM ε (FilterSequence α) Bool := do
  modify fun s => { s with
    requests := s.requests + 1
    promptTokens := s.promptTokens + output.promptTokenIds.length
    cachedTokens := s.cachedTokens + output.numCachedTokens.getD 0 }
  let answer ← reads fun _ => q.readAnswer output
  modify fun s => { s with answers := s.answers.set (document, stage + 1) answer }
  if truthy answer = true ∧ stage + 1 < q.questionIds.length then pure true
  else if truthy answer = true then do
    modify fun s => { s with survivors := s.survivors ++ [document] }
    pure false
  else pure false

/-- `result` -/
def result (s : FilterSequence α) : Result α :=
  ⟨s.survivors.insertionSort (· ≤ ·), s.answers, s.requests, s.promptTokens, s.cachedTokens⟩

end FilterSequence

section

variable {ε σ ω α : Type} (q : Query ε ω α) (truthy : α → Bool)

/-- The document cap of a query. -/
def Query.documentCap : Except PyError ℤ :=
  filterDocumentCap q.bodyIds q.questionIds q.budgetTokens q.blockSize q.maxNumSeqs

/-- The identifier of a request. -/
def Query.requestId (document stage : ℕ) : String :=
  q.tag ++ "-" ++ toString document ++ "-" ++ toString stage

/-- The prompt of a request. -/
def Query.prompt (document stage : ℕ) : Except ε Prompt :=
  match q.bodyTexts, q.questionTexts with
  | some bodyTexts, some questionTexts => do
    let body ← (item bodyTexts document).mapError q.raise
    let question ← (item questionTexts stage).mapError q.raise
    match q.renderPrompt with
    | none => pure (.text (body ++ question))
    | some renderPrompt => do
      let prompt ← renderPrompt (body ++ question)
      pure (.text prompt)
  | _, _ => do
    let body ← (item q.bodyIds document).mapError q.raise
    let question ← (item q.questionIds stage).mapError q.raise
    pure (.tokenIds (body ++ question))

/-! ## One loop over the engine -/

/-- A call of the engine that returned. -/
inductive Call (ω : Type) where
  | added (requestId : String) (prompt : Prompt)
  | stepped (outputs : List (Output ω))

/-- What was done with the engine: what was asked of it, what it finished, the calls that returned, the
most documents in flight at once, and what it was told to abort. -/
structure Calls (ω : Type) where
  asked : List (ℕ × ℕ)
  finished : List (ℕ × ℕ)
  history : List (Call ω)
  widest : ℕ
  aborted : List String

/-- The variables of the loop, with the calls. -/
structure Loop (σ ω α : Type) where
  engine : σ
  sequence : FilterSequence α
  inflight : Dict String (ℕ × ℕ)
  expectedRows : ℤ
  nextDocument : ℕ
  calls : Calls ω

namespace Loop

/-- Before the first round. -/
def start (engine : σ) : Loop σ ω α :=
  ⟨engine, .start, .empty, 0, 0, ⟨[], [], [], 0, []⟩⟩

/-- The documents that have a request in flight. -/
def documents (s : Loop σ ω α) : List ℕ := (s.inflight.entries.map fun e => e.2.1).dedup

/-- The request is in flight. -/
def sends (s : Loop σ ω α) (requestId : String) (document stage : ℕ) : Loop σ ω α :=
  let sent := { s with inflight := s.inflight.set requestId (document, stage) }
  { sent with calls := { s.calls with widest := max s.calls.widest sent.documents.length } }

/-- The engine is asked. -/
def asks (s : Loop σ ω α) (document stage : ℕ) : Loop σ ω α :=
  { s with calls := { s.calls with asked := s.calls.asked ++ [(document, stage)] } }

/-- A call of the engine returned. -/
def logs (s : Loop σ ω α) (call : Call ω) : Loop σ ω α :=
  { s with calls := { s.calls with history := s.calls.history ++ [call] } }

/-- `inflight.pop`: the engine finished the request. -/
def pops (s : Loop σ ω α) (requestId : String) (document stage : ℕ) : Loop σ ω α :=
  { s with
    inflight := s.inflight.erase requestId
    calls := { s.calls with finished := s.calls.finished ++ [(document, stage)] } }

end Loop

/-- A call of the engine, on the engine of the loop. -/
def onEngine {β : Type} (m : EStateM ε σ β) : EStateM ε (Loop σ ω α) β :=
  onPart Loop.engine (fun s engine => { s with engine }) m

/-- `submit` -/
def submit (engine : Engine ε σ ω) (document stage : ℕ) : EStateM ε (Loop σ ω α) Unit := do
  let requestId := q.requestId document stage
  modify fun s => s.sends requestId document stage
  let prompt ← reads fun _ => q.prompt document stage
  modify fun s => s.asks document stage
  onEngine (engine.addRequest requestId prompt)
  modify fun s => s.logs (.added requestId prompt)

/-- The inner `while`: the next documents are submitted while there is room. `fuel` bounds its turns by the
number of documents. -/
def fillCap (engine : Engine ε σ ω) (documentCap : ℤ) : ℕ → EStateM ε (Loop σ ω α) Unit
  | 0 => pure ()
  | fuel + 1 => do
    let s ← get
    if s.nextDocument < q.bodyIds.length ∧ s.expectedRows < documentCap then do
      submit q engine s.nextDocument 0
      modify fun s => { s with expectedRows := s.expectedRows + 1, nextDocument := s.nextDocument + 1 }
      fillCap engine documentCap fuel
    else pure ()

/-- The body of the loop over the outputs of a step. -/
def take (engine : Engine ε σ ω) (output : Output ω) : EStateM ε (Loop σ ω α) Unit := do
  let s ← get
  match s.inflight.get? output.requestId with
  | none => pure ()
  | some (document, stage) =>
    if output.finished = true then do
      modify fun s => s.pops output.requestId document stage
      let advances ← onPart Loop.sequence (fun s sequence => { s with sequence })
        (FilterSequence.record q truthy document stage output)
      if advances = true then submit q engine document (stage + 1)
      else modify fun s => { s with expectedRows := s.expectedRows - 1 }
    else pure ()

/-- The loop over the outputs of a step. -/
def takeAll (engine : Engine ε σ ω) : List (Output ω) → EStateM ε (Loop σ ω α) Unit
  | [] => pure ()
  | output :: outputs => do
    take q truthy engine output
    takeAll engine outputs

/-- One turn of the outer `while`. -/
def turn (engine : Engine ε σ ω) (documentCap : ℤ) : EStateM ε (Loop σ ω α) Unit := do
  fillCap q engine documentCap q.bodyIds.length
  let outputs ← onEngine engine.step
  modify fun s => s.logs (.stepped outputs)
  takeAll q truthy engine outputs

/-- The outer `while`, for this many turns; whether it is over. -/
def turns (engine : Engine ε σ ω) (documentCap : ℤ) : ℕ → EStateM ε (Loop σ ω α) Bool
  | 0 => do
    let s ← get
    pure (!(decide (s.nextDocument < q.bodyIds.length) || !s.inflight.entries.isEmpty))
  | fuel + 1 => do
    let s ← get
    if s.nextDocument < q.bodyIds.length ∨ s.inflight.entries ≠ [] then do
      turn q truthy engine documentCap
      turns engine documentCap fuel
    else pure true

/-- The `finally` clause. -/
def abort (engine : Engine ε σ ω) : EStateM ε (Loop σ ω α) Unit := do
  let s ← get
  if s.inflight.entries ≠ [] then do
    modify fun s => { s with calls := { s.calls with aborted := s.inflight.keys } }
    onEngine (engine.abortRequest s.inflight.keys)
  else pure ()

/-- How a filter sequence stands after some turns. -/
inductive Outcome (ε σ ω α : Type) where
  | running (s : Loop σ ω α)
  | returned (result : Result α) (s : Loop σ ω α)
  | raised (error : ε) (s : Loop σ ω α)

/-- The loop an outcome leaves. -/
def Outcome.loop : Outcome ε σ ω α → Loop σ ω α
  | running s | returned _ s | raised _ s => s

/-- `run_filter_sequence`, for so many turns of its loop. -/
def runFilterSequence (engine : Engine ε σ ω) (state : σ) (fuel : ℕ) : Outcome ε σ ω α :=
  match q.documentCap with
  | .error error => .raised (q.raise error) (.start state)
  | .ok documentCap =>
    match turns q truthy engine documentCap fuel (.start state) with
    | .ok false s => .running s
    | .ok true s => match abort engine s with
      | .ok () s => .returned s.sequence.result s
      | .error error s => .raised error s
    | .error error s => match abort engine s with
      | .ok () s => .raised error s
      | .error error s => .raised error s

/-! ## Workers -/

/-- Where a worker stands: its first turn is to come, it awaits an answer, or it returned. -/
inductive Worker where
  | fresh
  | awaiting (document stage : ℕ)
  | done
  deriving DecidableEq

/-- The workers of `run_filter_sequence_async`, with the documents they have asked about. -/
structure Group (α : Type) where
  workers : List Worker
  nextDocument : ℕ
  sequence : FilterSequence α
  asked : List (ℕ × ℕ)

/-- The worker takes the next document, or returns when there is none. -/
def Group.next (g : Group α) (w : ℕ) : Group α :=
  if g.nextDocument < q.bodyIds.length then
    { g with
      workers := g.workers.set w (.awaiting g.nextDocument 0)
      nextDocument := g.nextDocument + 1
      asked := g.asked ++ [(g.nextDocument, 0)] }
  else { g with workers := g.workers.set w .done }

/-- What the event loop resumes a worker with: nothing the first time, or the output it awaited. -/
inductive Resumed (ω : Type) where
  | begun
  | generated (output : Output ω)

/-- One resumption of a worker, to its next `await`. -/
def Group.resume (g : Group α) (w : ℕ) (resumed : Resumed ω) : Except ε (Group α) :=
  match g.workers[w]?, resumed with
  | some .fresh, .begun => .ok (g.next q w)
  | some (.awaiting document stage), .generated output =>
    match FilterSequence.record q truthy document stage output g.sequence with
    | .error error _ => .error error
    | .ok true sequence =>
      .ok { g with
        workers := g.workers.set w (.awaiting document (stage + 1))
        sequence
        asked := g.asked ++ [(document, stage + 1)] }
    | .ok false sequence => .ok ({ g with sequence }.next q w)
  | _, _ => .ok g

/-- The group's tasks, before the first turn of any. -/
def Group.start (documentCap : ℤ) : Group α :=
  ⟨List.replicate (min documentCap q.bodyIds.length).toNat .fresh, 0, .start, []⟩

/-- `run_filter_sequence_async` returns this after these resumptions of its workers. -/
def RunFilterSequenceAsync (events : List (ℕ × Resumed ω)) (result : Result α) : Prop :=
  ∃ documentCap g, q.documentCap = .ok documentCap ∧
    events.foldlM (fun g event => g.resume q truthy event.1 event.2) (Group.start q documentCap) = .ok g ∧
      (∀ worker ∈ g.workers, worker = .done) ∧ result = g.sequence.result

end

end Quail.Baselines
