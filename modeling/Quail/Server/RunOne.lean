import Quail.Server.RowOps

/-!
# How a record closes

What `run_one` leaves of its record, whatever the execution emits and whoever else uses the store: the
record closes once, by the first close that reaches it (`Begun`), and the count of its answers is kept up
to it (`Reports`).
-/

set_option linter.unusedSectionVars false

namespace Quail.Server
open Imperative Execution

variable {δ : Type} [DecidableEq δ] {specHash : Payload → Payload → Payload → ℚ → δ} {task : Task}
  {s s' : Execution δ} {r r' : Record Payload δ}

/-! ## The invariant -/

/-- `answers_saved` of a record. -/
def savedCount (r : Record Payload δ) : Option Json :=
  match r.progress with
  | some (.given payload) => payload.get? "answers_saved"
  | _ => none

/-- A record closed by an event of the execution has the count of the answers saved before it. -/
def Closing.Counted (r : Record Payload δ) : Closing → Prop
  | .finished _ reported lines => reported = true → savedCount r = some (.number lines)
  | .failed reported lines => reported = true → savedCount r = some (.number lines)
  | _ => True

/-- The record has the count that was written, or nothing was written and no progress came. -/
def Reports (s : Execution δ) (r : Record Payload δ) : Prop :=
  savedCount r = some (.number s.written) ∨ s.written = 0 ∧ s.counts = none ∧ s.lastProgress = 0

/-- What is left of an `emit`: an event that closes comes after the count is right. -/
def QueueSafe (written lines : ℕ) : List Action → Prop
  | [] => True
  | .progress payload :: rest => payload.get? "answers_saved" = some (.number written) ∧
      (rest = [] ∨ ∃ event, rest = [.apply event] ∧ event.closing = true ∧ written = lines)
  | .apply event :: rest => rest = [] ∧ (∀ payload, event ≠ .progress payload) ∧
      (event.closing = true → written = lines)
  | .settle _ _ :: rest => rest = [] ∧ written = lines

/-- The next operation writes the count. -/
def Writing : List Action → Bool
  | .progress _ :: _ => true
  | _ => false

/-- `run_one` closes the record itself. -/
def Closing.byLoop : Closing → Bool
  | .finished _ _ _ | .failed _ _ => false
  | _ => true

/-- What `run_one` knows of the record where it is. -/
def LoopSafe (first : Option Closing) (r : Record Payload δ) : Loop δ → Prop
  | .begin => False
  | .wait _ finishedDeadline => finishedDeadline.isSome = true → first ≠ none
  | .get _ finishedDeadline => finishedDeadline.isSome = true → first ≠ none
  | .polled _ finishedDeadline current =>
      (finishedDeadline.isSome = true → current.state.terminal = true) ∧
        (current.state.terminal = true → first ≠ none)
  | .close why => why.byLoop = true
  | .abort => first ≠ none
  | .last => first ≠ none
  | .returned status => first ≠ none ∧ status = r
  | .escaped _ => False
  | _ => True

/-- The record before `begin`. -/
structure Fresh (task : Task) (s : Execution δ) (r : Record Payload δ) : Prop where
  row : s.store.get? task.id = some r
  state : r.state = .queued ∨ r.state = .cancelled
  loop : s.loop = .begin
  armed : s.armed = false
  queue : s.queue = []
  first : s.first = none
  written : s.written = 0
  counts : s.counts = none
  lastProgress : s.lastProgress = 0

/-- The record once it has begun: executing while nothing closed it, and then as its first close left
it. -/
structure Begun (task : Task) (s : Execution δ) (r : Record Payload δ) : Prop where
  row : s.store.get? task.id = some r
  epoch : r.executionEpoch = s.epoch
  active : s.first = none → r.state.active = true
  closed : ∀ why ∈ s.first, r.state = why.state ∧ why.Counted r
  reports : s.first = none → Writing s.queue = false → Reports s r
  queue : QueueSafe s.written s.lines.length s.queue
  loop : LoopSafe s.first r s.loop

/-- A record that was cancelled before `begin`. -/
structure Refused (task : Task) (s : Execution δ) (r : Record Payload δ) : Prop where
  row : s.store.get? task.id = some r
  state : r.state = .cancelled
  loop : s.loop = .last ∨ s.loop = .returned r
  armed : s.armed = false
  queue : s.queue = []
  first : s.first = none

/-- The invariant of a run. -/
inductive Sound (task : Task) (s : Execution δ) : Prop where
  | fresh {r : Record Payload δ} (h : Fresh task s r)
  | begun {r : Record Payload δ} (h : Begun task s r)
  | refused {r : Record Payload δ} (h : Refused task s r)

lemma Closing.terminal (why : Closing) : why.state.terminal = true := by
  cases why with
  | finished verified _ _ => cases verified <;> rfl
  | _ => rfl

lemma Closing.not_succeeded {why : Closing} (h : why.byLoop = true) : why.state ≠ .succeeded := by
  cases why with
  | finished | failed => cases h
  | _ => exact nofun

lemma Closing.counted {why : Closing} (h : why.byLoop = true) : why.Counted r := by
  cases why with
  | finished | failed => cases h
  | _ => trivial

lemma active_not_terminal {state : State} (h : state.active = true) : state.terminal = false := by
  cases state <;> first | rfl | cases h

lemma Begun.isExecuting (h : Begun task s r) (hfirst : s.first = none) :
    executing s.epoch r = true := by
  unfold executing
  rw [h.epoch, h.active hfirst, beq_self_eq_true]
  rfl

lemma Begun.stale (h : Begun task s r) (hfirst : s.first ≠ none) : executing s.epoch r = false := by
  obtain ⟨why, hwhy⟩ := Option.ne_none_iff_exists'.1 hfirst
  have hstate := (h.closed why hwhy).1
  have hactive : r.state.active = false := by
    cases hactive : r.state.active with
    | false => rfl
    | true =>
      have hterminal := active_not_terminal hactive
      rw [hstate, why.terminal] at hterminal
      cases hterminal
  unfold executing
  rw [hactive, Bool.and_false]

/-- A begun record is terminal once it was closed. -/
lemma Begun.terminal_iff (h : Begun task s r) : r.state.terminal = true ↔ s.first ≠ none := by
  constructor
  · intro hterminal hfirst
    rw [active_not_terminal (h.active hfirst)] at hterminal
    cases hterminal
  · intro hfirst
    obtain ⟨why, hwhy⟩ := Option.ne_none_iff_exists'.1 hfirst
    rw [(h.closed why hwhy).1]
    exact why.terminal

/-! ## The execution's thread -/

/-- A report that the rate limit lets through writes the count; another one changes nothing else. -/
lemma Begun.report (h : Begun task s r) (counts : Option Payload) (lines : List Payload)
    {payload : Payload} {complete : Bool} {now : ℚ} (hqueue : s.queue = [])
    (hreports : s.first = none → complete = false ∧ now - s.lastProgress < progressInterval →
      Reports { s with counts, lines } r) :
    Begun task ({ s with counts, lines }.report payload complete now) r := by
  unfold Execution.report
  by_cases hlimit : complete = false ∧ now - s.lastProgress < progressInterval
  · rw [if_pos hlimit]
    refine ⟨h.row, h.epoch, h.active, h.closed, fun hfirst _ => hreports hfirst hlimit, ?_, h.loop⟩
    show QueueSafe _ _ s.queue
    rw [hqueue]
    trivial
  · rw [if_neg hlimit]
    exact ⟨h.row, h.epoch, h.active, h.closed, nofun, ⟨Dict.get?_set_self, .inl rfl⟩, h.loop⟩

lemma Begun.beforeClose (h : Begun task s r) {event : Emitted} (hclosing : event.closing = true)
    (hqueue : s.queue = []) : Begun task (s.beforeClose event) r := by
  have hevent : ∀ payload, event ≠ .progress payload := by
    rintro payload rfl
    cases hclosing
  unfold Execution.beforeClose
  by_cases hwritten : s.written ≠ s.lines.length
  · rw [if_pos hwritten]
    refine ⟨h.row, h.epoch, h.active, h.closed, nofun, ⟨Dict.get?_set_self, .inr ?_⟩, h.loop⟩
    exact ⟨event, rfl, hclosing, rfl⟩
  · rw [if_neg hwritten]
    refine ⟨h.row, h.epoch, h.active, h.closed, fun hfirst _ => h.reports hfirst ?_,
      ⟨rfl, hevent, fun _ => not_not.1 hwritten⟩, h.loop⟩
    rw [hqueue]
    rfl

/-- The execution's thread takes an event that closes nothing. -/
lemma Begun.queued (h : Begun task s r) {event : Emitted} (hclosing : event.closing = false)
    (hevent : ∀ payload, event ≠ .progress payload) (hqueue : s.queue = []) :
    Begun task { s with queue := [.apply event] } r := by
  refine ⟨h.row, h.epoch, h.active, h.closed, fun hfirst _ => h.reports hfirst ?_, ⟨rfl, hevent, ?_⟩, h.loop⟩
  · rw [hqueue]
    rfl
  · intro htrue
    rw [hclosing] at htrue
    cases htrue

lemma Begun.emit (h : Begun task s r) {event : Emitted} {now : ℚ}
    (hclock : ∀ payload, event = .progress payload → progressInterval ≤ now) :
    Begun task (s.emit event now) r := by
  unfold Execution.emit
  split
  case h_1 => exact h
  case h_2 hqueue =>
    by_cases harmed : s.armed = false
    · rw [if_pos harmed]
      exact h
    rw [if_neg harmed]
    have hidle : Writing s.queue = false := by
      rw [hqueue]
      rfl
    cases event with
    | answers payload =>
      exact h.report s.counts (s.lines ++ [payload]) hqueue fun hfirst _ => h.reports hfirst hidle
    | progress payload =>
      refine h.report (some payload) s.lines hqueue fun hfirst hlimit =>
        (h.reports hfirst hidle).imp_right ?_
      -- the timer starts at zero, so the first progress is written
      rintro ⟨-, -, hlast⟩
      have hnow := hclock payload rfl
      rw [hlast, sub_zero] at hlimit
      exact absurd hlimit.2 (not_lt.2 hnow)
    | state state phase => exact h.queued rfl nofun hqueue
    | phase payload => exact h.queued rfl nofun hqueue
    | plan payload => exact h.queued rfl nofun hqueue
    | other kind => exact h.queued rfl nofun hqueue
    | finished payload => exact h.beforeClose rfl hqueue
    | failed payload => exact h.beforeClose rfl hqueue

/-- The rest of an `emit` after its first operation is on the record or leaves it. -/
lemma Begun.acted (h : Begun task s r) {store : Store Payload δ} {rest : List Action}
    (hrow : store.get? task.id = some r') (hepoch : r'.executionEpoch = r.executionEpoch)
    (hactive : r'.state.active = true) (hfirst : s.first = none) (hreports : Writing rest = false → Reports s r')
    (hrest : QueueSafe s.written s.lines.length rest) : Begun task { s with store, queue := rest } r' := by
  refine ⟨hrow, hepoch.trans h.epoch, fun _ => hactive, fun why hwhy => ?_, fun _ => hreports, hrest, ?_⟩
  · rw [hfirst] at hwhy
    cases hwhy
  · have hloop := h.loop
    show LoopSafe s.first r' s.loop
    rw [hfirst] at hloop ⊢
    cases hl : s.loop with
    | returned status =>
      rw [hl] at hloop
      exact absurd rfl hloop.1
    | begin | wait | get | polled | close | abort | last | escaped =>
      rw [hl] at hloop
      exact hloop
    | _ => trivial

/-- The rest of an `emit` when its first operation left the store. -/
lemma Begun.skipped (h : Begun task s r) {rest : List Action}
    (hreports : s.first = none → Writing rest = false → Reports s r)
    (hrest : QueueSafe s.written s.lines.length rest) : Begun task { s with queue := rest } r :=
  ⟨h.row, h.epoch, h.active, h.closed, hreports, hrest, h.loop⟩

lemma QueueSafe.nil {written lines : ℕ} : QueueSafe written lines [] := trivial

/-- An update of the record, or of nothing once it is closed. -/
lemma Begun.update (h : Begun task s r) {state : Option State} {phase progress plan : Option Payload}
    {time : ℚ} {rest : List Action} (hrest : QueueSafe s.written s.lines.length rest)
    (hreports : s.first = none → ∀ r' : Record Payload δ,
      r'.progress = (progress.map Info.given).or r.progress → Reports s r')
    (hraise : s.first = none → (∃ st ∈ state, st.active = false) → Reports s r) :
    ∃ r', Begun task (s.update task state phase progress plan time rest) r' := by
  unfold Execution.update
  by_cases hstale : s.first = none ∧ ∀ st ∈ state, st.active = true
  · obtain ⟨hfirst, hstate⟩ := hstale
    obtain ⟨r', hperform, hepoch, hactive, hprogress⟩ :=
      update_executing state phase progress plan time h.row (h.isExecuting hfirst) hstate
    rw [hperform]
    exact ⟨r', h.acted Dict.get?_set_self hepoch hactive hfirst (fun _ => hreports hfirst r' hprogress) hrest⟩
  · have hleaves : executing s.epoch r = false ∨ ∃ st ∈ state, st.active = false := by
      by_cases hfirst : s.first = none
      · obtain ⟨st, hst⟩ := not_forall.1 (not_and.1 hstale hfirst)
        obtain ⟨hmem, hinactive⟩ := Classical.not_imp.1 hst
        exact .inr ⟨st, hmem, Bool.eq_false_of_not_eq_true hinactive⟩
      · exact .inl (h.stale hfirst)
    obtain ⟨result, hperform⟩ := update_leaves state phase progress plan time h.row hleaves
    rw [hperform]
    refine ⟨r, ?_⟩
    have hkept : s.first = none → Reports s r := by
      intro hfirst
      refine hraise hfirst (hleaves.resolve_left fun hno => ?_)
      rw [h.isExecuting hfirst] at hno
      cases hno
    cases result with
    | ok _ => exact h.skipped (fun hfirst _ => hkept hfirst) hrest
    | error _ => exact h.skipped (fun hfirst _ => hkept hfirst) .nil

/-- The record's answers as they are, when an event closes it. -/
lemma Begun.counted (h : Begun task s r) (hfirst : s.first = none) (hidle : Writing s.queue = false)
    (hwritten : s.written = s.lines.length) (hreported : s.reported = true) :
    savedCount r = some (.number s.lines.length) := by
  obtain hcount | ⟨hzero, hcounts, -⟩ := h.reports hfirst hidle
  · rw [← hwritten]
    exact hcount
  · unfold Execution.reported at hreported
    rw [hcounts, List.length_eq_zero_iff.1 (hwritten.symm.trans hzero)] at hreported
    cases hreported

/-- A close of the record, or of nothing once it is closed. -/
lemma Begun.finish (h : Begun task s r) {why : Closing} (error result : Option Payload) (time : ℚ)
    (hresult : why.state = .succeeded → result.isSome = true)
    (hcounted : s.first = none → ∀ r' : Record Payload δ, r'.progress = r.progress → why.Counted r') :
    ∃ store r', s.finish task why error result time =
        (.ok (), { s with store, first := s.first.or (some why) }) ∧
      store.get? task.id = some r' ∧ r'.executionEpoch = s.epoch ∧
      (∀ why' ∈ s.first.or (some why), r'.state = why'.state ∧ why'.Counted r') ∧
      (s.first ≠ none → r' = r ∧ store = s.store) := by
  unfold Execution.finish
  by_cases hfirst : s.first = none
  · obtain ⟨r', hperform, hepoch, hstate, hprogress⟩ :=
      finish_executing error result time h.row (h.isExecuting hfirst) why.terminal hresult
    rw [hperform, hfirst]
    refine ⟨_, r', rfl, Dict.get?_set_self, hepoch.trans h.epoch, fun why' hwhy => ?_, fun hno => absurd rfl hno⟩
    obtain rfl := Option.some.inj hwhy
    exact ⟨hstate, hcounted hfirst r' hprogress⟩
  · have hperform := finish_leaves error result time h.row (h.stale hfirst) why.terminal hresult
    obtain ⟨why', hwhy⟩ := Option.ne_none_iff_exists'.1 hfirst
    rw [hperform]
    refine ⟨s.store, r, rfl, h.row, h.epoch, fun why'' hwhy' => ?_, fun _ => ⟨rfl, rfl⟩⟩
    rw [hwhy] at hwhy'
    exact h.closed why'' (hwhy.trans hwhy')

lemma or_some_ne_none {α : Type} {o : Option α} {a : α} : o.or (some a) ≠ none := by
  cases o <;> exact nofun

/-- A close by the execution's thread. -/
lemma Begun.settled (h : Begun task s r) {why : Closing} {error result : Option Payload} {time : ℚ}
    (hresult : why.state = .succeeded → result.isSome = true)
    (hcounted : s.first = none → ∀ r' : Record Payload δ, r'.progress = r.progress → why.Counted r') :
    ∃ r', Begun task { (s.finish task why error result time).2 with queue := [] } r' := by
  obtain ⟨store, r', hfinish, hrow, hepoch, hclosed, hsame⟩ :=
    h.finish error result time hresult hcounted
  rw [hfinish]
  refine ⟨r', hrow, hepoch, fun hnone => absurd hnone or_some_ne_none, hclosed,
    fun hnone => absurd hnone or_some_ne_none, trivial, ?_⟩
  have hloop := h.loop
  show LoopSafe (s.first.or (some why)) r' s.loop
  cases hl : s.loop with
  | returned status =>
    rw [hl] at hloop
    obtain ⟨hfirst, rfl⟩ := hloop
    exact ⟨or_some_ne_none, ((hsame hfirst).1).symm⟩
  | begin | escaped | close =>
    rw [hl] at hloop
    exact hloop
  | wait | get => exact fun _ => or_some_ne_none
  | polled =>
    rw [hl] at hloop
    exact ⟨hloop.1, fun _ => or_some_ne_none⟩
  | abort | last => exact or_some_ne_none
  | _ => trivial

lemma savedCount_congr (h : r'.progress = r.progress) : savedCount r' = savedCount r := by
  unfold savedCount
  rw [h]

lemma Begun.act (h : Begun task s r) (verified : Except String Unit) (time : ℚ) :
    ∃ r', Begun task (s.act task verified time) r' := by
  have hsafe := h.queue
  unfold Execution.act
  split
  case h_1 => exact ⟨r, h⟩
  case h_2 payload rest hqueue =>
    rw [hqueue] at hsafe
    obtain ⟨hcount, hrest⟩ := hsafe
    refine h.update ?_ (fun _ r' hprogress => .inl ?_) (fun _ hinvalid => ?_)
    · obtain rfl | ⟨event, rfl, hclosing, hwritten⟩ := hrest
      · trivial
      · refine ⟨rfl, ?_, fun _ => hwritten⟩
        rintro payload rfl
        cases hclosing
    · unfold savedCount
      rw [hprogress]
      exact hcount
    · obtain ⟨st, hst, -⟩ := hinvalid
      cases hst
  case h_3 event rest hqueue =>
    rw [hqueue] at hsafe
    obtain ⟨rfl, hevent, hwritten⟩ := hsafe
    have hidle : Writing s.queue = false := by
      rw [hqueue]
      rfl
    have hkept : s.first = none → ∀ r' : Record Payload δ, r'.progress = r.progress → Reports s r' := by
      intro hfirst r' hprogress
      unfold Reports
      rw [savedCount_congr hprogress]
      exact h.reports hfirst hidle
    cases event with
    | progress payload => exact absurd rfl (hevent payload)
    | state state phase => exact h.update .nil hkept fun hfirst _ => h.reports hfirst hidle
    | phase payload => exact h.update .nil hkept fun hfirst _ => h.reports hfirst hidle
    | plan payload => exact h.update .nil hkept fun hfirst _ => h.reports hfirst hidle
    | answers payload => exact ⟨r, h.skipped (fun hfirst _ => h.reports hfirst hidle) .nil⟩
    | other kind => exact ⟨r, h.skipped (fun hfirst _ => h.reports hfirst hidle) .nil⟩
    | failed payload =>
      refine h.settled nofun fun hfirst r' hprogress hreported => ?_
      rw [savedCount_congr hprogress]
      exact h.counted hfirst hidle (hwritten rfl) hreported
    | finished payload =>
      exact ⟨r, h.skipped (fun hfirst _ => h.reports hfirst hidle) ⟨rfl, hwritten rfl⟩⟩
  case h_4 payload verified rest hqueue =>
    rw [hqueue] at hsafe
    obtain ⟨rfl, hwritten⟩ := hsafe
    have hidle : Writing s.queue = false := by
      rw [hqueue]
      rfl
    have hcounted : s.first = none → ∀ r' : Record Payload δ, r'.progress = r.progress →
        s.reported = true → savedCount r' = some (.number s.lines.length) := by
      intro hfirst r' hprogress hreported
      rw [savedCount_congr hprogress]
      exact h.counted hfirst hidle hwritten hreported
    cases verified with
    | error error => exact h.settled nofun hcounted
    | ok _ => exact h.settled (fun _ => rfl) hcounted

/-! ## `run_one` -/

lemma Begun.goes (h : Begun task s r) {loop : Loop δ} {armed : Bool} (hloop : LoopSafe s.first r loop) :
    Begun task { s with loop, armed } r :=
  ⟨h.row, h.epoch, h.active, h.closed, h.reports, h.queue, hloop⟩

/-- A close by `run_one`, which goes on to a place that needs a closed record. -/
lemma Begun.closes (h : Begun task s r) {why : Closing} (error : Option Payload) (time : ℚ)
    (hloop : why.byLoop = true) (loop : Loop δ) (hsafe : ∀ first r', first ≠ none → LoopSafe first r' loop) :
    ∃ s', s.finish task why error none time = (.ok (), s') ∧
      ∃ r', Begun task { s' with loop } r' ∧ (s.first ≠ none → r' = r) := by
  obtain ⟨store, r', hfinish, hrow, hepoch, hclosed, hsame⟩ :=
    h.finish error none time (fun heq => absurd heq (Closing.not_succeeded hloop))
      fun _ r' _ => Closing.counted hloop
  exact ⟨_, hfinish, r', ⟨hrow, hepoch, fun hnone => absurd hnone or_some_ne_none, hclosed,
    fun hnone => absurd hnone or_some_ne_none, h.queue, hsafe _ r' or_some_ne_none⟩,
    fun hfirst => (hsame hfirst).1⟩

lemma poll_safe {first : Option Closing} {deadline now : ℚ} {finishedDeadline : Option ℚ}
    {current : Record Payload δ} (h : LoopSafe first r (.polled deadline finishedDeadline current)) :
    LoopSafe first r (s.poll deadline finishedDeadline current now) := by
  obtain ⟨hfinished, hfirst⟩ := h
  unfold Execution.poll
  by_cases hdone : current.state.terminal = true
  · rw [if_pos hdone]
    dsimp only
    split_ifs
    · trivial
    · exact fun _ => hfirst hdone
  · rw [if_neg hdone]
    split_ifs
    · rfl
    · rfl
    · rfl
    · exact fun hsome => absurd (hfinished hsome) hdone

/-- A turn of `run_one`; a closed record stays as it is. -/
lemma Begun.turn (h : Begun task s r) {w : World} :
    ∃ r', Begun task (s.turn task w) r' ∧ (s.first ≠ none → r' = r) := by
  have hsafe := h.loop
  have hget := perform_getRecord h.row
  unfold Execution.turn
  split
  case h_1 hloop =>
    rw [hloop] at hsafe
    exact hsafe.elim
  case h_2 hloop =>
    split
    · exact ⟨r, h.goes trivial, fun _ => rfl⟩
    · exact ⟨r, h.goes trivial, fun _ => rfl⟩
  case h_3 hloop =>
    split
    · exact ⟨r, h.goes nofun, fun _ => rfl⟩
    · exact ⟨r, h.goes trivial, fun _ => rfl⟩
  case h_4 deadline finishedDeadline hloop =>
    rw [hloop] at hsafe
    split
    · exact ⟨r, h.goes trivial, fun _ => rfl⟩
    · exact ⟨r, h.goes hsafe, fun _ => rfl⟩
    · exact ⟨r, h.goes trivial, fun _ => rfl⟩
  case h_5 deadline finishedDeadline hloop =>
    rw [hloop] at hsafe
    rw [hget]
    exact ⟨r, h.goes ⟨fun hsome => h.terminal_iff.2 (hsafe hsome), h.terminal_iff.1⟩, fun _ => rfl⟩
  case h_6 deadline finishedDeadline current hloop =>
    rw [hloop] at hsafe
    exact ⟨r, h.goes (poll_safe hsafe), fun _ => rfl⟩
  case h_7 why hloop =>
    rw [hloop] at hsafe
    obtain ⟨s', hfinish, hs'⟩ := h.closes (some (loopError task why)) w.time hsafe .stop
      fun _ _ _ => trivial
    rw [hfinish]
    exact hs'
  case h_8 hloop => exact ⟨r, h.goes trivial, fun _ => rfl⟩
  case h_9 hloop =>
    rw [hget]
    refine ⟨r, h.goes ?_, fun _ => rfl⟩
    split_ifs with hterminal
    · exact h.terminal_iff.1 hterminal
    · trivial
  case h_10 hloop =>
    obtain ⟨s', hfinish, hs'⟩ := @Begun.closes δ _ task s r h .exit (some (loopError task .exit)) w.time rfl
      .last fun _ _ hfirst => hfirst
    rw [hfinish]
    exact hs'
  case h_11 error executing hloop =>
    obtain ⟨s', hfinish, hs'⟩ := @Begun.closes δ _ task s r h .raised (some error) w.time rfl
      (if executing then .abort else .last) fun _ _ hfirst => by
        split_ifs
        · exact hfirst
        · exact hfirst
    rw [hfinish]
    exact hs'
  case h_12 hloop =>
    rw [hloop] at hsafe
    exact ⟨r, h.goes hsafe, fun _ => rfl⟩
  case h_13 hloop =>
    rw [hloop] at hsafe
    rw [hget]
    exact ⟨r, h.goes ⟨hsafe, rfl⟩, fun _ => rfl⟩
  case h_14 => exact ⟨r, h, fun _ => rfl⟩
  case h_15 hloop =>
    rw [hloop] at hsafe
    exact hsafe.elim

/-! ## Every move -/

lemma Fresh.turn (h : Fresh task s r) {w : World} : Sound task (s.turn task w) := by
  unfold Execution.turn
  rw [h.loop]
  dsimp only
  by_cases hqueued : r.state = .queued
  · obtain ⟨r', hperform, hepoch, hstate⟩ := begin_queued w.time h.row hqueued
    rw [hperform]
    refine .begun (r := r') ⟨Dict.get?_set_self, hepoch, fun _ => ?_, fun why hwhy => ?_, fun _ _ => .inr
      ⟨h.written, h.counts, h.lastProgress⟩, ?_, trivial⟩
    · rw [hstate]
      rfl
    · have hnone : s.first = some why := hwhy
      rw [h.first] at hnone
      cases hnone
    · show QueueSafe _ _ s.queue
      rw [h.queue]
      trivial
  · obtain ⟨text, hperform⟩ := begin_refused w.time h.row hqueued
    rw [hperform]
    exact .refused ⟨h.row, h.state.resolve_left hqueued, .inl rfl, h.armed, h.queue, h.first⟩

lemma Refused.turn (h : Refused task s r) {w : World} : Refused task (s.turn task w) r := by
  unfold Execution.turn
  obtain hloop | hloop := h.loop
  · rw [hloop]
    dsimp only
    rw [perform_getRecord h.row]
    exact ⟨h.row, h.state, .inr rfl, h.armed, h.queue, h.first⟩
  · rw [hloop]
    exact h

lemma Refused.terminal (h : Refused task s r) : r.state.terminal = true := by
  rw [h.state]
  rfl

/-- Another caller leaves a closed record as it is. -/
lemma Touched.eq_of_terminal (h : Touched r r') (hterminal : r.state.terminal = true) : r' = r := by
  cases h with
  | same => rfl
  | cancelled hqueued _ =>
    rw [hqueued] at hterminal
    cases hterminal
  | asked hactive _ _ _ =>
    rw [active_not_terminal hactive] at hterminal
    cases hterminal

lemma Fresh.touched (h : Fresh task s r) {store : Store Payload δ} (hrow : store.get? task.id = some r')
    (ht : Touched r r') : Fresh task { s with store } r' := by
  refine ⟨hrow, ?_, h.loop, h.armed, h.queue, h.first, h.written, h.counts, h.lastProgress⟩
  cases ht with
  | same => exact h.state
  | cancelled _ hstate => exact .inr hstate
  | asked hactive hstate _ _ =>
    rw [hstate]
    exact h.state

lemma Begun.touched (h : Begun task s r) {store : Store Payload δ} (hrow : store.get? task.id = some r')
    (ht : Touched r r') : Begun task { s with store } r' := by
  by_cases hfirst : s.first = none
  · have hactive := h.active hfirst
    have hfields : r'.state = r.state ∧ r'.executionEpoch = r.executionEpoch ∧ r'.progress = r.progress := by
      cases ht with
      | same => exact ⟨rfl, rfl, rfl⟩
      | cancelled hqueued _ =>
        rw [hqueued] at hactive
        cases hactive
      | asked _ hstate hepoch hprogress => exact ⟨hstate, hepoch, hprogress⟩
    obtain ⟨hstate, hepoch, hprogress⟩ := hfields
    refine (?_ : Begun task { s with store, queue := s.queue } r')
    refine h.acted hrow hepoch ?_ hfirst (fun hidle => ?_) h.queue
    · rw [hstate]
      exact hactive
    · unfold Reports
      rw [savedCount_congr hprogress]
      exact h.reports hfirst hidle
  · obtain rfl := ht.eq_of_terminal (h.terminal_iff.2 hfirst)
    exact ⟨hrow, h.epoch, h.active, h.closed, h.reports, h.queue, h.loop⟩

/-- The reports of progress come when the clock is past the interval of its writes, and no answers come
once the record is closed. -/
def Timely (task : Task) (s : Execution δ) : Move → Prop
  | .emit (.progress _) now => progressInterval ≤ now
  | .emit (.answers _) _ => ∀ r, s.store.get? task.id = some r → r.state.terminal = false
  | _ => True

lemma emit_unarmed {event : Emitted} {now : ℚ} (harmed : s.armed = false) : s.emit event now = s := by
  unfold Execution.emit
  split
  · rfl
  · rw [if_pos harmed]

lemma act_idle {verified : Except String Unit} {time : ℚ} (hqueue : s.queue = []) :
    s.act task verified time = s := by
  unfold Execution.act
  rw [hqueue]

lemma Sound.step (h : Sound task s) (move : Move) (htimely : Timely task s move) :
    Sound task (s.step specHash task move) := by
  cases move with
  | emit event now =>
    cases h with
    | @fresh r h =>
      refine .fresh (?_ : Fresh task (s.emit event now) r)
      rw [emit_unarmed h.armed]
      exact h
    | begun h =>
      refine .begun (h.emit fun payload heq => ?_)
      subst heq
      exact htimely
    | @refused r h =>
      refine .refused (?_ : Refused task (s.emit event now) r)
      rw [emit_unarmed h.armed]
      exact h
  | act verified time =>
    cases h with
    | @fresh r h =>
      refine .fresh (?_ : Fresh task (s.act task verified time) r)
      rw [act_idle h.queue]
      exact h
    | begun h =>
      obtain ⟨r', h'⟩ := h.act verified time
      exact .begun h'
    | @refused r h =>
      refine .refused (?_ : Refused task (s.act task verified time) r)
      rw [act_idle h.queue]
      exact h
  | turn w =>
    cases h with
    | fresh h => exact h.turn
    | begun h =>
      obtain ⟨r', h', -⟩ := h.turn (w := w)
      exact .begun h'
    | refused h => exact .refused h.turn
  | other call =>
    show Sound task (if foreign task call then { s with store := call.step specHash s.store } else s)
    by_cases hforeign : foreign task call = true
    · rw [if_pos hforeign]
      cases h with
      | fresh h =>
        obtain ⟨r', hrow, ht⟩ := foreign_touches specHash h.row hforeign
        exact .fresh (h.touched hrow ht)
      | begun h =>
        obtain ⟨r', hrow, ht⟩ := foreign_touches specHash h.row hforeign
        exact .begun (h.touched hrow ht)
      | refused h =>
        obtain ⟨r', hrow, ht⟩ := foreign_touches specHash h.row hforeign
        obtain rfl := ht.eq_of_terminal h.terminal
        exact .refused ⟨hrow, h.state, h.loop, h.armed, h.queue, h.first⟩
    · rw [if_neg hforeign]
      exact h
  | stop =>
    cases h with
    | fresh h => exact .fresh ⟨h.1, h.2, h.3, h.4, h.5, h.6, h.7, h.8, h.9⟩
    | begun h => exact .begun ⟨h.1, h.2, h.3, h.4, h.5, h.6, h.7⟩
    | refused h => exact .refused ⟨h.1, h.2, h.3, h.4, h.5, h.6⟩

/-! ## What is promised -/

/-- A move of the execution's thread. -/
def Move.executing : Move → Bool
  | .emit _ _ | .act _ _ => true
  | _ => false

/-- What holds of a state of the run and of the next move. -/
structure RunKept (specHash : Payload → Payload → Payload → ℚ → δ) (task : Task) (s : Execution δ)
    (move : Move) : Prop where
  returned : ∀ status, s.loop = .returned status →
    status.state.terminal = true ∧ s.store.get? task.id = some status
  returns : ∀ error, s.loop ≠ .escaped error
  succeeded : ∀ r, s.store.get? task.id = some r → r.state = .succeeded →
    ∃ reported lines, s.first = some (.finished true reported lines)
  final : ∀ r, s.store.get? task.id = some r → r.state.terminal = true →
    (s.step specHash task move).store.get? task.id = some r
  stale : ∀ r, s.store.get? task.id = some r → r.state.terminal = true → move.executing = true →
    (s.step specHash task move).store = s.store ∧ (s.step specHash task move).lines = s.lines
  saved : ∀ r, s.store.get? task.id = some r → ∀ verified lines,
    s.first = some (.finished verified true lines) ∨ s.first = some (.failed true lines) →
      savedCount r = some (.number lines)

/-- An event touches the store only in the operations that follow it. -/
lemma emit_store {event : Emitted} {now : ℚ} : (s.emit event now).store = s.store := by
  unfold Execution.emit
  split
  · rfl
  · split_ifs
    · rfl
    · cases event with
      | answers | progress =>
        dsimp only
        unfold Execution.report
        split_ifs <;> rfl
      | finished | failed =>
        dsimp only
        unfold Execution.beforeClose
        split_ifs <;> rfl
      | _ => rfl

/-- Only answers add lines. -/
lemma emit_lines {event : Emitted} {now : ℚ} (h : ∀ payload, event ≠ .answers payload) :
    (s.emit event now).lines = s.lines := by
  unfold Execution.emit
  split
  · rfl
  · split_ifs
    · rfl
    · cases event with
      | answers payload => exact absurd rfl (h payload)
      | progress =>
        dsimp only
        unfold Execution.report
        split_ifs <;> rfl
      | finished | failed =>
        dsimp only
        unfold Execution.beforeClose
        split_ifs <;> rfl
      | _ => rfl

/-- An update of a closed record leaves the store. -/
lemma Begun.update_stale (h : Begun task s r) (hfirst : s.first ≠ none) {state : Option State}
    {phase progress plan : Option Payload} {time : ℚ} {rest : List Action} :
    (s.update task state phase progress plan time rest).store = s.store ∧
      (s.update task state phase progress plan time rest).lines = s.lines := by
  obtain ⟨result, hperform⟩ := update_leaves state phase progress plan time h.row (.inl (h.stale hfirst))
  unfold Execution.update
  rw [hperform]
  cases result with
  | ok _ => exact ⟨rfl, rfl⟩
  | error _ => exact ⟨rfl, rfl⟩

/-- A close of a closed record leaves the store. -/
lemma Begun.finish_stale (h : Begun task s r) (hfirst : s.first ≠ none) {why : Closing}
    {error result : Option Payload} {time : ℚ} (hresult : why.state = .succeeded → result.isSome = true) :
    (s.finish task why error result time).2.store = s.store ∧
      (s.finish task why error result time).2.lines = s.lines := by
  have hperform := finish_leaves error result time h.row (h.stale hfirst) why.terminal hresult
  unfold Execution.finish
  rw [hperform]
  exact ⟨rfl, rfl⟩

lemma Begun.act_stale (h : Begun task s r) (hfirst : s.first ≠ none) {verified : Except String Unit}
    {time : ℚ} : (s.act task verified time).store = s.store ∧ (s.act task verified time).lines = s.lines := by
  unfold Execution.act
  split
  case h_1 => exact ⟨rfl, rfl⟩
  case h_2 => exact h.update_stale hfirst
  case h_3 event rest hqueue =>
    cases event with
    | state | phase | plan | progress => exact h.update_stale hfirst
    | failed => exact h.finish_stale hfirst nofun
    | finished | answers | other => exact ⟨rfl, rfl⟩
  case h_4 payload verified rest hqueue =>
    cases verified with
    | error => exact h.finish_stale hfirst nofun
    | ok => exact h.finish_stale hfirst fun _ => rfl

/-- Events that come once the record is closed change nothing. -/
lemma Sound.stale (h : Sound task s) (move : Move) (htimely : Timely task s move)
    (hrow : s.store.get? task.id = some r) (hterminal : r.state.terminal = true)
    (hexecuting : move.executing = true) :
    (s.step specHash task move).store = s.store ∧ (s.step specHash task move).lines = s.lines := by
  cases move with
  | emit event now =>
    refine ⟨emit_store, emit_lines ?_⟩
    rintro payload rfl
    have hopen := htimely r hrow
    rw [hterminal] at hopen
    cases hopen
  | act verified time =>
    show (s.act task verified time).store = _ ∧ (s.act task verified time).lines = _
    cases h with
    | fresh h =>
      rw [act_idle h.queue]
      exact ⟨rfl, rfl⟩
    | begun h =>
      obtain rfl := Option.some.inj (hrow.symm.trans h.row)
      exact h.act_stale (h.terminal_iff.1 hterminal)
    | refused h =>
      rw [act_idle h.queue]
      exact ⟨rfl, rfl⟩
  | turn | other | stop => cases hexecuting

/-- `run_one` leaves a closed record as it is. -/
lemma Sound.turn_final (h : Sound task s) {w : World} (hrow : s.store.get? task.id = some r)
    (hterminal : r.state.terminal = true) : (s.turn task w).store.get? task.id = some r := by
  cases h with
  | fresh h =>
    obtain rfl := Option.some.inj (hrow.symm.trans h.row)
    unfold Execution.turn
    rw [h.loop]
    dsimp only
    have hqueued : r.state ≠ .queued := by
      intro hqueued
      rw [hqueued] at hterminal
      cases hterminal
    obtain ⟨text, hperform⟩ := begin_refused w.time h.row hqueued
    rw [hperform]
    exact hrow
  | begun h =>
    obtain rfl := Option.some.inj (hrow.symm.trans h.row)
    obtain ⟨r', h', hsame⟩ := h.turn (w := w)
    rw [← hsame (h.terminal_iff.1 hterminal)]
    exact h'.row
  | refused h =>
    obtain rfl := Option.some.inj (hrow.symm.trans h.row)
    exact (h.turn (w := w)).row

/-- Each state of a run keeps what is promised, and so does each move from it. -/
lemma Sound.kept (h : Sound task s) (move : Move) (htimely : Timely task s move) :
    RunKept specHash task s move := by
  refine ⟨fun status hloop => ?_, fun error hloop => ?_, fun r hrow hstate => ?_, fun r hrow hterminal => ?_,
    fun r hrow hterminal hexecuting => h.stale move htimely hrow hterminal hexecuting,
    fun r hrow verified lines hfirst => ?_⟩
  · cases h with
    | fresh h =>
      rw [h.loop] at hloop
      cases hloop
    | begun h =>
      have hsafe := h.loop
      rw [hloop] at hsafe
      obtain ⟨hfirst, rfl⟩ := hsafe
      exact ⟨h.terminal_iff.2 hfirst, h.row⟩
    | refused h =>
      obtain hlast | hreturned := h.loop
      · rw [hlast] at hloop
        cases hloop
      · rw [hreturned] at hloop
        cases hloop
        exact ⟨h.terminal, h.row⟩
  · cases h with
    | fresh h =>
      rw [h.loop] at hloop
      cases hloop
    | begun h =>
      have hsafe := h.loop
      rw [hloop] at hsafe
      exact hsafe
    | refused h =>
      obtain hlast | hreturned := h.loop
      · rw [hlast] at hloop
        cases hloop
      · rw [hreturned] at hloop
        cases hloop
  · cases h with
    | fresh h =>
      obtain rfl := Option.some.inj (hrow.symm.trans h.row)
      obtain hqueued | hcancelled := h.state
      · rw [hqueued] at hstate
        cases hstate
      · rw [hcancelled] at hstate
        cases hstate
    | begun h =>
      obtain rfl := Option.some.inj (hrow.symm.trans h.row)
      obtain ⟨why, hwhy⟩ := Option.ne_none_iff_exists'.1 (h.terminal_iff.1 (by rw [hstate]; rfl))
      have hclosed := (h.closed why hwhy).1
      rw [hstate] at hclosed
      rw [hwhy]
      cases why with
      | finished verified reported lines =>
        cases verified with
        | true => exact ⟨reported, lines, rfl⟩
        | false => cases hclosed
      | _ => cases hclosed
    | refused h =>
      obtain rfl := Option.some.inj (hrow.symm.trans h.row)
      rw [h.state] at hstate
      cases hstate
  · cases move with
    | turn w => exact h.turn_final hrow hterminal
    | emit event now =>
      show (s.emit event now).store.get? task.id = some r
      rw [emit_store]
      exact hrow
    | act verified time =>
      rw [(h.stale (.act verified time) htimely hrow hterminal rfl).1]
      exact hrow
    | other call =>
      show (if foreign task call then { s with store := call.step specHash s.store } else s).store.get?
        task.id = some r
      split_ifs with hforeign
      · obtain ⟨r', hrow', ht⟩ := foreign_touches specHash hrow hforeign
        rw [← ht.eq_of_terminal hterminal]
        exact hrow'
      · exact hrow
    | stop => exact hrow
  · have hnone : s.first ≠ none := by
      intro hno
      rw [hno] at hfirst
      obtain hfirst | hfirst := hfirst <;> cases hfirst
    cases h with
    | fresh h => exact absurd h.first hnone
    | begun h =>
      obtain rfl := Option.some.inj (hrow.symm.trans h.row)
      obtain hfirst | hfirst := hfirst
      · exact (h.closed _ hfirst).2 rfl
      · exact (h.closed _ hfirst).2 rfl
    | refused h => exact absurd h.first hnone

end Quail.Server
