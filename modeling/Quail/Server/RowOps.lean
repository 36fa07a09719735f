import Quail.Server.Scheduler

/-!
# The operations on one record

What `update`, `finish` and `begin` do to a record, for the execution that holds its epoch, and what every
other caller of the store can do to it (`Touched`).
-/

set_option linter.unusedSectionVars false

namespace Quail.Server
open Imperative

variable {δ : Type} {id : String} {store : Store Payload δ} {r r' : Record Payload δ} {epoch : ℕ}
  {time : ℚ}

/-! ## The operations on one record -/

section Operations

variable [DecidableEq δ]

lemma updateWhere_changes {condition : Record Payload δ → Bool}
    {change : Record Payload δ → Record Payload δ} (hr : store.get? id = some r)
    (hcondition : condition r = true) :
    perform (updateWhere id condition change) store = (.ok 1, store.set id (change r)) := by
  refine perform_ok ?_
  rw [wp_updateWhere]
  refine ⟨fun r' hr' _ => ?_, fun hno => ?_⟩
  · obtain rfl := Option.some.inj (hr.symm.trans hr')
    exact ⟨rfl, rfl⟩
  · have hfalse := hno r hr
    rw [hcondition] at hfalse
    cases hfalse

lemma updateWhere_leaves {condition : Record Payload δ → Bool}
    {change : Record Payload δ → Record Payload δ} (hr : store.get? id = some r)
    (hcondition : condition r = false) :
    perform (updateWhere id condition change) store = (.ok 0, store) := by
  refine perform_ok ?_
  rw [wp_updateWhere]
  refine ⟨fun r' hr' htrue => ?_, fun _ => ⟨rfl, rfl⟩⟩
  obtain rfl := Option.some.inj (hr.symm.trans hr')
  rw [hcondition] at htrue
  cases htrue

lemma perform_getRecord (hr : store.get? id = some r) :
    perform (getRecord id) store = (.ok r, store) := by
  refine perform_ok ?_
  rw [wp_getRecord]
  refine ⟨fun r' hr' => ⟨Option.some.inj (hr'.symm.trans hr), rfl⟩, fun hnone => ?_⟩
  rw [hr] at hnone
  cases hnone

/-- An executing record is updated; its progress changes if one is given. -/
lemma update_executing (state : Option State) (phase progress plan : Option Payload) (time : ℚ)
    (hr : store.get? id = some r) (hexec : executing epoch r = true)
    (hstate : ∀ st ∈ state, st.active = true) :
    ∃ r', perform (Server.update id epoch state phase progress plan time) store =
        (.ok true, store.set id r') ∧ r'.executionEpoch = r.executionEpoch ∧ r'.state.active = true ∧
      r'.progress = (progress.map Info.given).or r.progress := by
  have hopen : r.state.active = true := (Bool.and_eq_true_iff.1 hexec).2
  refine ⟨{ r with
    revision := r.revision + 1
    updatedAt := time
    state := state.getD r.state
    phase := (phase.map Info.given).or r.phase
    progress := (progress.map Info.given).or r.progress
    plan := (plan.map Info.given).or r.plan }, ?_, rfl, ?_, rfl⟩
  · unfold Server.update
    cases state with
    | none =>
      exact (perform_bind (updateWhere_changes hr hexec)).trans rfl
    | some state =>
      dsimp only
      rw [if_neg (by rw [hstate state rfl]; decide)]
      exact (perform_bind (updateWhere_changes hr hexec)).trans rfl
  · cases state with
    | none => exact hopen
    | some state => exact hstate state rfl

/-- Any other update leaves the store. -/
lemma update_leaves (state : Option State) (phase progress plan : Option Payload) (time : ℚ)
    (hr : store.get? id = some r)
    (h : executing epoch r = false ∨ ∃ st ∈ state, st.active = false) :
    ∃ result, perform (Server.update id epoch state phase progress plan time) store = (result, store) := by
  unfold Server.update
  cases state with
  | none =>
    obtain hstale | ⟨st, hst, -⟩ := h
    · exact ⟨.ok false, (perform_bind (updateWhere_leaves hr hstale)).trans rfl⟩
    · cases hst
  | some state =>
    cases hactive : state.active with
    | false =>
      dsimp only
      rw [if_pos hactive]
      exact ⟨_, rfl⟩
    | true =>
      obtain hstale | ⟨st, hst, hinactive⟩ := h
      · dsimp only
        rw [if_neg (by rw [hactive]; decide)]
        exact ⟨.ok false, (perform_bind (updateWhere_leaves hr hstale)).trans rfl⟩
      · obtain rfl := Option.some.inj hst
        rw [hactive] at hinactive
        cases hinactive

/-- An executing record is closed. -/
lemma finish_executing {state : State} (error result : Option Payload) (time : ℚ) (hr : store.get? id = some r)
    (hexec : executing epoch r = true) (hstate : state.terminal = true)
    (hresult : state = .succeeded → result.isSome = true) :
    ∃ r', perform (Server.finish id epoch state error result time) store =
        (.ok true, store.set id r') ∧ r'.executionEpoch = r.executionEpoch ∧ r'.state = state ∧
      r'.progress = r.progress := by
  refine ⟨{ r with
    state
    error := error.map Info.given
    result := result.map Info.given
    phase := some (.phase state.name (finishMessage state) time)
    revision := r.revision + 1
    updatedAt := time }, ?_, rfl, rfl, rfl⟩
  unfold Server.finish
  rw [if_neg (by rw [hstate]; decide), if_neg ?_]
  · exact (perform_bind (updateWhere_changes hr hexec)).trans rfl
  · rintro ⟨hsucceeded, hnone⟩
    have hsome := hresult hsucceeded
    rw [Option.isNone_iff_eq_none.1 hnone] at hsome
    cases hsome

/-- A record that is not executing is not closed again. -/
lemma finish_leaves {state : State} (error result : Option Payload) (time : ℚ) (hr : store.get? id = some r)
    (hstale : executing epoch r = false) (hstate : state.terminal = true)
    (hresult : state = .succeeded → result.isSome = true) :
    perform (Server.finish id epoch state error result time) store = (.ok false, store) := by
  unfold Server.finish
  rw [if_neg (by rw [hstate]; decide), if_neg ?_]
  · exact (perform_bind (updateWhere_leaves hr hstale)).trans rfl
  · rintro ⟨hsucceeded, hnone⟩
    have hsome := hresult hsucceeded
    rw [Option.isNone_iff_eq_none.1 hnone] at hsome
    cases hsome

lemma begin_queued (time : ℚ) (hr : store.get? id = some r) (hqueued : r.state = .queued) :
    ∃ r', perform (Server.begin id time) store = (.ok (r.executionEpoch + 1), store.set id r') ∧
      r'.executionEpoch = r.executionEpoch + 1 ∧ r'.state = .planning := by
  refine ⟨{ r with
    state := .planning
    executionEpoch := r.executionEpoch + 1
    startedAt := some time
    phase := some (.phase "resolving_inputs" "Resolving and preparing inputs" time)
    revision := r.revision + 1
    updatedAt := time }, ?_, rfl, rfl⟩
  unfold Server.begin
  refine (perform_bind (perform_getRecord hr)).trans ?_
  rw [if_neg (not_not.2 hqueued)]
  exact (perform_bind (perform_discard (updateWhere_changes hr (decide_eq_true hqueued)))).trans rfl

lemma begin_refused (time : ℚ) (hr : store.get? id = some r) (hqueued : r.state ≠ .queued) :
    ∃ text, perform (Server.begin id time) store = (.error (.invalidRequest text), store) := by
  unfold Server.begin
  rw [perform_bind (perform_getRecord hr), if_pos hqueued]
  exact ⟨_, rfl⟩

/-! ## Other callers -/

/-- What another caller may do to the record: cancel it while it is queued, or ask a started one to
stop. -/
inductive Touched (r : Record Payload δ) : Record Payload δ → Prop where
  | same : Touched r r
  | cancelled {r' : Record Payload δ} (hqueued : r.state = .queued) (h : r'.state = .cancelled) :
      Touched r r'
  | asked {r' : Record Payload δ} (hactive : r.state.active = true) (hstate : r'.state = r.state)
      (hepoch : r'.executionEpoch = r.executionEpoch) (hprogress : r'.progress = r.progress) :
      Touched r r'

/-- The record stays as it is. -/
def KeepsRow (id : String) {α : Type} (m : StoreOp Payload δ α) : Prop :=
  ∀ row : Option (Record Payload δ), Preserves (fun s => s.get? id = row) m

variable {id' : String}

lemma keepsRow_updateWhere {condition : Record Payload δ → Bool}
    {change : Record Payload δ → Record Payload δ} (hne : id' ≠ id) :
    KeepsRow id (updateWhere id' condition change) := by
  intro row s hs
  rw [wp_updateWhere]
  exact ⟨fun r _ _ => (Dict.get?_set_ne hne).trans hs, fun _ => hs⟩

lemma keepsRow_getRecord : KeepsRow id (getRecord id' : StoreOp Payload δ (Record Payload δ)) := by
  intro row s hs
  rw [wp_getRecord]
  exact ⟨fun _ _ => hs, fun _ => hs⟩

lemma keepsRow_begin (hne : id' ≠ id) : KeepsRow id (Server.begin id' time : StoreOp Payload δ ℕ) := by
  intro row
  refine (keepsRow_getRecord row).bind fun r => ?_
  refine .ite (preserves_throw.bind fun _ => ?_) ?_
  all_goals exact (keepsRow_updateWhere hne row).discard.bind fun _ => preserves_pure

lemma keepsRow_update {state : Option State} {phase progress plan : Option Payload} (hne : id' ≠ id) :
    KeepsRow id (Server.update id' epoch state phase progress plan time : StoreOp Payload δ Bool) := by
  intro row
  cases state with
  | none => exact (keepsRow_updateWhere hne row).bind fun _ => preserves_pure
  | some state =>
    refine .ite (preserves_throw.bind fun _ => ?_) ?_
    all_goals exact (keepsRow_updateWhere hne row).bind fun _ => preserves_pure

lemma keepsRow_finish {state : State} {error result : Option Payload} (hne : id' ≠ id) :
    KeepsRow id (Server.finish id' epoch state error result time : StoreOp Payload δ Bool) := by
  intro row
  refine .ite (preserves_throw.bind fun _ => .ite (preserves_throw.bind fun _ => ?_) ?_)
    (.ite (preserves_throw.bind fun _ => ?_) ?_)
  all_goals exact (keepsRow_updateWhere hne row).bind fun _ => preserves_pure

lemma keepsRow_requestCancel (hne : id' ≠ id) :
    KeepsRow id (requestCancel id' time : StoreOp Payload δ (Record Payload δ)) := by
  intro row
  refine (keepsRow_getRecord row).bind fun r => .ite ?_ (.ite ?_ (keepsRow_getRecord row))
  all_goals exact (keepsRow_updateWhere hne row).discard.bind fun _ => keepsRow_getRecord row

lemma keepsRow_discardRecord (hne : id' ≠ id) :
    KeepsRow id (discardRecord id' time : StoreOp Payload δ Bool) := by
  intro row s hs
  have hcancel : ∀ s' : Store Payload δ, s'.get? id = row → wp (Functor.discard (requestCancel id' time))
      (fun _ s'' => s''.get? id = row) (fun _ s'' => s''.get? id = row) s' :=
    fun s' hs' => (keepsRow_requestCancel hne row).discard s' hs'
  unfold discardRecord
  rw [wp_bind, wp_get]
  cases s.get? id' with
  | none =>
    simp only [wp_bind, wp_pure, wp_ite]
    exact ⟨fun _ => hs, fun _ => hcancel s hs⟩
  | some r =>
    simp only [wp_bind, wp_pure, wp_ite, wp_modify]
    exact ⟨fun _ => ⟨fun _ => hs, fun _ => hcancel s hs⟩, fun _ =>
      ⟨fun _ => (Dict.get?_erase_ne hne).trans hs, fun _ => hcancel _ ((Dict.get?_erase_ne hne).trans hs)⟩⟩

lemma create_keeps {specHash : Payload → Payload → Payload → ℚ → δ} {spec config inputs : Payload}
    {timeout : ℚ} {queryId : Option String} {fresh : String} {sessionId : Option String}
    (hfresh : validQueryId fresh = true) (hr : store.get? id = some r) :
    wp (create specHash spec config inputs timeout queryId fresh sessionId time)
      (fun _ s' => s'.get? id = some r) (fun _ s' => s'.get? id = some r) store := by
  unfold create
  simp only [wp_bind, wp_ite, wp_throw]
  refine ⟨fun _ => hr, fun _ => ?_⟩
  refine wp_mono (chosenId_spec hfresh) ?_ fun _ _ h => h.1 ▸ hr
  intro id' s' hchosen
  obtain ⟨hs, -, -⟩ := hchosen
  subst s'
  rw [wp_bind, wp_get]
  cases hget : store.get? id' with
  | some r' =>
    simp only [wp_bind, wp_ite, wp_throw, wp_pure]
    exact ⟨fun _ => hr, fun _ => hr⟩
  | none =>
    have hne : id' ≠ id := by
      rintro rfl
      rw [hget] at hr
      cases hr
    simp only [wp_bind, wp_modify, wp_getRecord]
    exact ⟨fun _ _ => (Dict.get?_set_ne hne).trans hr, fun _ => (Dict.get?_set_ne hne).trans hr⟩

lemma requestCancel_touches (hr : store.get? id = some r) :
    wp (requestCancel id time) (fun _ s' => ∃ r', s'.get? id = some r' ∧ Touched r r')
      (fun _ s' => ∃ r', s'.get? id = some r' ∧ Touched r r') store := by
  have hread : ∀ (s' : Store Payload δ) (r' : Record Payload δ), s'.get? id = some r' → Touched r r' →
      wp (getRecord id) (fun _ s' => ∃ r', s'.get? id = some r' ∧ Touched r r')
        (fun _ s' => ∃ r', s'.get? id = some r' ∧ Touched r r') s' := by
    intro s' r' hr' ht
    rw [wp_getRecord]
    exact ⟨fun _ _ => ⟨r', hr', ht⟩, fun _ => ⟨r', hr', ht⟩⟩
  unfold requestCancel
  rw [wp_bind, wp_getRecord]
  refine ⟨fun r₀ hr₀ => ?_, fun hnone => ?_⟩
  · obtain rfl := Option.some.inj (hr.symm.trans hr₀)
    dsimp only
    rw [wp_ite]
    refine ⟨fun hqueued => ?_, fun _ => ?_⟩
    · rw [wp_bind, wp_discard, wp_updateWhere]
      refine ⟨fun r' hr' _ => ?_, fun _ => hread _ r hr .same⟩
      exact hread _ _ Dict.get?_set_self (.cancelled hqueued rfl)
    · rw [wp_ite]
      refine ⟨fun hactive => ?_, fun _ => hread _ r hr .same⟩
      rw [wp_bind, wp_discard, wp_updateWhere]
      refine ⟨fun r' hr' _ => ?_, fun _ => hread _ r hr .same⟩
      obtain rfl := Option.some.inj (hr.symm.trans hr')
      exact hread _ _ Dict.get?_set_self (.asked hactive.1 rfl rfl rfl)
  · rw [hr] at hnone
    cases hnone

lemma foreign_touches (specHash : Payload → Payload → Payload → ℚ → δ) {task : Task}
    {call : Call Payload} (hr : store.get? task.id = some r)
    (hforeign : Execution.foreign task call = true) :
    ∃ r', (call.step specHash store).get? task.id = some r' ∧ Touched r r' := by
  have hkept : ∀ {α : Type} {m : StoreOp Payload δ α}, KeepsRow task.id m →
      ∃ r', (final (Functor.discard m) store).get? task.id = some r' ∧ Touched r r' := by
    intro α m hm
    refine ⟨r, ?_, .same⟩
    exact final_of_wp ((hm (some r)).discard store hr)
  cases call with
  | create spec config inputs timeout queryId fresh sessionId now =>
    refine ⟨r, ?_, .same⟩
    refine final_of_wp (P := fun s' : Store Payload δ => s'.get? task.id = some r) ?_
    rw [Call.perform, wp_discard]
    exact create_keeps fresh.2 hr
  | requestCancel id now =>
    by_cases hid : id = task.id
    · subst hid
      refine final_of_wp (P := fun s' : Store Payload δ => ∃ r', s'.get? task.id = some r' ∧ Touched r r') ?_
      rw [Call.perform, wp_discard]
      exact requestCancel_touches hr
    · exact hkept (keepsRow_requestCancel hid)
  | begin id now => exact hkept (keepsRow_begin (of_decide_eq_true hforeign))
  | update id epoch state phase progress plan now =>
    exact hkept (keepsRow_update (of_decide_eq_true hforeign))
  | finish id epoch state error result now => exact hkept (keepsRow_finish (of_decide_eq_true hforeign))
  | discard id now => exact hkept (keepsRow_discardRecord (of_decide_eq_true hforeign))
  | recover now => cases hforeign

end Operations

end Quail.Server
