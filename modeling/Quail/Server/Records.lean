import Quail.Server.Store

/-!
# Revisions, terminal states and epochs

What every call of the store does to each record (`Writes`): nothing, a change with a higher revision of
a record that is not terminal, the insertion of a new record, or the deletion of a queued one. Over runs
this gives `records_kept`.
-/

set_option linter.unusedSectionVars false

namespace Quail.Server
open Imperative

variable {ν δ : Type} [DecidableEq δ] {s s' s'' : Store ν δ} {id : String} {r r' : Record ν δ}
  {specHash : ν → ν → ν → ℚ → δ}

/-! ## Programs of the store -/

@[simp] lemma wp_getRecord {Q : Record ν δ → Store ν δ → Prop} {E : ServerError → Store ν δ → Prop} :
    wp (getRecord id) Q E s ↔ (∀ r, s.get? id = some r → Q r s) ∧
      (s.get? id = none → E (.unknownQuery s!"unknown query {quoted id}") s) := by
  unfold getRecord
  rw [wp_bind, wp_get]
  cases s.get? id with
  | none => simp
  | some r => simp

@[simp] lemma wp_checkQueryId {Q : String → Store ν δ → Prop} {E : ServerError → Store ν δ → Prop} :
    wp (checkQueryId id) Q E s ↔ (validQueryId id = false → E (.invalidRequest
      (s!"query id {quoted id} must be 1 to 128 letters, digits, or " ++
        "'.', '_', ':', '-', and start with a letter or digit")) s) ∧
      (validQueryId id = true → Q id s) := by
  unfold checkQueryId
  simp only [wp_bind, wp_ite, wp_throw, wp_pure, Bool.not_eq_false]

@[simp] lemma wp_updateWhere {condition : Record ν δ → Bool} {change : Record ν δ → Record ν δ}
    {Q : ℕ → Store ν δ → Prop} {E : ServerError → Store ν δ → Prop} :
    wp (updateWhere id condition change) Q E s ↔
      (∀ r, s.get? id = some r → condition r = true → Q 1 (s.set id (change r))) ∧
      ((∀ r, s.get? id = some r → condition r = false) → Q 0 s) := by
  unfold updateWhere
  rw [wp_bind, wp_get]
  cases s.get? id with
  | none => simp
  | some r =>
    simp only [wp_ite, wp_pure, wp_bind, wp_modify, Option.some.injEq, forall_eq', Bool.not_eq_false]
    exact and_comm

/-! ## What a call does to a record -/

/-- A change of a record: a higher revision, of a record that is not terminal, for the same
specification. -/
structure Changed (r r' : Record ν δ) : Prop where
  revision : r.revision < r'.revision
  open_ : r.state.terminal = false
  specHash : r'.specHash = r.specHash
  spec : r'.spec = r.spec
  config : r'.config = r.config
  inputs : r'.inputs = r.inputs
  timeout : r'.timeout = r.timeout

/-- The record carries the hash of its own specification, and can be asked for again. -/
structure Filed (specHash : ν → ν → ν → ℚ → δ) (id : String) (r : Record ν δ) : Prop where
  hash : r.specHash = specHash r.spec r.config r.inputs r.timeout
  timeout : 0 < r.timeout
  id : validQueryId id = true

lemma Filed.changed (h : Filed specHash id r) (hc : Changed r r') : Filed specHash id r' where
  hash := by rw [hc.specHash, hc.spec, hc.config, hc.inputs, hc.timeout, h.hash]
  timeout := hc.timeout ▸ h.timeout
  id := h.id

/-- What a call does to one row. -/
inductive RowStep (specHash : ν → ν → ν → ℚ → δ) (id : String) :
    Option (Record ν δ) → Option (Record ν δ) → Prop where
  | same {row : Option (Record ν δ)} : RowStep specHash id row row
  | change {r r' : Record ν δ} (h : Changed r r') : RowStep specHash id (some r) (some r')
  | insert {r : Record ν δ} (h : Filed specHash id r) : RowStep specHash id none (some r)
  | delete {r : Record ν δ} (h : r.state = .queued) : RowStep specHash id (some r) none

/-- What a call does to the rows. -/
def Writes (specHash : ν → ν → ν → ℚ → δ) (s s' : Store ν δ) : Prop :=
  ∀ id, RowStep specHash id (s.get? id) (s'.get? id)

lemma Writes.refl : Writes specHash s s := fun _ => .same

lemma Writes.set (hr : s.get? id = some r) (h : Changed r r') : Writes specHash s (s.set id r') := by
  intro id'
  rw [Dict.get?_set]
  split_ifs with hid
  · rw [← hid, hr]
    exact .change h
  · exact .same

lemma Writes.insert (hr : s.get? id = none) (h : Filed specHash id r) :
    Writes specHash s (s.set id r) := by
  intro id'
  rw [Dict.get?_set]
  split_ifs with hid
  · rw [← hid, hr]
    exact .insert (hid ▸ h)
  · exact .same

lemma Writes.erase (hr : s.get? id = some r) (h : r.state = .queued) :
    Writes specHash s (s.erase id) := by
  intro id'
  rw [Dict.get?_erase]
  split_ifs with hid
  · rw [← hid, hr]
    exact .delete h
  · exact .same

/-! ## The calls -/

lemma chosenId_spec {queryId : Option String} {fresh : String} (hfresh : validQueryId fresh = true) :
    wp (chosenId queryId fresh) (fun id s' => s' = s ∧ id = queryId.getD fresh ∧ validQueryId id = true)
      (fun _ s' => s' = s ∧ validQueryId (queryId.getD fresh) = false) s := by
  unfold chosenId
  cases queryId with
  | none => exact ⟨rfl, rfl, hfresh⟩
  | some id =>
    rw [wp_checkQueryId]
    exact ⟨fun hid => ⟨rfl, hid⟩, fun hid => ⟨rfl, rfl, hid⟩⟩

/-- How `create` ends: the record that was there, or a new one. -/
lemma create_spec {spec config inputs : ν} {timeout : ℚ} {queryId : Option String} {fresh : String}
    {sessionId : Option String} {now : ℚ} (hfresh : validQueryId fresh = true) :
    wp (create specHash spec config inputs timeout queryId fresh sessionId now)
      (fun r s' => match s.get? (queryId.getD fresh) with
        | some r' => r = r' ∧ s' = s ∧ r'.specHash = specHash spec config inputs timeout
        | none => Writes specHash s s')
      (fun _ s' => s' = s ∧ (timeout ≤ 0 ∨ validQueryId (queryId.getD fresh) = false ∨
        ∃ r', s.get? (queryId.getD fresh) = some r' ∧
          r'.specHash ≠ specHash spec config inputs timeout)) s := by
  unfold create
  simp only [wp_bind, wp_ite, wp_throw]
  refine ⟨fun htimeout => ⟨trivial, .inl htimeout⟩, fun htimeout => ?_⟩
  refine wp_mono (chosenId_spec hfresh) ?_ fun _ _ h => ⟨h.1, .inr (.inl h.2)⟩
  rintro id s' ⟨hs, hname, hid⟩
  subst s'
  rw [← hname, wp_bind, wp_get]
  cases hr : s.get? id with
  | some r =>
    simp only [wp_bind, wp_ite, wp_throw, wp_pure]
    exact ⟨fun hne => ⟨trivial, .inr (.inr ⟨r, rfl, hne⟩)⟩, fun heq => ⟨trivial, trivial, not_not.1 heq⟩⟩
  | none =>
    simp only [wp_bind, wp_modify, wp_getRecord, Dict.get?_set, if_pos]
    refine ⟨fun r _ => .insert hr ⟨rfl, not_le.1 htimeout, hid⟩, fun hnone => ?_⟩
    cases hnone

lemma create_writes {spec config inputs : ν} {timeout : ℚ} {queryId : Option String} {fresh : String}
    {sessionId : Option String} {now : ℚ} (hfresh : validQueryId fresh = true) :
    wp (create specHash spec config inputs timeout queryId fresh sessionId now)
      (fun _ s' => Writes specHash s s') (fun _ s' => Writes specHash s s') s := by
  refine wp_mono (create_spec hfresh) ?_ fun _ _ h => h.1 ▸ .refl
  intro r s' h
  cases hr : s.get? (queryId.getD fresh) with
  | none =>
    rw [hr] at h
    exact h
  | some r' =>
    rw [hr] at h
    exact h.2.1 ▸ .refl

lemma active_open (h : r.state.active = true) : r.state.terminal = false := by
  cases hstate : r.state <;> rw [hstate] at h <;> first | rfl | cases h

lemma getRecord_writes (h : Writes specHash s s') :
    wp (getRecord id) (fun _ s' => Writes specHash s s') (fun _ s' => Writes specHash s s') s' := by
  rw [wp_getRecord]
  exact ⟨fun _ _ => h, fun _ => h⟩

lemma requestCancel_writes {now : ℚ} :
    wp (requestCancel id now) (fun _ s' => Writes specHash s s') (fun _ s' => Writes specHash s s') s := by
  unfold requestCancel
  rw [wp_bind, wp_getRecord]
  refine ⟨fun r hr => ?_, fun _ => .refl⟩
  dsimp only
  rw [wp_ite]
  refine ⟨fun hqueued => ?_, fun _ => ?_⟩
  · rw [wp_bind, wp_discard, wp_updateWhere]
    refine ⟨fun r' hr' hcond => getRecord_writes ?_, fun _ => getRecord_writes .refl⟩
    refine .set hr' ⟨Nat.lt_succ_self _, ?_, rfl, rfl, rfl, rfl, rfl⟩
    rw [of_decide_eq_true hcond]
    rfl
  · rw [wp_ite]
    refine ⟨?_, fun _ => getRecord_writes .refl⟩
    rintro ⟨hactive, -⟩
    rw [wp_bind, wp_discard, wp_updateWhere]
    refine ⟨fun r' hr' _ => getRecord_writes ?_, fun _ => getRecord_writes .refl⟩
    obtain rfl := Option.some.inj (hr.symm.trans hr')
    exact .set hr' ⟨Nat.lt_succ_self _, active_open hactive, rfl, rfl, rfl, rfl, rfl⟩

lemma discardRecord_writes {now : ℚ} :
    wp (discardRecord id now) (fun _ s' => Writes specHash s s') (fun _ s' => Writes specHash s s') s := by
  unfold discardRecord
  rw [wp_bind, wp_get]
  cases hr : s.get? id with
  | none =>
    simp only [wp_bind, wp_pure, wp_ite, wp_discard]
    exact ⟨fun h => absurd h (by decide), fun _ => wp_mono requestCancel_writes (fun _ _ h => h)
      fun _ _ h => h⟩
  | some r =>
    simp only [wp_bind, wp_pure, wp_ite, wp_discard, wp_modify]
    refine ⟨fun _ => ⟨fun h => absurd h (by decide), fun _ => wp_mono requestCancel_writes
      (fun _ _ h => h) fun _ _ h => h⟩, fun hqueued => ⟨fun _ => .erase hr (not_not.1 hqueued), fun h =>
      absurd trivial h⟩⟩

lemma begin_writes {now : ℚ} :
    wp (begin id now) (fun _ s' => Writes specHash s s') (fun _ s' => Writes specHash s s') s := by
  unfold Server.begin
  simp only [wp_bind, wp_getRecord, wp_ite, wp_throw, wp_discard, wp_updateWhere, wp_pure]
  refine ⟨fun r hr => ⟨fun _ => .refl, fun _ => ⟨fun r' hr' hcond => ?_, fun _ => .refl⟩⟩, fun _ => .refl⟩
  refine .set hr' ⟨Nat.lt_succ_self _, ?_, rfl, rfl, rfl, rfl, rfl⟩
  rw [of_decide_eq_true hcond]
  rfl

lemma executing_open {epoch : ℕ} (h : executing epoch r = true) : r.state.terminal = false :=
  active_open (Bool.and_eq_true_iff.1 h).2

/-- How `update` ends: the record of the epoch being executed changes, or nothing does. -/
lemma update_spec (specHash : ν → ν → ν → ℚ → δ) {epoch : ℕ} {state : Option State} {phase progress plan : Option ν} {now : ℚ} :
    wp (update id epoch state phase progress plan now)
      (fun updated s' => Writes specHash s s' ∧
        ((∀ r, s.get? id = some r → executing epoch r = false) → updated = false ∧ s' = s))
      (fun _ s' => s' = s) s := by
  have hwrite : wp (do
      let count ← updateWhere id (executing epoch) fun r => { r with
        revision := r.revision + 1
        updatedAt := now
        state := state.getD r.state
        phase := (phase.map Info.given).or r.phase
        progress := (progress.map Info.given).or r.progress
        plan := (plan.map Info.given).or r.plan }
      return count == 1 : StoreOp ν δ Bool)
      (fun updated s' => Writes specHash s s' ∧
        ((∀ r, s.get? id = some r → executing epoch r = false) → updated = false ∧ s' = s))
      (fun _ s' => s' = s) s := by
    simp only [wp_bind, wp_updateWhere, wp_pure]
    refine ⟨fun r hr hexec => ⟨.set hr ⟨Nat.lt_succ_self _, executing_open hexec, rfl, rfl, rfl, rfl, rfl⟩,
      fun hno => ?_⟩, fun _ => ⟨.refl, fun _ => ⟨rfl, trivial⟩⟩⟩
    rw [hno r hr] at hexec
    cases hexec
  unfold Server.update
  cases state with
  | none => exact hwrite
  | some state =>
    simp only [wp_bind, wp_ite, wp_throw] at hwrite ⊢
    exact ⟨fun _ => trivial, fun _ => hwrite⟩

lemma finish_spec (specHash : ν → ν → ν → ℚ → δ) {epoch : ℕ} {state : State} {error result : Option ν} {now : ℚ} :
    wp (finish id epoch state error result now)
      (fun closed s' => Writes specHash s s' ∧
        ((∀ r, s.get? id = some r → executing epoch r = false) → closed = false ∧ s' = s))
      (fun _ s' => s' = s) s := by
  unfold Server.finish
  simp only [wp_bind, wp_ite, wp_throw, wp_updateWhere, wp_pure]
  refine ⟨fun _ => trivial, fun _ => ⟨fun _ => trivial, fun _ => ⟨fun r hr hexec => ?_, fun _ =>
    ⟨.refl, fun _ => ⟨rfl, trivial⟩⟩⟩⟩⟩
  refine ⟨.set hr ⟨Nat.lt_succ_self _, executing_open hexec, rfl, rfl, rfl, rfl, rfl⟩, fun hno => ?_⟩
  rw [hno r hr] at hexec
  cases hexec

/-- Each id is recovered once, while its record is active. -/
lemma recoverEach_writes {now : String → ℚ} {ids : List String} (hnodup : ids.Nodup)
    (hactive : ∀ id ∈ ids, ∃ r, s.get? id = some r ∧ r.state.active = true) :
    wp (recoverEach now ids)
      (fun _ s' => Writes specHash s s' ∧ ∀ id, id ∉ ids → s'.get? id = s.get? id)
      (fun _ _ => False) s := by
  induction ids generalizing s with
  | nil => exact ⟨.refl, fun _ _ => rfl⟩
  | cons id ids ih =>
    obtain ⟨hid, hnodup⟩ := List.nodup_cons.1 hnodup
    obtain ⟨r, hr, hstate⟩ := hactive id List.mem_cons_self
    rw [recoverEach, wp_bind, wp_discard, wp_updateWhere]
    refine ⟨fun r' hr' _ => ?_, fun hno => nomatch hno r hr⟩
    obtain rfl := Option.some.inj (hr.symm.trans hr')
    have hother : ∀ {r' : Record ν δ} id', id' ∈ ids → (s.set id r').get? id' = s.get? id' :=
      fun id' hin => Dict.get?_set_ne fun heq => hid (heq ▸ hin)
    refine wp_mono (ih hnodup fun id' hin => ?_) ?_ fun _ _ h => h
    · rw [hother id' hin]
      exact hactive id' (List.mem_cons_of_mem _ hin)
    · rintro _ s' ⟨hwrites, hsame⟩
      refine ⟨fun id' => ?_, fun id' hin => ?_⟩
      · by_cases heq : id = id'
        · subst heq
          rw [hsame id hid, hr, Dict.get?_set, if_pos rfl]
          exact .change ⟨Nat.lt_succ_self _, active_open hstate, rfl, rfl, rfl, rfl, rfl⟩
        · have hrow := hwrites id'
          rwa [Dict.get?_set_ne heq] at hrow
      · obtain ⟨hne, hin⟩ := not_or.1 (List.mem_cons.not.1 hin)
        rw [hsame id' hin, Dict.get?_set_ne (Ne.symm hne)]

lemma recover_writes {now : String → ℚ} :
    wp (recover now) (fun _ s' => Writes specHash s s') (fun _ s' => Writes specHash s s') s := by
  unfold recover
  rw [wp_bind, wp_get]
  dsimp only
  rw [wp_bind]
  refine wp_mono (recoverEach_writes ?_ fun id hid => ?_) (fun _ _ h => h.1) fun _ _ h => h.elim
  · exact s.nodup.sublist (List.filter_sublist.map _)
  · obtain ⟨e, he, rfl⟩ := List.mem_map.1 hid
    obtain ⟨he, hactive⟩ := List.mem_filter.1 he
    exact ⟨e.2, Dict.mem_entries_iff.1 he, hactive⟩

/-- Every call does one of the row steps to each record. -/
lemma step_writes {c : Call ν} : Writes specHash s (c.step specHash s) := by
  refine final_of_wp ?_
  cases c with
  | create spec config inputs timeout queryId fresh sessionId now =>
    rw [Call.perform, wp_discard]
    exact create_writes fresh.2
  | begin id now =>
    rw [Call.perform, wp_discard]
    exact begin_writes
  | update id epoch state phase progress plan now =>
    rw [Call.perform, wp_discard]
    exact wp_mono (update_spec specHash) (fun _ _ h => h.1) fun _ _ hs => hs ▸ .refl
  | finish id epoch state error result now =>
    rw [Call.perform, wp_discard]
    exact wp_mono (finish_spec specHash) (fun _ _ h => h.1) fun _ _ hs => hs ▸ .refl
  | requestCancel id now =>
    rw [Call.perform, wp_discard]
    exact requestCancel_writes
  | discard id now =>
    rw [Call.perform, wp_discard]
    exact discardRecord_writes
  | recover now =>
    rw [Call.perform, wp_discard]
    exact recover_writes

/-! ## Runs -/

/-- The store after calls. -/
def after (specHash : ν → ν → ν → ℚ → δ) (s : Store ν δ) (calls : List (Call ν)) : Store ν δ :=
  run (Call.step specHash) s calls

/-- The record is there after each of the calls. -/
def Stays (specHash : ν → ν → ν → ℚ → δ) (id : String) (s : Store ν δ) (calls : List (Call ν)) : Prop :=
  EachStep (Call.step specHash) (fun s c => (c.step specHash s).contains id = true) s calls

/-- Every record was filed. -/
lemma after_filed {calls : List (Call ν)} (h : ∀ id r, s.get? id = some r → Filed specHash id r) :
    ∀ id r, (after specHash s calls).get? id = some r → Filed specHash id r := by
  induction calls generalizing s with
  | nil => exact h
  | cons c calls ih =>
    refine ih fun id r hr => ?_
    have hstep : RowStep specHash id (s.get? id) ((c.step specHash s).get? id) := step_writes id
    cases hrow : s.get? id with
    | none =>
      rw [hrow, hr] at hstep
      cases hstep with
      | insert hf => exact hf
    | some r₀ =>
      rw [hrow, hr] at hstep
      cases hstep with
      | same => exact h id r hrow
      | change hc => exact (h id r₀ hrow).changed hc

/-- A terminal record never changes. -/
lemma after_terminal {calls : List (Call ν)} (hr : s.get? id = some r) (h : r.state.terminal = true) :
    (after specHash s calls).get? id = some r := by
  induction calls generalizing s with
  | nil => exact hr
  | cons c calls ih =>
    have hstep : RowStep specHash id (s.get? id) ((c.step specHash s).get? id) := step_writes id
    refine ih ?_
    rw [hr] at hstep
    generalize (c.step specHash s).get? id = row at hstep ⊢
    cases hstep with
    | same => rfl
    | change hc =>
      rw [hc.open_] at h
      cases h
    | delete hqueued =>
      rw [hqueued] at h
      cases h

/-- While a record is there its revision grows with every change. -/
lemma after_revision {calls : List (Call ν)} (hr : s.get? id = some r) (hstays : Stays specHash id s calls)
    (hr' : (after specHash s calls).get? id = some r') : r' = r ∨ r.revision < r'.revision := by
  induction calls generalizing s r with
  | nil => exact .inl (Option.some.inj (hr'.symm.trans hr))
  | cons c calls ih =>
    obtain ⟨hthere, hstays⟩ := hstays
    obtain ⟨r₁, hr₁⟩ := Dict.contains_iff.1 hthere
    have hstep : RowStep specHash id (s.get? id) ((c.step specHash s).get? id) := step_writes id
    have hrest := ih hr₁ hstays hr'
    rw [hr, hr₁] at hstep
    cases hstep with
    | same => exact hrest
    | change hc =>
      obtain rfl | hlt := hrest
      · exact .inr hc.revision
      · exact .inr (hc.revision.trans hlt)

/-- What the store promises about a record. -/
structure RecordKept (specHash : ν → ν → ν → ℚ → δ) (s : Store ν δ) (id : String) (r : Record ν δ) :
    Prop where
  revision : ∀ calls r', Stays specHash id s calls → (after specHash s calls).get? id = some r' →
    r' = r ∨ r.revision < r'.revision
  terminal : r.state.terminal = true → ∀ calls, (after specHash s calls).get? id = some r
  staleUpdate : ∀ epoch state phase progress plan now,
    epoch ≠ r.executionEpoch ∨ r.state.active = false →
    wp (update id epoch state phase progress plan now) (fun updated s' => updated = false ∧ s' = s)
      (fun _ s' => s' = s) s
  staleFinish : ∀ epoch state error result now, epoch ≠ r.executionEpoch ∨ r.state.active = false →
    wp (finish id epoch state error result now) (fun closed s' => closed = false ∧ s' = s)
      (fun _ s' => s' = s) s
  createSame : ∀ queryId fresh sessionId now, validQueryId fresh = true → queryId.getD fresh = id →
    wp (create specHash r.spec r.config r.inputs r.timeout queryId fresh sessionId now)
      (fun r' s' => r' = r ∧ s' = s) (fun _ _ => False) s
  createOther : ∀ spec config inputs timeout queryId fresh sessionId now, validQueryId fresh = true →
    queryId.getD fresh = id →
    (spec, config, inputs, timeout) ≠ (r.spec, r.config, r.inputs, r.timeout) →
    wp (create specHash spec config inputs timeout queryId fresh sessionId now) (fun _ _ => False)
      (fun _ s' => s' = s) s

/-- A record not executing the epoch. -/
lemma not_executing {epoch : ℕ} (hr : s.get? id = some r)
    (h : epoch ≠ r.executionEpoch ∨ r.state.active = false) :
    ∀ r', s.get? id = some r' → executing epoch r' = false := by
  intro r' hr'
  obtain rfl := Option.some.inj (hr.symm.trans hr')
  obtain hne | hclosed := h
  · rw [executing, beq_eq_false_iff_ne.2 (Ne.symm hne), Bool.false_and]
  · rw [executing, hclosed, Bool.and_false]

/-- In every run of the store each record keeps its promises, when the hash tells specifications
apart. -/
theorem records_kept (specHash : ν → ν → ν → ℚ → δ)
    (hcollision : ∀ spec config inputs timeout spec' config' inputs' timeout',
      specHash spec config inputs timeout = specHash spec' config' inputs' timeout' →
      (spec, config, inputs, timeout) = (spec', config', inputs', timeout'))
    (calls : List (Call ν)) (id : String) (r : Record ν δ)
    (hr : (after specHash .empty calls).get? id = some r) :
    RecordKept specHash (after specHash .empty calls) id r := by
  have hfiled : Filed specHash id r := after_filed (fun _ _ h => by cases h) id r hr
  refine ⟨fun _ _ => after_revision hr, fun h _ => after_terminal hr h, fun _ _ _ _ _ _ h => ?_,
    fun _ _ _ _ _ h => ?_, fun queryId fresh _ _ hfresh hid => ?_,
    fun _ _ _ _ queryId fresh _ _ hfresh hid hne => ?_⟩
  · exact wp_mono (update_spec specHash) (fun _ _ hend => hend.2 (not_executing hr h)) fun _ _ hs => hs
  · exact wp_mono (finish_spec specHash) (fun _ _ hend => hend.2 (not_executing hr h)) fun _ _ hs => hs
  · refine wp_mono (create_spec hfresh) ?_ ?_
    · intro r' s' h
      rw [hid, hr] at h
      exact ⟨h.1, h.2.1⟩
    · rintro _ s' ⟨_, hraise⟩
      rw [hid] at hraise
      obtain htimeout | hinvalid | ⟨r', hr', hne⟩ := hraise
      · exact absurd hfiled.timeout (not_lt.2 htimeout)
      · rw [hfiled.id] at hinvalid
        cases hinvalid
      · obtain rfl := Option.some.inj (hr.symm.trans hr')
        exact hne hfiled.hash
  · refine wp_mono (create_spec hfresh) ?_ fun _ _ h => h.1
    intro r' s' h
    rw [hid, hr] at h
    exact hne (hcollision _ _ _ _ _ _ _ _ (h.2.2.symm.trans hfiled.hash))

/-- A submitted record, hashed to its own specification. -/
theorem records_kept_submitted : RecordKept (fun spec config inputs timeout =>
      (spec, config, inputs, timeout))
    (after (fun spec config inputs timeout => (spec, config, inputs, timeout)) .empty
      [.create "spec" "config" "inputs" 10 none ⟨"id", by decide⟩ none 0]) "id"
    (.new ("spec", "config", "inputs", 10) "spec" "config" "inputs" 10 none 0) :=
  records_kept _ (fun _ _ _ _ _ _ _ _ h => h) [.create "spec" "config" "inputs" 10 none ⟨"id", by decide⟩
    none 0] "id" _ rfl

end Quail.Server
