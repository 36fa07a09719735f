import Quail.Server.Service

/-!
# What an acknowledged submission can rely on

`Safe` is the invariant of the service: a record whose submission is over (`Settled`) is in the store, in
the target and in the durable copy, and the write that saved a record still being synced has a number that
every later copy reaches (`InFlight`). It is kept by every step that meets `Undisturbed`, which gives
`submissions_kept`.
-/

set_option linter.unusedSectionVars false

namespace Quail.Server
open Imperative

variable {ν δ τ α : Type} [DecidableEq δ] {id : String} {hash : δ} {requests : τ → Request ν} {saved : Store ν δ}

/-! ## Hashes of records -/

/-- The hash a store has for an id. -/
def hashAt (s : Store ν δ) (id : String) : Option δ := (s.get? id).map Record.specHash

lemma hashAt_of_get {s : Store ν δ} {r : Record ν δ} (h : s.get? id = some r) :
    hashAt s id = some r.specHash := by
  unfold hashAt
  rw [h]
  rfl

lemma get_of_hashAt {s : Store ν δ} (h : hashAt s id = some hash) :
    ∃ r, s.get? id = some r ∧ r.specHash = hash := Option.map_eq_some_iff.1 h

lemma hashAt_set {s : Store ν δ} {id' : String} {r : Record ν δ} :
    hashAt (s.set id r) id' = if id = id' then some r.specHash else hashAt s id' := by
  unfold hashAt
  rw [Dict.get?_set]
  split_ifs <;> rfl

lemma hashAt_set_same {s : Store ν δ} {r r' : Record ν δ} (hr : s.get? id = some r)
    (h : r'.specHash = r.specHash) : hashAt (s.set id r') = hashAt s := by
  funext id'
  rw [hashAt_set]
  split_ifs with hid
  · rw [← hid, hashAt_of_get hr, h]
  · rfl

lemma contains_of_hashAt {s : Store ν δ} (h : hashAt s id = some hash) : s.contains id = true := by
  obtain ⟨r, hr, -⟩ := get_of_hashAt h
  exact Dict.contains_iff.2 ⟨r, hr⟩

/-- The hashes are these at both ends of a program. -/
def KeepsHashes (m : StoreOp ν δ α) : Prop :=
  ∀ hashes : String → Option δ, Preserves (fun s => hashAt s = hashes) m

lemma keepsHashes_updateWhere {condition : Record ν δ → Bool} {change : Record ν δ → Record ν δ}
    (h : ∀ r, (change r).specHash = r.specHash) : KeepsHashes (updateWhere id condition change) := by
  intro hashes s hs
  rw [wp_updateWhere]
  exact ⟨fun r hr _ => (hashAt_set_same hr (h r)).trans hs, fun _ => hs⟩

lemma keepsHashes_getRecord : KeepsHashes (getRecord id : StoreOp ν δ (Record ν δ)) := by
  intro hashes s hs
  rw [wp_getRecord]
  exact ⟨fun _ _ => hs, fun _ => hs⟩

lemma keepsHashes_pure {a : α} : KeepsHashes (pure a : StoreOp ν δ α) := fun _ => preserves_pure

lemma keepsHashes_throw {e : ServerError} : KeepsHashes (throw e : StoreOp ν δ α) := fun _ => preserves_throw

lemma KeepsHashes.bind {β : Type} {m : StoreOp ν δ α} {f : α → StoreOp ν δ β} (hm : KeepsHashes m)
    (hf : ∀ a, KeepsHashes (f a)) : KeepsHashes (m >>= f) :=
  fun hashes => (hm hashes).bind fun a => hf a hashes

lemma KeepsHashes.discard {m : StoreOp ν δ α} (hm : KeepsHashes m) : KeepsHashes (Functor.discard m) :=
  fun hashes => (hm hashes).discard

lemma KeepsHashes.ite {c : Prop} [Decidable c] {m n : StoreOp ν δ α} (hm : KeepsHashes m)
    (hn : KeepsHashes n) : KeepsHashes (if c then m else n) :=
  fun hashes => (hm hashes).ite (hn hashes)

lemma keepsHashes_requestCancel {now : ℚ} :
    KeepsHashes (requestCancel id now : StoreOp ν δ (Record ν δ)) := by
  refine keepsHashes_getRecord.bind fun r => ?_
  refine .ite ?_ (.ite ?_ ?_)
  · exact (keepsHashes_updateWhere fun _ => by rfl).discard.bind fun _ => keepsHashes_getRecord
  · exact (keepsHashes_updateWhere fun _ => by rfl).discard.bind fun _ => keepsHashes_getRecord
  · exact keepsHashes_getRecord

lemma keepsHashes_begin {now : ℚ} : KeepsHashes (Server.begin id now : StoreOp ν δ ℕ) := by
  refine keepsHashes_getRecord.bind fun r => ?_
  refine .ite (keepsHashes_throw.bind fun _ => ?_) ?_
  all_goals exact (keepsHashes_updateWhere fun _ => by rfl).discard.bind fun _ => keepsHashes_pure

lemma keepsHashes_update {epoch : ℕ} {state : Option State} {phase progress plan : Option ν} {now : ℚ} :
    KeepsHashes (Server.update id epoch state phase progress plan now : StoreOp ν δ Bool) := by
  cases state with
  | none => exact (keepsHashes_updateWhere fun _ => by rfl).bind fun _ => keepsHashes_pure
  | some state =>
    refine .ite (keepsHashes_throw.bind fun _ => ?_) ?_
    all_goals exact (keepsHashes_updateWhere fun _ => by rfl).bind fun _ => keepsHashes_pure

lemma keepsHashes_finish {epoch : ℕ} {state : State} {error result : Option ν} {now : ℚ} :
    KeepsHashes (Server.finish id epoch state error result now : StoreOp ν δ Bool) := by
  refine .ite (keepsHashes_throw.bind fun _ => ?_) (.ite (keepsHashes_throw.bind fun _ => ?_) ?_)
  · refine .ite (keepsHashes_throw.bind fun _ => ?_) ?_
    all_goals exact (keepsHashes_updateWhere fun _ => by rfl).bind fun _ => keepsHashes_pure
  all_goals exact (keepsHashes_updateWhere fun _ => by rfl).bind fun _ => keepsHashes_pure

lemma keepsHashes_recover {now : String → ℚ} :
    KeepsHashes (recover now : StoreOp ν δ (List String)) := by
  have heach (ids : List String) : KeepsHashes (recoverEach now ids : StoreOp ν δ Unit) := by
    induction ids with
    | nil => exact keepsHashes_pure
    | cons id ids ih => exact (keepsHashes_updateWhere fun _ => by rfl).discard.bind fun _ => ih
  intro hashes s hs
  exact ((heach _).bind fun _ => keepsHashes_pure) hashes s hs

lemma KeepsHashes.perform {m : StoreOp ν δ α} (h : KeepsHashes m) (s : Store ν δ) :
    hashAt (Imperative.perform m s).2 = hashAt s := by
  rw [perform_snd]
  exact final_of_wp (h (hashAt s) s rfl)

/-! ## The invariant -/

namespace Stage

/-- The submission is inside the block of the submission lock. -/
def holds : Stage ν δ → Bool
  | waiting | answered _ _ => false
  | _ => true

/-- The record the submission created and has not answered for. -/
def pending : Stage ν δ → Option String
  | syncing id _ | unsynced id _ => some id
  | _ => none

/-- How the submission ends. -/
def answer : Stage ν δ → Option (Sync × Answer ν δ)
  | leaving sync answer | answered sync answer => some (sync, answer)
  | _ => none

end Stage

lemma Stage.holds_of_pending {stage : Stage ν δ} (h : stage.pending = some id) : stage.holds = true := by
  cases stage <;> first | rfl | cases h

/-- The count a call of `run_once` has read. -/
def CopyStage.count : CopyStage → Option ℕ
  | .entered => none
  | .counted count | .read count _ | .due count _ | .saved count _ => some count

/-- The record was in the copy the server started from, or its submission returned after its sync. -/
def Synced (saved : Store ν δ) (s : Service ν δ τ) (id : String) : Prop :=
  saved.contains id = true ∨ ∃ t r, (s.submissions t).answer = some (.succeeded, .ok (id, r))

/-- A record no submission is busy with is in the store, the target and the durable copy. -/
structure Settled (saved : Store ν δ) (s : Service ν δ τ) (id : String) (hash : δ) : Prop where
  stored : hashAt s.store id = some hash
  target : hashAt s.target id = some hash
  copy : hashAt s.copy id = some hash
  synced : Synced saved s id
  alone : ∀ t, (s.submissions t).pending ≠ some id

/-- A record being synced, saved by the write of this number: a copy whose count is not smaller has it. -/
structure InFlight (s : Service ν δ τ) (t : τ) (id : String) (hash : δ) (number : ℕ) : Prop where
  stored : hashAt s.store id = some hash
  counted : number ≤ s.numWrites ∨
    number = s.numWrites + 1 ∧ ∃ rest, s.lock = some ⟨some t, .writes :: rest⟩
  seen : (number : ℤ) ≤ s.seen → hashAt s.target id = some hash ∧ hashAt s.copy id = some hash
  saved : ∀ caller count durable, s.copying = some ⟨caller, .saved count durable⟩ → number ≤ count →
    hashAt s.target id = some hash
  own : ∀ stage, s.copying = some ⟨.submission t, stage⟩ →
    number ≤ s.numWrites ∧ ∀ count ∈ stage.count, number ≤ count

/-- A submission that returned is settled; one whose sync failed raised. -/
structure Answered (saved : Store ν δ) (s : Service ν δ τ) (sync : Sync) (answer : Answer ν δ) : Prop where
  acknowledged : ∀ id r, answer = .ok (id, r) → Settled saved s id r.specHash
  failed : ∀ id, sync = .failed id → ∃ error, answer = .error error

/-- What holds of a submission at its stage. -/
def StageSafe (requests : τ → Request ν) (saved : Store ν δ) (s : Service ν δ τ) (t : τ) :
    Stage ν δ → Prop
  | .found existed => (∀ id ∈ (requests t).queryId, (hashAt s.store id).isSome = existed) ∧
      ((requests t).queryId = none → existed = false)
  | .syncing id status => ∃ number, InFlight s t id status.specHash number
  | .leaving sync answer => Answered saved s sync answer ∧
      ∀ id, sync = .failed id → hashAt s.store id = none
  | .answered sync answer => Answered saved s sync answer
  | _ => True

/-- What the scheduler has selected is settled. -/
def TurnSafe (saved : Store ν δ) (s : Service ν δ τ) : Turn → Prop
  | .idle => True
  | .selecting => s.submissionLock = some .scheduler
  | .selected id | .running id _ => ∃ hash, Settled saved s id hash

/-- The invariant of the service. -/
structure Safe (requests : τ → Request ν) (saved : Store ν δ) (s : Service ν δ τ) : Prop where
  exclusive : ∀ t, (s.submissions t).holds = true → s.submissionLock = some (.submission t)
  stages : ∀ t, StageSafe requests saved s t (s.submissions t)
  records : ∀ id hash, hashAt s.store id = some hash →
    (∃ t, (s.submissions t).pending = some id) ∨ Settled saved s id hash
  scheduler : TurnSafe saved s s.scheduler
  seen : s.seen ≤ s.numWrites
  copying : ∀ caller stage, s.copying = some ⟨caller, stage⟩ →
    (∀ count ∈ stage.count, count ≤ s.numWrites) ∧
      ∀ t, caller = .submission t → ∃ id status, s.submissions t = .syncing id status

variable {s s' : Service ν δ τ} {t : τ} {stage : Stage ν δ} {number : ℕ}

/-- No other submission is inside the block. -/
lemma Safe.others (h : Safe requests saved s) (ht : (s.submissions t).holds = true) {t' : τ}
    (hne : t' ≠ t) : (s.submissions t').holds = false := by
  cases hholds : (s.submissions t').holds with
  | false => rfl
  | true =>
    have hsame := (h.exclusive t ht).symm.trans (h.exclusive t' hholds)
    cases hsame
    exact absurd rfl hne

/-! ## Steps that move no submission -/

/-- What a step that moves no submission keeps. -/
structure Frame (saved : Store ν δ) (s s' : Service ν δ τ) : Prop where
  submissions : s'.submissions = s.submissions
  store : hashAt s'.store = hashAt s.store
  target : ∀ id hash, Settled saved s id hash → hashAt s'.target id = some hash
  copy : ∀ id hash, Settled saved s id hash → hashAt s'.copy id = some hash

lemma Frame.settled (hf : Frame saved s s') (h : Settled saved s id hash) : Settled saved s' id hash where
  stored := by rw [hf.store, h.stored]
  target := hf.target id hash h
  copy := hf.copy id hash h
  synced := by
    unfold Synced
    rw [hf.submissions]
    exact h.synced
  alone := by
    rw [hf.submissions]
    exact h.alone

lemma Frame.answered (hf : Frame saved s s') {sync : Sync} {answer : Answer ν δ}
    (h : Answered saved s sync answer) : Answered saved s' sync answer where
  acknowledged := fun id r heq => hf.settled (h.acknowledged id r heq)
  failed := h.failed

lemma Frame.turn (hf : Frame saved s s') (hlock : s'.submissionLock = s.submissionLock) {turn : Turn}
    (h : TurnSafe saved s turn) : TurnSafe saved s' turn := by
  cases turn with
  | idle => trivial
  | selecting => exact hlock.trans h
  | selected id =>
    obtain ⟨hash, h⟩ := h
    exact ⟨hash, hf.settled h⟩
  | running id epoch =>
    obtain ⟨hash, h⟩ := h
    exact ⟨hash, hf.settled h⟩

lemma Frame.safe (hf : Frame saved s s') (h : Safe requests saved s)
    (hlock : ∀ t, s.submissionLock = some (.submission t) → s'.submissionLock = some (.submission t))
    (hflight : ∀ t id status number, s.submissions t = .syncing id status →
      InFlight s t id status.specHash number → InFlight s' t id status.specHash number)
    (hturn : TurnSafe saved s' s'.scheduler) (hseen : s'.seen ≤ s'.numWrites)
    (hcopying : ∀ caller stage, s'.copying = some ⟨caller, stage⟩ →
      (∀ count ∈ stage.count, count ≤ s'.numWrites) ∧
        ∀ t, caller = .submission t → ∃ id status, s.submissions t = .syncing id status) :
    Safe requests saved s' where
  exclusive := by
    rw [hf.submissions]
    exact fun t ht => hlock t (h.exclusive t ht)
  stages := by
    intro t
    have hstage := h.stages t
    rw [hf.submissions]
    cases hst : s.submissions t with
    | waiting | entered | unsynced => trivial
    | found existed =>
      rw [hst] at hstage
      unfold StageSafe
      rw [hf.store]
      exact hstage
    | syncing id status =>
      rw [hst] at hstage
      obtain ⟨number, hnumber⟩ := hstage
      exact ⟨number, hflight t id status number hst hnumber⟩
    | leaving sync answer =>
      rw [hst] at hstage
      refine ⟨hf.answered hstage.1, ?_⟩
      rw [hf.store]
      exact hstage.2
    | answered sync answer =>
      rw [hst] at hstage
      exact hf.answered hstage
  records := by
    intro id hash hid
    rw [hf.store] at hid
    rw [hf.submissions]
    exact (h.records id hash hid).imp_right hf.settled
  scheduler := hturn
  seen := hseen
  copying := by
    rw [hf.submissions]
    exact hcopying

/-! ## A submission that moves -/

lemma Settled.moved [DecidableEq τ] (h : Settled saved s id hash)
    (hsub : s'.submissions = Function.update s.submissions t stage)
    (hstored : hashAt s'.store id = some hash) (htarget : s'.target = s.target) (hcopy : s'.copy = s.copy)
    (hanswer : ∀ a, (s.submissions t).answer = some a → stage.answer = some a)
    (hpending : stage.pending ≠ some id) : Settled saved s' id hash where
  stored := hstored
  target := by rw [htarget, h.target]
  copy := by rw [hcopy, h.copy]
  synced := by
    refine h.synced.imp_right ?_
    rintro ⟨t', r, ht'⟩
    refine ⟨t', r, ?_⟩
    rw [hsub]
    by_cases heq : t' = t
    · subst heq
      rw [Function.update_self]
      exact hanswer _ ht'
    · rw [Function.update_of_ne heq]
      exact ht'
  alone := by
    intro t'
    rw [hsub]
    by_cases heq : t' = t
    · subst heq
      rw [Function.update_self]
      exact hpending
    · rw [Function.update_of_ne heq]
      exact h.alone t'

/-- One submission moves while no other is inside the block. -/
lemma Safe.moved [DecidableEq τ] (h : Safe requests saved s)
    (hsub : s'.submissions = Function.update s.submissions t stage)
    (hothers : ∀ t', t' ≠ t → (s.submissions t').holds = false)
    (hsettled : ∀ id hash, Settled saved s id hash → Settled saved s' id hash)
    (hholds : stage.holds = true → s'.submissionLock = some (.submission t))
    (hstage : StageSafe requests saved s' t stage)
    (hrecords : ∀ id hash, hashAt s'.store id = some hash →
      stage.pending = some id ∨ Settled saved s' id hash)
    (hturn : TurnSafe saved s' s'.scheduler) (hseen : s'.seen ≤ s'.numWrites)
    (hcopying : ∀ caller cs, s'.copying = some ⟨caller, cs⟩ →
      (∀ count ∈ cs.count, count ≤ s'.numWrites) ∧ ∀ t', caller = .submission t' →
        ∃ id status, s'.submissions t' = .syncing id status) :
    Safe requests saved s' where
  exclusive := by
    intro t' ht'
    rw [hsub] at ht'
    by_cases heq : t' = t
    · subst heq
      rw [Function.update_self] at ht'
      exact hholds ht'
    · rw [Function.update_of_ne heq, hothers t' heq] at ht'
      cases ht'
  stages := by
    intro t'
    rw [hsub]
    by_cases heq : t' = t
    · subst heq
      rw [Function.update_self]
      exact hstage
    · rw [Function.update_of_ne heq]
      have hother := hothers t' heq
      have hsafe := h.stages t'
      cases hst : s.submissions t' with
      | waiting => trivial
      | answered sync answer =>
        rw [hst] at hsafe
        exact ⟨fun id r hok => hsettled _ _ (hsafe.acknowledged id r hok), hsafe.failed⟩
      | entered | found | syncing | unsynced | leaving =>
        rw [hst] at hother
        cases hother
  records := by
    intro id hash hid
    refine (hrecords id hash hid).imp_left fun hpending => ⟨t, ?_⟩
    rw [hsub, Function.update_self]
    exact hpending
  scheduler := hturn
  seen := hseen
  copying := hcopying

/-! ## The steps of a submission -/

section Submissions

variable [DecidableEq τ]

/-- No submission is inside the block when the lock is free. -/
lemma Safe.free (h : Safe requests saved s) (hlock : s.submissionLock = none) (t : τ) :
    (s.submissions t).holds = false := by
  cases hholds : (s.submissions t).holds with
  | false => rfl
  | true =>
    have hheld := h.exclusive t hholds
    rw [hlock] at hheld
    cases hheld

/-- The scheduler is not selecting while a submission is inside the block. -/
lemma Safe.not_selecting (h : Safe requests saved s) (ht : (s.submissions t).holds = true)
    {saved' : Store ν δ} (hsettled : ∀ id hash, Settled saved s id hash → Settled saved' s' id hash) :
    TurnSafe saved' s' s.scheduler := by
  have hturn := h.scheduler
  cases hs : s.scheduler with
  | idle => trivial
  | selecting =>
    rw [hs] at hturn
    have hheld := (h.exclusive t ht).symm.trans hturn
    cases hheld
  | selected id =>
    rw [hs] at hturn
    obtain ⟨hash, hid⟩ := hturn
    exact ⟨hash, hsettled id hash hid⟩
  | running id epoch =>
    rw [hs] at hturn
    obtain ⟨hash, hid⟩ := hturn
    exact ⟨hash, hsettled id hash hid⟩

/-- The call of `run_once` is not for a submission that is not syncing. -/
lemma Safe.copying_moved (h : Safe requests saved s) (hsync : ∀ id status, s.submissions t ≠ .syncing id status)
    (hsub : s'.submissions = Function.update s.submissions t stage) (hwrites : s'.numWrites = s.numWrites)
    (hcopying : s'.copying = s.copying) (caller : Caller τ) (cs : CopyStage)
    (hc : s'.copying = some ⟨caller, cs⟩) :
    (∀ count ∈ cs.count, count ≤ s'.numWrites) ∧ ∀ t', caller = .submission t' →
      ∃ id status, s'.submissions t' = .syncing id status := by
  obtain ⟨hcount, hcaller⟩ := h.copying caller cs (hcopying.symm.trans hc)
  rw [hwrites, hsub]
  refine ⟨hcount, fun t' heq => ?_⟩
  obtain ⟨id, status, hst⟩ := hcaller t' heq
  refine ⟨id, status, ?_⟩
  rw [Function.update_of_ne, hst]
  rintro rfl
  exact hsync id status hst

/-- A submission with no record of its own moves inside the block. -/
lemma Safe.move (h : Safe requests saved s) (hholds : (s.submissions t).holds = true)
    (hpending : (s.submissions t).pending = none) (hanswer : (s.submissions t).answer = none)
    (hnone : stage.pending = none)
    (hstage : StageSafe requests saved (s.move t stage) t stage) :
    Safe requests saved (s.move t stage) := by
  have hsettled : ∀ id hash, Settled saved s id hash → Settled saved (s.move t stage) id hash := by
    intro id hash hs
    refine hs.moved rfl hs.stored rfl rfl (fun a ha => ?_) ?_
    · rw [hanswer] at ha
      cases ha
    · rw [hnone]
      exact nofun
  refine h.moved rfl (fun t' => h.others hholds) hsettled (fun _ => h.exclusive t hholds) hstage
    (fun id hash hid => .inr ?_) (h.not_selecting hholds hsettled) h.seen
    (h.copying_moved (fun id status hst => ?_) rfl rfl rfl)
  · obtain ⟨t', ht'⟩ | hs := h.records id hash hid
    · by_cases heq : t' = t
      · rw [heq, hpending] at ht'
        cases ht'
      · have hother := h.others hholds heq
        rw [Stage.holds_of_pending ht'] at hother
        cases hother
    · exact hsettled id hash hs
  · rw [hst] at hpending
    cases hpending

/-- A submission that raises inside the block without a sync. -/
lemma Safe.refused (h : Safe requests saved s) (hholds : (s.submissions t).holds = true)
    (hpending : (s.submissions t).pending = none) (hanswer : (s.submissions t).answer = none)
    (error : AcceptError) : Safe requests saved (s.move t (.leaving .notRun (.error error))) := by
  refine h.move hholds hpending hanswer rfl ⟨⟨?_, ?_⟩, ?_⟩
  · intro id r hok
    cases hok
  · intro id hfailed
    cases hfailed
  · intro id hfailed
    cases hfailed

lemma Safe.acquire (h : Safe requests saved s) : Safe requests saved (s.acquire t) := by
  unfold Service.acquire
  split
  case h_2 => exact h
  case h_1 hst hlock =>
    have hsettled : ∀ id hash, Settled saved s id hash → Settled saved { s.move t .entered with
        submissionLock := some (.submission t) } id hash := by
      intro id hash hs
      refine hs.moved rfl hs.stored rfl rfl (fun a ha => ?_) nofun
      rw [hst] at ha
      cases ha
    refine h.moved rfl (fun t' _ => h.free hlock t') hsettled (fun _ => rfl) trivial
      (fun id hash hid => .inr ?_) ?_ h.seen (h.copying_moved (fun id status hst' => ?_) rfl rfl rfl)
    · obtain ⟨t', ht'⟩ | hs := h.records id hash hid
      · have hfree := h.free hlock t'
        rw [Stage.holds_of_pending ht'] at hfree
        cases hfree
      · exact hsettled id hash hs
    · have hturn := h.scheduler
      show TurnSafe saved _ s.scheduler
      cases hs : s.scheduler with
      | idle => trivial
      | selecting =>
        rw [hs] at hturn
        have hheld := hlock.symm.trans hturn
        cases hheld
      | selected id =>
        rw [hs] at hturn
        exact hturn.imp (hsettled id)
      | running id epoch =>
        rw [hs] at hturn
        exact hturn.imp (hsettled id)
    · rw [hst] at hst'
      cases hst'

lemma isSome_hashAt {store : Store ν δ} : (hashAt store id).isSome = store.contains id := by
  unfold hashAt Dict.contains
  rw [Option.isSome_map]

lemma Safe.find (h : Safe requests saved s) : Safe requests saved (s.find requests t) := by
  unfold Service.find
  split
  case h_1 hst hid =>
    refine h.move ?_ ?_ ?_ rfl ⟨?_, fun _ => rfl⟩
    · rw [hst]; rfl
    · rw [hst]; rfl
    · rw [hst]; rfl
    · rw [hid]
      simp
  case h_2 id hst hlock hid =>
    have hentered : (s.submissions t).holds = true ∧ (s.submissions t).pending = none ∧
        (s.submissions t).answer = none := by
      rw [hst]
      exact ⟨rfl, rfl, rfl⟩
    obtain ⟨hholds, hpending, hanswer⟩ := hentered
    split_ifs with hclosed
    · exact h.refused hholds hpending hanswer _
    · refine h.move hholds hpending hanswer rfl ⟨?_, ?_⟩
      · rw [hid]
        intro id' hid'
        cases hid'
        exact isSome_hashAt
      · rw [hid]
        rintro ⟨⟩
  case h_3 => exact h

lemma Safe.leave (h : Safe requests saved s) : Safe requests saved (s.leave t) := by
  unfold Service.leave
  split
  case h_2 => exact h
  case h_1 sync answer hst =>
    split_ifs with hwriting
    · exact h
    · have hholds : (s.submissions t).holds = true := by
        rw [hst]
        rfl
      have hstage := h.stages t
      rw [hst] at hstage
      have hsettled : ∀ id hash, Settled saved s id hash → Settled saved { s.move t (.answered sync answer)
          with submissionLock := none } id hash := by
        intro id hash hs
        refine hs.moved rfl hs.stored rfl rfl (fun a ha => ?_) nofun
        rw [hst] at ha
        exact ha
      refine h.moved rfl (fun t' => h.others hholds) hsettled nofun
        ⟨fun id r hok => hsettled _ _ (hstage.1.acknowledged id r hok), hstage.1.failed⟩
        (fun id hash hid => .inr ?_) (h.not_selecting hholds hsettled) h.seen
        (h.copying_moved (fun id status hst' => ?_) rfl rfl rfl)
      · obtain ⟨t', ht'⟩ | hs := h.records id hash hid
        · by_cases heq : t' = t
          · rw [heq, hst] at ht'
            cases ht'
          · have hother := h.others hholds heq
            rw [Stage.holds_of_pending ht'] at hother
            cases hother
        · exact hsettled id hash hs
      · rw [hst] at hst'
        cases hst'

variable {specHash : ν → ν → ν → ℚ → δ} {fresh : { id : String // validQueryId id = true }} {now : ℚ}

/-- `create` of an id the store does not have saves one record. -/
lemma create_new {store : Store ν δ} {q : Request ν}
    (hnone : store.get? (q.queryId.getD fresh.1) = none) :
    ∃ r, perform (q.create specHash fresh.1 now) store =
      (.ok r, store.set (q.queryId.getD fresh.1) r) := by
  have hspec : wp (q.create specHash fresh.1 now)
      (fun r s' => s' = store.set (q.queryId.getD fresh.1) r) (fun _ _ => False) store := by
    unfold Request.create Server.create
    simp only [wp_bind, wp_ite, wp_throw]
    refine ⟨fun htimeout => absurd q.timeout_pos (not_lt.2 htimeout), fun _ => ?_⟩
    refine wp_mono (chosenId_spec fresh.2) ?_ ?_
    · intro id s' hchosen
      obtain ⟨hs, hname, -⟩ := hchosen
      subst s'
      rw [← hname] at hnone ⊢
      rw [wp_bind, wp_get, hnone]
      simp only [wp_bind, wp_modify, wp_getRecord, Dict.get?_set, if_pos]
      refine ⟨fun r hr => ?_, (by rintro ⟨⟩)⟩
      rw [Option.some.inj hr]
    · intro _ _ hraise
      obtain ⟨-, hinvalid⟩ := hraise
      cases hq : q.queryId with
      | none =>
        rw [hq, Option.getD_none, fresh.2] at hinvalid
        cases hinvalid
      | some id =>
        rw [hq, Option.getD_some, q.valid id hq] at hinvalid
        cases hinvalid
  unfold wp at hspec
  unfold perform
  cases hm : q.create specHash fresh.1 now store with
  | ok r s' =>
    rw [hm] at hspec
    rw [hspec]
    exact ⟨r, rfl⟩
  | error e s' =>
    rw [hm] at hspec
    exact hspec.elim

/-- `create` of an id the store has leaves the store; the record it returns is the store's. -/
lemma create_existing {store : Store ν δ} {q : Request ν} {r : Record ν δ}
    (hr : store.get? (q.queryId.getD fresh.1) = some r) :
    perform (q.create specHash fresh.1 now) store = (.ok r, store) ∨
      ∃ error, perform (q.create specHash fresh.1 now) store = (.error error, store) := by
  have hspec : wp (q.create specHash fresh.1 now) _ _ store := create_spec fresh.2
  rw [hr] at hspec
  unfold wp at hspec
  unfold perform
  cases hm : q.create specHash fresh.1 now store with
  | ok r' s' =>
    rw [hm] at hspec
    rw [hspec.1, hspec.2.1]
    exact .inl rfl
  | error e s' =>
    rw [hm] at hspec
    rw [hspec.1]
    exact .inr ⟨e, rfl⟩

lemma write_same {owner : Option τ} (hlock : s.lock = none) : s.write owner s.store [] = s := by
  unfold Service.write
  rw [if_pos rfl, ← hlock]

/-- A new record is in flight. -/
lemma Safe.inserted {existed : Bool} {r : Record ν δ} (h : Safe requests saved s)
    (hst : s.submissions t = .found existed) (hget : s.store.get? id = none) :
    Safe requests saved ((s.write (some t) (s.store.set id r) durableWrite).move t (.syncing id r)) := by
  have hholds : (s.submissions t).holds = true := by
    rw [hst]
    rfl
  have hsettled : ∀ id' hash, Settled saved s id' hash → Settled saved
      ((s.write (some t) (s.store.set id r) durableWrite).move t (.syncing id r)) id' hash := by
    intro id' hash hs
    have hne : id ≠ id' := by
      rintro rfl
      obtain ⟨r', hr', -⟩ := get_of_hashAt hs.stored
      rw [hget] at hr'
      cases hr'
    refine hs.moved rfl ?_ rfl rfl (fun a ha => ?_) fun heq => hne (Option.some.inj heq)
    · exact hashAt_set.trans (by rw [if_neg hne, hs.stored])
    · rw [hst] at ha
      cases ha
  refine h.moved rfl (fun t' => h.others hholds) hsettled (fun _ => h.exclusive t hholds)
    ⟨s.numWrites + 1, ?_⟩ (fun id' hash hid => ?_) (h.not_selecting hholds hsettled) h.seen
    (h.copying_moved (fun id status hst' => ?_) rfl rfl rfl)
  · have hfresh : ∀ caller cs, s.copying = some ⟨caller, cs⟩ →
        ∀ count ∈ cs.count, ¬s.numWrites + 1 ≤ count :=
      fun caller cs hc count hcount hle => absurd ((h.copying caller cs hc).1 count hcount) (by omega)
    refine ⟨hashAt_set.trans (if_pos rfl), .inr ⟨rfl, _, rfl⟩, fun hle => ?_, fun caller count durable hc hle =>
      absurd hle (hfresh caller _ hc count rfl), fun cs hc => ?_⟩
    · have hseen := h.seen
      exact absurd (le_trans hle hseen) (by push_cast; omega)
    · obtain ⟨id', status, hsync⟩ := (h.copying _ cs hc).2 t rfl
      rw [hst] at hsync
      cases hsync
  · have hid' : hashAt (s.store.set id r) id' = some hash := hid
    rw [hashAt_set] at hid'
    split_ifs at hid' with heq
    · exact .inl (congrArg some heq)
    · obtain ⟨t', ht'⟩ | hs := h.records id' hash hid'
      · by_cases heq' : t' = t
        · rw [heq', hst] at ht'
          cases ht'
        · have hother := h.others hholds heq'
          rw [Stage.holds_of_pending ht'] at hother
          cases hother
      · exact .inr (hsettled id' hash hs)
  · rw [hst] at hst'
    cases hst'

lemma Safe.create (h : Safe requests saved s) :
    Safe requests saved (s.create specHash requests t fresh.1 now) := by
  unfold Service.create
  dsimp only
  split
  case h_2 => exact h
  case h_1 existed hst hlock =>
    have hstage := h.stages t
    rw [hst] at hstage
    obtain ⟨hfound, hfresh⟩ := hstage
    have hentered : (s.submissions t).holds = true ∧ (s.submissions t).pending = none ∧
        (s.submissions t).answer = none := by
      rw [hst]
      exact ⟨rfl, rfl, rfl⟩
    obtain ⟨hholds, hpending, hanswer⟩ := hentered
    have hothers : ∀ t' id, (s.submissions t').pending ≠ some id := by
      intro t' id ht'
      by_cases heq : t' = t
      · rw [heq, hpending] at ht'
        cases ht'
      · have hother := h.others hholds heq
        rw [Stage.holds_of_pending ht'] at hother
        cases hother
    by_cases hclosed : s.closed = true
    · rw [if_pos hclosed]
      exact h.refused hholds hpending hanswer _
    rw [if_neg hclosed]
    by_cases hunused : (requests t).queryId = none ∧ s.store.contains fresh.1 = true
    · rw [if_pos hunused]
      exact h
    · rw [if_neg hunused]
      cases hget : s.store.get? ((requests t).queryId.getD fresh.1) with
      | some r =>
        have hhash := hashAt_of_get hget
        have hexisted : existed = true := by
          cases hid : (requests t).queryId with
          | none =>
            rw [hid, Option.getD_none] at hget
            exact absurd ⟨hid, Dict.contains_iff.2 ⟨r, hget⟩⟩ hunused
          | some id =>
            rw [hid, Option.getD_some] at hhash
            rw [← hfound id hid, hhash]
            rfl
        obtain hperform | ⟨error, hperform⟩ := create_existing hget
        · rw [hperform]
          dsimp only
          rw [if_pos (Dict.contains_iff.2 ⟨r, hget⟩), write_same hlock, if_pos hexisted]
          obtain ⟨t', ht'⟩ | hsettled := h.records _ _ hhash
          · exact absurd ht' (hothers t' _)
          · refine h.move hholds hpending hanswer rfl ⟨⟨?_, ?_⟩, ?_⟩
            · intro id r' hok
              cases hok
              exact hsettled.moved rfl hsettled.stored rfl rfl
                (fun a ha => by rw [hanswer] at ha; cases ha) nofun
            · intro id hfailed
              cases hfailed
            · intro id hfailed
              cases hfailed
        · rw [hperform]
          dsimp only
          rw [write_same hlock]
          exact h.refused hholds hpending hanswer _
      | none =>
        obtain ⟨r, hperform⟩ := create_new hget
        have hexisted : existed = false := by
          cases hid : (requests t).queryId with
          | none => exact hfresh hid
          | some id =>
            rw [hid, Option.getD_some] at hget
            rw [← hfound id hid, hashAt, hget]
            rfl
        have hcontains := Dict.contains_eq_false.2 hget
        rw [hperform]
        dsimp only
        rw [hcontains, hexisted]
        generalize (requests t).queryId.getD fresh.1 = id at hget hcontains
        exact h.inserted hst hget

/-- A queued record is deleted. -/
lemma perform_discardRecord {store : Store ν δ} {r : Record ν δ} (hr : store.get? id = some r)
    (hqueued : r.state = .queued) : perform (discardRecord id now) store = (.ok true, store.erase id) := by
  refine perform_ok ?_
  unfold discardRecord
  rw [wp_bind, wp_get, hr]
  simp only [wp_bind, wp_pure, wp_ite, wp_discard, wp_modify]
  exact ⟨fun hne => absurd hqueued hne, fun _ => ⟨fun _ => ⟨trivial, trivial⟩, fun hne => absurd trivial hne⟩⟩

lemma hashAt_erase {store : Store ν δ} {id' : String} :
    hashAt (store.erase id) id' = if id = id' then none else hashAt store id' := by
  unfold hashAt
  rw [Dict.get?_erase]
  split_ifs <;> rfl

lemma Safe.discard (h : Safe requests saved s)
    (hmeets : ∀ id error, s.submissions t = .unsynced id error →
      s.closed = false ∧ ∃ r, s.store.get? id = some r ∧ r.state = .queued) :
    Safe requests saved (s.discard t now) := by
  unfold Service.discard
  split
  case h_2 => exact h
  case h_1 id error hst hlock =>
    obtain ⟨hopen, r, hget, hqueued⟩ := hmeets id error hst
    rw [if_neg (by rw [hopen]; decide), perform_discardRecord hget hqueued]
    dsimp only
    have hholds : (s.submissions t).holds = true := by
      rw [hst]
      rfl
    have hpending : (s.submissions t).pending = some id := by
      rw [hst]
      rfl
    generalize hs' : (s.write (some t) (s.store.erase id) (discardWrites s.store id)).move t
      (.leaving (.failed id) (.error (.server (unsavedText error)))) = s'
    have hsub : s'.submissions = Function.update s.submissions t
        (.leaving (.failed id) (.error (.server (unsavedText error)))) := by
      rw [← hs']
      rfl
    have hstore : s'.store = s.store.erase id := by
      rw [← hs']
      rfl
    have hsettled : ∀ id' hash, Settled saved s id' hash → Settled saved s' id' hash := by
      intro id' hash hs
      have hne : id ≠ id' := by
        rintro rfl
        exact hs.alone t hpending
      refine hs.moved hsub ?_ (by rw [← hs']; rfl) (by rw [← hs']; rfl) (fun a ha => ?_) nofun
      · rw [hstore, hashAt_erase, if_neg hne, hs.stored]
      · rw [hst] at ha
        cases ha
    refine h.moved hsub (fun t' => h.others hholds) hsettled (fun _ => ?_) ⟨⟨?_, fun _ _ => ⟨_, rfl⟩⟩, ?_⟩
      (fun id' hash hid => .inr ?_) ?_ ?_ (h.copying_moved (fun id status hst' => ?_) hsub ?_ ?_)
    · rw [← hs']
      exact h.exclusive t hholds
    · intro id' r' hok
      cases hok
    · intro id' hfailed
      cases hfailed
      rw [hstore, hashAt_erase, if_pos rfl]
    · rw [hstore, hashAt_erase] at hid
      split_ifs at hid with hne
      obtain ⟨t', ht'⟩ | hs := h.records id' hash hid
      · by_cases heq : t' = t
        · rw [heq, hpending] at ht'
          exact absurd (Option.some.inj ht') hne
        · have hother := h.others hholds heq
          rw [Stage.holds_of_pending ht'] at hother
          cases hother
      · exact hsettled id' hash hs
    · have hturn := h.not_selecting hholds hsettled
      rw [← hs'] at hturn ⊢
      exact hturn
    · rw [← hs']
      exact h.seen
    · rw [hst] at hst'
      cases hst'
    · rw [← hs']
      rfl
    · rw [← hs']
      rfl

end Submissions

/-! ## The steps of the checkpoint -/

/-- A step of the checkpoint that leaves what is stored and counted. -/
lemma Safe.checkpoint {s' : Service ν δ τ} (h : Safe requests saved s) (hf : Frame saved s s')
    (hlock : s'.submissionLock = s.submissionLock) (hscheduler : s'.scheduler = s.scheduler)
    (hflight : ∀ t id status number, s.submissions t = .syncing id status →
      InFlight s t id status.specHash number → InFlight s' t id status.specHash number)
    (hseen : s'.seen ≤ s'.numWrites)
    (hcopying : ∀ caller stage, s'.copying = some ⟨caller, stage⟩ →
      (∀ count ∈ stage.count, count ≤ s'.numWrites) ∧
        ∀ t, caller = .submission t → ∃ id status, s.submissions t = .syncing id status) :
    Safe requests saved s' := by
  refine hf.safe h (fun t ht => hlock.trans ht) hflight ?_ hseen hcopying
  rw [hscheduler]
  exact hf.turn hlock h.scheduler

/-- The call of `run_once` goes on to its next stage. -/
lemma Safe.advance {caller : Caller τ} {stage stage' : CopyStage} (h : Safe requests saved s)
    (hc : s.copying = some ⟨caller, stage⟩) (hcount : ∀ count ∈ stage'.count, count ≤ s.numWrites)
    (hunsaved : ∀ count durable, stage' ≠ .saved count durable)
    (hown : ∀ t id status number, caller = .submission t → InFlight s t id status.specHash number →
      s.submissions t = .syncing id status → ∀ count ∈ stage'.count, number ≤ count) :
    Safe requests saved { s with copying := some ⟨caller, stage'⟩ } := by
  refine h.checkpoint ⟨rfl, rfl, fun _ _ hs => hs.target, fun _ _ hs => hs.copy⟩ rfl rfl ?_ h.seen ?_
  · intro t id status number hst hi
    refine ⟨hi.stored, hi.counted, hi.seen, fun caller' count durable hc' => ?_, fun cs hc' => ?_⟩
    · cases hc'
      exact absurd rfl (hunsaved count durable)
    · cases hc'
      exact ⟨(hi.own stage hc).1, hown t id status number rfl hi hst⟩
  · intro caller' cs hc'
    cases hc'
    exact ⟨hcount, (h.copying caller stage hc).2⟩

/-- A submission that is not writing has counted the write of its record. -/
lemma InFlight.number_le [DecidableEq τ] (hi : InFlight s t id hash number) (h : s.writing t = false) :
    number ≤ s.numWrites := by
  obtain hle | ⟨-, rest, hlock⟩ := hi.counted
  · exact hle
  · unfold Service.writing at h
    rw [hlock] at h
    exact absurd rfl (of_decide_eq_false h)

lemma Safe.entered (h : Safe requests saved s) {caller : Caller τ}
    (hcaller : ∀ t, caller = .submission t → (∃ id status, s.submissions t = .syncing id status) ∧
      ∀ id hash number, InFlight s t id hash number → number ≤ s.numWrites) :
    Safe requests saved { s with copying := some ⟨caller, .entered⟩ } := by
  refine h.checkpoint ⟨rfl, rfl, fun _ _ hs => hs.target, fun _ _ hs => hs.copy⟩ rfl rfl ?_ h.seen ?_
  · intro t id status number _ hi
    refine ⟨hi.stored, hi.counted, hi.seen, fun caller' count durable hc' => ?_, fun cs hc' => ?_⟩
    · cases hc'
    · cases hc'
      exact ⟨(hcaller t rfl).2 _ _ number hi, nofun⟩
  · intro caller' cs hc'
    cases hc'
    exact ⟨nofun, fun t heq => (hcaller t heq).1⟩

lemma Safe.enter [DecidableEq τ] {caller : Caller τ} (h : Safe requests saved s) :
    Safe requests saved (s.enter caller) := by
  unfold Service.enter
  cases hc : s.copying with
  | some _ => exact h
  | none =>
    cases caller with
    | thread => exact h.entered nofun
    | stop =>
      dsimp only
      split
      · exact h.entered nofun
      · exact h
    | submission t =>
      dsimp only
      split
      case h_2 => exact h
      case h_1 id status hst =>
        cases hwriting : s.writing t with
        | true => exact h
        | false =>
          refine h.entered fun t' heq => ?_
          cases heq
          exact ⟨⟨id, status, hst⟩, fun _ _ _ hi => hi.number_le hwriting⟩

lemma Safe.readCount (h : Safe requests saved s) : Safe requests saved s.readCount := by
  unfold Service.readCount
  split
  case h_2 => exact h
  case h_1 caller hc =>
    refine h.advance hc (fun count hcount => ?_) nofun fun t id status number heq hi _ count hcount => ?_
    · cases hcount
      exact le_rfl
    · cases hcount
      exact (hi.own _ (heq ▸ hc)).1

lemma Safe.readDurable (h : Safe requests saved s) : Safe requests saved s.readDurable := by
  unfold Service.readDurable
  split
  case h_2 => exact h
  case h_1 caller count hc =>
    exact h.advance hc (h.copying caller (.counted count) hc).1 nofun fun t id status number heq hi _ =>
      (hi.own (.counted count) (heq ▸ hc)).2

/-- `run_once` gives its lock back. -/
lemma Safe.released (h : Safe requests saved s) (shutdown : Shutdown) :
    Safe requests saved { s with copying := none, shutdown } := by
  refine h.checkpoint ⟨rfl, rfl, fun _ _ hs => hs.target, fun _ _ hs => hs.copy⟩ rfl rfl ?_ h.seen nofun
  intro t id status number _ hi
  exact ⟨hi.stored, hi.counted, hi.seen, nofun, nofun⟩

/-- `run_once` returns to a submission whose record is in the copy, or raises. -/
lemma Safe.returned [DecidableEq τ] {caller : Caller τ} {stage : CopyStage} {result : Except String Bool}
    (h : Safe requests saved s) (hc : s.copying = some ⟨caller, stage⟩)
    (hdone : ∀ t id status copied, caller = .submission t → s.submissions t = .syncing id status →
      result = .ok copied → hashAt s.target id = some status.specHash ∧
        hashAt s.copy id = some status.specHash) : Safe requests saved (s.returned caller result) := by
  cases caller with
  | thread => exact h.released s.shutdown
  | stop =>
    cases result with
    | ok _ => exact h.released .copied
    | error _ => exact h.released s.shutdown
  | submission t =>
    obtain ⟨id, status, hst⟩ := (h.copying _ _ hc).2 t rfl
    have hholds : (s.submissions t).holds = true := by
      rw [hst]
      rfl
    have hothers : ∀ t', t' ≠ t → (s.submissions t').pending = none := by
      intro t' hne
      have hother := h.others hholds hne
      cases hpending : (s.submissions t').pending with
      | none => rfl
      | some id' =>
        rw [Stage.holds_of_pending hpending] at hother
        cases hother
    have hstage := h.stages t
    rw [hst] at hstage
    obtain ⟨number, hi⟩ := hstage
    unfold Service.returned
    dsimp only
    rw [hst]
    cases result with
    | error error =>
      dsimp only
      have hsettled : ∀ id' hash, Settled saved s id' hash → Settled saved
          { s.move t (.unsynced id error) with copying := none } id' hash := by
        intro id' hash hs
        refine hs.moved rfl hs.stored rfl rfl (fun a ha => ?_) fun heq => ?_
        · rw [hst] at ha
          cases ha
        · refine hs.alone t ?_
          rw [hst]
          exact heq
      refine h.moved rfl (fun t' => h.others hholds) hsettled (fun _ => h.exclusive t hholds) trivial
        (fun id' hash hid => ?_) (h.not_selecting hholds hsettled) h.seen nofun
      obtain ⟨t', ht'⟩ | hs := h.records id' hash hid
      · by_cases heq : t' = t
        · rw [heq, hst] at ht'
          exact .inl ht'
        · rw [hothers t' heq] at ht'
          cases ht'
      · exact .inr (hsettled id' hash hs)
    | ok copied =>
      dsimp only
      obtain ⟨htarget, hcopy⟩ := hdone t id status copied rfl hst rfl
      have hsettled : ∀ id' hash, Settled saved s id' hash → Settled saved
          { s.move t (.leaving .succeeded (.ok (id, status))) with copying := none } id' hash := by
        intro id' hash hs
        refine hs.moved rfl hs.stored rfl rfl (fun a ha => ?_) nofun
        rw [hst] at ha
        cases ha
      have hmine : Settled saved { s.move t (.leaving .succeeded (.ok (id, status))) with copying := none }
          id status.specHash := by
        refine ⟨hi.stored, htarget, hcopy, .inr ⟨t, status, ?_⟩, fun t' => ?_⟩
        · show (Function.update s.submissions t _ t).answer = _
          rw [Function.update_self]
          rfl
        · show (Function.update s.submissions t _ t').pending ≠ _
          by_cases heq : t' = t
          · rw [heq, Function.update_self]
            exact nofun
          · rw [Function.update_of_ne heq, hothers t' heq]
            exact nofun
      refine h.moved rfl (fun t' => h.others hholds) hsettled (fun _ => h.exclusive t hholds)
        ⟨⟨fun id' r hok => ?_, nofun⟩, nofun⟩ (fun id' hash hid => .inr ?_)
        (h.not_selecting hholds hsettled) h.seen nofun
      · cases hok
        exact hmine
      · obtain ⟨t', ht'⟩ | hs := h.records id' hash hid
        · by_cases heq : t' = t
          · rw [heq, hst] at ht'
            cases ht'
            obtain rfl := Option.some.inj (hi.stored.symm.trans hid)
            exact hmine
          · rw [hothers t' heq] at ht'
            cases ht'
        · exact hsettled id' hash hs

lemma Safe.test [DecidableEq τ] {recent : Bool} (h : Safe requests saved s)
    (hmeets : ∀ t count durable, s.copying = some ⟨.submission t, .read count durable⟩ →
      (count : ℤ) = s.seen ∨ s.closed = false) : Safe requests saved (s.test recent) := by
  unfold Service.test
  split
  case h_2 => exact h
  case h_1 caller count durable hc =>
    by_cases hsame : (count : ℤ) = s.seen ∨ s.closed = true
    · rw [if_pos hsame]
      refine h.returned hc fun t id status copied heq hst _ => ?_
      subst heq
      -- the early return of a sync: every write so far is in the copy that was seen
      have hseen : (count : ℤ) = s.seen := by
        obtain hseen | hopen := hmeets t count durable hc
        · exact hseen
        · refine hsame.resolve_right fun hclosed => ?_
          rw [hopen] at hclosed
          cases hclosed
      have hstage := h.stages t
      rw [hst] at hstage
      obtain ⟨number, hi⟩ := hstage
      refine hi.seen ?_
      rw [← hseen]
      exact_mod_cast (hi.own _ hc).2 count rfl
    · rw [if_neg hsame]
      by_cases hrecent : (durable : ℤ) = s.seenDurable ∧ Service.forced caller = false ∧ recent = true
      · rw [if_pos hrecent]
        refine h.returned hc fun t id status copied heq _ _ => ?_
        subst heq
        cases hrecent.2.1
      · rw [if_neg hrecent]
        exact h.advance hc (h.copying caller (.read count durable) hc).1 nofun
          fun t id status number heq hi _ => (hi.own (.read count durable) (heq ▸ hc)).2

lemma Safe.backup [DecidableEq τ] {failure : Option String} (h : Safe requests saved s) :
    Safe requests saved (s.backup failure) := by
  unfold Service.backup
  split
  case h_2 => exact h
  case h_1 caller count durable hc hlock =>
    by_cases hclosed : s.closed = true
    · rw [if_pos hclosed]
      exact h.returned hc fun _ _ _ _ _ _ hok => by cases hok
    rw [if_neg hclosed]
    cases failure with
    | some error => exact h.returned hc fun _ _ _ _ _ _ hok => by cases hok
    | none =>
      refine h.checkpoint ⟨rfl, rfl, fun _ _ hs => hs.stored, fun _ _ hs => hs.copy⟩ rfl rfl ?_ h.seen ?_
      · intro t id status number hst hi
        refine ⟨hi.stored, hi.counted, fun hle => ⟨hi.stored, (hi.seen hle).2⟩, fun _ _ _ _ _ => hi.stored,
          fun cs hc' => ?_⟩
        cases hc'
        exact hi.own (.due count durable) hc
      · intro caller' cs hc'
        cases hc'
        exact h.copying caller (.due count durable) hc

lemma Safe.commit [DecidableEq τ] {failure : Option (String × Bool)} (h : Safe requests saved s) :
    Safe requests saved (s.commit failure) := by
  unfold Service.commit
  split
  case h_2 => exact h
  case h_1 caller count durable hc =>
    cases failure with
    | some failure =>
      obtain ⟨error, landed⟩ := failure
      have hcopied : Safe requests saved { s with copy := if landed = true then s.target else s.copy } := by
        refine h.checkpoint ⟨rfl, rfl, fun _ _ hs => hs.target, fun _ _ hs => ?_⟩ rfl rfl ?_ h.seen h.copying
        · show hashAt (if landed = true then s.target else s.copy) _ = _
          split_ifs
          · exact hs.target
          · exact hs.copy
        · intro t id status number _ hi
          refine ⟨hi.stored, hi.counted, fun hle => ⟨(hi.seen hle).1, ?_⟩, hi.saved, hi.own⟩
          show hashAt (if landed = true then s.target else s.copy) _ = _
          split_ifs
          · exact (hi.seen hle).1
          · exact (hi.seen hle).2
      exact hcopied.returned hc fun _ _ _ _ _ _ hok => by cases hok
    | none =>
      have hcopied : Safe requests saved
          { s with copy := s.target, seen := count, seenDurable := durable } := by
        refine h.checkpoint ⟨rfl, rfl, fun _ _ hs => hs.target, fun _ _ hs => hs.target⟩ rfl rfl ?_ ?_
          h.copying
        · intro t id status number _ hi
          refine ⟨hi.stored, hi.counted, fun hle => ?_, hi.saved, hi.own⟩
          have htarget := hi.saved caller count durable hc (Int.ofNat_le.1 hle)
          exact ⟨htarget, htarget⟩
        · show (count : ℤ) ≤ s.numWrites
          exact_mod_cast (h.copying caller (.saved count durable) hc).1 count rfl
      refine hcopied.returned hc fun t id status copied heq hst _ => ?_
      subst heq
      have hstage := h.stages t
      have hst' : s.submissions t = .syncing id status := hst
      rw [hst'] at hstage
      obtain ⟨number, hi⟩ := hstage
      have htarget := hi.saved _ count durable hc ((hi.own _ hc).2 count rfl)
      exact ⟨htarget, htarget⟩

lemma Safe.count (h : Safe requests saved s) : Safe requests saved s.count := by
  unfold Service.count
  split
  case h_1 => exact h
  case h_2 owner hlock =>
    refine h.checkpoint ⟨rfl, rfl, fun _ _ hs => hs.target, fun _ _ hs => hs.copy⟩ rfl rfl ?_ h.seen h.copying
    intro t id status number _ hi
    refine ⟨hi.stored, hi.counted.imp_right fun hwriting => ?_, hi.seen, hi.saved, hi.own⟩
    obtain ⟨-, rest, hrest⟩ := hwriting
    rw [hlock] at hrest
    cases hrest
  case h_3 owner rest hlock =>
    have hgrows {n : ℕ} (hn : n ≤ s.numWrites) : n ≤ s.numWrites + 1 := hn.trans (Nat.le_succ _)
    refine h.checkpoint ⟨rfl, rfl, fun _ _ hs => hs.target, fun _ _ hs => hs.copy⟩ rfl rfl ?_ ?_ ?_
    · intro t id status number _ hi
      refine ⟨hi.stored, .inl ?_, hi.seen, hi.saved, fun cs hc => ?_⟩
      · obtain hle | ⟨heq, -⟩ := hi.counted
        · exact hgrows hle
        · exact heq.le
      · exact ⟨hgrows (hi.own cs hc).1, (hi.own cs hc).2⟩
    · have hseen := h.seen
      show s.seen ≤ ((s.numWrites + 1 : ℕ) : ℤ)
      push_cast
      omega
    · intro caller cs hc
      exact ⟨fun count hcount => hgrows ((h.copying caller cs hc).1 count hcount), (h.copying caller cs hc).2⟩
  case h_4 owner rest hlock =>
    refine h.checkpoint ⟨rfl, rfl, fun _ _ hs => hs.target, fun _ _ hs => hs.copy⟩ rfl rfl ?_ h.seen h.copying
    intro t id status number _ hi
    refine ⟨hi.stored, hi.counted.imp_right fun hwriting => ?_, hi.seen, hi.saved, hi.own⟩
    obtain ⟨-, rest', hrest⟩ := hwriting
    rw [hlock] at hrest
    cases hrest

/-! ## The scheduler and the other threads -/

lemma oldestQueued_mem {store : Store ν δ} {e : String × Record ν δ} (h : oldestQueued store = some e) :
    e ∈ store.entries := by
  have hfold (entries : List (String × Record ν δ)) : ∀ best,
      entries.foldl older best = some e → e ∈ entries ∨ best = some e := by
    induction entries with
    | nil => exact fun best hbest => .inr hbest
    | cons e' entries ih =>
      intro best hbest
      obtain hmem | hbest := ih _ hbest
      · exact .inl (List.mem_cons_of_mem _ hmem)
      · unfold older at hbest
        cases best with
        | none => exact .inl (Option.some.inj hbest ▸ List.mem_cons_self)
        | some b =>
          dsimp only at hbest
          split_ifs at hbest
          · exact .inl (Option.some.inj hbest ▸ List.mem_cons_self)
          · exact .inr hbest
  obtain hmem | hnone := hfold _ none h
  · exact (List.mem_filter.1 hmem).1
  · cases hnone

lemma Safe.trySelect (h : Safe requests saved s) : Safe requests saved s.trySelect := by
  unfold Service.trySelect
  split
  case h_2 => exact h
  case h_1 hlock =>
    have hf : Frame saved s { s with scheduler := .selecting, submissionLock := some .scheduler } :=
      ⟨rfl, rfl, fun _ _ hs => hs.target, fun _ _ hs => hs.copy⟩
    refine hf.safe h (fun t ht => ?_) (fun t id status number _ hi => ⟨hi.1, hi.2, hi.3, hi.4, hi.5⟩) rfl
      h.seen h.copying
    rw [hlock] at ht
    cases ht

lemma Safe.select (h : Safe requests saved s) : Safe requests saved s.select := by
  unfold Service.select
  split
  case h_2 => exact h
  case h_1 hscheduler hlock =>
    have hheld := h.scheduler
    rw [hscheduler] at hheld
    -- the scheduler has the submission lock, so no record is in flight
    have hfree : ∀ t, (s.submissions t).holds = false := by
      intro t
      cases hholds : (s.submissions t).holds with
      | false => rfl
      | true =>
        have hsame := (h.exclusive t hholds).symm.trans hheld
        cases hsame
    have hturn : ∀ s' : Service ν δ τ, Frame saved s s' → TurnSafe saved s'
        (if s.closed then .idle else ((oldestQueued s.store).map Prod.fst).elim .idle .selected) := by
      intro s' hf
      split_ifs
      · trivial
      · cases hrow : oldestQueued s.store with
        | none => trivial
        | some e =>
          have hget : s.store.get? e.1 = some e.2 := Dict.mem_entries_iff.1 (oldestQueued_mem hrow)
          obtain ⟨t, ht⟩ | hs := h.records e.1 _ (hashAt_of_get hget)
          · have hholds := hfree t
            rw [Stage.holds_of_pending ht] at hholds
            cases hholds
          · exact ⟨_, hf.settled hs⟩
    have hf : Frame saved s { s with
        scheduler := if s.closed then .idle else ((oldestQueued s.store).map Prod.fst).elim .idle .selected
        submissionLock := none } := ⟨rfl, rfl, fun _ _ hs => hs.target, fun _ _ hs => hs.copy⟩
    refine hf.safe h (fun t ht => ?_) (fun t id status number _ hi => ⟨hi.1, hi.2, hi.3, hi.4, hi.5⟩)
      (hturn _ hf) h.seen h.copying
    rw [hheld] at ht
    cases ht

/-- An operation that keeps the hashes, with what it counts. -/
lemma Safe.wrote {store : Store ν δ} {counters : List Counter} {turn : Turn} (h : Safe requests saved s)
    (hlock : s.lock = none) (hstore : hashAt store = hashAt s.store)
    (hturn : TurnSafe saved s turn) :
    Safe requests saved { s.write none store counters with scheduler := turn } := by
  have hf : Frame saved s { s.write none store counters with scheduler := turn } :=
    ⟨rfl, hstore, fun _ _ hs => hs.target, fun _ _ hs => hs.copy⟩
  refine hf.safe h (fun t ht => ht) (fun t id status number _ hi => ?_) (hf.turn rfl hturn) h.seen h.copying
  refine ⟨(congrFun hstore id).trans hi.stored, .inl ?_, hi.seen, hi.saved, hi.own⟩
  obtain hle | ⟨-, rest, hrest⟩ := hi.counted
  · exact hle
  · rw [hlock] at hrest
    cases hrest

lemma Safe.begin {now : ℚ} (h : Safe requests saved s) : Safe requests saved (s.begin now) := by
  unfold Service.begin
  split
  case h_2 => exact h
  case h_1 id hscheduler hlock =>
    have hturn := h.scheduler
    rw [hscheduler] at hturn
    have hbegin : KeepsHashes (Server.begin id now : StoreOp ν δ ℕ) := keepsHashes_begin
    have hstore := hbegin.perform s.store
    by_cases hclosed : s.closed = true
    · rw [if_pos hclosed]
      have hf : Frame saved s { s with scheduler := .idle } :=
        ⟨rfl, rfl, fun _ _ hs => hs.target, fun _ _ hs => hs.copy⟩
      exact hf.safe h (fun t ht => ht) (fun t id status number _ hi => ⟨hi.1, hi.2, hi.3, hi.4, hi.5⟩)
        trivial h.seen h.copying
    · rw [if_neg hclosed]
      split
      case h_1 error store heq =>
        rw [heq] at hstore
        exact h.wrote hlock hstore trivial
      case h_2 epoch store heq =>
        rw [heq] at hstore
        exact h.wrote hlock hstore hturn

lemma Safe.endRun (h : Safe requests saved s) : Safe requests saved s.endRun := by
  unfold Service.endRun
  split
  case h_2 => exact h
  case h_1 =>
    have hf : Frame saved s { s with scheduler := .idle } :=
      ⟨rfl, rfl, fun _ _ hs => hs.target, fun _ _ hs => hs.copy⟩
    exact hf.safe h (fun t ht => ht) (fun t id status number _ hi => ⟨hi.1, hi.2, hi.3, hi.4, hi.5⟩)
      trivial h.seen h.copying

lemma Safe.operate {m : StoreOp ν δ α} {counters : List Counter} (h : Safe requests saved s)
    (hm : KeepsHashes m) : Safe requests saved (s.operate m counters) := by
  unfold Service.operate
  split
  case h_1 => exact h
  case h_2 hlock =>
    split_ifs
    · exact h
    · exact h.wrote hlock (hm.perform s.store) h.scheduler

/-- The shutdown moves on. -/
lemma Safe.shutdown {shutdown : Shutdown} {closed : Bool} (h : Safe requests saved s) :
    Safe requests saved { s with shutdown, closed } :=
  h.checkpoint ⟨rfl, rfl, fun _ _ hs => hs.target, fun _ _ hs => hs.copy⟩ rfl rfl
    (fun _ _ _ _ _ hi => ⟨hi.1, hi.2, hi.3, hi.4, hi.5⟩) h.seen h.copying

/-! ## Runs -/

section Runs

variable [DecidableEq τ] {specHash : ν → ν → ν → ℚ → δ}

/-- No sync returns early because the store is closed, with writes it has not copied; a discard finds the
store open and the record still queued. -/
def Undisturbed (s : Service ν δ τ) : Event ν τ → Prop
  | .test _ => ∀ t count durable, s.copying = some ⟨.submission t, .read count durable⟩ →
      (count : ℤ) = s.seen ∨ s.closed = false
  | .discard t _ => ∀ id error, s.submissions t = .unsynced id error →
      s.closed = false ∧ ∃ r, s.store.get? id = some r ∧ r.state = .queued
  | _ => True

lemma Safe.step (h : Safe requests saved s) (e : Event ν τ) (hmeets : Undisturbed s e) :
    Safe requests saved (s.step specHash requests e) := by
  cases e with
  | acquire t => exact h.acquire
  | find t => exact h.find
  | create t fresh now => exact h.create
  | discard t now => exact h.discard hmeets
  | leave t => exact h.leave
  | enter caller => exact h.enter
  | readCount => exact h.readCount
  | readDurable => exact h.readDurable
  | test recent => exact h.test hmeets
  | backup failure => exact h.backup
  | commit failure => exact h.commit
  | count => exact h.count
  | trySelect => exact h.trySelect
  | select => exact h.select
  | begin now => exact h.begin
  | endRun => exact h.endRun
  | update id epoch state phase progress plan now => exact h.operate keepsHashes_update
  | finish id epoch state error result now => exact h.operate keepsHashes_finish
  | requestCancel id now => exact h.operate keepsHashes_requestCancel
  | putInput => exact h.operate keepsHashes_pure
  | stopScheduler =>
    show Safe requests saved s.stopScheduler
    unfold Service.stopScheduler
    split
    · exact h.shutdown
    · exact h
  | giveUp =>
    show Safe requests saved s.giveUp
    unfold Service.giveUp
    split
    · exact h
    · exact h.shutdown
    · exact h
  | close =>
    show Safe requests saved s.close
    unfold Service.close
    split
    · exact h.shutdown
    · exact h

lemma start_safe {now : String → ℚ} : Safe requests saved (Service.start saved now : Service ν δ τ) := by
  have hstore : hashAt (final (recover now) saved) = hashAt saved :=
    final_of_wp (keepsHashes_recover (hashAt saved) saved rfl)
  refine ⟨nofun, fun _ => trivial, fun id hash hid => .inr ?_, trivial, ?_, nofun⟩
  · have hsaved : hashAt saved id = some hash := by
      rw [← hstore]
      exact hid
    exact ⟨hid, hsaved, hsaved, .inl (contains_of_hashAt hsaved), fun _ => nofun⟩
  · show (-1 : ℤ) ≤ ((saved.entries.filter fun e => e.2.state.active).length : ℕ)
    omega

/-- What the submissions and the scheduler are promised. -/
structure Kept (saved : Store ν δ) (s : Service ν δ τ) : Prop where
  acknowledged : ∀ t sync id status, (s.submissions t).answer = some (sync, .ok (id, status)) →
    hashAt s.copy id = some status.specHash
  begun : ∀ id, s.scheduler = .selected id ∨ (∃ epoch, s.scheduler = .running id epoch) →
    Synced saved s id ∧ s.copy.contains id = true
  refused : ∀ t id answer, (s.submissions t).answer = some (.failed id, answer) →
    ∃ error, answer = .error error
  discarded : ∀ t id answer, s.submissions t = .leaving (.failed id) answer →
    ∀ r, s.store.get? id = some r → r.state ≠ .queued

lemma Safe.kept (h : Safe requests saved s) : Kept saved s := by
  have hanswered : ∀ t sync answer, (s.submissions t).answer = some (sync, answer) →
      Answered saved s sync answer := by
    intro t sync answer ht
    have hstage := h.stages t
    cases hst : s.submissions t with
    | leaving sync' answer' =>
      rw [hst] at hstage ht
      cases ht
      exact hstage.1
    | answered sync' answer' =>
      rw [hst] at hstage ht
      cases ht
      exact hstage
    | waiting | entered | found | syncing | unsynced =>
      rw [hst] at ht
      cases ht
  refine ⟨fun t sync id status ht => ?_, fun id hid => ?_, fun t id answer ht => ?_, fun t id answer hst r hr => ?_⟩
  · exact ((hanswered t sync _ ht).acknowledged id status rfl).copy
  · have hturn := h.scheduler
    obtain ⟨hash, hs⟩ : ∃ hash, Settled saved s id hash := by
      obtain hselected | ⟨epoch, hrunning⟩ := hid
      · rw [hselected] at hturn
        exact hturn
      · rw [hrunning] at hturn
        exact hturn
    exact ⟨hs.synced, contains_of_hashAt hs.copy⟩
  · exact (hanswered t _ answer ht).failed id rfl
  · have hstage := h.stages t
    rw [hst] at hstage
    have hnone := hstage.2 id rfl
    rw [hashAt_of_get hr] at hnone
    cases hnone

/-- In every run whose syncs and discards are undisturbed, an acknowledged submission is in the durable
copy, the scheduler begins synced records only, and a submission whose sync failed raises and leaves no
queued record. -/
theorem submissions_kept (specHash : ν → ν → ν → ℚ → δ) (requests : τ → Request ν) (saved : Store ν δ)
    (now : String → ℚ) (events : List (Event ν τ))
    (hevents : EachStep (Service.step specHash requests) Undisturbed (Service.start saved now) events) :
    Kept saved (run (Service.step specHash requests) (Service.start saved now) events) := by
  have hsafe : Safe requests saved (run (Service.step specHash requests) (Service.start saved now) events) :=
    run_invariant (fun s e h hmeets => h.step e hmeets) start_safe hevents
  exact hsafe.kept

/-- A submission under an id of the client's. -/
def reviewRequest : Request String where
  spec := "spec"
  config := "config"
  inputs := "inputs"
  timeout := 10
  queryId := some "q"
  sessionId := none
  timeout_pos := by decide
  valid := by decide

/-- The service after events, with two submissions of one request and nothing saved before. -/
def reviewed (events : List (Event String Bool)) :
    Service String (String × String × String × ℚ) Bool :=
  run (Service.step (fun spec config inputs timeout => (spec, config, inputs, timeout))
    fun _ => reviewRequest) (Service.start .empty fun _ => 0) events

/-- A submission is created, synced and acknowledged. -/
theorem submissions_kept_reviewed : Kept .empty (reviewed [.acquire true, .find true,
      .create true ⟨"fresh", by decide⟩ 0, .count, .count, .enter (.submission true), .readCount,
      .readDurable, .test false, .backup none, .commit none, .leave true]) :=
  submissions_kept _ _ .empty _ [.acquire true, .find true, .create true ⟨"fresh", by decide⟩ 0, .count,
      .count, .enter (.submission true), .readCount, .readDurable, .test false, .backup none, .commit none,
      .leave true]
    ⟨trivial, trivial, trivial, trivial, trivial, trivial, trivial, trivial, fun _ _ _ _ => .inr rfl,
      trivial, trivial, trivial, trivial⟩

/-- A record created after the final copy is acknowledged by a sync that finds the store closed; and a
record cancelled before its sync fails stays, so that a retry is acknowledged. -/
theorem submissions_not_kept :
    ¬Kept .empty (reviewed [.acquire true, .find true, .stopScheduler, .enter .stop, .readCount,
      .readDurable, .test false, .backup none, .commit none, .create true ⟨"fresh", by decide⟩ 0, .count,
      .count, .close, .enter (.submission true), .readCount, .readDurable, .test false, .leave true]) ∧
    ¬Kept .empty (reviewed [.acquire false, .find false, .create false ⟨"fresh", by decide⟩ 0, .count,
      .count, .requestCancel "q" 1, .count, .count, .enter (.submission false), .readCount, .readDurable,
      .test false, .backup (some "disk full"), .discard false 2, .count, .count, .leave false,
      .acquire true, .find true, .create true ⟨"fresh", by decide⟩ 3, .leave true]) := by
  constructor
  · intro h
    have hcopy := h.acknowledged true _ _ _ rfl
    cases hcopy
  · intro h
    have hcopy := h.acknowledged true _ _ _ rfl
    cases hcopy

end Runs

end Quail.Server
