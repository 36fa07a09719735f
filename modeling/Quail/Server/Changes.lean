import Mathlib.Logic.Function.Basic
import Mathlib.Logic.Relation
import Mathlib.Algebra.Order.Group.Int
import Mathlib.Tactic.Common

/-!
# Waiting for a record to change

`_Changes` and `Server.wait_status` of `server/app.py` with the end of `Store._write` of `server/store.py`.
Callers on the event loop each hold the current event, read their record on a pool thread and then wait on
the event; a write is committed on any thread, which calls the listeners afterwards, and the one that
`Server` adds schedules `_advance` on the loop. Every interleaving is a run of `Step`.

A caller that waits while its record is ahead of it is woken: the event that it holds is the current one,
and a notification that sets it is on its way (`wait_status_woken`, `WillSet.step`, `WillSet.sets`).
Deadlines are left out.
-/

namespace Quail.Server

/-! ## The source -/

/-- A thread in `_write`: outside, calling the listeners it copied with `others` before `notify`, or in
`notify` with what it read of `_loop`. -/
inductive Notifying
  | outside
  | listeners (others : ℕ)
  | notify (hasLoop : Bool)
deriving DecidableEq, Repr

/-- A caller in `wait_status`: not yet called, at the head of the loop, with the event it holds while the
record is read and then with the revision read, in `wait`, or done. -/
inductive WaitStatus
  | absent
  | turn
  | getting (event : ℕ)
  | got (event : ℕ) (revision : ℤ)
  | waiting (event : ℕ)
  | returned (revision : ℤ)
  | raised
deriving DecidableEq, Repr

/-- The event a caller holds. -/
def WaitStatus.event : WaitStatus → Option ℕ
  | .getting event => some event
  | .got event _ => some event
  | .waiting event => some event
  | _ => none

variable {δ τ κ : Type}

/-- The records' revisions, the fields of `_Changes`, the events made so far, and where the threads and
callers are. `binding` is the caller, if any, that has set `_loop` and not yet `_event`. -/
structure Changes (δ τ κ : Type) where
  revision : δ → Option ℤ
  hasLoop : Bool := false
  event : Option ℕ := none
  made : ℕ := 0
  isSet : ℕ → Bool := fun _ => false
  scheduled : ℕ := 0
  binding : Option κ := none
  writers : τ → Notifying := fun _ => .outside
  callers : κ → WaitStatus := fun _ => .absent

namespace Changes

variable [DecidableEq τ] [DecidableEq κ]

def setWriter (s : Changes δ τ κ) (t : τ) (w : Notifying) : Changes δ τ κ :=
  { s with writers := Function.update s.writers t w }

def setCaller (s : Changes δ τ κ) (c : κ) (w : WaitStatus) : Changes δ τ κ :=
  { s with callers := Function.update s.callers c w }

/-- `_write` up to the end of the lock: the rows have other revisions, and `others` listeners are copied
before `notify`. -/
def commit (s : Changes δ τ κ) (t : τ) (revision : δ → Option ℤ) (others : ℕ) : Changes δ τ κ :=
  { s.setWriter t (.listeners others) with revision }

/-- The last line of `notify`. -/
def callSoon (s : Changes δ τ κ) (t : τ) (hasLoop : Bool) : Changes δ τ κ :=
  if hasLoop then { s.setWriter t .outside with scheduled := s.scheduled + 1 } else s.setWriter t .outside

/-- `_advance`. -/
def advance (s : Changes δ τ κ) : Changes δ τ κ :=
  { s with
    scheduled := s.scheduled - 1
    event := some s.made
    made := s.made + 1
    isSet := match s.event with
      | some event => Function.update s.isSet event true
      | none => s.isSet }

/-- `current` on the first use sets `_loop`, then `_event`. -/
def bindLoop (s : Changes δ τ κ) (c : κ) : Changes δ τ κ :=
  { s with hasLoop := true, binding := some c }

def bindEvent (s : Changes δ τ κ) (c : κ) : Changes δ τ κ :=
  { s.setCaller c (.getting s.made) with event := some s.made, made := s.made + 1, binding := none }

/-- `store.get` on a pool thread. -/
def get (s : Changes δ τ κ) (c : κ) (event : ℕ) (query : δ) : Changes δ τ κ :=
  s.setCaller c <| match s.revision query with
    | some revision => .got event revision
    | none => .raised

/-- `wait_status` after the read: return the record, or wait. -/
def checkRevision (s : Changes δ τ κ) (c : κ) (event : ℕ) (revision after : ℤ) : Changes δ τ κ :=
  s.setCaller c (if after < revision then .returned revision else .waiting event)

end Changes

open Changes

/-- The callers' arguments. -/
structure Asks (δ κ : Type) where
  query : κ → δ
  after : κ → ℤ

variable [DecidableEq τ] [DecidableEq κ]

/-- What can happen next. The event loop is taken while `current` is between its two lines. -/
inductive Step (asks : Asks δ κ) : Changes δ τ κ → Changes δ τ κ → Prop
  | commit {s t} (revision : δ → Option ℤ) (others : ℕ) : s.writers t = .outside →
      Step asks s (s.commit t revision others)
  | listener {s t others} : s.writers t = .listeners (others + 1) → Step asks s (s.setWriter t (.listeners others))
  | notify {s t} : s.writers t = .listeners 0 → Step asks s (s.setWriter t (.notify s.hasLoop))
  | callSoon {s t hasLoop} : s.writers t = .notify hasLoop → Step asks s (s.callSoon t hasLoop)
  | advance {s} : s.binding = none → 0 < s.scheduled → Step asks s s.advance
  | call {s c} : s.binding = none → s.callers c = .absent → Step asks s (s.setCaller c .turn)
  | bindLoop {s c} : s.binding = none → s.callers c = .turn → s.hasLoop = false → Step asks s (s.bindLoop c)
  | bindEvent {s c} : s.binding = some c → Step asks s (s.bindEvent c)
  | current {s c event} : s.binding = none → s.callers c = .turn → s.hasLoop = true → s.event = some event →
      Step asks s (s.setCaller c (.getting event))
  | get {s c event} : s.callers c = .getting event → Step asks s (s.get c event (asks.query c))
  | checkRevision {s c event revision} : s.binding = none → s.callers c = .got event revision →
      Step asks s (s.checkRevision c event revision (asks.after c))
  | wake {s c event} : s.binding = none → s.callers c = .waiting event → s.isSet event = true →
      Step asks s (s.setCaller c .turn)

/-- The states of a server, from `Server.__init__` on. -/
inductive Changes.Reachable (asks : Asks δ κ) : Changes δ τ κ → Prop
  | init (revision : δ → Option ℤ) : Reachable asks { revision }
  | step {s s'} : Reachable asks s → Step asks s s' → Reachable asks s'

/-- A caller that waits on an event that is not set. -/
def Changes.Blocked (s : Changes δ τ κ) (c : κ) (event : ℕ) : Prop :=
  s.callers c = .waiting event ∧ s.isSet event = false

/-- The record has a revision past the one a caller knows. -/
def Changes.Ahead (asks : Asks δ κ) (s : Changes δ τ κ) (c : κ) : Prop :=
  ∃ revision, s.revision (asks.query c) = some revision ∧ asks.after c < revision

/-- A thread that is yet to schedule `_advance`. -/
def Notifying.Outstanding : Notifying → Prop
  | .outside => False
  | .listeners _ => True
  | .notify hasLoop => hasLoop = true

/-- An `_advance` is scheduled, or a call of `notify` is outstanding that schedules it. -/
def Changes.Notified (s : Changes δ τ κ) : Prop := 0 < s.scheduled ∨ ∃ t, (s.writers t).Outstanding

/-- An outstanding notification that sets an event: it is the current one, on a loop that is known. -/
structure Changes.WillSet (s : Changes δ τ κ) (event : ℕ) : Prop where
  current : s.event = some event
  hasLoop : s.hasLoop = true
  binding : s.binding = none
  notified : s.Notified

variable {asks : Asks δ κ} {s s' : Changes δ τ κ} {t : τ} {c : κ} {event : ℕ}

namespace Changes

/-! ## Small facts -/

section Updates

variable {w : Notifying} {v : WaitStatus}

omit [DecidableEq κ] in
@[simp] lemma setWriter_writers : (s.setWriter t w).writers = Function.update s.writers t w := rfl

omit [DecidableEq τ] in
@[simp] lemma setCaller_callers : (s.setCaller c v).callers = Function.update s.callers c v := rfl

omit [DecidableEq τ] in
/-- A caller other than the one that moved is where it was. -/
lemma callers_setCaller {c' : κ} {v' : WaitStatus} (h : (s.setCaller c v).callers c' = v') :
    c' = c ∧ v = v' ∨ s.callers c' = v' := by
  rw [setCaller_callers] at h
  by_cases hc : c' = c
  · subst hc
    rw [Function.update_self] at h
    exact Or.inl ⟨rfl, h⟩
  · rw [Function.update_of_ne hc] at h
    exact Or.inr h

omit [DecidableEq κ] in
/-- A thread on its way to `callSoon` stays so, and the others are where they were. -/
lemma Notified.setWriter (h : s.Notified) (hw : (s.writers t).Outstanding → w.Outstanding) :
    (s.setWriter t w).Notified := by
  cases h with
  | inl h => exact Or.inl h
  | inr h =>
    obtain ⟨t', ht'⟩ := h
    refine Or.inr ⟨t', ?_⟩
    rw [setWriter_writers]
    by_cases ht : t' = t
    · subst ht
      rw [Function.update_self]
      exact hw ht'
    · rw [Function.update_of_ne ht]
      exact ht'

omit [DecidableEq κ] in
lemma notified_commit (revision : δ → Option ℤ) (others : ℕ) : (s.commit t revision others).Notified := by
  refine Or.inr ⟨t, ?_⟩
  rw [commit, setWriter_writers, Function.update_self]
  trivial

omit [DecidableEq κ] in
lemma Notified.callSoon {hasLoop : Bool} (h : s.Notified) (ht : s.writers t = .notify hasLoop) :
    (s.callSoon t hasLoop).Notified := by
  cases hasLoop with
  | true => exact Or.inl (Nat.succ_pos _)
  | false =>
    refine Notified.setWriter h fun hout => ?_
    rw [ht] at hout
    cases hout

end Updates

/-! ## No wakeup is lost -/

/-- What holds of every state. A caller has the current event, or one that is set; and as long as its event
is not set and no notification is on its way, its record is as it was read. -/
structure Inv (asks : Asks δ κ) (s : Changes δ τ κ) : Prop where
  bound : ∀ c, s.binding = some c → s.hasLoop = true
  held : ∀ c event, (s.callers c).event = some event →
    s.hasLoop = true ∧ s.binding = none ∧ (s.isSet event = true ∨ s.event = some event)
  got : ∀ c event revision, s.callers c = .got event revision →
    s.isSet event = true ∨ s.revision (asks.query c) = some revision ∨ s.Notified
  waiting : ∀ c event, s.callers c = .waiting event → s.isSet event = true ∨ ¬s.Ahead asks c ∨ s.Notified

omit [DecidableEq τ] in
/-- A caller goes where it holds no event, or holds the one it held. -/
lemma Inv.setCaller (h : Inv asks s) {v : WaitStatus}
    (hv : ∀ event, v.event = some event →
      s.hasLoop = true ∧ s.binding = none ∧ (s.isSet event = true ∨ s.event = some event))
    (hgot : ∀ event revision, v = .got event revision →
      s.isSet event = true ∨ s.revision (asks.query c) = some revision ∨ s.Notified)
    (hwaiting : ∀ event, v = .waiting event → s.isSet event = true ∨ ¬s.Ahead asks c ∨ s.Notified) :
    Inv asks (s.setCaller c v) where
  bound := h.bound
  held c' event hc' := by
    cases callers_setCaller (rfl : (s.setCaller c v).callers c' = _) with
    | inl hmoved =>
      refine hv event ?_
      rw [hmoved.2]
      exact hc'
    | inr hsame =>
      refine h.held c' event ?_
      rw [hsame]
      exact hc'
  got c' event revision hc' := by
    cases callers_setCaller hc' with
    | inl hmoved =>
      rw [hmoved.1]
      exact hgot event revision hmoved.2
    | inr hsame => exact h.got c' event revision hsame
  waiting c' event hc' := by
    cases callers_setCaller hc' with
    | inl hmoved =>
      obtain ⟨rfl, hmoved⟩ := hmoved
      exact hwaiting event hmoved
    | inr hsame => exact h.waiting c' event hsame

omit [DecidableEq κ] in
/-- A thread moves on. -/
lemma Inv.setWriter (h : Inv asks s) {w : Notifying}
    (hw : ∀ c event, (s.callers c).event = some event → s.Notified → (s.setWriter t w).Notified) :
    Inv asks (s.setWriter t w) where
  bound := h.bound
  held := h.held
  got c event revision hc :=
    (h.got c event revision hc).imp_right fun h => h.imp_right (hw c event (congrArg WaitStatus.event hc))
  waiting c event hc :=
    (h.waiting c event hc).imp_right fun h => h.imp_right (hw c event (congrArg WaitStatus.event hc))

omit [DecidableEq κ] in
lemma Inv.callSoon (h : Inv asks s) {hasLoop : Bool} (ht : s.writers t = .notify hasLoop) :
    Inv asks (s.callSoon t hasLoop) := by
  cases hasLoop with
  | true => exact ⟨h.bound, h.held, fun _ _ _ _ => Or.inr (Or.inr (Or.inl (Nat.succ_pos _))),
      fun _ _ _ => Or.inr (Or.inr (Or.inl (Nat.succ_pos _)))⟩
  | false => exact h.setWriter fun _ _ _ hs => hs.callSoon ht

omit [DecidableEq κ] in
lemma Inv.commit (h : Inv asks s) (revision : δ → Option ℤ) (others : ℕ) :
    Inv asks (s.commit t revision others) where
  bound := h.bound
  held := h.held
  got _ _ _ _ := Or.inr (Or.inr (notified_commit revision others))
  waiting _ _ _ := Or.inr (Or.inr (notified_commit revision others))

omit [DecidableEq τ] [DecidableEq κ] in
/-- Setting the current event sets every event that a caller holds. -/
lemma Inv.advance (h : Inv asks s) : Inv asks s.advance := by
  have hset : ∀ c event, (s.callers c).event = some event → s.advance.isSet event = true := by
    intro c event hc
    obtain ⟨-, -, hheld⟩ := h.held c event hc
    rw [Changes.advance]
    dsimp only
    cases hevent : s.event with
    | none =>
      rw [hevent] at hheld
      exact hheld.resolve_right (by simp)
    | some current =>
      rw [hevent] at hheld
      dsimp only
      by_cases heq : event = current
      · rw [heq, Function.update_self]
      · rw [Function.update_of_ne heq]
        exact hheld.resolve_right fun h => heq (Option.some.inj h).symm
  refine ⟨h.bound, fun c event hc => ?_, fun c event revision hc => ?_, fun c event hc => ?_⟩
  · obtain ⟨hloop, hbinding, -⟩ := h.held c event hc
    exact ⟨hloop, hbinding, Or.inl (hset c event hc)⟩
  · exact Or.inl (hset c event (congrArg WaitStatus.event hc))
  · exact Or.inl (hset c event (congrArg WaitStatus.event hc))

omit [DecidableEq τ] [DecidableEq κ] in
/-- Nobody holds an event before the loop is known. -/
lemma Inv.bindLoop (h : Inv asks s) (hloop : s.hasLoop = false) : Inv asks (s.bindLoop c) := by
  have hnone : ∀ c event, (s.callers c).event ≠ some event := fun c event hc =>
    Bool.false_ne_true (hloop.symm.trans (h.held c event hc).1)
  refine ⟨fun _ _ => rfl, fun c event hc => absurd hc (hnone c event), h.got, h.waiting⟩

omit [DecidableEq τ] in
lemma Inv.bindEvent (h : Inv asks s) (hc : s.binding = some c) : Inv asks (s.bindEvent c) := by
  have hnone : ∀ c' event, (s.callers c').event ≠ some event := by
    intro c' event hc'
    have hbinding := (h.held c' event hc').2.1
    rw [hc] at hbinding
    cases hbinding
  have hbase : Inv asks { s with event := some s.made, made := s.made + 1, binding := none } := by
    refine ⟨fun c' hc' => ?_, fun c' event hc' => absurd hc' (hnone c' event), fun c' event revision hc' => ?_,
      fun c' event hc' => ?_⟩
    · cases hc'
    · exact absurd (congrArg WaitStatus.event hc') (hnone c' event)
    · exact absurd (congrArg WaitStatus.event hc') (hnone c' event)
  refine hbase.setCaller (v := .getting s.made) (fun event hevent => ?_) (by simp) (by simp)
  exact ⟨h.bound c hc, rfl, Or.inr hevent⟩

omit [DecidableEq τ] in
lemma Inv.get (h : Inv asks s) {query : δ} (hquery : asks.query c = query) (hc : s.callers c = .getting event) :
    Inv asks (s.get c event query) := by
  have hheld := h.held c event (congrArg WaitStatus.event hc)
  rw [Changes.get]
  cases hrevision : s.revision query with
  | none => exact h.setCaller (by simp [WaitStatus.event]) (by simp) (by simp)
  | some revision =>
    refine h.setCaller (fun event' hevent => ?_) (fun event' revision' hgot => ?_) (by simp)
    · obtain rfl := Option.some.inj hevent
      exact hheld
    · cases hgot
      rw [hquery]
      exact Or.inr (Or.inl hrevision)

omit [DecidableEq τ] in
/-- A caller waits if the revision it read is not past the one it knows. -/
lemma Inv.checkRevision (h : Inv asks s) {revision : ℤ} (hc : s.callers c = .got event revision) :
    Inv asks (s.checkRevision c event revision (asks.after c)) := by
  have hheld := h.held c event (congrArg WaitStatus.event hc)
  rw [Changes.checkRevision]
  split
  · exact h.setCaller (by simp [WaitStatus.event]) (by simp) (by simp)
  · rename_i hle
    refine h.setCaller (fun event' hevent => ?_) (by simp) (fun event' hwaiting => ?_)
    · obtain rfl := Option.some.inj hevent
      exact hheld
    · cases hwaiting
      refine (h.got c event revision hc).imp_right fun hgot => hgot.imp_left ?_
      rintro hrevision ⟨revision', hrevision', hlt⟩
      rw [hrevision] at hrevision'
      cases hrevision'
      exact hle hlt

/-- Every step keeps the invariant. -/
theorem Inv.step (h : Inv asks s) (hstep : Step asks s s') : Inv asks s' := by
  cases hstep with
  | commit revision others _ => exact h.commit revision others
  | listener _ => exact h.setWriter fun _ _ _ hs => hs.setWriter fun _ => trivial
  | notify _ =>
    refine h.setWriter fun c event hc hs => hs.setWriter fun _ => ?_
    exact (h.held c event hc).1
  | callSoon ht => exact h.callSoon ht
  | advance _ _ => exact h.advance
  | call _ _ => exact h.setCaller (by simp [WaitStatus.event]) (by simp) (by simp)
  | bindLoop _ _ hloop => exact h.bindLoop hloop
  | bindEvent hc => exact h.bindEvent hc
  | current hbinding _ hloop hevent =>
    refine h.setCaller (fun event' heq => ?_) (by simp) (by simp)
    obtain rfl := Option.some.inj heq
    exact ⟨hloop, hbinding, Or.inr hevent⟩
  | get hc => exact h.get rfl hc
  | checkRevision _ hc => exact h.checkRevision hc
  | wake _ _ _ => exact h.setCaller (by simp [WaitStatus.event]) (by simp) (by simp)

theorem Reachable.inv (h : Reachable asks s) : Inv asks s := by
  induction h with
  | init revision => exact ⟨by simp, by simp [WaitStatus.event], by simp, by simp⟩
  | step _ hstep ih => exact ih.step hstep

/-- A caller that waits while its record is past the revision it knows will be woken. -/
theorem wait_status_woken (h : Reachable asks s) (hblocked : s.Blocked c event) (hahead : s.Ahead asks c) :
    s.WillSet event := by
  obtain ⟨hwaiting, hunset⟩ := hblocked
  have hset : s.isSet event ≠ true := fun hset => Bool.false_ne_true (hunset.symm.trans hset)
  obtain ⟨hloop, hbinding, hcurrent⟩ := h.inv.held c event (congrArg WaitStatus.event hwaiting)
  have hnotified := ((h.inv.waiting c event hwaiting).resolve_left hset).resolve_left (not_not.2 hahead)
  exact ⟨hcurrent.resolve_left hset, hloop, hbinding, hnotified⟩

/-! ## The notification that is on its way -/

omit [DecidableEq τ] [DecidableEq κ] in
lemma WillSet.advance (h : s.WillSet event) : s.advance.isSet event = true := by
  rw [Changes.advance]
  dsimp only
  rw [h.current]
  exact Function.update_self ..

omit [DecidableEq κ] in
lemma WillSet.setWriter (h : s.WillSet event) {w : Notifying} (hw : (s.writers t).Outstanding → w.Outstanding) :
    (s.setWriter t w).WillSet event :=
  ⟨h.current, h.hasLoop, h.binding, h.notified.setWriter hw⟩

omit [DecidableEq κ] in
lemma WillSet.callSoon (h : s.WillSet event) {hasLoop : Bool} (ht : s.writers t = .notify hasLoop) :
    (s.callSoon t hasLoop).WillSet event := by
  have hnotified := h.notified.callSoon ht
  cases hasLoop with
  | true => exact ⟨h.current, h.hasLoop, h.binding, hnotified⟩
  | false => exact ⟨h.current, h.hasLoop, h.binding, hnotified⟩

/-- It stays on its way until the event is set. -/
theorem WillSet.step (h : s.WillSet event) (hstep : Step asks s s') :
    s'.WillSet event ∨ s'.isSet event = true := by
  cases hstep with
  | commit revision others _ => exact Or.inl ⟨h.current, h.hasLoop, h.binding, notified_commit revision others⟩
  | listener _ => exact Or.inl (h.setWriter fun _ => trivial)
  | notify _ => exact Or.inl (h.setWriter fun _ => h.hasLoop)
  | callSoon ht => exact Or.inl (h.callSoon ht)
  | advance _ _ => exact Or.inr h.advance
  | call _ _ => exact Or.inl ⟨h.current, h.hasLoop, h.binding, h.notified⟩
  | bindLoop _ _ hloop => exact absurd (hloop.symm.trans h.hasLoop) Bool.false_ne_true
  | bindEvent hc =>
    have hnone := h.binding
    rw [hc] at hnone
    cases hnone
  | current _ _ _ _ => exact Or.inl ⟨h.current, h.hasLoop, h.binding, h.notified⟩
  | get _ => exact Or.inl ⟨h.current, h.hasLoop, h.binding, h.notified⟩
  | checkRevision _ _ => exact Or.inl ⟨h.current, h.hasLoop, h.binding, h.notified⟩
  | wake _ _ _ => exact Or.inl ⟨h.current, h.hasLoop, h.binding, h.notified⟩

/-- A thread that has committed a write gets its `_advance` scheduled. -/
lemma WillSet.sets_of_listeners {others : ℕ} (h : s.WillSet event) (ht : s.writers t = .listeners others) :
    ∃ s', Relation.ReflTransGen (Step asks) s s' ∧ s'.isSet event = true := by
  induction others generalizing s with
  | zero =>
    have hnotify : (s.setWriter t (.notify s.hasLoop)).writers t = .notify s.hasLoop := Function.update_self ..
    have hcall := h.setWriter (t := t) (w := .notify s.hasLoop) fun _ => h.hasLoop
    refine ⟨_, .tail (.tail (.single (.notify ht)) (.callSoon hnotify)) (.advance ?_ ?_), ?_⟩
    · exact (hcall.callSoon hnotify).binding
    · rw [h.hasLoop]
      exact Nat.succ_pos _
    · exact (hcall.callSoon hnotify).advance
  | succ others ih =>
    have hnext := h.setWriter (t := t) (w := .listeners others) fun _ => trivial
    obtain ⟨s', hrun, hset⟩ := ih hnext (Function.update_self ..)
    exact ⟨s', .head (.listener ht) hrun, hset⟩

/-- The threads and callbacks that are on their way set the event. -/
theorem WillSet.sets (h : s.WillSet event) :
    ∃ s', Relation.ReflTransGen (Step asks) s s' ∧ s'.isSet event = true := by
  cases h.notified with
  | inl hscheduled => exact ⟨_, .single (.advance h.binding hscheduled), h.advance⟩
  | inr hthread =>
    obtain ⟨t, ht⟩ := hthread
    cases hwriter : s.writers t with
    | outside =>
      rw [hwriter] at ht
      cases ht
    | listeners others => exact h.sets_of_listeners hwriter
    | notify hasLoop =>
      rw [hwriter] at ht
      obtain rfl : hasLoop = true := ht
      have hcall := h.callSoon hwriter
      exact ⟨_, .tail (.single (.callSoon hwriter)) (.advance hcall.binding (Nat.succ_pos _)), hcall.advance⟩

end Changes

/-- One caller that knows revision 1. -/
def knowsOne : Asks Unit Unit := ⟨fun _ => (), fun _ => 1⟩

/-- The caller waits, and then a write is committed. -/
def writtenWhileWaiting : Changes Unit Unit Unit :=
  let s : Changes Unit Unit Unit := { revision := fun _ => some 1 }
  let s := ((s.setCaller () .turn).bindLoop ()).bindEvent ()
  ((s.get () 0 ()).checkRevision () 0 1 1).commit () (fun _ => some 2) 0

lemma reachable_writtenWhileWaiting : Reachable knowsOne writtenWhileWaiting :=
  have h₀ : Reachable knowsOne { revision := fun _ => some 1 } := .init fun _ => some 1
  have h₁ := h₀.step (.call (c := ()) rfl rfl)
  have h₂ := h₁.step (.bindLoop (c := ()) rfl rfl rfl)
  have h₃ := h₂.step (.bindEvent rfl)
  have h₄ := h₃.step (.get (c := ()) (show _ = WaitStatus.getting 0 from rfl))
  have h₅ := h₄.step (.checkRevision (c := ()) rfl (show _ = WaitStatus.got 0 1 from rfl))
  h₅.step (.commit (t := ()) (fun _ => some 2) 0 rfl)

theorem wait_status_woken_written : writtenWhileWaiting.WillSet 0 :=
  wait_status_woken (c := ()) reachable_writtenWhileWaiting ⟨rfl, rfl⟩ ⟨2, rfl, by decide⟩

end Quail.Server
