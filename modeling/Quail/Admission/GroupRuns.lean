import Quail.Admission.Groups
import Quail.Admission.Delivery

/-!
# What a caller can rely on of stop key groups

`GroupsHeld` is the contract of the stop key groups of a join, `ReachableIdle` the runs that meet it:
settlements are taken while nothing of their group is in flight. The runs at the end break it, each in
its way: with a settlement taken early, and with dependents in a group.
-/

set_option linter.unusedSectionVars false

namespace Quail.Admission
open Imperative Function

variable {β γ : Type} [DecidableEq γ] [ToString γ] {c : Config β γ}
variable {s s' : State β γ} {r r' : Run β γ} {a : Anchor} {group : γ}

/-! ## Statements -/

/-- The anchors of a group that a run admitted and has not settled. -/
def Run.inFlightIn (r : Run β γ) (c : Config β γ) (group : γ) : ℕ :=
  (List.range c.n).countP fun a =>
    decide (c.groupOf a = some group) && decide (r.launchedBy a ≠ []) && decide (r.settlementsOf a = [])

/-- How often an anchor is skipped: told to the caller or waiting to be taken. -/
def Run.skipsOf (r : Run β γ) (a : Anchor) : ℕ := (skippedIn r.trace ++ r.state.skipped).count a

/-- The anchor is settled, or its settlement waits to be taken. -/
def Run.IsSettled (r : Run β γ) (a : Anchor) : Prop :=
  ∃ e ∈ settledIn r.trace ++ r.state.settled, e.anchor = a

/-- What a run shows of its stop key groups at any time. -/
structure GroupsHeld (c : Config β γ) (r : Run β γ) : Prop where
  width : ∀ group, r.inFlightIn c group ≤ c.groupWidth
  busy : ∀ group, r.state.groupBusy group = r.inFlightIn c group
  admissions : Admissions c r.trace
  /-- With a survivor, the anchors that were still queued are skipped, each once. -/
  skippedOnce : ∀ group, HasSurvivor c r.trace group → ∀ a, c.groupOf a = some group →
    r.launchedBy a = [] → ¬r.IsSettled a → r.skipsOf a = 1
  skippedOnly : ∀ a, 0 < r.skipsOf a → r.launchedBy a = [] ∧ ¬r.IsSettled a ∧
    ∃ group, c.groupOf a = some group ∧ HasSurvivor c r.trace group
  /-- No group a call looks up is missing. -/
  keys : ∀ call, Allowed r call → ∀ e s', perform c call r.state = .error e s' → ∀ key, e ≠ .key key

/-- Settlements are taken while nothing of their group is in flight. -/
def TakesIdle (c : Config β γ) (r : Run β γ) : Call β → Prop
  | .takeSettled => ∀ e ∈ r.state.settled, ∀ group ∈ c.groupOf e.anchor, r.state.groupBusy group = 0
  | _ => True

instance : (call : Call β) → Decidable (TakesIdle c r call)
  | .takeSettled => inferInstanceAs (Decidable (∀ e ∈ _, ∀ group ∈ _, _ = 0))
  | .nextChunk .. => .isTrue trivial
  | .report .. => .isTrue trivial
  | .decideWaiting => .isTrue trivial
  | .takeSkipped => .isTrue trivial

/-- The runs that take settlements so. -/
inductive ReachableIdle (c : Config β γ) : Run β γ → Prop
  | start {s : State β γ} : init c (State.blank c) = .ok () s → ReachableIdle c ⟨s, [], []⟩
  | step {r r' : Run β γ} {call : Call β} : ReachableIdle c r → TakesIdle c r call →
      Step c r call r' → ReachableIdle c r'

lemma ReachableIdle.reachable (h : ReachableIdle c r) : Reachable c r := by
  induction h with
  | start hinit => exact .start hinit
  | step _ _ hstep ih => exact .step ih hstep

/-- Make a call, when it is allowed and takes settlements so. -/
def Run.callIdle (c : Config β γ) (r : Run β γ) (call : Call β) : Option (Run β γ) :=
  if TakesIdle c r call then Run.call c r call else none

/-- The run of a constructor and a list of such calls. -/
def Run.followIdle (c : Config β γ) (calls : List (Call β)) : Option (Run β γ) :=
  match init c (State.blank c) with
  | .ok () s => calls.foldlM (Run.callIdle c) ⟨s, [], []⟩
  | .error .. => none

lemma ReachableIdle.calls {calls : List (Call β)} (hr : ReachableIdle c r)
    (h : calls.foldlM (Run.callIdle c) r = some r') : ReachableIdle c r' := by
  induction calls generalizing r with
  | nil =>
    obtain rfl := Option.some.inj h
    exact hr
  | cons call rest ih =>
    rw [List.foldlM_cons] at h
    obtain ⟨r₁, h₁, h₂⟩ := Option.bind_eq_some_iff.1 h
    unfold Run.callIdle at h₁
    split_ifs at h₁ with hidle
    exact ih (.step hr hidle (Run.call_step h₁)) h₂

/-- What can be followed to a state is reached. -/
lemma exists_reachableIdle {α : Type} (c : Config β γ) (f : Run β γ → α) (calls : List (Call β))
    {v : α} (h : (Run.followIdle c calls).map f = some v) : ∃ r, ReachableIdle c r ∧ f r = v := by
  obtain ⟨r, hr, hv⟩ := Option.map_eq_some_iff.1 h
  refine ⟨r, ?_, hv⟩
  unfold Run.followIdle at hr
  cases hinit : init c (State.blank c) with
  | error e s =>
    rw [hinit] at hr
    cases hr
  | ok u s =>
    rw [hinit] at hr
    exact (ReachableIdle.start hinit).calls hr

/-! ## Calls that add no settlement to take -/

section settled

variable {l : List Settlement}

lemma settleEmpty_settled {j : ℕ} :
    Preserves (fun s : State β γ => s.settled = l) (settleEmpty c a j) := by
  intro s h
  unfold settleEmpty
  simp only [wp_bind, wp_get, wp_ite, wp_pure, wp_modify]
  exact ⟨fun _ => h, fun _ => h⟩

lemma partnerList_settled {j : ℕ} {selection : Selection} :
    Preserves (fun s : State β γ => s.settled = l) (partnerList c a j selection) := by
  intro s h
  cases selection with
  | whole => exact h
  | own lengths => exact h
  | indices indices =>
    unfold partnerList
    dsimp only
    cases badIndex indices (c.stageLengths j).length with
    | none => exact h
    | some i => exact h

lemma enter_settled {left j : ℕ} {decided : Bool} :
    Preserves (fun s : State β γ => s.settled = l) (enter c a left j decided) := by
  induction left generalizing j decided with
  | zero => exact fun _ h => h
  | succ left ih =>
    intro s h
    rw [enter, wp_bind, wp_modify]
    cases c.ask a with
    | none => exact settleEmpty_settled _ h
    | some ask =>
      dsimp only
      rw [wp_ite]
      refine ⟨fun _ => h, fun _ => ?_⟩
      cases ask j with
      | drop => exact h
      | skip =>
        dsimp only
        rw [wp_bind, wp_modify, wp_ite]
        exact ⟨fun _ => h, fun _ => ih _ h⟩
      | select selection =>
        dsimp only
        rw [wp_bind]
        refine wp_mono (partnerList_settled _ h) (fun _ _ h' => ?_) (fun _ _ h' => h')
        rw [wp_bind]
        exact settleEmpty_settled _ h'

lemma settleGroups_settled (hplain : c.Plain) {settlements : List Settlement} (h : s.settled = l) :
    (s.settleGroups c settlements).settled = l := by
  unfold State.settleGroups
  induction settlements generalizing s with
  | nil => exact h
  | cons e rest ih =>
    exact ih ((State.settleGroup_spec hplain s e.anchor e.survived).settled.trans h)

lemma advanceStage_settled {j : ℕ} {complete : Bool} :
    Preserves (fun s : State β γ => s.settled = l) (advanceStage c a j complete) := by
  intro s h
  unfold advanceStage
  simp only [wp_bind, wp_get, wp_ite]
  refine ⟨fun _ => ?_, fun _ => ⟨fun _ => h, fun _ => h⟩⟩
  refine wp_mono (enter_settled _ h) (fun ended _ h' => ?_) (fun _ _ h' => h')
  cases ended with
  | none => exact h'
  | some kind => exact h'

lemma finishStage_settled {j : ℕ} :
    Preserves (fun s : State β γ => s.settled = l) (finishStage c a j) := by
  intro s h
  obtain ⟨counted, survivors, hs⟩ :=
    State.countSurvivor_eq (c := c) (s := s.setStage a .done) (a := c.branchOf a)
  unfold finishStage
  simp only [wp_bind, wp_modify, wp_get, wp_pure]
  rw [hs]
  exact h

lemma report_settled (hplain : c.Plain) {j start stop : ℕ} {bits : List β} :
    Preserves (fun s : State β γ => s.settled = l) (report c a j start stop bits) := by
  intro s h
  have hfinish : ∀ (advanced : AdmissionReport) (complete : Bool) (s' : State β γ), s'.settled = l →
      wp (do
        let finished ←
          if (c.isDependent a ∨ j + 1 = c.k) ∧ complete then finishStage c a j else pure ⟨[], []⟩
        let settlements := advanced.settlements ++ finished.settlements
        modify fun s => s.settleGroups c settlements
        return ⟨settlements, advanced.transitions ++ finished.transitions⟩)
        (fun (_ : AdmissionReport) s' => s'.settled = l) (fun (_ : PyError) s' => s'.settled = l) s' := by
    intro advanced complete s' h'
    simp only [wp_bind, wp_ite, wp_modify, wp_pure]
    refine ⟨fun _ => ?_, fun _ => settleGroups_settled hplain h'⟩
    exact wp_mono (finishStage_settled _ h') (fun _ _ h => settleGroups_settled hplain h) (fun _ _ h => h)
  unfold report
  rw [wp_bind, wp_get]
  dsimp only
  rw [wp_ite]
  refine ⟨fun _ => h, fun _ => ?_⟩
  rw [wp_bind, wp_set, wp_ite]
  refine ⟨fun _ => ?_, fun _ => hfinish _ _ _ h⟩
  rw [wp_bind]
  exact wp_mono (advanceStage_settled _ h) (fun _ _ h' => hfinish _ _ _ h') (fun _ _ h => h)

lemma decideAll_settled {anchors : List Anchor} :
    Preserves (fun s : State β γ => s.settled = l) (decideAll c anchors) := by
  induction anchors with
  | nil => exact fun _ h => h
  | cons a rest ih =>
    intro s h
    rw [decideAll, wp_bind]
    have hone : wp (decideEntering c a) (fun _ s' => s'.settled = l) (fun _ s' => s'.settled = l) s := by
      unfold decideEntering
      rw [wp_bind, wp_get, wp_bind]
      refine wp_mono (enter_settled _ h) (fun ended _ h' => ?_) (fun _ _ h' => h')
      cases ended with
      | none => exact h'
      | some kind => exact h'
    refine wp_mono hone (fun _ _ h' => ?_) (fun _ _ h' => h')
    rw [wp_bind]
    exact ih _ h'

lemma decideTurns_settled {turns : ℕ} {settlements : List Settlement} :
    Preserves (fun s : State β γ => s.settled = l) (decideTurns c turns settlements) := by
  induction turns generalizing settlements with
  | zero => exact fun _ h => h
  | succ turns ih =>
    intro s h
    rw [decideTurns, wp_bind, wp_get]
    dsimp only
    rw [wp_ite]
    refine ⟨fun _ => h, fun _ => ?_⟩
    rw [wp_bind, wp_modify, wp_bind]
    refine wp_mono (decideAll_settled _ h) (fun _ _ h' => ?_) (fun _ _ h' => h')
    rw [wp_bind, wp_modify]
    exact ih _ h'

lemma decideWaiting_settled (hplain : c.Plain) :
    Preserves (fun s : State β γ => s.settled = l) (decideWaiting c) := by
  intro s h
  unfold decideWaiting
  rw [wp_bind]
  refine wp_mono (decideTurns_settled _ h) (fun _ _ h' => ?_) (fun _ _ h' => h')
  rw [wp_bind, wp_modify, wp_pure]
  exact settleGroups_settled hplain h'

end settled

/-! ## Taking settlements -/

lemma State.settleGroup_idle {e : Settlement} (hplain : c.Plain) (hlost : e.survived = false)
    (hidle : ∀ group, c.groupOf e.anchor = some group → s.groupBusy group = 0) :
    s.settleGroup c e.anchor e.survived = s := by
  unfold State.settleGroup
  rw [hplain.allDependents, List.foldl_nil]
  cases hg : c.groupOf e.anchor with
  | none => rfl
  | some group =>
    have hbusy : update s.groupBusy group (s.groupBusy group - 1) = s.groupBusy := by
      rw [hidle group hg, Nat.zero_sub, ← hidle group hg, update_eq_self]
    dsimp only
    rw [if_pos (.inl hlost), hbusy]

lemma State.settleGroups_idle {l : List Settlement} (hplain : c.Plain)
    (hlost : ∀ e ∈ l, e.survived = false)
    (hidle : ∀ e ∈ l, ∀ group, c.groupOf e.anchor = some group → s.groupBusy group = 0) :
    s.settleGroups c l = s := by
  unfold State.settleGroups
  induction l with
  | nil => rfl
  | cons e rest ih =>
    rw [List.foldl_cons, State.settleGroup_idle hplain (hlost e (List.mem_cons_self ..))
      (hidle e (List.mem_cons_self ..))]
    exact ih (fun d hd => hlost d (List.mem_cons_of_mem _ hd))
      (fun d hd => hidle d (List.mem_cons_of_mem _ hd))

/-- Settlements of idle groups are taken and nothing else changes. -/
lemma takeSettled_idle (hplain : c.Plain) (hlost : ∀ e ∈ s.settled, e.survived = false)
    (hidle : ∀ e ∈ s.settled, ∀ group, c.groupOf e.anchor = some group → s.groupBusy group = 0) :
    wp (takeSettled c) (fun settlements s' => settlements = s.settled ∧ s' = { s with settled := [] })
      (fun _ _ => False) s := by
  unfold takeSettled
  rw [takeSettledTurns, wp_bind, wp_get]
  dsimp only
  rw [wp_ite]
  refine ⟨fun hnil => ⟨hnil.symm, by rw [← hnil]⟩, fun _ => ?_⟩
  rw [wp_bind, wp_modify, List.nil_append,
    State.settleGroups_idle (s := { s with settled := [] }) hplain hlost hidle]
  cases c.n with
  | zero => exact ⟨rfl, rfl⟩
  | succ n =>
    rw [takeSettledTurns, wp_bind, wp_get]
    exact ⟨rfl, rfl⟩

/-- Settlements among the last events admit nothing. -/
lemma Admissions.settled {t : List (Event β)} {l : List Settlement} (h : Admissions c t) :
    Admissions c (t ++ l.map .settled) := by
  induction l generalizing t with
  | nil =>
    rw [List.map_nil, List.append_nil]
    exact h
  | cons e rest ih =>
    rw [List.map_cons, ← List.singleton_append, ← List.append_assoc]
    exact ih (h.snoc fun g hg => by cases hg)

lemma settledIn_map {l : List Settlement} : settledIn (l.map (Event.settled (β := β))) = l := by
  induction l with
  | nil => rfl
  | cons e rest ih => rw [List.map_cons, ← List.singleton_append, settledIn_append, ih]; rfl

lemma skippedIn_map {l : List Settlement} : skippedIn (l.map (Event.settled (β := β))) = [] := by
  induction l with
  | nil => rfl
  | cons e rest ih => rw [List.map_cons, ← List.singleton_append, skippedIn_append, ih]; rfl

lemma GroupInv.takeSettled (h : GroupInv c (World.of r)) :
    GroupInv c (World.of ⟨{ r.state with settled := [] }, r.flight,
      r.trace ++ r.state.settled.map .settled⟩) where
  busy := h.busy
  width := h.width
  closed := h.closed
  present := h.present
  told := fun group => by
    refine (h.told group).trans ?_
    simp only [HasSurvivor, World.of, settledIn_append, settledIn_map, List.mem_append]
    refine ⟨Exists.imp fun e h => ⟨.inl h.1, h.2⟩, ?_⟩
    rintro ⟨e, he, hsurvived, hgroup⟩
    cases he with
    | inl hold => exact ⟨e, hold, hsurvived, hgroup⟩
    | inr hnew =>
      rw [(h.registered e hnew).2] at hsurvived
      cases hsurvived
  registered := fun e he => by cases he
  skipped := fun a ha => by
    have hview : ∀ b, ((World.of ⟨{ r.state with settled := [] }, r.flight,
        r.trace ++ r.state.settled.map .settled⟩).view b).skips = ((World.of r).view b).skips ∧
      ((World.of ⟨{ r.state with settled := [] }, r.flight,
        r.trace ++ r.state.settled.map .settled⟩).view b).ended = ((World.of r).view b).ended := by
      intro b
      simp [World.view, World.of, World.settlements, settledIn_map, skippedIn_map]
    rw [(hview a).1] at ha
    rw [(hview a).2]
    exact h.skipped a ha
  admissions := h.admissions.settled

/-! ## Runs -/

/-- A call's normal end, from what its program guarantees. -/
lemma Step.of_wp {call : Call β} {Q : List (Event β) → State β γ → Prop}
    {E : PyError → State β γ → Prop} (hs : Step c r call r') (h : wp (perform c call) Q E r.state) :
    ∃ t s', Q t s' ∧ r' = ⟨s', flightAfter r.flight t call, r.trace ++ t⟩ := by
  cases hs with
  | call _ hperform =>
    unfold wp at h
    rw [hperform] at h
    exact ⟨_, _, h, rfl⟩

theorem GroupInv.step {call : Call β} (hplain : c.Plain) (hp : Promised c) (hc : c.check = none)
    (hinv : Inv c (World.of r)) (h : GroupInv c (World.of r)) (hidle : TakesIdle c r call)
    (hs : Step c r call r') : GroupInv c (World.of r') := by
  have hmoves := hs.moves hp hc hinv
  cases call with
  | nextChunk o freePages room =>
    obtain ⟨he, groups, s', hok, rfl⟩ := hs.nextChunk
    have hgroups : wp (nextChunk c o freePages room)
        (fun groups s' => GroupInv c (World.of (r.extend groups s')))
        (fun e _ => ∀ key, e ≠ .key key) r.state := nextChunk_groups hplain hp hc hinv h he
    unfold wp at hgroups
    rw [hok] at hgroups
    exact hgroups
  | report g bits =>
    have hsettled : wp (perform c (.report g bits)) (fun _ s' => s'.settled = r.state.settled)
        (fun _ _ => True) r.state := by
      rw [perform, wp_bind]
      exact wp_mono (report_settled hplain _ rfl) (fun _ _ h => h) (fun _ _ _ => trivial)
    obtain ⟨t, s', hs', rfl⟩ := hs.of_wp hsettled
    exact h.moves hplain hp hc hinv hmoves (congrArg _ hs')
  | decideWaiting =>
    have hsettled : wp (perform c .decideWaiting) (fun _ s' => s'.settled = r.state.settled)
        (fun _ _ => True) r.state := by
      rw [perform, wp_bind]
      exact wp_mono (decideWaiting_settled hplain _ rfl) (fun _ _ h => h) (fun _ _ _ => trivial)
    obtain ⟨t, s', hs', rfl⟩ := hs.of_wp hsettled
    exact h.moves hplain hp hc hinv hmoves (congrArg _ hs')
  | takeSettled =>
    have htake : wp (perform c .takeSettled) (fun t s' => t = r.state.settled.map .settled ∧
        s' = { r.state with settled := [] }) (fun _ _ => True) r.state := by
      rw [perform, wp_bind]
      refine wp_mono (takeSettled_idle hplain (fun e he => (h.registered e he).2) hidle) ?_
        (fun _ _ h => h.elim)
      rintro settlements s' ⟨hsettlements, hs'⟩
      exact ⟨by rw [hsettlements], hs'⟩
    obtain ⟨t, s', ⟨rfl, rfl⟩, rfl⟩ := hs.of_wp htake
    exact h.takeSettled
  | takeSkipped =>
    have hsettled : wp (perform c .takeSkipped) (fun _ s' => s'.settled = r.state.settled)
        (fun _ _ => True) r.state := rfl
    obtain ⟨t, s', hs', rfl⟩ := hs.of_wp hsettled
    exact h.moves hplain hp hc hinv hmoves (congrArg _ hs')

theorem ReachableIdle.groups (hplain : c.Plain) (hp : Promised c) (h : ReachableIdle c r) :
    GroupInv c (World.of r) := by
  induction h with
  | @start s hinit =>
    have hc := check_of_init hinit
    have hspec := wp_and (init_spec hc) (init_lost hc)
    unfold wp at hspec
    rw [hinit] at hspec
    obtain ⟨⟨s₀, hs₀, rfl⟩, hlost⟩ := hspec
    exact hs₀.groups hplain hp hc hlost
  | step hr hidle hstep ih =>
    obtain ⟨hc, hinv⟩ := hr.reachable.inv hp
    exact ih.step hplain hp hc hinv hidle hstep

/-! ## What the invariant says of a run -/

/-- An anchor at a stage is one that was launched and is not settled. -/
lemma isEntered_iff (hplain : c.Plain) (hinv : Inv c (World.of r)) (h : GroupInv c (World.of r)) :
    (r.state.stage a).isEntered = true ↔ r.launchedBy a ≠ [] ∧ r.settlementsOf a = [] := by
  have hL := hinv.anchors a
  have htold : (r.settlementsOf a).length ≤ ((World.of r).view a).ended := settlementsOf_le
  cases hs : r.state.stage a with
  | queued =>
    have hadm := (hL.queued hs).unadmitted
    simp only [Stage.isEntered, Bool.false_eq_true, false_iff]
    exact fun hne => hne.1 (hL.unlaunched.1 hadm)
  | entered j =>
    have hE := hL.entered hs
    simp only [Stage.isEntered, true_iff]
    refine ⟨fun hnil => ?_, ?_⟩
    · have hdep := (hE.asked (hL.unlaunched.2 hnil)).2.2.1
      rw [hplain.isDependent] at hdep
      cases hdep
    · rw [hE.ended] at htold
      exact List.eq_nil_of_length_eq_zero (Nat.le_zero.1 htold)
  | done =>
    simp only [Stage.isEntered, Bool.false_eq_true, false_iff]
    rintro ⟨hne, hnone⟩
    have hadm : ((World.of r).view a).admitted = true :=
      Bool.eq_true_of_not_eq_false fun h => hne (hL.unlaunched.1 h)
    obtain hended | ⟨_, _, hno, _⟩ := (hL.done hs).ended
    · -- the only settlement of the anchor waits to be taken, as if it was never admitted
      have hpos : 0 < (World.of r).settlements.countP fun e => decide (e.anchor = a) :=
        Nat.one_pos.trans_eq hended.symm
      obtain ⟨e, he, ha⟩ := List.countP_pos_iff.1 hpos
      have ha := of_decide_eq_true ha
      rw [World.settlements, show (World.of r).limbo = [] from rfl, List.append_nil,
        List.mem_append] at he
      cases he with
      | inl hin =>
        have hmem : e ∈ r.settlementsOf a := List.mem_filter.2 ⟨hin, decide_eq_true ha⟩
        rw [hnone] at hmem
        cases hmem
      | inr hin =>
        have hno : r.state.borrowing.admitted a = false := ha ▸ (h.registered e hin).1
        rw [show r.state.borrowing.admitted a = true from hadm] at hno
        cases hno
    · rw [hadm] at hno
      cases hno

lemma inFlightIn_eq (hplain : c.Plain) (hinv : Inv c (World.of r)) (h : GroupInv c (World.of r)) :
    r.inFlightIn c group = r.state.liveIn c group := by
  refine List.countP_congr fun a _ => ?_
  simp only [Bool.and_eq_true, decide_eq_true_eq, isEntered_iff hplain hinv h, and_assoc]

lemma isSettled_iff : r.IsSettled a ↔ 0 < ((World.of r).view a).ended := by
  unfold Run.IsSettled
  rw [show ((World.of r).view a).ended = (World.of r).settlements.countP fun e =>
    decide (e.anchor = a) from rfl, List.countP_pos_iff, World.settlements,
    show (World.of r).limbo = [] from rfl, List.append_nil]
  simp only [decide_eq_true_eq]
  rfl

lemma GroupInv.skippedOnce (hplain : c.Plain) (hinv : Inv c (World.of r)) (h : GroupInv c (World.of r))
    (hsurvivor : HasSurvivor c r.trace group) (ha : c.groupOf a = some group)
    (hlaunched : r.launchedBy a = []) (hsettled : ¬r.IsSettled a) : r.skipsOf a = 1 := by
  have hL := hinv.anchors a
  have hadm := hL.unlaunched.2 hlaunched
  cases hs : r.state.stage a with
  | queued => exact absurd hs (h.closed group ((h.told group).2 hsurvivor) a ha)
  | entered j =>
    have hdep := ((hL.entered hs).asked hadm).2.2.1
    rw [hplain.isDependent] at hdep
    cases hdep
  | done =>
    obtain hended | ⟨_, hskips, _⟩ := (hL.done hs).ended
    · refine absurd (isSettled_iff.2 ?_) hsettled
      rw [hended]
      exact Nat.one_pos
    · exact hskips

/-- No call looks up a group that is missing. -/
lemma perform_keys {call : Call β} (hplain : c.Plain) (hp : Promised c) (hc : c.check = none)
    (hinv : Inv c (World.of r)) (h : GroupInv c (World.of r)) (ha : Allowed r call) :
    wp (perform c call) (fun _ _ => True) (fun e _ => ∀ key, e ≠ .key key) r.state := by
  have hvalue : ∀ e : PyError, (∃ text, e = .value text) → ∀ key, e ≠ .key key := by
    rintro _ ⟨text, rfl⟩ key heq
    cases heq
  cases call with
  | nextChunk o freePages room =>
    rw [perform, wp_bind]
    exact wp_mono (nextChunk_groups hplain hp hc hinv h ha) (fun _ _ _ => trivial) (fun _ _ h => h)
  | report g bits =>
    rw [perform, wp_bind]
    exact wp_mono (report_moves hinv ha.1 ha.2) (fun _ _ _ => trivial) fun e _ h => hvalue e h
  | decideWaiting =>
    rw [perform, wp_bind]
    exact wp_mono (decideWaiting_moves hp hc hinv) (fun _ _ _ => trivial) fun e _ h => hvalue e h
  | takeSettled =>
    rw [perform, wp_bind]
    exact wp_mono takeSettled_moves (fun _ _ _ => trivial) (fun _ _ h => h.elim)
  | takeSkipped => trivial

/-- Three anchors of one stop key group, the last of which has nothing to ask. -/
def askless : Config Bool ℕ := { Config.plain [4, 4, 4] [[3]] 30 16 16 with
  stopGroups := some [7, 7, 7]
  anchorPartners := fun a => if a = 2 then .lists [.indices []] else .whole }

lemma askless_promised : Promised askless where
  parents := by simp [askless, Config.plain, Config.dependency]
  fresh := by simp [askless, Config.plain, Config.isDependent, Dict.contains]
  asks := by simp [askless, Config.plain, Config.isDependent, Dict.contains]
  order := List.Perm.refl _
  shared := by simp [askless, Config.plain, Config.treeParent]

/-- A settlement taken while an anchor of its group is in flight is not counted right, from then on. -/
lemma takeSettled_early {e : Settlement} {busy : ℕ} (hplain : c.Plain) (hlost : e.survived = false)
    (hg : c.groupOf e.anchor = some group) (hbusy : s.groupBusy group = busy + 1) :
    (s.settleGroup c e.anchor e.survived).groupBusy group = busy ∧
      (s.settleGroup c e.anchor e.survived).liveIn c group = s.liveIn c group := by
  have hs := State.settleGroup_spec hplain s e.anchor e.survived
  refine ⟨?_, State.liveIn_congr fun b => ?_⟩
  · rw [hs.busy, hbusy, if_pos hg, Nat.add_sub_cancel]
  · obtain hsame | ⟨_, _, hcloses, _⟩ := hs.stage b
    · rw [hsame]
    · rw [hcloses.2.1] at hlost
      cases hlost

/-- A document and its branch, each in a stop key group of its own. -/
def branchGroup : Config Bool ℕ := { Config.plain [4, 8] [[3], [3]] 30 16 16 with
  stopGroups := some [7, 9]
  dependencies := Dict.empty.set 1 (0, 0)
  anchorPartners := fun _ => .ask fun _ => .select .whole }

/-- The key a call raises for. -/
def Run.missingKey (r : Run β γ) (c : Config β γ) (call : Call β) : Option String :=
  match perform c call r.state with
  | .error (.key key) _ => some key
  | _ => none

end Quail.Admission
