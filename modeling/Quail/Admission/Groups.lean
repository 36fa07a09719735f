import Quail.Admission.Register

/-!
# Stop key groups

At most `stop_width` anchors of a stop key group are in flight, and once one survives the last stage
the queued ones are skipped. The count of a group goes up when an anchor is admitted and down when one
is settled. Anchors that settle without being admitted lower it too, so the group is counted right as
long as these are taken while nothing of their group is in flight; and dependents are no members of
their group, so a group and dependents do not mix.
-/

set_option linter.unusedSectionVars false

namespace Quail.Admission
open Imperative Function

variable {β γ : Type} [DecidableEq γ] [ToString γ] {c : Config β γ}
variable {s s' : State β γ} {w w' : World β γ} {a b : Anchor} {group : γ}

/-! ## Joins without dependents -/

/-- No anchor depends on another one. -/
def Config.Plain (c : Config β γ) : Prop := c.dependencies.keys = []

lemma Config.Plain.isDependent (h : c.Plain) : c.isDependent a = false := by
  cases hd : c.isDependent a with
  | false => rfl
  | true =>
    have hmem : a ∈ c.dependencies.keys := Dict.contains_iff_mem_keys.1 hd
    rw [h] at hmem
    cases hmem

lemma Config.Plain.allDependents (h : c.Plain) : c.allDependents a = [] := by
  refine List.eq_nil_iff_forall_not_mem.2 fun d hd => ?_
  obtain ⟨j, _, hj⟩ := List.mem_flatMap.1 hd
  have hdep := Config.isDependent_of_mem hj
  rw [h.isDependent] at hdep
  cases hdep

lemma Config.groupOf_lt (hc : c.check = none) (h : c.groupOf a = some group) : a < c.n := by
  unfold Config.check at hc
  split_ifs at hc with hlen
  cases hg : c.stopGroups with
  | none =>
    rw [Config.groupOf, hg] at h
    cases h
  | some groups =>
    rw [Config.groupOf, hg] at h
    obtain ⟨hlt, _⟩ := List.getElem?_eq_some_iff.1 h
    rw [hg] at hlen
    simp only [Option.any_some, ne_eq, decide_not, Bool.not_eq_true', decide_eq_false_iff_not,
      not_not] at hlen
    exact hlen ▸ hlt

/-! ## Anchors in flight -/

/-- Whether a stage is one of an admitted anchor that is not settled yet. -/
def Stage.isEntered : Stage → Bool
  | .entered _ => true
  | _ => false

/-- The anchors of a group admitted and not yet settled. -/
def State.liveIn (s : State β γ) (c : Config β γ) (group : γ) : ℕ :=
  (List.range c.n).countP fun a => decide (c.groupOf a = some group) && (s.stage a).isEntered

/-- Changing a count at one element of a list without repetitions. -/
lemma countP_update {l : List Anchor} (hl : l.Nodup) (ha : a ∈ l) {p q : Anchor → Bool}
    (h : ∀ b, b ≠ a → p b = q b) :
    l.countP q + (if p a then 1 else 0) = l.countP p + if q a then 1 else 0 := by
  have hperm := List.perm_cons_erase ha
  have hne : ∀ b ∈ l.erase a, p b = q b := fun b hb => h b fun heq =>
    (hl.mem_erase_iff.1 hb).1 heq
  have hcongr : (l.erase a).countP p = (l.erase a).countP q :=
    List.countP_congr fun b hb => by rw [hne b hb]
  rw [hperm.countP_eq, hperm.countP_eq p, List.countP_cons, List.countP_cons, hcongr]
  omega

lemma State.liveIn_congr (h : ∀ b, (s'.stage b).isEntered = (s.stage b).isEntered) :
    s'.liveIn c group = s.liveIn c group :=
  List.countP_congr fun b _ => by rw [h b]

/-- An anchor's own stage changes. -/
lemma State.liveIn_update (group : γ) (ha : a < c.n) (h : ∀ b, b ≠ a → s'.stage b = s.stage b) :
    s'.liveIn c group +
        (if c.groupOf a = some group ∧ (s.stage a).isEntered = true then 1 else 0) =
      s.liveIn c group +
        if c.groupOf a = some group ∧ (s'.stage a).isEntered = true then 1 else 0 := by
  have hcount := countP_update List.nodup_range (List.mem_range.2 ha)
    (p := fun b => decide (c.groupOf b = some group) && (s.stage b).isEntered)
    (q := fun b => decide (c.groupOf b = some group) && (s'.stage b).isEntered)
    (fun b hb => by rw [h b hb])
  simpa only [State.liveIn, Bool.and_eq_true, decide_eq_true_eq] using hcount

/-! ## Settling a group -/

lemma State.skipMembers_done {l : List Anchor} : ∃ zeroCost dead, l.foldl State.skipMember s = { s with
    stage := fun b => if b ∈ l then .done else s.stage b
    skipped := s.skipped ++ l
    zeroCost, dead } := by
  induction l generalizing s with
  | nil => exact ⟨s.zeroCost, s.dead, by simp⟩
  | cons b l ih =>
    obtain ⟨zeroCost, dead, heq⟩ := ih (s := s.skipMember b)
    refine ⟨zeroCost, dead, ?_⟩
    rw [List.foldl_cons, heq]
    simp only [State.skipMember, State.setStage, List.append_assoc, List.cons_append, List.nil_append]
    congr 1
    funext d
    by_cases hd : d ∈ l
    · simp [hd]
    · by_cases hdb : d = b <;> simp [hd, hdb]

/-- The queued anchors of a group. -/
def State.membersIn (s : State β γ) (group : γ) : List Anchor := (s.groupMembers group).getD []

/-- The group of the anchor is settled with its first survivor. -/
def State.Closes (s : State β γ) (c : Config β γ) (a : Anchor) (survived : Bool) (group : γ) : Prop :=
  c.groupOf a = some group ∧ survived = true ∧ s.groupDone group = false

/-- What settling an anchor does to the groups. -/
structure SettledGroup (c : Config β γ) (s : State β γ) (a : Anchor) (survived : Bool)
    (s' : State β γ) : Prop where
  busy : ∀ group, s'.groupBusy group = s.groupBusy group - if c.groupOf a = some group then 1 else 0
  done : ∀ group, s'.groupDone group = true ↔
    s.groupDone group = true ∨ (survived = true ∧ c.groupOf a = some group)
  members : ∀ group, s'.groupDone group = false → s'.membersIn group = s.membersIn group
  stage : ∀ b, s'.stage b = s.stage b ∨
    s'.stage b = .done ∧ ∃ group, s.Closes c a survived group ∧ b ∈ s.membersIn group
  closed : ∀ group, s.Closes c a survived group → ∀ b ∈ s.membersIn group, s'.stage b = .done
  settled : s'.settled = s.settled
  borrowing : s'.borrowing = s.borrowing
  skipped : ∃ l, s'.skipped = s.skipped ++ l ∧
    ∀ b ∈ l, ∃ group, s.Closes c a survived group ∧ b ∈ s.membersIn group

lemma State.settleGroup_spec (hplain : c.Plain) (s : State β γ) (a : Anchor) (survived : Bool) :
    SettledGroup c s a survived (s.settleGroup c a survived) := by
  unfold State.settleGroup
  rw [hplain.allDependents, List.foldl_nil]
  cases hg : c.groupOf a with
  | none =>
    refine ⟨fun _ => by simp [hg], fun _ => by simp [hg], fun _ _ => rfl, fun _ => .inl rfl,
      fun group h => ?_, rfl, rfl, [], (List.append_nil _).symm, fun b hb => (by cases hb)⟩
    rw [Closes, hg] at h
    cases h.1
  | some group =>
    dsimp only
    have hbusy : ∀ group', update s.groupBusy group (s.groupBusy group - 1) group' =
        s.groupBusy group' - if c.groupOf a = some group' then 1 else 0 := by
      intro group'
      by_cases hgg : group' = group
      · simp [hg, hgg]
      · simp [hg, hgg, Ne.symm hgg]
    split_ifs with hkeep
    · refine ⟨hbusy, fun group' => ?_, fun _ _ => rfl, fun _ => .inl rfl, fun group' h => ?_, rfl, rfl,
        [], (List.append_nil _).symm, fun b hb => (by cases hb)⟩
      · refine (or_iff_left_of_imp fun h => ?_).symm
        rw [hg, Option.some.injEq] at h
        exact h.2 ▸ hkeep.resolve_left (by simp [h.1])
      · rw [Closes, hg, Option.some.injEq] at h
        obtain ⟨rfl, hsurvived, hdone⟩ := h
        rw [hsurvived, hdone] at hkeep
        simp at hkeep
    · rw [not_or] at hkeep
      have hcloses : s.Closes c a survived group :=
        ⟨hg, by simpa using hkeep.1, by simpa using hkeep.2⟩
      obtain ⟨zeroCost, dead, heq⟩ := State.skipMembers_done (s := { s with
        groupBusy := update s.groupBusy group (s.groupBusy group - 1)
        groupDone := update s.groupDone group true
        groupMembers := update s.groupMembers group none })
        (l := (s.membersIn group).insertionSort (· ≤ ·))
      have hgroup : ∀ group', s.Closes c a survived group' → group' = group := by
        intro group' h
        rw [Closes, hg, Option.some.injEq] at h
        exact h.1.symm
      refine heq ▸ ⟨hbusy, fun group' => ?_, fun group' hdone => ?_, fun b => ?_, fun group' h b hb => ?_,
        rfl, rfl, _, rfl, fun b hb => ⟨group, hcloses, (List.mem_insertionSort _).1 hb⟩⟩
      · by_cases hgg : group' = group
        · simp [hgg, hg, hcloses.2.1]
        · simp [hgg, hg, Ne.symm hgg]
      · by_cases hgg : group' = group
        · simp [hgg] at hdone
        · simp [State.membersIn, hgg]
      · by_cases hb : b ∈ s.membersIn group
        · exact .inr ⟨by simp [hb], group, hcloses, hb⟩
        · exact .inl (by simp [hb])
      · rw [hgroup group' h] at hb
        simp [hb]

/-! ## The invariant of the groups -/

/-- The admissions of a group end with its survivor: what is launched later was launched before. -/
def Admissions (c : Config β γ) (t : List (Event β)) : Prop :=
  ∀ t₁ t₂ e, t = t₁ ++ .settled e :: t₂ → e.survived = true → ∀ group, c.groupOf e.anchor = some group →
    ∀ g ∈ launches t₂, c.groupOf g.anchor = some group → ∃ g' ∈ launches t₁, g'.anchor = g.anchor

lemma Admissions.snoc {t : List (Event β)} {x : Event β} (h : Admissions c t)
    (hx : ∀ g, x = .launched g → (∃ g' ∈ launches t, g'.anchor = g.anchor) ∨
      ∀ e ∈ settledIn t, e.survived = true → ∀ group, c.groupOf e.anchor = some group →
        c.groupOf g.anchor ≠ some group) : Admissions c (t ++ [x]) := by
  intro t₁ t₂ e heq hsurvived group hgroup g hg hgg
  cases t₂.eq_nil_or_concat with
  | inl hnil =>
    subst hnil
    cases hg
  | inr hlast =>
    obtain ⟨t₂, y, rfl⟩ := hlast
    have hsplit : t ++ [x] = (t₁ ++ .settled e :: t₂) ++ [y] := by
      rw [heq, List.concat_eq_append, ← List.cons_append, ← List.append_assoc]
    obtain ⟨ht, hxy⟩ := List.append_inj' hsplit rfl
    obtain rfl : x = y := List.singleton_inj.1 hxy
    rw [List.concat_eq_append, launches_append, List.mem_append] at hg
    cases hg with
    | inl hold => exact h t₁ t₂ e ht hsurvived group hgroup g hold hgg
    | inr hnew =>
      have hx' : x = .launched g := by
        cases x with
        | launched g' => rw [launches_launched, List.mem_singleton] at hnew; rw [hnew]
        | _ => cases hnew
      cases hx g hx' with
      | inl hbefore =>
        obtain ⟨g', hg', ha⟩ := hbefore
        rw [ht, launches_append, List.mem_append] at hg'
        cases hg' with
        | inl hfirst => exact ⟨g', hfirst, ha⟩
        | inr hlater =>
          obtain ⟨g'', hg'', ha'⟩ := h t₁ t₂ e ht hsurvived group hgroup g' hlater (ha ▸ hgg)
          exact ⟨g'', hg'', ha'.trans ha⟩
      | inr hnone =>
        refine absurd hgg (hnone e ?_ hsurvived group hgroup)
        rw [ht, settledIn_append]
        exact List.mem_append_right _ (List.mem_cons_self ..)

/-- Whether a group has a survivor that the caller was told. -/
def HasSurvivor (c : Config β γ) (t : List (Event β)) (group : γ) : Prop :=
  ∃ e ∈ settledIn t, e.survived = true ∧ c.groupOf e.anchor = some group

/-- What every world says about the groups of a join without dependents. -/
structure GroupInv (c : Config β γ) (w : World β γ) : Prop where
  busy : ∀ group, w.state.groupBusy group =
    w.state.liveIn c group + w.limbo.countP fun e => decide (c.groupOf e.anchor = some group)
  width : ∀ group, w.state.groupBusy group ≤ c.groupWidth
  closed : ∀ group, w.state.groupDone group = true → ∀ a, c.groupOf a = some group →
    w.state.stage a ≠ .queued
  present : ∀ group, w.state.groupDone group = false → ∀ a, c.groupOf a = some group →
    w.state.stage a = .queued → a ∈ w.state.membersIn group
  told : ∀ group, w.state.groupDone group = true ↔ HasSurvivor c w.trace group
  registered : ∀ e ∈ w.state.settled, w.state.borrowing.admitted e.anchor = false ∧ e.survived = false
  skipped : ∀ a, 0 < (w.view a).skips → (w.view a).ended = 0 ∧ w.state.borrowing.admitted a = false ∧
    ∃ group, c.groupOf a = some group ∧ w.state.groupDone group = true
  admissions : Admissions c w.trace

/-- A move that admits, settles and skips nothing keeps the groups. -/
lemma GroupInv.congr (h : GroupInv c w) (hbusy : w'.state.groupBusy = w.state.groupBusy)
    (hdone : w'.state.groupDone = w.state.groupDone)
    (hmembers : w'.state.groupMembers = w.state.groupMembers)
    (hsettled : w'.state.settled = w.state.settled)
    (hadmitted : w'.state.borrowing.admitted = w.state.borrowing.admitted)
    (hstage : ∀ b, w'.state.stage b = .queued → w.state.stage b = .queued)
    (hlive : ∀ group, w'.state.liveIn c group +
        (w'.limbo.countP fun e => decide (c.groupOf e.anchor = some group)) =
      w.state.liveIn c group + w.limbo.countP fun e => decide (c.groupOf e.anchor = some group))
    (htold : settledIn w'.trace = settledIn w.trace)
    (hskips : ∀ b, (w'.view b).skips = (w.view b).skips)
    (hended : ∀ b, 0 < (w.view b).skips → (w'.view b).ended = (w.view b).ended)
    (hadmissions : Admissions c w'.trace) : GroupInv c w' where
  busy := fun group => by rw [hbusy, h.busy, ← hlive]
  width := fun group => hbusy ▸ h.width group
  closed := fun group hd a ha hq => h.closed group (hdone ▸ hd) a ha (hstage a hq)
  present := fun group hd a ha hq => by
    rw [State.membersIn, hmembers]
    exact h.present group (hdone ▸ hd) a ha (hstage a hq)
  told := fun group => by
    rw [hdone, h.told, HasSurvivor, HasSurvivor, htold]
  registered := by
    rw [hsettled, hadmitted]
    exact h.registered
  skipped := fun a ha => by
    rw [hskips] at ha
    rw [hended a ha, hadmitted, hdone]
    exact h.skipped a ha
  admissions := hadmissions

/-- An anchor that ends waits in `limbo` to lower the count of its group. -/
lemma live_leave {e : Settlement} {j : ℕ} (ha : a < c.n) (hj : w.state.stage a = .entered j)
    (hdone : w'.state.stage a = .done) (hother : ∀ b, b ≠ a → w'.state.stage b = w.state.stage b)
    (hlimbo : w'.limbo = w.limbo ++ [e]) (he : e.anchor = a) (group : γ) :
    w'.state.liveIn c group + (w'.limbo.countP fun e => decide (c.groupOf e.anchor = some group)) =
      w.state.liveIn c group + w.limbo.countP fun e => decide (c.groupOf e.anchor = some group) := by
  have hlive := State.liveIn_update (c := c) group ha hother
  rw [hj, hdone] at hlive
  simp only [Stage.isEntered, and_true, Bool.false_eq_true, and_false, if_false, Nat.add_zero] at hlive
  rw [hlimbo, List.countP_append, List.countP_singleton, he]
  simp only [decide_eq_true_eq]
  omega

/-- A settlement of an anchor at a stage is the first of it, and the anchor was not skipped. -/
lemma ended_leave {e : Settlement} {j : ℕ} (hinv : Inv c w) (hj : w.state.stage a = .entered j)
    (hlimbo : w'.limbo = w.limbo ++ [e]) (he : e.anchor = a) (htrace : w'.trace = w.trace)
    (hsettled : w'.state.settled = w.state.settled) (hb : 0 < (w.view b).skips) :
    (w'.view b).ended = (w.view b).ended := by
  have hba : a ≠ b := by
    rintro rfl
    have hzero := ((hinv.anchors a).entered hj).skips
    omega
  simp [World.view, World.settlements, List.countP_append, htrace, hlimbo, hsettled, he, hba]

lemma State.entered_stage_ne {o : Outcome} (hb : b ≠ a) : (s.entered a o).stage b = s.stage b :=
  update_of_ne hb _ _

lemma State.entered_stage_self {o : Outcome} : (s.entered a o).stage a = o.stage :=
  update_self ..

lemma Enters.isEntered {j : ℕ} {decided : Bool} {o : Outcome}
    (h : Enters c s a j decided none o) : o.stage.isEntered = true ∧ o.stage ≠ .queued := by
  obtain ⟨i, _, _, _, ⟨kind, hk, _⟩ | ⟨_, hst, _⟩⟩ := h.lists
  · cases hk
  · rw [hst]
    exact ⟨rfl, fun h => by cases h⟩

lemma Enters.stage_done {j : ℕ} {decided : Bool} {o : Outcome} {kind : Kind}
    (h : Enters c s a j decided (some kind) o) : o.stage = .done := by
  obtain ⟨i, _, _, _, ⟨kind, _, hst, _⟩ | ⟨hk, _⟩⟩ := h.lists
  · exact hst
  · cases hk

/-- An anchor that goes on stays in flight. -/
lemma GroupInv.stay {o : Outcome} {j i : ℕ} {decided : Bool} (h : GroupInv c w)
    (hj : w.state.stage a = .entered j) (ho : Enters c s a i decided none o)
    (hbusy : w'.state.groupBusy = w.state.groupBusy)
    (hdone : w'.state.groupDone = w.state.groupDone)
    (hmembers : w'.state.groupMembers = w.state.groupMembers)
    (hsettled : w'.state.settled = w.state.settled)
    (hborrowing : w'.state.borrowing = w.state.borrowing)
    (hself : w'.state.stage a = o.stage) (hother : ∀ b, b ≠ a → w'.state.stage b = w.state.stage b)
    (hlimbo : w'.limbo = w.limbo) (htrace : w'.trace = w.trace)
    (hskipped : w'.state.skipped = w.state.skipped) : GroupInv c w' := by
  refine h.congr hbusy hdone hmembers hsettled (by rw [hborrowing]) ?_ ?_ (by rw [htrace]) ?_ ?_
    (htrace ▸ h.admissions)
  · intro b hq
    by_cases hb : b = a
    · subst hb
      exact absurd (hself.symm.trans hq) ho.isEntered.2
    · exact (hother b hb).symm.trans hq
  · intro group
    rw [hlimbo, State.liveIn_congr fun b => ?_]
    by_cases hb : b = a
    · subst hb
      rw [hself, hj, ho.isEntered.1]
      rfl
    · rw [hother b hb]
  · intro b
    simp [World.view, htrace, hskipped]
  · intro b _
    simp [World.view, World.settlements, htrace, hlimbo, hsettled]

/-- An anchor that ends leaves its stage. -/
lemma GroupInv.leave {e : Settlement} {j : ℕ} (hinv : Inv c w) (h : GroupInv c w)
    (hj : w.state.stage a = .entered j) (he : e.anchor = a)
    (hbusy : w'.state.groupBusy = w.state.groupBusy)
    (hdone : w'.state.groupDone = w.state.groupDone)
    (hmembers : w'.state.groupMembers = w.state.groupMembers)
    (hsettled : w'.state.settled = w.state.settled)
    (hborrowing : w'.state.borrowing = w.state.borrowing)
    (hself : w'.state.stage a = .done) (hother : ∀ b, b ≠ a → w'.state.stage b = w.state.stage b)
    (hlimbo : w'.limbo = w.limbo ++ [e]) (htrace : w'.trace = w.trace)
    (hskipped : w'.state.skipped = w.state.skipped) : GroupInv c w' := by
  have ha : a < c.n := (hinv.anchors a).known (by
    rw [show (w.view a).stage = .entered j from hj]
    exact fun h => by cases h)
  refine h.congr hbusy hdone hmembers hsettled (by rw [hborrowing]) ?_
    (live_leave ha hj hself hother hlimbo he) (by rw [htrace]) ?_
    (fun b hb => ended_leave hinv hj hlimbo he htrace hsettled hb) (htrace ▸ h.admissions)
  · intro b hq
    by_cases hb : b = a
    · subst hb
      rw [hself] at hq
      cases hq
    · exact (hother b hb).symm.trans hq
  · intro b
    simp [World.view, htrace, hskipped]

/-- A launch of an anchor that was launched before. -/
lemma GroupInv.launch {j stop : ℕ} {ready : List Anchor} (hinv : Inv c w)
    (h : GroupInv c w) (ha : a ∈ w.state.ready) (hj : w.state.stage a = .entered j)
    (he : w.state.entering = []) (hlt : w.state.next a < w.state.numPartners c a j) :
    GroupInv c (({ w with state := { w.state with ready } } : World β γ).launched c a j
      (w.state.next a) stop false) := by
  refine h.congr rfl rfl rfl rfl rfl (fun b hq => hq) (fun group => rfl) ?_ ?_ ?_ ?_
  · simp [World.launched]
  · intro b
    simp [World.view, World.launched, State.launch]
  · intro b _
    simp [World.view, World.settlements, World.launched, State.launch]
  · refine h.admissions.snoc fun g hg => .inl ?_
    obtain rfl := Event.launched.inj hg
    have hadm : (w.view a).admitted = true := (hinv.ready_view ha hj he hlt).2.2
    have hne : (w.view a).launched ≠ [] := fun hnil => by
      rw [(hinv.anchors a).unlaunched.2 hnil] at hadm
      cases hadm
    obtain ⟨g', hg'⟩ := List.exists_mem_of_ne_nil _ hne
    obtain ⟨hmem, hanchor⟩ := List.mem_filter.1 hg'
    exact ⟨g', hmem, of_decide_eq_true hanchor⟩

lemma ended_pos {e : Settlement} (he : e ∈ w.settlements) (ha : e.anchor = a) :
    0 < (w.view a).ended := List.countP_pos_iff.2 ⟨e, he, decide_eq_true ha⟩

section placed

variable {j : ℕ} {borrow : Option (Anchor × ℕ)} {pending waiting ready : List Anchor}

lemma State.placed_groupBusy : (s.placed c a j borrow pending waiting ready).groupBusy group =
    s.groupBusy group + if c.groupOf a = some group then 1 else 0 := by
  cases hg : c.groupOf a with
  | none => simp [State.placed, State.joined, State.setStage, hg]
  | some group' =>
    by_cases hgg : group = group'
    · simp [State.placed, State.joined, State.setStage, hg, hgg]
    · simp [State.placed, State.joined, State.setStage, hg, hgg, Ne.symm hgg]

lemma State.mem_placed_membersIn (hb : b ≠ a) (hmem : b ∈ s.membersIn group) :
    b ∈ (s.placed c a j borrow pending waiting ready).membersIn group := by
  rw [State.membersIn] at hmem ⊢
  cases hg : c.groupOf a with
  | none => simpa [State.placed, State.joined, State.setStage, hg] using hmem
  | some group' =>
    by_cases hgg : group = group'
    · subst hgg
      cases hm : s.groupMembers group with
      | none =>
        rw [hm] at hmem
        cases hmem
      | some members =>
        rw [hm] at hmem
        have hmem : b ∈ members := hmem
        simp [State.placed, State.joined, State.setStage, hg, hm, hmem, hb]
    · simpa [State.placed, State.joined, State.setStage, hg, hgg] using hmem

/-- A queued anchor of a group is admitted while the group has room. -/
lemma GroupInv.place {stop : ℕ} {carried : Bool} (hinv : Inv c w) (h : GroupInv c w) (ha : a < c.n)
    (hq : w.state.stage a = .queued) (hfull : w.state.groupFull c a = false) :
    GroupInv c (({ w with state := w.state.placed c a j borrow pending waiting ready } :
      World β γ).launched c a j 0 stop carried) := by
  have hQ := (hinv.anchors a).queued hq
  have hother : ∀ b, b ≠ a →
      (w.state.placed c a j borrow pending waiting ready).stage b = w.state.stage b := fun b hb =>
    update_of_ne hb _ _
  have hself : (w.state.placed c a j borrow pending waiting ready).stage a = .entered j :=
    update_self ..
  have hlive : ∀ group, (w.state.placed c a j borrow pending waiting ready).liveIn c group =
      w.state.liveIn c group + if c.groupOf a = some group then 1 else 0 := by
    intro group
    have hlive := State.liveIn_update (c := c) group ha hother
    rw [hself, hq] at hlive
    simpa only [Stage.isEntered, and_true, Bool.false_eq_true, and_false, if_false, Nat.add_zero]
      using hlive
  have hqueued : ∀ b, (w.state.placed c a j borrow pending waiting ready).stage b = .queued →
      b ≠ a ∧ w.state.stage b = .queued := by
    intro b hb
    have hba : b ≠ a := by
      rintro rfl
      rw [hself] at hb
      cases hb
    exact ⟨hba, (hother b hba).symm.trans hb⟩
  have hadmitted : (w.state.placed c a j borrow pending waiting ready).borrowing.admitted =
      update w.state.borrowing.admitted a true := Borrowing.record_admitted
  refine
    { busy := fun group => ?_
      width := fun group => ?_
      closed := fun group hd b hb hst => h.closed group hd b hb (hqueued b hst).2
      present := fun group hd b hb hst => ?_
      told := fun group => ?_
      registered := fun e he => ?_
      skipped := fun b hb => ?_
      admissions := ?_ }
  · show (w.state.placed c a j borrow pending waiting ready).groupBusy group =
      (w.state.placed c a j borrow pending waiting ready).liveIn c group +
        w.limbo.countP fun e => decide (c.groupOf e.anchor = some group)
    rw [State.placed_groupBusy, h.busy group, hlive group, Nat.add_right_comm]
  · show (w.state.placed c a j borrow pending waiting ready).groupBusy group ≤ c.groupWidth
    rw [State.placed_groupBusy]
    split_ifs with hg
    · rw [State.groupFull, hg] at hfull
      exact Nat.lt_of_not_le (of_decide_eq_false hfull)
    · exact h.width group
  · obtain ⟨hba, hst⟩ := hqueued b hst
    show b ∈ (w.state.placed c a j borrow pending waiting ready).membersIn group
    exact State.mem_placed_membersIn hba (h.present group hd b hb hst)
  · simpa [HasSurvivor, World.launched, State.launch, State.placed, State.joined, State.setStage]
      using h.told group
  · obtain ⟨hadm, hlost⟩ := h.registered e he
    refine ⟨?_, hlost⟩
    show (w.state.placed c a j borrow pending waiting ready).borrowing.admitted e.anchor = false
    rw [hadmitted, update_of_ne, hadm]
    intro heq
    have hpos : 0 < (w.view a).ended :=
      ended_pos (List.mem_append_right _ he : e ∈ w.settlements) heq
    rw [hQ.ended] at hpos
    exact absurd hpos (lt_irrefl 0)
  · have hskips : 0 < (w.view b).skips := by
      simpa [World.view, World.launched, State.launch, State.placed, State.joined, State.setStage]
        using hb
    have hba : b ≠ a := by
      rintro rfl
      rw [hQ.skips] at hskips
      exact absurd hskips (lt_irrefl 0)
    obtain ⟨hended, hadm, hgroup⟩ := h.skipped b hskips
    refine ⟨?_, ?_, hgroup⟩
    · rw [← hended]
      simp [World.view, World.settlements, World.launched, State.launch, State.placed, State.joined,
        State.setStage]
    · show (w.state.placed c a j borrow pending waiting ready).borrowing.admitted b = false
      rw [hadmitted, update_of_ne hba, hadm]
  · refine h.admissions.snoc fun g hg => .inr ?_
    obtain rfl := Event.launched.inj hg
    intro e he hsurvived group hgroup hag
    exact h.closed group ((h.told group).2 ⟨e, he, hsurvived, hgroup⟩) a hag hq

end placed

/-- Settling an anchor lowers the count of its group, and a survivor skips the queued ones. -/
lemma GroupInv.settle {e : Settlement} {rest : List Settlement} (hplain : c.Plain)
    (hinv : Inv c w) (h : GroupInv c w) (hl : w.limbo = e :: rest) :
    GroupInv c
      { state := w.state.settleGroup c e.anchor e.survived
        flight := w.flight
        trace := w.trace ++ [.settled e]
        limbo := rest
        due := w.due } := by
  have hs := State.settleGroup_spec hplain w.state e.anchor e.survived
  have hmember : ∀ group b, b ∈ w.state.membersIn group →
      w.state.stage b = .queued ∧ c.groupOf b = some group := by
    intro group b hb
    cases hm : w.state.groupMembers group with
    | none =>
      rw [State.membersIn, hm] at hb
      cases hb
    | some members =>
      rw [State.membersIn, hm] at hb
      obtain ⟨hq, _, _, hg⟩ := (hinv.shared.members group members hm).2 b hb
      exact ⟨hq, hg⟩
  have hqueued : ∀ b, (w.state.settleGroup c e.anchor e.survived).stage b = .queued →
      w.state.stage b = .queued := by
    intro b hb
    obtain hsame | ⟨hdone, _⟩ := hs.stage b
    · exact hsame ▸ hb
    · rw [hdone] at hb
      cases hb
  have hlive : ∀ group, (w.state.settleGroup c e.anchor e.survived).liveIn c group =
      w.state.liveIn c group := fun group => State.liveIn_congr fun b => by
    obtain hsame | ⟨hdone, group', _, hb⟩ := hs.stage b
    · rw [hsame]
    · rw [hdone, (hmember group' b hb).1]
      rfl
  refine
    { busy := fun group => ?_
      width := fun group => ?_
      closed := fun group hd a ha hst => ?_
      present := fun group hd a ha hst => ?_
      told := fun group => ?_
      registered := ?_
      skipped := fun a ha => ?_
      admissions := ?_ }
  · dsimp only
    rw [hs.busy, hlive, h.busy, hl, List.countP_cons]
    simp only [decide_eq_true_eq]
    omega
  · dsimp only
    rw [hs.busy]
    exact (Nat.sub_le _ _).trans (h.width group)
  · have hq := hqueued a hst
    obtain hold | ⟨hsurvived, hgroup⟩ := (hs.done group).1 hd
    · exact h.closed group hold a ha hq
    · cases hd' : w.state.groupDone group with
      | true => exact h.closed group hd' a ha hq
      | false =>
        have hdone := hs.closed group ⟨hgroup, hsurvived, hd'⟩ a (h.present group hd' a ha hq)
        rw [show _ = Stage.queued from hst] at hdone
        cases hdone
  · dsimp only at hd ⊢
    rw [hs.members group hd]
    refine h.present group ?_ a ha (hqueued a hst)
    cases hd' : w.state.groupDone group with
    | false => rfl
    | true =>
      rw [(hs.done group).2 (.inl hd')] at hd
      cases hd
  · dsimp only
    rw [hs.done, h.told, HasSurvivor, HasSurvivor, settledIn_append, settledIn_settled]
    constructor
    · rintro (⟨e', he', hboth⟩ | hnew)
      · exact ⟨e', List.mem_append_left _ he', hboth⟩
      · exact ⟨e, List.mem_append_right _ (List.mem_singleton_self e), hnew⟩
    · rintro ⟨e', he', hboth⟩
      cases List.mem_append.1 he' with
      | inl hold => exact .inl ⟨e', hold, hboth⟩
      | inr hnew => exact .inr (List.mem_singleton.1 hnew ▸ hboth)
  · dsimp only
    rw [hs.settled, hs.borrowing]
    exact h.registered
  · obtain ⟨l, hskipped, hl'⟩ := hs.skipped
    have hended : (({
        state := w.state.settleGroup c e.anchor e.survived
        flight := w.flight
        trace := w.trace ++ [.settled e]
        limbo := rest
        due := w.due } : World β γ).view a).ended = (w.view a).ended := by
      simp [World.view, World.settlements, hl, hs.settled]
    dsimp only
    rw [hended, hs.borrowing]
    by_cases ha' : 0 < (w.view a).skips
    · obtain ⟨hzero, hadm, group, hgroup, hdone⟩ := h.skipped a ha'
      exact ⟨hzero, hadm, group, hgroup, (hs.done group).2 (.inl hdone)⟩
    · have hmem : a ∈ l := by
        by_contra hnot
        have hzero : (skippedIn w.trace ++ w.state.skipped).count a = 0 := Nat.eq_zero_of_not_pos ha'
        have hnone : l.count a = 0 := List.count_eq_zero.2 hnot
        have hpos : 0 < (skippedIn (w.trace ++ [.settled e]) ++
            (w.state.settleGroup c e.anchor e.survived).skipped).count a := ha
        rw [hskipped, skippedIn_append, skippedIn_settled, List.append_nil, ← List.append_assoc,
          List.count_append, hzero, hnone] at hpos
        exact absurd hpos (lt_irrefl 0)
      obtain ⟨group, ⟨hgroup, hsurvived, _⟩, hin⟩ := hl' a hmem
      obtain ⟨hq, hga⟩ := hmember group a hin
      have hQ := (hinv.anchors a).queued hq
      exact ⟨hQ.ended, hQ.unadmitted, group, hga, (hs.done group).2 (.inr ⟨hsurvived, hgroup⟩)⟩
  · exact h.admissions.snoc fun g hg => by cases hg

/-- The moves of a join without dependents keep its groups, as long as no settlement is taken. -/
theorem GroupInv.move (hplain : c.Plain) (hinv : Inv c w) (h : GroupInv c w) (hm : Move c w w')
    (hlen : w'.state.settled.length = w.state.settled.length) : GroupInv c w' := by
  cases hm with
  | quiet _ =>
    exact h.congr rfl rfl rfl rfl rfl (fun _ hq => hq) (fun _ => rfl) rfl (fun _ => rfl) (fun _ _ => rfl)
      h.admissions
  | launch ha hj he hlt hle _ => exact h.launch hinv ha hj he (hlt.trans_le hle)
  | @place a j stop borrow chunk canBorrow before after pending waiting ready hq _ _ hfull _ _ _ =>
    obtain ⟨_, hq, rfl, _, hpend, _⟩ | ⟨hdep, _⟩ := hq
    · refine h.place hinv ?_ hq hfull
      have hcount := ((hinv.anchors a).queued hq).pending
      by_contra hlt
      rw [if_neg fun h => hlt h.1] at hcount
      have hmem : a ∈ w.state.pending := hpend ▸ List.mem_append_right _ (List.mem_cons_self ..)
      have hpos : 0 < (w.view a).pending := List.count_pos_iff.2 hmem
      rw [hcount] at hpos
      exact absurd hpos (lt_irrefl 0)
    · rw [hplain.isDependent] at hdep
      cases hdep
  | ask hdep _ _ _ =>
    rw [hplain.isDependent] at hdep
    cases hdep
  | askEmpty hdep _ _ _ =>
    rw [hplain.isDependent] at hdep
    cases hdep
  | popDead _ _ =>
    exact h.congr rfl rfl rfl rfl rfl (fun _ hq => hq) (fun _ => rfl) rfl (fun _ => rfl) (fun _ _ => rfl)
      h.admissions
  | popEnded _ _ =>
    exact h.congr rfl rfl rfl rfl rfl (fun _ hq => hq) (fun _ => rfl) rfl (fun _ => rfl) (fun _ _ => rfl)
      h.admissions
  | answer _ _ _ =>
    refine h.congr rfl rfl rfl rfl rfl (fun _ hq => hq) (fun _ => rfl) (by simp) (fun b => ?_)
      (fun b _ => ?_) (h.admissions.snoc fun g hg => by cases hg)
    · simp [World.view, State.answer]
    · simp [World.view, World.settlements, State.answer]
  | advance _ hj _ _ _ _ _ ho =>
    exact h.stay hj ho rfl rfl rfl rfl rfl State.entered_stage_self
      (fun b hb => State.entered_stage_ne hb) rfl rfl rfl
  | leave _ hj _ _ _ _ _ ho =>
    exact h.leave hinv hj rfl rfl rfl rfl rfl rfl (State.entered_stage_self.trans ho.stage_done)
      (fun b hb => State.entered_stage_ne hb) rfl rfl rfl
  | drop _ hj _ _ _ _ _ =>
    exact h.leave hinv hj rfl rfl rfl rfl rfl rfl (update_self ..) (fun b hb => update_of_ne hb _ _) rfl
      rfl rfl
  | @finish a j hj _ _ _ _ =>
    obtain ⟨counted, survivors, hs⟩ :=
      State.countSurvivor_eq (c := c) (s := w.state.setStage a .done) (a := c.branchOf a)
    rw [hs]
    exact h.leave hinv hj rfl rfl rfl rfl rfl rfl (update_self ..) (fun b hb => update_of_ne hb _ _) rfl
      rfl rfl
  | keep _ hj ho =>
    exact h.stay hj ho rfl rfl rfl rfl rfl State.entered_stage_self
      (fun b hb => State.entered_stage_ne hb) rfl rfl rfl
  | decline _ hj ho =>
    exact h.leave hinv hj rfl rfl rfl rfl rfl rfl (State.entered_stage_self.trans ho.stage_done)
      (fun b hb => State.entered_stage_ne hb) rfl rfl rfl
  | settle hl => exact h.settle hplain hinv hl
  | takeSettled hs =>
    rw [hs] at hlen
    simp at hlen
  | takeSkipped hs =>
    refine h.congr rfl rfl rfl rfl rfl (fun _ hq => hq) (fun _ => rfl) (by simp) (fun b => ?_)
      (fun b _ => ?_) (h.admissions.snoc fun g hg => by cases hg)
    · simp [World.view, hs]
    · simp [World.view, World.settlements]

/-- Settlements wait to be taken, and no move adds one. -/
lemma Move.settled_le (hplain : c.Plain) (hm : Move c w w') :
    w'.state.settled.length ≤ w.state.settled.length := by
  cases hm with
  | askEmpty hdep _ _ _ =>
    rw [hplain.isDependent] at hdep
    cases hdep
  | @finish a j _ _ _ _ _ =>
    obtain ⟨counted, survivors, hs⟩ :=
      State.countSurvivor_eq (c := c) (s := w.state.setStage a .done) (a := c.branchOf a)
    rw [hs]
    exact le_rfl
  | @settle e rest hl =>
    exact le_of_eq (congrArg _ (State.settleGroup_spec hplain w.state e.anchor e.survived).settled)
  | takeSettled hs =>
    rw [hs]
    exact Nat.le_succ _
  | _ => exact le_rfl

theorem GroupInv.moves (hplain : c.Plain) (hp : Promised c) (hc : c.check = none) (hinv : Inv c w)
    (h : GroupInv c w) (hm : Moves c w w')
    (hlen : w'.state.settled.length = w.state.settled.length) : GroupInv c w' := by
  have hle : ∀ w', Moves c w w' → w'.state.settled.length ≤ w.state.settled.length := by
    intro w' hm
    induction hm with
    | refl => exact le_rfl
    | tail _ hm ih => exact (hm.settled_le hplain).trans ih
  induction hm with
  | refl => exact h
  | @tail w₁ w₂ hms hm ih =>
    have hlen₁ : w₁.state.settled.length = w.state.settled.length :=
      le_antisymm (hle _ hms) (hlen ▸ hm.settled_le hplain)
    exact (ih hlen₁).move hplain (hinv.moves hp hc hms) hm (hlen.trans hlen₁.symm)

/-! ## The first run -/

/-- Anchors that settle at their registration did not survive. -/
lemma registerAll_lost {l : List Anchor} (h : ∀ e ∈ s.settled, e.survived = false) :
    wp (registerAll c l) (fun _ s' => ∀ e ∈ s'.settled, e.survived = false) (fun _ _ => True) s := by
  induction l generalizing s with
  | nil => exact h
  | cons a l ih =>
    rw [registerAll, wp_bind]
    refine wp_mono register_spec ?_ (fun _ _ h => h)
    intro _ s' hend
    refine ih ?_
    cases hend with
    | settled _ =>
      intro e he
      cases List.mem_append.1 he with
      | inl hold => exact h e hold
      | inr hnew => rw [List.mem_singleton.1 hnew]
    | queued _ _ _ _ _ _ => exact h

lemma init_lost (hc : c.check = none) :
    wp (init c) (fun _ s' => ∀ e ∈ s'.settled, e.survived = false) (fun _ _ => True)
      (State.blank c) := by
  unfold init
  rw [hc]
  dsimp only
  rw [wp_bind]
  exact wp_mono (registerAll_lost (fun e he => by cases he)) (fun _ _ h => h) (fun _ _ h => h)

/-- The groups of the run a constructor starts. -/
lemma Registered.groups (hplain : c.Plain) (hp : Promised c) (hc : c.check = none)
    (h : Registered c (List.range c.n) s) (hlost : ∀ e ∈ s.settled, e.survived = false) :
    GroupInv c (World.of ⟨s.started c, [], []⟩) := by
  have hbusy : s.groupBusy = fun _ => 0 := congrArg State.groupBusy h.blank
  have hdone : s.groupDone = fun _ => false := congrArg State.groupDone h.blank
  have hadmitted : s.borrowing.admitted = fun _ => false := congrArg (·.borrowing.admitted) h.blank
  have hskipped : s.skipped = [] := congrArg State.skipped h.blank
  have hlive : ∀ group, (World.of ⟨s.started c, [], []⟩).state.liveIn c group = 0 := by
    intro group
    refine List.countP_eq_zero.2 fun a _ => ?_
    show ¬(decide (c.groupOf a = some group) && (s.stage a).isEntered) = true
    obtain hq | ⟨_, hd⟩ := h.stage a
    · simp [hq, Stage.isEntered]
    · simp [hd, Stage.isEntered]
  refine
    { busy := fun group => ?_
      width := fun group => ?_
      closed := fun group hd => ?_
      present := fun group _ a ha hq => ?_
      told := fun group => ?_
      registered := fun e he => ⟨?_, hlost e he⟩
      skipped := fun a ha => ?_
      admissions := fun t₁ t₂ e heq => ?_ }
  · rw [hlive]
    exact congrFun hbusy group
  · exact (congrFun hbusy group).trans_le (Nat.zero_le _)
  · rw [show (World.of ⟨s.started c, [], []⟩).state.groupDone group = false from
      congrFun hdone group] at hd
    cases hd
  · have hmem : a ∈ s.firstPending c := by
      refine List.count_pos_iff.1 ?_
      rw [count_firstPending hp, if_pos ⟨Config.groupOf_lt hc ha, hplain.isDependent, hq⟩]
      exact Nat.one_pos
    have hin : a ∈ (s.firstPending c).filter fun a => decide (c.groupOf a = some group) :=
      List.mem_filter.2 ⟨hmem, decide_eq_true ha⟩
    show a ∈ (membersOf c (s.firstPending c) group).getD []
    unfold membersOf
    split
    · rename_i hnil
      rw [hnil] at hin
      cases hin
    · exact hin
  · rw [show (World.of ⟨s.started c, [], []⟩).state.groupDone group = false from congrFun hdone group]
    refine ⟨fun h => (by cases h), fun h => ?_⟩
    obtain ⟨e, he, _⟩ := h
    cases he
  · show (c.resident.keys.foldl Borrowing.detach s.borrowing).admitted e.anchor = false
    rw [detach_fold.1, hadmitted]
  · have hzero : ((World.of ⟨s.started c, [], []⟩).view a).skips = 0 := by
      simp [World.view, World.of, State.started, hskipped]
    rw [hzero] at ha
    exact absurd ha (lt_irrefl 0)
  · cases t₁ <;> cases heq

/-! ## Building a chunk -/

section chunk

variable {r : Run β γ} {ch : Chunk} {turn : Turn} {o : Oracle} {limited : Bool}

lemma readyTurn_error : wp (readyTurn c limited ch) (fun _ _ => True) (fun e _ => ∀ key, e ≠ .key key) s := by
  unfold readyTurn
  rw [wp_ite]
  refine ⟨fun _ => trivial, fun _ => ?_⟩
  rw [wp_bind, wp_get]
  cases s.ready with
  | nil => exact fun key h => by cases h
  | cons a rest =>
    dsimp only
    simp only [wp_ite, wp_bind, wp_set, wp_pure, implies_true, and_self]

lemma admitAnchor_error {j stop : ℕ} {borrow : Option (Anchor × ℕ)} :
    wp (admitAnchor c a j borrow stop) (fun _ _ => True)
      (fun _ _ => ∃ group, c.groupOf a = some group ∧ s.groupMembers group = none) s := by
  unfold admitAnchor joinGroup
  simp only [wp_bind, wp_modify]
  cases hg : c.groupOf a with
  | none => simp only [wp_pure, wp_bind, wp_modify, wp_get]
  | some group =>
    simp only [wp_bind, wp_modify, wp_get]
    cases hm : s.groupMembers group with
    | none =>
      simp only [State.setStage, hm]
      exact ⟨group, rfl, hm⟩
    | some members => simp only [State.setStage, hm, wp_set, wp_pure, wp_modify, wp_get, wp_bind]

/-- Placing an anchor raises only for a group without members. -/
lemma place_error {j : ℕ} {dependent : Bool} :
    wp (place c o a j dependent ch) (fun _ _ => True)
      (fun _ _ => ∃ group, c.groupOf a = some group ∧ s.groupMembers group = none) s := by
  unfold place
  rw [wp_bind, wp_get]
  dsimp only
  rw [wp_ite]
  refine ⟨fun _ => trivial, fun _ => ?_⟩
  cases s.borrowing.choice o.canBorrow a ch.admitted with
  | wait => trivial
  | choose borrow =>
    dsimp only
    simp only [wp_ite, wp_pure, wp_bind, wp_set, implies_true, true_and]
    intros
    exact wp_mono admitAnchor_error (fun _ _ _ => trivial) (fun _ _ h => h)

lemma freshTurn_error (hw : s.waiting = []) :
    wp (freshTurn c o limited ch) (fun _ _ => True)
      (fun _ _ => ∃ a group, a ∈ s.pending ∧ s.stage a ≠ .done ∧ c.groupOf a = some group ∧
        s.groupMembers group = none) s := by
  unfold freshTurn
  rw [wp_bind, wp_get, hw]
  cases hp : s.pending with
  | nil => trivial
  | cons a rest =>
    dsimp only
    simp only [wp_bind, wp_set, wp_ite, wp_pure, wp_modify, implies_true, true_and]
    intro _ hs
    refine wp_mono place_error (fun _ _ h => h) fun _ _ h => ?_
    obtain ⟨group, hg, hm⟩ := h
    exact ⟨a, group, List.mem_cons_self .., hs, hg, hm⟩

lemma ReadyEnd.settled (h : ReadyEnd c s ch turn s') : s'.settled = s.settled := by
  cases h <;> rfl

lemma PlaceEnd.settled {j : ℕ} {dependent : Bool} (h : PlaceEnd c o s ch a j dependent turn s') :
    s'.settled = s.settled := by
  cases h <;> rfl

lemma FreshEnd.settled (hw : s.waiting = []) (h : FreshEnd c o limited s ch turn s') :
    s'.settled = s.settled := by
  cases h with
  | ended hw' _ _ => cases hw.symm.trans hw'
  | asked hw' _ _ _ => cases hw.symm.trans hw'
  | waited hw' _ _ _ => cases hw.symm.trans hw'
  | fresh _ _ _ _ hend => exact hend.settled
  | _ => rfl

/-- Nobody waits for another anchor. -/
lemma Inv.waiting_nil (hplain : c.Plain) (h : Inv c (ch.world r s)) : s.waiting = [] := by
  refine List.eq_nil_iff_forall_not_mem.2 fun a ha => ?_
  have hdep := h.waiting_dependent (List.mem_append_right _ ha)
  rw [hplain.isDependent] at hdep
  cases hdep

lemma readyTurns_groups {turns : ℕ} (hplain : c.Plain) (hp : Promised c) (hc : c.check = none)
    (hinv : Inv c (ch.world r s)) (h : GroupInv c (ch.world r s)) (he : s.entering = []) :
    wp (readyTurns c limited turns ch)
      (fun ch' s' => Inv c (ch'.world r s') ∧ GroupInv c (ch'.world r s') ∧ s'.entering = [])
      (fun e _ => ∀ key, e ≠ .key key) s := by
  induction turns generalizing ch s with
  | zero => exact ⟨hinv, h, he⟩
  | succ turns ih =>
    rw [readyTurns, wp_bind]
    refine wp_mono (wp_and readyTurn_spec readyTurn_error) ?_ fun _ _ h => h.2
    rintro turn s' ⟨hturn, _⟩
    obtain ⟨hm, he'⟩ := hturn.moves hinv he
    have hinv' := hinv.moves hp hc hm
    have hsettled := hturn.settled
    have h' := h.moves hplain hp hc hinv hm (congrArg _ hsettled)
    cases turn with
    | next ch' => exact ih hinv' h' he'
    | stop ch' => exact ⟨hinv', h', he'⟩

lemma freshTurns_groups {turns : ℕ} (hplain : c.Plain) (hp : Promised c) (hc : c.check = none)
    (hinv : Inv c (ch.world r s)) (h : GroupInv c (ch.world r s)) (he : s.entering = []) :
    wp (freshTurns c o limited turns ch) (fun ch' s' => GroupInv c (ch'.world r s'))
      (fun e _ => ∀ key, e ≠ .key key) s := by
  induction turns generalizing ch s with
  | zero => exact h
  | succ turns ih =>
    rw [freshTurns, wp_bind, wp_get, wp_ite]
    refine ⟨fun _ => ?_, fun _ => h⟩
    have hw := hinv.waiting_nil hplain
    rw [wp_bind]
    refine wp_mono (wp_and (freshTurn_spec (hinv.dependable hc)) (freshTurn_error hw)) ?_ ?_
    · rintro turn s' ⟨hturn, _⟩
      obtain ⟨hm, he'⟩ := hturn.moves hp hinv he
      have hinv' := hinv.moves hp hc hm
      have hsettled := hturn.settled hw
      have h' := h.moves hplain hp hc hinv hm (congrArg _ hsettled)
      cases turn with
      | next ch' => exact ih hinv' h' he'
      | stop ch' => exact h'
    · -- a queued anchor of an open group is one of its members
      rintro e s' ⟨_, a, group, ha, hs, hg, hm⟩
      have hq := (hinv.pending_queued (List.mem_append_right ch.held ha) hs).1
      cases hd : s.groupDone group with
      | true => exact absurd hq (h.closed group hd a hg)
      | false =>
        have hmem : a ∈ s.membersIn group := h.present group hd a hg hq
        rw [State.membersIn, hm] at hmem
        cases hmem

/-- A chunk keeps the groups, and no group it looks up is missing. -/
lemma nextChunk_groups {freePages : ℕ} {room : Option ℕ} (hplain : c.Plain) (hp : Promised c)
    (hc : c.check = none) (hinv : Inv c (World.of r)) (h : GroupInv c (World.of r))
    (he : r.state.entering = []) :
    wp (nextChunk c o freePages room) (fun groups s' => GroupInv c (World.of (r.extend groups s')))
      (fun e _ => ∀ key, e ≠ .key key) r.state := by
  have hquiet : Move c (World.of r)
      (World.of { r with state := { r.state with blockedPages := 0 } }) :=
    .quiet (List.Perm.refl _)
  have hinv₀ := hinv.move hp hc hquiet
  have h₀ := h.move hplain hinv hquiet rfl
  unfold nextChunk
  rw [wp_bind, wp_modify, wp_bind, wp_get]
  dsimp only
  rw [wp_ite]
  refine ⟨fun _ => ?_, fun _ => ?_⟩
  · have hnone : r.extend [] { r.state with blockedPages := 0 } =
        { r with state := { r.state with blockedPages := 0 } } := by simp [Run.extend]
    rw [wp_pure, hnone]
    exact h₀
  · rw [← Chunk.start_world (r := r) freePages (room.getD c.chunkBudget)] at hinv₀ h₀
    rw [wp_bind]
    refine wp_mono (readyTurns_groups hplain hp hc hinv₀ h₀ he) ?_ (fun _ _ h => h)
    rintro ch s ⟨hinv, h, he⟩
    rw [wp_bind, wp_get, wp_bind]
    have hinv' : Inv c (({ ch with expectedRows := s.live c } : Chunk).world r s) := hinv
    have h' : GroupInv c (({ ch with expectedRows := s.live c } : Chunk).world r s) := h
    refine wp_mono (freshTurns_groups hplain hp hc hinv' h' he) ?_ (fun _ _ h => h)
    intro ch' s' h''
    rw [wp_bind, wp_modify, wp_pure]
    exact h''

end chunk

end Quail.Admission
