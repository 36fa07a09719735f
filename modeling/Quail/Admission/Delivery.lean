import Quail.Admission.Streaming

/-!
# What a caller can rely on

The contract of a run: `Streams` for each anchor at any time, and `Delivered` once the admission is
done.
-/

set_option linter.unusedSectionVars false

namespace Quail.Admission
open Imperative Function

variable {β γ : Type} [DecidableEq γ] [ToString γ] {c : Config β γ}
variable {s s' : State β γ} {r r' : Run β γ} {w w' : World β γ} {a : Anchor} {j : ℕ}

/-! ## Statements -/

/-- The partners an anchor streams at a stage, as indices into the stage's list. -/
def State.partners (s : State β γ) (c : Config β γ) (a : Anchor) (j : ℕ) : List ℕ :=
  match s.lists a j with
  | none => List.range (c.stageLengths j).length
  | some row => row.indices

/-- The groups of an anchor launched at any stage. -/
def Run.launchedBy (r : Run β γ) (a : Anchor) : List Group :=
  (launches r.trace).filter fun g => decide (g.anchor = a)

/-- The groups of an anchor launched at a stage. -/
def Run.launchedAt (r : Run β γ) (a : Anchor) (j : ℕ) : List Group :=
  (r.launchedBy a).filter fun g => decide (g.stage = j)

/-- The groups of an anchor answered so far, with their answers. -/
def Run.answeredBy (r : Run β γ) (a : Anchor) : List (Group × List β) :=
  (answeredIn r.trace).filter fun p => decide (p.1.anchor = a)

/-- The groups of an anchor answered at a stage. -/
def Run.answeredAt (r : Run β γ) (a : Anchor) (j : ℕ) : List (Group × List β) :=
  (r.answeredBy a).filter fun p => decide (p.1.stage = j)

/-- The settlements of an anchor told to the caller. -/
def Run.settlementsOf (r : Run β γ) (a : Anchor) : List Settlement :=
  (settledIn r.trace).filter fun e => decide (e.anchor = a)

/-- The first `e` partners of a stage are launched in list order, contiguously, each once. -/
structure LaunchedUpTo (c : Config β γ) (r : Run β γ) (a : Anchor) (j e : ℕ) : Prop where
  tiles : Tiles Group.start Group.stop 0 (r.launchedAt a j) e
  partners : (r.launchedAt a j).flatMap (fun g => r.state.partnerIndices a j g.start g.stop) =
    (r.state.partners c a j).take e

/-- The answers of the first `e` partners of a stage are recorded, each once. -/
structure AnsweredUpTo (r : Run β γ) (a : Anchor) (j e : ℕ) : Prop where
  tiles : Tiles (fun p : Group × List β => p.1.start) (fun p => p.1.stop) 0 (r.answeredAt a j) e
  recorded : r.state.answers a j = (r.answeredAt a j).flatMap Prod.snd
  length : (r.state.answers a j).length = e

/-- What a run shows of an anchor at any time. -/
structure Streams (c : Config β γ) (r : Run β γ) (a : Anchor) : Prop where
  launched : ∀ j, ∃ e ≤ r.state.numPartners c a j, LaunchedUpTo c r a j e
  answered : ∀ j, ∃ e, AnsweredUpTo r a j e
  /-- The groups answered and the groups in flight are the groups launched, in order. -/
  order : r.launchedBy a = (r.answeredBy a).map Prod.fst ++
    r.flight.filter fun g => decide (g.anchor = a)
  /-- The first group carries the prefix of an anchor that is not resident. -/
  carried : ∀ g l, r.launchedBy a = g :: l →
    g.carried = decide (c.resident.contains a = false ∧ 0 < c.prefixOf a) ∧
      ∀ h ∈ l, h.carried = false
  settled : (r.settlementsOf a).length ≤ 1

/-- A queued anchor its stop key group skipped: it never ran and is not settled. -/
structure SkippedByGroup (c : Config β γ) (r : Run β γ) (a : Anchor) : Prop where
  grouped : (c.groupOf a).isSome
  told : (skippedIn r.trace ++ r.state.skipped).count a = 1
  launched : r.launchedBy a = []
  settled : r.settlementsOf a = []

/-- What a run that is done shows of an anchor. -/
structure Delivered (c : Config β γ) (r : Run β γ) (a : Anchor) : Prop where
  settled : (r.settlementsOf a).length = 1
  /-- Nothing is launched at a stage, or all of it is launched and answered. -/
  whole : ∀ j, r.launchedAt a j = [] ∨ (LaunchedUpTo c r a j (r.state.numPartners c a j) ∧
    AnsweredUpTo r a j (r.state.numPartners c a j))

/-- A later run. -/
inductive Later (c : Config β γ) : Run β γ → Run β γ → Prop
  | refl {r : Run β γ} : Later c r r
  | step {r r₁ r₂ : Run β γ} {call : Call β} : Later c r r₁ → Step c r₁ call r₂ → Later c r r₂

/-! ## Any time -/

lemma State.partnerIndices_eq {start stop : ℕ} (h : stop ≤ s.numPartners c a j) :
    s.partnerIndices a j start stop = ((s.partners c a j).take stop).drop start := by
  unfold State.partnerIndices State.partners State.numPartners at *
  cases hl : s.lists a j with
  | none =>
    rw [hl] at h
    dsimp only at h ⊢
    rw [List.take_range, Nat.min_eq_left h]
  | some row => rfl

/-- A tiled stage launches the slices of its partners. -/
lemma launchedUpTo {e : ℕ} (h : ((World.of r).view a).Streamed j e)
    (he : e ≤ r.state.numPartners c a j) : LaunchedUpTo c r a j e where
  tiles := h
  partners := by
    have hslice := Tiles.flatMap_slice (r.state.partners c a j) h
    rw [List.drop_zero] at hslice
    rw [← hslice]
    refine List.flatMap_congr fun g hg => State.partnerIndices_eq ?_
    exact (Tiles.stop_le h hg).trans he

lemma answeredUpTo (h : Inv c (World.of r)) :
    AnsweredUpTo r a j (r.state.answers a j).length where
  tiles := (h.anchors a).tiled j
  recorded := (h.anchors a).bits j
  length := rfl

/-- Settlements told to the caller are among all settlements. -/
lemma settlementsOf_le : (r.settlementsOf a).length ≤ ((World.of r).view a).ended := by
  unfold Run.settlementsOf
  rw [← List.countP_eq_length_filter]
  show _ ≤ ((settledIn r.trace ++ []) ++ r.state.settled).countP _
  rw [List.append_nil, List.countP_append]
  exact Nat.le_add_right _ _

lemma Inv.ended_le (h : Inv c w) (a : Anchor) : (w.view a).ended ≤ 1 := by
  cases hs : w.state.stage a with
  | queued => exact ((h.anchors a).queued hs).ended ▸ Nat.zero_le 1
  | entered j => exact ((h.anchors a).entered hs).ended ▸ Nat.zero_le 1
  | done =>
    rcases ((h.anchors a).done hs).ended with he | ⟨he, -⟩
    · exact he.le
    · exact he ▸ Nat.zero_le 1

theorem Inv.streams (h : Inv c (World.of r)) (a : Anchor) : Streams c r a where
  launched j := by
    obtain ⟨e, hs, he⟩ := (h.anchors a).streamed_exists j
    have he : e ≤ r.state.numPartners c a j := by
      rw [State.numPartners_eq]
      exact he
    exact ⟨e, he, launchedUpTo hs he⟩
  answered j := ⟨_, answeredUpTo h⟩
  order := (h.anchors a).log
  carried := (h.anchors a).carries
  settled := settlementsOf_le.trans (h.ended_le a)

/-! ## When the admission is done -/

/-- Nothing is left when the admission is done without reaching its limit. -/
structure Quiet (s : State β γ) : Prop where
  pending : ∀ a ∈ s.pending, s.stage a = .done
  ready : s.ready = []
  waiting : ∀ a ∈ s.waiting, s.stage a = .done
  settled : s.settled = []

lemma Inv.quiet_of_isDone (h : Inv c (World.of r)) (hdone : r.state.isDone c)
    (hlim : r.state.limitReached c = false) : Quiet r.state ∧ r.flight = [] := by
  unfold State.isDone at hdone
  rw [hlim] at hdone
  simp only [Bool.false_eq_true, if_false, Bool.and_eq_true, decide_eq_true_eq] at hdone
  obtain ⟨⟨hpending, hready⟩, ⟨hflight, hsettled⟩, hwaiting⟩ := hdone
  have hin : r.state.inFlight = r.flight.length := h.shared.inFlight
  have hdead : r.state.dead = r.state.pending.countP fun a => decide (r.state.stage a = .done) :=
    h.shared.dead
  refine ⟨⟨fun a ha => ?_, hready, ?_, hsettled⟩, ?_⟩
  · have hall : r.state.pending.countP (fun a => decide (r.state.stage a = .done)) =
        r.state.pending.length := by
      rw [hdead] at hpending
      exact_mod_cast hpending.symm
    exact of_decide_eq_true (List.countP_eq_length.1 hall a ha)
  · simpa using hwaiting
  · rw [hflight] at hin
    exact List.eq_nil_of_length_eq_zero (by exact_mod_cast hin.symm)

/-- Every anchor is done then, but for the dependents of a document its group skipped. -/
lemma Inv.done_of_quiet (h : Inv c (World.of r)) (hq : Quiet r.state) (hf : r.flight = [])
    (ha : a < c.n) : r.state.stage a = .done ∨
      (r.state.stage a = .queued ∧ c.isDependent a = true ∧ r.state.released a = false) := by
  have hL := h.anchors a
  have hflight : ((World.of r).view a).flight = [] := by simp [World.view, World.of, hf]
  have hready : ((World.of r).view a).ready = 0 := by simp [World.view, World.of, hq.ready]
  have hwaiting : r.state.stage a ≠ .done → ((World.of r).view a).waiting = 0 := by
    intro hs
    exact List.count_eq_zero.2 fun hmem => hs (hq.waiting a hmem)
  cases hs : r.state.stage a with
  | queued =>
    have hQ := hL.queued hs
    have hw := hwaiting (by simp [hs])
    have hpend : ((World.of r).view a).pending = 0 :=
      List.count_eq_zero.2 fun hmem => by simpa [hs] using hq.pending a hmem
    rw [hQ.pending] at hpend
    rw [hQ.waiting] at hw
    have hd : c.isDependent a = true := by
      by_contra hd
      rw [if_pos ⟨ha, by simpa using hd⟩] at hpend
      cases hpend
    refine .inr ⟨rfl, hd, ?_⟩
    by_contra hrel
    have hrel : r.state.released a = true := by simpa using hrel
    rw [if_pos ⟨hd, hrel⟩] at hw
    cases hw
  | entered j =>
    have hE := hL.entered hs
    have hw := hwaiting (by simp [hs])
    exfalso
    have hent : ((World.of r).view a).entering = 0 := by
      rcases hE.gate with hg | hg
      · omega
      · exact hg.1
    cases hadm : ((World.of r).view a).admitted with
    | false =>
      have := (hE.asked hadm).1
      omega
    | true =>
      obtain ⟨hrow, hans⟩ := (hE.running hadm).2 hent
      have hnext := hE.next_le hent
      have htiles := hL.flight_tiles hE.streamed
      rw [hflight, List.filter_nil, Tiles.nil] at htiles
      rcases hans with hans | hdue
      · split_ifs at hrow <;> omega
      · simp [World.view, World.of] at hdue
  | done => exact .inl rfl

/-- A done anchor is settled and its stages are whole, unless its group skipped it. -/
lemma Inv.delivered (h : Inv c (World.of r)) (hg : SkippedGrouped c (World.of r)) (hq : Quiet r.state)
    (hf : r.flight = []) (hs : r.state.stage a = .done) :
    Delivered c r a ∨ SkippedByGroup c r a := by
  have hL := h.anchors a
  have hE := hL.done hs
  have hended : ((World.of r).view a).ended = (r.settlementsOf a).length := by
    unfold Run.settlementsOf
    rw [← List.countP_eq_length_filter]
    show ((settledIn r.trace ++ []) ++ r.state.settled).countP _ = _
    rw [hq.settled, List.append_nil, List.append_nil]
  have hflight : ((World.of r).view a).flight = [] := by simp [World.view, World.of, hf]
  rcases hE.ended with hone | ⟨hzero, hskip, hadm, hd⟩
  · refine .inl ⟨hended ▸ hone, fun j => ?_⟩
    rcases hE.past j with hp | hp
    · exact .inl (Tiles.eq_nil hp)
    · refine .inr ⟨launchedUpTo (by rw [State.numPartners_eq]; exact hp) le_rfl, ?_⟩
      have htiles := hL.flight_tiles hp
      rw [hflight, List.filter_nil, Tiles.nil] at htiles
      have hlen : (r.state.answers a j).length = r.state.numPartners c a j := by
        rw [State.numPartners_eq]
        exact htiles
      exact hlen ▸ answeredUpTo h
  · refine .inr ⟨?_, hskip, hL.unlaunched.1 hadm, ?_⟩
    · have hone : (skippedIn r.trace ++ r.state.skipped).count a = 1 := hskip
      have hmem : a ∈ skippedIn r.trace ++ r.state.skipped :=
        List.count_pos_iff.1 (by rw [hone]; exact Nat.one_pos)
      rcases hg a hmem with hdep | hgroup
      · rw [hd] at hdep
        cases hdep
      · exact hgroup
    · rw [hended] at hzero
      exact List.eq_nil_of_length_eq_zero hzero

/-- A dependent left behind hangs off a document its group skipped. -/
lemma Inv.left_behind (hc : c.check = none) (h : Inv c (World.of r))
    (hg : SkippedGrouped c (World.of r)) (hp : Promised c) (hq : Quiet r.state) (hf : r.flight = [])
    (hs : r.state.stage a = .queued) (hd : c.isDependent a = true)
    (hrel : r.state.released a = false) :
    ∃ p j, c.dependency a = some (p, j) ∧ SkippedByGroup c r p := by
  obtain ⟨p, j, hdep⟩ := Config.isDependent_iff.1 hd
  obtain ⟨-, hlt, hj⟩ := Config.check_dependency hc hdep
  refine ⟨p, j, hdep, ?_⟩
  have hpd := hp.parents a p j hdep
  have hdone : r.state.stage p = .done := by
    rcases h.done_of_quiet hq hf hlt with hdone | ⟨-, hpd', -⟩
    · exact hdone
    · rw [hpd] at hpd'
      cases hpd'
  rcases h.delivered hg hq hf hdone with hdel | hskip
  · -- a settled document's dependents were released or dropped
    obtain ⟨e, he⟩ := List.length_eq_one_iff.1 hdel.settled
    have hmem : e ∈ r.settlementsOf p := by simp [he]
    obtain ⟨hmem, hanchor⟩ := List.mem_filter.1 hmem
    have hall : a ∈ c.allDependents e.anchor := by
      rw [of_decide_eq_true hanchor]
      exact List.mem_flatMap.2 ⟨j, List.mem_range.2 hj, Config.mem_dependents.2 hdep⟩
    rcases h.shared.delivered e hmem a hall with hr | hst
    · have hr : r.state.released a = true := hr
      rw [hrel] at hr
      cases hr
    · have hst : r.state.stage a = .done := hst
      rw [hs] at hst
      cases hst
  · exact hskip

/-! ## Runs -/

lemma Moves.told (hp : Promised c) (hc : c.check = none) (h : Inv c w) (hm : Moves c w w')
    (ht : SettledLast w.trace) (hg : SkippedGrouped c w) :
    SettledLast w'.trace ∧ SkippedGrouped c w' := by
  induction hm with
  | refl => exact ⟨ht, hg⟩
  | tail hms hm ih =>
    have hinv := h.moves hp hc hms
    exact ⟨hm.settledLast hinv ih.1, hm.skippedGrouped hinv ih.2⟩

lemma Reachable.told (hp : Promised c) (h : Reachable c r) :
    SettledLast r.trace ∧ SkippedGrouped c (World.of r) := by
  induction h with
  | start hinit =>
    have hspec := init_spec (check_of_init hinit)
    unfold wp at hspec
    rw [hinit] at hspec
    obtain ⟨s, hs, rfl⟩ := hspec
    have hskipped : s.skipped = [] := congrArg State.skipped hs.blank
    refine ⟨List.Pairwise.nil, fun a ha => ?_⟩
    simp [World.of, State.started, hskipped] at ha
  | step hr hstep ih =>
    obtain ⟨hc, hinv⟩ := hr.inv hp
    exact (hstep.moves hp hc hinv).told hp hc hinv ih.1 ih.2

lemma Moves.reached {row : Option Row} (hp : Promised c) (hc : c.check = none) (h : Inv c w)
    (hm : Moves c w w') (hr : Reached c a j row w) : Reached c a j row w' := by
  induction hm with
  | refl => exact hr
  | tail hms hm ih => exact ih.move (h.moves hp hc hms) hm

lemma Later.reached {row : Option Row} (hp : Promised c) (hr : Reachable c r) (h : Later c r r')
    (hw : Reached c a j row (World.of r)) :
    Reachable c r' ∧ Reached c a j row (World.of r') := by
  induction h with
  | refl => exact ⟨hr, hw⟩
  | step _ hstep ih =>
    obtain ⟨hr₁, hw₁⟩ := ih
    obtain ⟨hc, hinv⟩ := hr₁.inv hp
    exact ⟨.step hr₁ hstep, (hstep.moves hp hc hinv).reached hp hc hinv hw₁⟩

/-- A chunk that was built, as a step of a run. -/
lemma Step.nextChunk {o : Oracle} {freePages : ℕ} {room : Option ℕ}
    (h : Step c r (.nextChunk o freePages room) r') : r.state.entering = [] ∧
      ∃ groups s', Admission.nextChunk c o freePages room r.state = .ok groups s' ∧
        r' = r.extend groups s' := by
  have hw : wp (perform c (.nextChunk o freePages room)) (fun t s' => ∃ groups,
      Admission.nextChunk c o freePages room r.state = .ok groups s' ∧
        t = groups.map Event.launched) (fun _ _ => True) r.state := by
    rw [perform, wp_bind]
    unfold wp
    cases hm : Admission.nextChunk c o freePages room r.state with
    | ok groups s' => exact ⟨groups, rfl, rfl⟩
    | error e s' => trivial
  cases h with
  | call hallowed hperform =>
    refine ⟨hallowed, ?_⟩
    unfold wp at hw
    rw [hperform] at hw
    obtain ⟨groups, hok, rfl⟩ := hw
    refine ⟨groups, _, hok, ?_⟩
    have hlaunches : launches (groups.map (Event.launched (β := β))) = groups := by
      simp [launches, List.filterMap_map]
    simp [Run.extend, flightAfter, hlaunches]

/-- What can be followed to a state is reached. -/
lemma exists_reachable {α : Type} (c : Config β γ) (f : Run β γ → α) (calls : List (Call β)) {v : α}
    (h : (Run.follow c calls).map f = some v) : ∃ r, Reachable c r ∧ f r = v := by
  obtain ⟨r, hr, hv⟩ := Option.map_eq_some_iff.1 h
  exact ⟨r, Run.follow_reachable hr, hv⟩

/-- A join of two stages over two anchors, cut by a budget of ten tokens a chunk. -/
def twoStages : Config Bool ℕ := Config.plain [4, 4] [[3, 3], [2]] 10 16 16

lemma twoStages_promised : Promised twoStages where
  parents := by simp [twoStages, Config.plain, Config.dependency]
  fresh := by simp [twoStages, Config.plain, Config.isDependent, Dict.contains]
  asks := by simp [twoStages, Config.plain, Config.isDependent, Dict.contains]
  order := List.Perm.refl _
  shared := by simp [twoStages, Config.plain, Config.treeParent]

/-- Two anchors without a prefix, of which the first to survive is enough. -/
def enough : Config Bool ℕ := { Config.plain [0, 0] [[4]] 4 16 16 with limit := some 1 }

/-- Two anchors of one stop key group. -/
def grouped : Config Bool ℕ := { Config.plain [4, 4] [[3]] 10 16 16 with stopGroups := some [7, 7] }

/-- A resident anchor that is another's dependent. -/
def residentDependent : Config Bool ℕ := { Config.plain [4, 4] [[3]] 16 16 16 with
  resident := Dict.empty.set 1 1
  dependencies := Dict.empty.set 1 (0, 0) }

end Quail.Admission
