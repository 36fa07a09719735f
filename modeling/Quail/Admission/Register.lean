import Quail.Admission.Simulation

/-!
# What the constructor builds

Registering an anchor touches its own fields and the totals over the anchors. The run a constructor
starts has nothing launched: every anchor is settled already, or queued with its first request.
-/

set_option linter.unusedSectionVars false

namespace Quail.Admission
open Imperative Function

variable {β γ : Type} [DecidableEq γ] [ToString γ] {c : Config β γ}
variable {s s' : State β γ} {a b : Anchor} {j : ℕ}

/-- The state once an anchor's lists are recorded. -/
def State.listed (s : State β γ) (a : Anchor) (lists : ℕ → Option Row) : State β γ :=
  { s with lists := update s.lists a lists }

@[simp] lemma State.listed_listed {l l' : ℕ → Option Row} :
    (s.listed a l).listed a l' = s.listed a l' := by
  simp [State.listed]

lemma setList_spec {row : Option Row} :
    wp (setList a j row) (fun _ s' => ∃ lists, s' = s.listed a lists) (fun _ _ => True) s :=
  ⟨update (s.lists a) j row, rfl⟩

lemma setPartnerList_spec {selection : Selection} :
    wp (do setList a j (← partnerList c a j selection))
      (fun _ s' => ∃ lists, s' = s.listed a lists) (fun _ _ => True) s := by
  rw [wp_bind]
  refine wp_mono partnerList_spec ?_ (fun _ _ _ => trivial)
  rintro row s' rfl
  exact setList_spec

lemma setLists_spec {l : List Selection} :
    wp (setLists c a j l) (fun _ s' => ∃ lists, s' = s.listed a lists) (fun _ _ => True) s := by
  induction l generalizing j s with
  | nil => exact ⟨s.lists a, by simp [State.listed]⟩
  | cons selection rest ih =>
    rw [setLists, wp_bind]
    refine wp_mono partnerList_spec ?_ (fun _ _ _ => trivial)
    rintro row s' rfl
    rw [wp_bind]
    refine wp_mono setList_spec ?_ (fun _ _ h => h)
    rintro _ _ ⟨lists, rfl⟩
    refine wp_mono ih ?_ (fun _ _ h => h)
    rintro _ _ ⟨lists', rfl⟩
    exact ⟨lists', State.listed_listed⟩

/-- Only the anchor's lists are recorded. -/
lemma registerLists_spec :
    wp (registerLists c a) (fun _ s' => ∃ lists, s' = s.listed a lists) (fun _ _ => True) s := by
  unfold registerLists
  cases c.anchorPartners a with
  | whole => exact ⟨s.lists a, by simp [State.listed]⟩
  | lists l =>
    dsimp only
    rw [wp_ite]
    exact ⟨fun _ => trivial, fun _ => setLists_spec⟩
  | ask request =>
    dsimp only
    rw [wp_ite]
    refine ⟨fun _ => setList_spec, fun _ => ?_⟩
    cases request (c.startStage a) with
    | skip => trivial
    | drop => exact setPartnerList_spec
    | select selection => exact setPartnerList_spec

/-- How the registration of an anchor ends. -/
inductive RegisterEnd (c : Config β γ) (s : State β γ) (a : Anchor) : State β γ → Prop
  /-- Too long, or nothing to evaluate: the anchor is settled without a chunk. -/
  | settled {lists : ℕ → Option Row} {need carried : ℕ} {kind : Kind} {oversized : List Anchor} :
      carried = (if c.resident.contains a then 0 else c.prefixOf a) →
      RegisterEnd c s a { (s.listed a lists).setStage a .done with
        pageCosts := update s.pageCosts a need
        carried := update s.carried a carried
        oversized
        settled := s.settled ++ [⟨kind, a, false⟩]
        borrowing := s.borrowing.skip a }
  | queued {lists : ℕ → Option Row} {need carried largest : ℕ} :
      (s.listed a lists).oversize c a = false →
      0 < c.rowLength (c.startStage a) (lists (c.startStage a)) →
      need = c.cost (c.prefixOf a + c.extra) - (c.resident.get? a).getD 0 →
      carried = (if c.resident.contains a then 0 else c.prefixOf a) →
      (largest = if c.temporarySuffixPages then (s.listed a lists).largestSuffix c a else 0) →
      (c.temporarySuffixPages →
        c.cost (c.freshTokens a + c.extra) + largest + c.dependentPages a ≤ c.arenaPages) →
      RegisterEnd c s a { s.listed a lists with
        pageCosts := update s.pageCosts a need
        carried := update s.carried a carried
        first := update s.first a (c.firstRows (c.startStage a) (lists (c.startStage a)))
        pageReserve := max s.pageReserve largest
        minFresh := min s.minFresh ((carried - c.treeShared a +
          c.firstRows (c.startStage a) (lists (c.startStage a)) : ℕ) : WithTop ℕ)
        zeroCost := if need = 0 then s.zeroCost + 1 else s.zeroCost }

lemma State.largestSuffix_congr (h : s.lists = s'.lists) :
    s.largestSuffix c a = s'.largestSuffix c a := by
  unfold State.largestSuffix State.suffixPageCost State.suffix State.cum State.lengths
    State.numPartners
  rw [h]

lemma State.firstRows_eq : c.frameRows j + s.suffix c a j 0 = c.firstRows j (s.lists a j) := by
  have hfirst : s.firstCost c a j 0 = c.firstRows j (s.lists a j) := State.firstCost_zero
  unfold State.firstCost at hfirst
  rw [if_pos rfl, Nat.add_comm] at hfirst
  exact hfirst

lemma register_spec : wp (register c a) (fun _ => RegisterEnd c s a) (fun _ _ => True) s := by
  unfold register
  rw [wp_bind]
  refine wp_mono registerLists_spec ?_ (fun _ _ h => h)
  rintro _ _ ⟨lists, rfl⟩
  rw [wp_bind, wp_get]
  dsimp only
  rw [wp_ite]
  refine ⟨fun hover => ?_, fun hover => ?_⟩
  · simp only [wp_bind, wp_modify, wp_get, setList, wp_ite, State.numPartners_eq, if_pos hover]
    refine ⟨fun _ => ?_, fun hne => absurd (by simp [State.listed, Config.rowLength]) hne⟩
    have hend : RegisterEnd c s a { (s.listed a (update lists (c.startStage a)
          (some ⟨[], [], rfl⟩))).setStage a .done with
        pageCosts := update s.pageCosts a 0
        carried := update s.carried a (if c.resident.contains a then 0 else c.prefixOf a)
        oversized := s.oversized ++ [a]
        settled := s.settled ++ [⟨if c.k = 1 then .finished else .dropped, a, false⟩]
        borrowing := s.borrowing.skip a } := .settled rfl
    convert hend using 1
    simp [State.listed, State.setStage]
  · simp only [wp_bind, wp_modify, wp_get, wp_ite, State.numPartners_eq, if_neg hover]
    refine ⟨fun _ => .settled rfl, fun hne => ?_⟩
    have hpos : 0 < c.rowLength (c.startStage a) (lists (c.startStage a)) := by
      refine Nat.pos_of_ne_zero ?_
      simpa [State.listed] using hne
    refine ⟨fun htemp => ⟨fun _ => trivial, fun hfit => ?_⟩, fun htemp => ?_⟩
    · have hend := RegisterEnd.queued (s := s) (by simpa using hover) hpos rfl rfl rfl
        (by rw [if_pos htemp]; exact fun _ => Nat.not_lt.1 hfit)
      rw [if_pos htemp] at hend
      convert hend using 1
      simp [State.listed, State.firstRows_eq]
      exact congrArg _ (State.largestSuffix_congr rfl)
    · have hend := RegisterEnd.queued (s := s) (by simpa using hover) hpos rfl rfl rfl
        (fun ht => absurd ht htemp)
      rw [if_neg htemp] at hend
      convert hend using 1
      simp [State.listed, State.firstRows_eq]

/-! ## All anchors -/

/-- The state after the anchors of `l` are registered. -/
structure Registered (c : Config β γ) (l : List Anchor) (s : State β γ) : Prop where
  blank : s = { State.blank c with
    stage := s.stage, lists := s.lists, first := s.first, pageCosts := s.pageCosts
    carried := s.carried, pageReserve := s.pageReserve, minFresh := s.minFresh
    zeroCost := s.zeroCost, settled := s.settled, oversized := s.oversized
    borrowing := { (State.blank c).borrowing with skipped := s.borrowing.skipped } }
  stage : ∀ a, s.stage a = .queued ∨ (a ∈ l ∧ s.stage a = .done)
  settled : ∀ a, s.settled.countP (fun e => decide (e.anchor = a)) =
    if s.stage a = .done then 1 else 0
  carried : ∀ a ∈ l, s.carried a = if c.resident.contains a then 0 else c.prefixOf a
  costs : ∀ a ∈ l, s.stage a = .queued →
    s.pageCosts a = c.cost (c.prefixOf a + c.extra) - (c.resident.get? a).getD 0
  partners : ∀ a ∈ l, s.stage a = .queued →
    0 < c.rowLength (c.startStage a) (s.lists a (c.startStage a)) ∧
      s.first a = c.firstRows (c.startStage a) (s.lists a (c.startStage a))

lemma Registered.register {l : List Anchor} (h : Registered c l s) (ha : a ∉ l)
    (hend : RegisterEnd c s a s') : Registered c (l ++ [a]) s' := by
  have hq : s.stage a = .queued := by
    rcases h.stage a with hq | ⟨hl, -⟩
    · exact hq
    · exact absurd hl ha
  have hzero := h.settled a
  rw [if_neg (by simp [hq])] at hzero
  cases hend with
  | @settled lists need carried kind oversized hcarried =>
    refine
      { blank := ?_
        stage := fun b => ?_
        settled := fun b => ?_
        carried := fun b hb => ?_
        costs := fun b hb hst => ?_
        partners := fun b hb hst => ?_ }
    · conv_lhs => rw [h.blank]
      rfl
    · by_cases hb : b = a
      · subst hb
        exact .inr ⟨by simp, by simp [State.setStage]⟩
      · rcases h.stage b with hst | ⟨hl, hst⟩
        · exact .inl (by simpa [State.setStage, State.listed, hb] using hst)
        · exact .inr ⟨List.mem_append_left _ hl, by simpa [State.setStage, State.listed, hb] using hst⟩
    · have hs := h.settled b
      by_cases hb : b = a
      · subst hb
        simp [State.setStage, List.countP_append, hzero]
      · simp [State.setStage, State.listed, List.countP_append, hb, Ne.symm hb, hs]
    · by_cases hb' : b = a
      · subst hb'
        simp [hcarried]
      · have hl : b ∈ l := by simpa [hb'] using hb
        simpa [hb'] using h.carried b hl
    · by_cases hb' : b = a
      · subst hb'
        simp [State.setStage] at hst
      · have hl : b ∈ l := by simpa [hb'] using hb
        have hst : s.stage b = .queued := by simpa [State.setStage, State.listed, hb'] using hst
        simpa [hb'] using h.costs b hl hst
    · by_cases hb' : b = a
      · subst hb'
        simp [State.setStage] at hst
      · have hl : b ∈ l := by simpa [hb'] using hb
        have hst : s.stage b = .queued := by simpa [State.setStage, State.listed, hb'] using hst
        simpa [State.setStage, State.listed, hb'] using h.partners b hl hst
  | @queued lists need carried largest hover hpos hneed hcarried hlargest hfit =>
    refine
      { blank := ?_
        stage := fun b => ?_
        settled := fun b => ?_
        carried := fun b hb => ?_
        costs := fun b hb hst => ?_
        partners := fun b hb hst => ?_ }
    · conv_lhs => rw [h.blank]
      rfl
    · rcases h.stage b with hst | ⟨hl, hst⟩
      · exact .inl hst
      · exact .inr ⟨List.mem_append_left _ hl, hst⟩
    · exact h.settled b
    · by_cases hb' : b = a
      · subst hb'
        simp [hcarried]
      · have hl : b ∈ l := by simpa [hb'] using hb
        simpa [hb'] using h.carried b hl
    · by_cases hb' : b = a
      · subst hb'
        simp [hneed]
      · have hl : b ∈ l := by simpa [hb'] using hb
        simpa [hb'] using h.costs b hl hst
    · by_cases hb' : b = a
      · subst hb'
        simpa [State.listed] using hpos
      · have hl : b ∈ l := by simpa [hb'] using hb
        simpa [State.listed, hb'] using h.partners b hl hst

lemma Registered.start : Registered c [] (State.blank c) where
  blank := rfl
  stage := fun _ => .inl rfl
  settled := fun _ => rfl
  carried := by simp
  costs := by simp
  partners := by simp

lemma registerAll_spec {l done : List Anchor} (h : Registered c done s) (hl : (done ++ l).Nodup) :
    wp (registerAll c l) (fun _ => Registered c (done ++ l)) (fun _ _ => True) s := by
  induction l generalizing done s with
  | nil =>
    rw [registerAll, wp_pure, List.append_nil]
    exact h
  | cons a rest ih =>
    rw [registerAll, wp_bind]
    refine wp_mono register_spec ?_ (fun _ _ h => h)
    intro _ s' hend
    have ha : a ∉ done := by
      rw [List.nodup_append] at hl
      exact fun hmem => hl.2.2 a hmem a (by simp) rfl
    rw [List.append_cons] at hl ⊢
    exact ih (h.register ha hend) hl

/-! ## The first world -/

/-- The state a constructor leaves, from the registered anchors. -/
def State.started (s : State β γ) (c : Config β γ) : State β γ :=
  { s with
    pending := s.firstPending c
    groupMembers := membersOf c (s.firstPending c)
    borrowing := c.resident.keys.foldl Borrowing.detach s.borrowing }

lemma init_spec (hc : c.check = none) :
    wp (init c) (fun _ s' => ∃ s, Registered c (List.range c.n) s ∧ s' = s.started c)
      (fun _ _ => True) (State.blank c) := by
  unfold init
  rw [hc]
  dsimp only
  rw [wp_bind]
  refine wp_mono (registerAll_spec .start (by simpa using List.nodup_range)) ?_ (fun _ _ h => h)
  intro _ s hs
  exact ⟨s, by simpa using hs, rfl⟩

/-- A constructor returns only when its arguments match. -/
lemma check_of_init {s : State β γ} (h : init c (State.blank c) = .ok () s) : c.check = none := by
  cases hc : c.check with
  | none => rfl
  | some e =>
    unfold init at h
    rw [hc] at h
    cases h

lemma detach_fold {l : List Anchor} {r : Borrowing} :
    (l.foldl Borrowing.detach r).admitted = r.admitted ∧
      (∀ a, (l.foldl Borrowing.detach r).treeParent a = if a ∈ l then none else r.treeParent a) ∧
      (∀ a, (l.foldl Borrowing.detach r).treeShared a = if a ∈ l then 0 else r.treeShared a) := by
  induction l generalizing r with
  | nil => simp
  | cons b rest ih =>
    obtain ⟨h₁, h₂, h₃⟩ := ih (r := r.detach b)
    refine ⟨h₁, fun a => ?_, fun a => ?_⟩
    · rw [List.foldl_cons, h₂]
      by_cases ha : a = b <;> simp [Borrowing.detach, ha]
    · rw [List.foldl_cons, h₃]
      by_cases ha : a = b <;> simp [Borrowing.detach, ha]

lemma count_filter_range {p : Anchor → Bool} {l : List Anchor} (hl : l.Perm (List.range c.n)) :
    (l.filter p).count a = if a < c.n ∧ p a then 1 else 0 := by
  by_cases hpa : p a = true
  · rw [List.count_filter hpa, hl.count_eq, List.count_range]
    simp [hpa]
  · rw [List.count_eq_zero_of_not_mem (by simp [hpa])]
    simp [hpa]

/-- Every queued anchor that is not a dependent is pending, once. -/
lemma count_firstPending (hp : Promised c) :
    (s.firstPending c).count a =
      if a < c.n ∧ c.isDependent a = false ∧ s.stage a = .queued then 1 else 0 := by
  unfold State.firstPending
  rw [List.count_append, count_filter_range (List.Perm.refl _), count_filter_range hp.order]
  have hres : c.isDependent a = true → c.resident.contains a = false := hp.fresh a
  cases hr : c.resident.contains a with
  | true =>
    have hd : c.isDependent a = false := by
      by_contra hd
      rw [hres (by simpa using hd)] at hr
      cases hr
    simp [hd]
  | false => simp [and_comm]

lemma mem_firstPending (hp : Promised c) (ha : a ∈ s.firstPending c) :
    a < c.n ∧ c.isDependent a = false ∧ s.stage a = .queued := by
  have hpos := List.count_pos_iff.2 ha
  rw [count_firstPending hp] at hpos
  split_ifs at hpos with hcond
  · exact hcond
  · exact absurd hpos (lt_irrefl 0)

/-- A registered anchor has nothing launched and is in one place. -/
lemma Registered.anchor (hp : Promised c) (h : Registered c (List.range c.n) s) (a : Anchor) :
    Local c a ((World.of ⟨s.started c, [], []⟩).view a) := by
  have hended := h.settled a
  have hlists : s.answers = fun _ _ => [] := congrArg State.answers h.blank
  have hview : (World.of ⟨s.started c, [], []⟩).view a =
      { stage := s.stage a, next := 0, lists := s.lists a, answers := fun _ => [], first := s.first a
        released := false, admitted := false
        pending := if a < c.n ∧ c.isDependent a = false ∧ s.stage a = .queued then 1 else 0
        waiting := 0, ready := 0, entering := 0, ended := if s.stage a = .done then 1 else 0
        skips := 0, flight := [], launched := [], answered := [], due := false } := by
    have hadm : s.borrowing.admitted = fun _ => false := congrArg (·.borrowing.admitted) h.blank
    have hnext : s.next = fun _ => 0 := congrArg State.next h.blank
    have hrel : s.released = fun _ => false := congrArg State.released h.blank
    have hw : s.waiting = [] := congrArg State.waiting h.blank
    have hr : s.ready = [] := congrArg State.ready h.blank
    have he : s.entering = [] := congrArg State.entering h.blank
    have hk : s.skipped = [] := congrArg State.skipped h.blank
    simp only [World.view, World.of, World.settlements, State.started, count_firstPending hp,
      detach_fold.1, hadm, hnext, hrel, hw, hr, he, hk, hlists]
    simp [hended]
  rw [hview]
  refine
    { log := rfl
      bits := fun _ => rfl
      tiled := fun _ => rfl
      unlaunched := by simp
      carries := by simp
      own := by simp
      known := fun hne => ?_
      placed := ?_ }
  · rcases h.stage a with hst | ⟨hmem, -⟩
    · exact absurd hst hne
    · exact List.mem_range.1 hmem
  · rcases h.stage a with hst | ⟨hmem, hst⟩
    · dsimp only
      rw [hst]
      exact
        { unadmitted := rfl
          next := rfl
          ready := rfl
          entering := rfl
          ended := by simp
          skips := rfl
          pending := by simp
          waiting := by simp
          partners := fun ha hd => by
            have hj : c.startStage a = 0 := by
              have hnone : c.dependency a = none := Dict.contains_eq_false.1 hd
              simp [Config.startStage, hnone]
            have hpart := h.partners a (List.mem_range.2 ha) hst
            rwa [hj] at hpart }
    · dsimp only
      rw [hst]
      exact
        { ready := rfl
          entering := rfl
          waiting := by simp
          pending := by simp
          past := fun _ => .inl rfl
          ended := .inl (by simp)
          flight := by simp }

/-- What ties the anchors together at first. -/
lemma Registered.shared (hp : Promised c) (h : Registered c (List.range c.n) s) :
    Shared c (World.of ⟨s.started c, [], []⟩) where
  inFlight := by
    have hin : s.inFlight = 0 := congrArg State.inFlight h.blank
    simpa [World.of, State.started] using hin
  dead := by
    have hdead : s.dead = 0 := congrArg State.dead h.blank
    have hnone : (s.firstPending c).countP (fun a => decide (s.stage a = .done)) = 0 := by
      refine List.countP_eq_zero.2 fun a ha => ?_
      simp [(mem_firstPending hp ha).2.2]
    simp only [World.of, State.started, hdead]
    exact congrArg Nat.cast hnone.symm
  members := by
    intro group ms hms
    have hms' : (s.firstPending c).filter (fun a => decide (c.groupOf a = some group)) = ms := by
      have hms : membersOf c (s.firstPending c) group = some ms := hms
      unfold membersOf at hms
      split at hms
      · cases hms
      · simpa using hms
    have hnodup : (s.firstPending c).Nodup := by
      refine List.nodup_iff_count_le_one.2 fun a => ?_
      rw [count_firstPending hp]
      split_ifs <;> simp
    refine ⟨hms' ▸ hnodup.filter _, fun b hb => ?_⟩
    rw [← hms', List.mem_filter, decide_eq_true_eq] at hb
    obtain ⟨hlt, hd, hst⟩ := mem_firstPending hp hb.1
    exact ⟨hst, hd, hlt, hb.2⟩
  carried := fun a ha => h.carried a (List.mem_range.2 ha)
  borrows := by
    intro a p hpar
    have hbor : s.borrowing = { (State.blank c).borrowing with skipped := s.borrowing.skipped } :=
      congrArg State.borrowing h.blank
    obtain ⟨-, hparent, hshared⟩ := detach_fold (l := c.resident.keys) (r := s.borrowing)
    have hpar : (c.resident.keys.foldl Borrowing.detach s.borrowing).treeParent a = some p := hpar
    show _ ∧ (c.resident.keys.foldl Borrowing.detach s.borrowing).treeShared a < _
    rw [hparent] at hpar
    rw [hshared]
    split_ifs at hpar ⊢ with hmem
    have hfree : c.resident.contains a = false := by
      rw [Bool.eq_false_iff]
      exact fun hcon => hmem (Dict.contains_iff_mem_keys.1 hcon)
    rw [hbor] at hpar ⊢
    exact ⟨hfree, hp.shared a p hpar⟩
  delivered := by simp [World.of]

/-- The run of a constructor keeps the invariant. -/
theorem Inv.start (hp : Promised c) (h : Registered c (List.range c.n) s) :
    Inv c (World.of ⟨s.started c, [], []⟩) := ⟨h.anchor hp, h.shared hp⟩

/-- The invariant holds of every run. -/
theorem Reachable.inv {r : Run β γ} (hp : Promised c) (h : Reachable c r) :
    c.check = none ∧ Inv c (World.of r) := by
  induction h with
  | start hinit =>
    have hc := check_of_init hinit
    refine ⟨hc, ?_⟩
    have hspec := init_spec hc
    unfold wp at hspec
    rw [hinit] at hspec
    obtain ⟨s, hs, rfl⟩ := hspec
    exact Inv.start hp hs
  | step _ hstep ih =>
    obtain ⟨hc, hinv⟩ := ih
    exact ⟨hc, hinv.moves hp hc (hstep.moves hp hc hinv)⟩

end Quail.Admission
