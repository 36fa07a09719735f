import Quail.Admission.Register

/-!
# Every partner once

What a caller sees of a run: the partners of an anchor are launched in list order, each once, and
answered in that order; the anchor's prefix is packed with its first group; an anchor is settled once
and not launched again; a chunk holds one group of an anchor.
-/

set_option linter.unusedSectionVars false

namespace Quail.Admission
open Imperative Function

variable {β γ : Type} [DecidableEq γ] [ToString γ] {c : Config β γ}
variable {s s' : State β γ} {r r' : Run β γ} {w w' : World β γ} {ch : Chunk} {turn : Turn}
variable {o : Oracle} {a : Anchor} {j : ℕ}

/-! ## One group of an anchor in a chunk -/

/-- A waiting dependent is in no other queue. -/
lemma Inv.waiting_once (h : Inv c w) (ha : a ∈ w.state.waiting) (hs : w.state.stage a ≠ .done) :
    w.state.waiting.count a = 1 ∧ w.state.pending.count a = 0 ∧ w.state.ready.count a = 0 ∧
      w.state.released a = true := by
  have hd := h.waiting_dependent ha
  have hpos : 0 < (w.view a).waiting := List.count_pos_iff.2 ha
  cases hst : w.state.stage a with
  | queued =>
    have hQ := (h.anchors a).queued hst
    obtain ⟨hw, hp, hr⟩ := h.waiting_view hd ha hst
    exact ⟨hw, hp, hQ.ready, hr⟩
  | entered j =>
    have hE := (h.anchors a).entered hst
    cases hadm : (w.view a).admitted with
    | false =>
      obtain ⟨hw, hr, -⟩ := hE.asked hadm
      exact ⟨hw, hE.pending, hr, (hE.own hd).2⟩
    | true =>
      have hw := (hE.running hadm).1
      omega
  | done => exact absurd hst hs

/-- A pending anchor is in no other queue. -/
lemma Inv.pending_once (h : Inv c w) (ha : a ∈ w.state.pending) (hs : w.state.stage a ≠ .done) :
    w.state.pending.count a = 1 ∧ w.state.waiting.count a = 0 ∧ w.state.ready.count a = 0 := by
  obtain ⟨hq, hd⟩ := h.pending_queued ha hs
  have hQ := (h.anchors a).queued hq
  have hpos : 0 < (w.view a).pending := List.count_pos_iff.2 ha
  have hp := hQ.pending
  have hw := hQ.waiting
  rw [if_neg (by simp [hd])] at hw
  split_ifs at hp
  · exact ⟨hp, hw, hQ.ready⟩
  · omega

/-- The groups of a chunk are of different anchors, none of them in a queue of the loops. -/
structure Distinct (c : Config β γ) (s : State β γ) (ch : Chunk) : Prop where
  nodup : (ch.groups.map Group.anchor).Nodup
  ready : ∀ g ∈ ch.groups, g.anchor ∉ s.ready
  pending : ∀ g ∈ ch.groups, g.anchor ∉ s.pending
  waiting : ∀ g ∈ ch.groups, g.anchor ∉ s.waiting
  released : ∀ g ∈ ch.groups, c.isDependent g.anchor → s.released g.anchor = true

/-- A group of an anchor that is in none of the queues. -/
lemma Distinct.launch {ch' : Chunk} {stop start : ℕ} {carried : Bool} (h : Distinct c s ch)
    (hgroups : ch'.groups = ch.groups ++ [⟨a, j, start, stop, carried⟩])
    (hnew : a ∉ ch.groups.map Group.anchor) (hr : s'.ready ⊆ s.ready) (hp : s'.pending ⊆ s.pending)
    (hw : s'.waiting ⊆ s.waiting) (hrel : s'.released = s.released) (har : a ∉ s'.ready)
    (hap : a ∉ s'.pending) (haw : a ∉ s'.waiting)
    (had : c.isDependent a → s.released a = true) :
    Distinct c (s'.launch c a j stop) ch' := by
  have hfree : ∀ b, (c.isDependent b → s.released b = true) → b ∉ s'.newlyReleased c a j := by
    intro b hb hmem
    obtain ⟨hdep, hfalse⟩ := State.mem_newlyReleased.1 hmem
    rw [hrel, hb (Config.isDependent_of_mem hdep)] at hfalse
    cases hfalse
  refine
    { nodup := ?_
      ready := fun g hg => ?_
      pending := fun g hg => ?_
      waiting := fun g hg => ?_
      released := fun g hg hd => ?_ }
  · rw [hgroups, List.map_append, List.map_singleton]
    exact List.nodup_append.2 ⟨h.nodup, List.nodup_singleton _, by
      rintro b hb _ hmem rfl
      rw [List.mem_singleton.1 hmem] at hb
      exact hnew hb⟩
  all_goals
    rw [hgroups, List.mem_append, List.mem_singleton] at hg
  · rcases hg with hg | rfl
    · exact fun hmem => h.ready g hg (hr hmem)
    · exact har
  · rcases hg with hg | rfl
    · exact fun hmem => h.pending g hg (hp hmem)
    · exact hap
  · show g.anchor ∉ s'.waiting ++ s'.newlyReleased c a j
    rw [List.mem_append, not_or]
    rcases hg with hg | rfl
    · exact ⟨fun hmem => h.waiting g hg (hw hmem), hfree _ (h.released g hg)⟩
    · exact ⟨haw, hfree _ had⟩
  · show (s'.released g.anchor || decide (g.anchor ∈ s'.newlyReleased c a j)) = true
    rw [hrel]
    rcases hg with hg | rfl
    · simp [h.released g hg hd]
    · simp [had hd]

/-- Queues that shrink keep the groups apart. -/
lemma Distinct.shrink {ch' : Chunk} (h : Distinct c s ch) (hgroups : ch'.groups = ch.groups)
    (hr : s'.ready ⊆ s.ready) (hp : s'.pending ⊆ s.pending) (hw : s'.waiting ⊆ s.waiting)
    (hrel : s'.released = s.released) : Distinct c s' ch' where
  nodup := hgroups ▸ h.nodup
  ready := fun g hg hmem => h.ready g (hgroups ▸ hg) (hr hmem)
  pending := fun g hg hmem => h.pending g (hgroups ▸ hg) (hp hmem)
  waiting := fun g hg hmem => h.waiting g (hgroups ▸ hg) (hw hmem)
  released := fun g hg hd => by rw [hrel]; exact h.released g (hgroups ▸ hg) hd

lemma ReadyEnd.distinct (h : Inv c (ch.world r s)) (he : s.entering = []) (hd : Distinct c s ch)
    (hend : ReadyEnd c s ch turn s') : Distinct c s' turn.chunk := by
  cases hend with
  | closed => exact hd
  | @defer a rest hr hroom =>
    exact hd.shrink rfl (by simp [hr]) (List.Subset.refl _) (List.Subset.refl _) rfl
  | short hr hroom ht hstop =>
    exact hd.shrink rfl (List.Subset.refl _) (List.Subset.refl _) (List.Subset.refl _) rfl
  | @launch a rest t hr hroom ht hstop =>
    have hmem : a ∈ (ch.world r s).state.ready := by simp [Chunk.world, hr]
    have hj := h.ready_stage hmem
    have hE := (h.anchors a).entered hj
    have hnext := h.ready_next hmem hj he
    obtain ⟨hready, hent, hadm⟩ := h.ready_view hmem hj he hnext
    have hcount : (ch.deferred ++ ch.continued ++ s.ready).count a = 1 := hready
    have hpend : (ch.held ++ s.pending).count a = 0 := hE.pending
    have hwait : (ch.heldWaiting ++ s.waiting).count a = 0 := (hE.running hadm).1
    rw [hr, List.count_append, List.count_cons_self] at hcount
    rw [List.count_append] at hpend hwait
    have har : rest.count a = 0 := by omega
    have hap : s.pending.count a = 0 := by omega
    have haw : s.waiting.count a = 0 := by omega
    refine hd.launch rfl ?_ (by simp [hr]) (List.Subset.refl _) (List.Subset.refl _) rfl
      (List.count_eq_zero.1 har) (List.count_eq_zero.1 hap) (List.count_eq_zero.1 haw)
      fun hdep => (hE.own hdep).2
    intro hmem'
    obtain ⟨g, hg, hga⟩ := List.mem_map.1 hmem'
    exact hd.ready g hg (by simp [hr, hga])

lemma PlaceEnd.distinct {dependent : Bool} (hd : Distinct c s ch)
    (hnew : a ∉ ch.groups.map Group.anchor) (har : a ∉ s.ready) (hap : a ∉ s.pending)
    (haw : a ∉ s.waiting) (had : c.isDependent a → s.released a = true)
    (hend : PlaceEnd c o s ch a j dependent turn s') : Distinct c s' turn.chunk := by
  cases hend with
  | @hold _ pages blocked hh ht =>
    have hchunk : turn.chunk = { ch.hold a dependent with blocked } := by
      rcases ht with rfl | rfl <;> rfl
    rw [hchunk]
    refine hd.shrink ?_ (List.Subset.refl _) (List.Subset.refl _) (List.Subset.refl _) rfl
    cases dependent <;> rfl
  | fits hf hgroup =>
    exact hd.launch rfl hnew (List.Subset.refl _) (List.Subset.refl _) (List.Subset.refl _) rfl har
      hap haw had

/-- The queues of a world split at the anchors a chunk holds. -/
lemma Chunk.world_counts (ch : Chunk) (r : Run β γ) (s : State β γ) (a : Anchor) :
    (ch.world r s).state.waiting.count a =
      ch.heldWaiting.count a + s.waiting.count a ∧
    (ch.world r s).state.pending.count a = ch.held.count a + s.pending.count a ∧
    (ch.world r s).state.ready.count a =
      (ch.deferred ++ ch.continued).count a + s.ready.count a :=
  ⟨List.count_append, List.count_append, List.count_append⟩

lemma FreshEnd.distinct {limited : Bool} (h : Inv c (ch.world r s)) (hd : Distinct c s ch)
    (hend : FreshEnd c o limited s ch turn s') : Distinct c s' turn.chunk := by
  -- a popped dependent is in no queue any more
  have hwaiting {a : Anchor} {rest : List Anchor} (hw : s.waiting = a :: rest)
      (hs : s.stage a ≠ .done) : a ∉ ch.groups.map Group.anchor ∧ a ∉ s.ready ∧ a ∉ s.pending ∧
        a ∉ rest ∧ s.released a = true := by
    obtain ⟨hcw, hcp, hcr, hrel⟩ := h.waiting_once (a := a) (by simp [Chunk.world, hw]) hs
    obtain ⟨hw', hp', hr'⟩ := Chunk.world_counts ch r s a
    rw [hw, List.count_cons_self] at hw'
    have har : s.ready.count a = 0 := by omega
    have hap : s.pending.count a = 0 := by omega
    have haw : rest.count a = 0 := by omega
    refine ⟨?_, List.count_eq_zero.1 har, List.count_eq_zero.1 hap, List.count_eq_zero.1 haw, hrel⟩
    intro hmem
    obtain ⟨g, hg, hga⟩ := List.mem_map.1 hmem
    exact hd.waiting g hg (by simp [hw, hga])
  cases hend with
  | empty hw hq => exact hd
  | paced hw hq hl => exact hd
  | @dropped a rest hw hs =>
    exact hd.shrink rfl (List.Subset.refl _) (List.Subset.refl _) (by simp [hw]) rfl
  | @dead a rest hw hq hs =>
    exact hd.shrink rfl (List.Subset.refl _) (by simp [hq]) (List.Subset.refl _) rfl
  | @ended a rest _ hw hs hask =>
    cases hask with
    | ended hE => exact hd.shrink rfl (List.Subset.refl _) (List.Subset.refl _) (by
        simp [State.setStage, State.entered, hw]) rfl
  | @asked a rest s₁ _ _ hw hs hask hplace =>
    obtain ⟨hnew, har, hap, haw, hrel⟩ := hwaiting hw (by simp [hs])
    obtain ⟨hr₁, hp₁, hw₁, hrel₁⟩ : s₁.ready = s.ready ∧ s₁.pending = s.pending ∧
        s₁.waiting = rest ∧ s₁.released = s.released := by
      cases hask with
      | asked hE => exact ⟨rfl, rfl, rfl, rfl⟩
    have hd₁ : Distinct c s₁ ch := hd.shrink rfl (by simp [hr₁]) (by simp [hp₁])
      (by simp [hw₁, hw]) hrel₁
    exact hplace.distinct hd₁ hnew (hr₁ ▸ har) (hp₁ ▸ hap) (hw₁ ▸ haw) fun _ => hrel₁ ▸ hrel
  | @waited a rest _ _ hw hs hs' hplace =>
    obtain ⟨hnew, har, hap, haw, hrel⟩ := hwaiting hw hs'
    have hd₁ : Distinct c { s with waiting := rest } ch :=
      hd.shrink rfl (List.Subset.refl _) (List.Subset.refl _) (by simp [hw]) rfl
    exact hplace.distinct hd₁ hnew har hap haw fun _ => hrel
  | @fresh a rest _ _ hw hq hs hl hplace =>
    have hmem : a ∈ (ch.world r s).state.pending := by simp [Chunk.world, hq]
    obtain ⟨hcp, -, hcr⟩ := h.pending_once hmem hs
    obtain ⟨-, hp', hr'⟩ := Chunk.world_counts ch r s a
    rw [hq, List.count_cons_self] at hp'
    have har : s.ready.count a = 0 := by omega
    have hap : rest.count a = 0 := by omega
    have hd₁ : Distinct c { s with pending := rest } ch :=
      hd.shrink rfl (List.Subset.refl _) (by simp [hq]) (List.Subset.refl _) rfl
    refine hplace.distinct hd₁ ?_ (List.count_eq_zero.1 har) (List.count_eq_zero.1 hap) ?_ ?_
    · intro hmem'
      obtain ⟨g, hg, hga⟩ := List.mem_map.1 hmem'
      exact hd.pending g hg (by simp [hq, hga])
    · simp [hw]
    · intro hdep
      rw [(h.pending_queued hmem hs).2] at hdep
      cases hdep

/-- The groups of a chunk are of different anchors. -/
theorem nextChunk_distinct {freePages : ℕ} {room : Option ℕ} (hp : Promised c)
    (hc : c.check = none) (h : Inv c (World.of r)) (he : r.state.entering = []) :
    wp (nextChunk c o freePages room) (fun groups _ => (groups.map Group.anchor).Nodup)
      (fun _ _ => True) r.state := by
  refine wp_mono (nextChunk_moves (I := Distinct c) hp hc h he ?_ ?_ ?_ ?_) ?_ (fun _ _ h => h)
  · exact ⟨by simp [Chunk.start], nofun, nofun, nofun, nofun⟩
  · exact fun s ch n hd => hd.shrink rfl (List.Subset.refl _) (List.Subset.refl _)
      (List.Subset.refl _) rfl
  · exact fun s ch turn s' hinv he hd hend => hend.distinct hinv he hd
  · exact fun s ch turn s' hinv _ hd hend => hend.distinct hinv hd
  · rintro groups s' ⟨-, s, ch, hd, rfl⟩
    exact hd.nodup

/-! ## Nothing is launched after a settlement -/

/-- No group is launched after its anchor was settled. -/
def SettledLast (t : List (Event β)) : Prop :=
  t.Pairwise fun x y => ∀ e g, x = .settled e → y = .launched g → g.anchor ≠ e.anchor

lemma SettledLast.append {t : List (Event β)} {y : Event β} (h : SettledLast t)
    (hy : ∀ g, y = .launched g → ∀ e ∈ settledIn t, g.anchor ≠ e.anchor) :
    SettledLast (t ++ [y]) := by
  refine List.pairwise_append.2 ⟨h, List.pairwise_singleton _ _, ?_⟩
  intro x hx z hz e g hxe hzg
  rw [List.mem_singleton.1 hz] at hzg
  refine hy g hzg e (List.mem_filterMap.2 ⟨x, hx, ?_⟩)
  rw [hxe]

/-- An anchor in a queue or at a stage is not settled. -/
lemma Inv.unsettled (h : Inv c w) (ha : w.state.stage a ≠ .done) :
    ∀ e ∈ settledIn w.trace, a ≠ e.anchor := by
  have hended : (w.view a).ended = 0 := by
    cases hs : w.state.stage a with
    | queued => exact ((h.anchors a).queued hs).ended
    | entered j => exact ((h.anchors a).entered hs).ended
    | done => exact absurd hs ha
  intro e he hae
  have hmem : e ∈ w.settlements := by
    unfold World.settlements
    exact List.mem_append_left _ (List.mem_append_left _ he)
  have hnone := List.countP_eq_zero.1 hended e hmem
  simp [hae] at hnone

lemma Move.settledLast (h : Inv c w) (hm : Move c w w') (ht : SettledLast w.trace) :
    SettledLast w'.trace := by
  cases hm with
  | launch ha hj _ _ _ _ =>
    refine ht.append fun g hg => ?_
    obtain rfl := Event.launched.inj hg
    exact h.unsettled (by simp [hj])
  | place hq _ _ _ _ _ _ =>
    refine ht.append fun g hg => ?_
    obtain rfl := Event.launched.inj hg
    refine h.unsettled ?_
    rcases hq with ⟨_, hs, _⟩ | ⟨_, hs, _⟩ <;> simp [hs]
  | answer _ _ _ => exact ht.append fun g hg => by cases hg
  | settle _ => exact ht.append fun g hg => by cases hg
  | takeSkipped _ => exact ht.append fun g hg => by cases hg
  | _ => exact ht

/-! ## A stage once reached is launched whole -/

/-- Dropping dependents ends queued ones only. -/
lemma State.dropDependents_stage {l : List Anchor} (ha : s.stage a ≠ .queued) :
    (l.foldl State.dropDependent s).stage a = s.stage a := by
  induction l generalizing s with
  | nil => rfl
  | cons d l ih =>
    have hd : (s.dropDependent d).stage a = s.stage a := by
      unfold State.dropDependent
      split_ifs with hcond
      · rfl
      · rw [not_or, not_not] at hcond
        have hne : a ≠ d := fun had => ha (had ▸ hcond.1)
        simp [State.setStage, hne]
    rw [List.foldl_cons, ih (hd ▸ ha), hd]

lemma State.skipMembers_stage {l : List Anchor} (ha : a ∉ l) :
    (l.foldl State.skipMember s).stage a = s.stage a := by
  induction l generalizing s with
  | nil => rfl
  | cons b l ih =>
    rw [List.mem_cons, not_or] at ha
    rw [List.foldl_cons, ih ha.2]
    simp [State.skipMember, State.setStage, ha.1]

/-- The fields that dropping dependents writes. -/
lemma State.dropDependents_eq (s : State β γ) (l : List Anchor) : ∃ stage skipped settled,
    l.foldl State.dropDependent s = { s with stage, skipped, settled } := by
  induction l generalizing s with
  | nil => exact ⟨_, _, _, rfl⟩
  | cons d l ih =>
    obtain ⟨stage, skipped, settled, hd⟩ :
        ∃ stage skipped settled, s.dropDependent d = { s with stage, skipped, settled } := by
      unfold State.dropDependent
      split_ifs <;> exact ⟨_, _, _, rfl⟩
    rw [List.foldl_cons, hd]
    exact ih _

/-- The fields that skipping queued members writes. -/
lemma State.skipMembers_eq (s : State β γ) (l : List Anchor) : ∃ stage zeroCost dead skipped,
    l.foldl State.skipMember s = { s with stage, zeroCost, dead, skipped } := by
  induction l generalizing s with
  | nil => exact ⟨_, _, _, _, rfl⟩
  | cons b l ih => exact ih _

/-- The fields that settling a group writes. -/
lemma State.settleGroup_eq (s : State β γ) (c : Config β γ) (b : Anchor) (survived : Bool) :
    ∃ stage zeroCost dead skipped settled groupBusy groupDone groupMembers,
      s.settleGroup c b survived = { s with
        stage, zeroCost, dead, skipped, settled, groupBusy, groupDone, groupMembers } := by
  obtain ⟨stage, skipped, settled, hdrop⟩ := State.dropDependents_eq s (c.allDependents b)
  unfold State.settleGroup
  rw [hdrop]
  dsimp only
  cases c.groupOf b with
  | none => exact ⟨_, _, _, _, _, _, _, _, rfl⟩
  | some group =>
    dsimp only
    split_ifs
    · exact ⟨_, _, _, _, _, _, _, _, rfl⟩
    · obtain ⟨stage', zeroCost', dead', skipped', hskip⟩ := State.skipMembers_eq
        { s with
          stage, skipped, settled
          groupBusy := update s.groupBusy group (s.groupBusy group - 1)
          groupDone := update s.groupDone group true
          groupMembers := update s.groupMembers group none }
        (((s.groupMembers group).getD []).insertionSort (· ≤ ·))
      rw [hskip]
      exact ⟨_, _, _, _, _, _, _, _, rfl⟩

/-- Settling a group ends queued anchors only. -/
lemma Inv.settleGroup_stage (b : Anchor) (survived : Bool) (h : Inv c w)
    (ha : w.state.stage a ≠ .queued) :
    (w.state.settleGroup c b survived).stage a = w.state.stage a := by
  have hstage := State.dropDependents_stage (l := c.allDependents b) ha
  have hmem : ((c.allDependents b).foldl State.dropDependent w.state).groupMembers =
      w.state.groupMembers := by
    obtain ⟨_, _, _, hdrop⟩ := State.dropDependents_eq w.state (c.allDependents b)
    rw [hdrop]
  unfold State.settleGroup
  dsimp only
  cases hg : c.groupOf b with
  | none => exact hstage
  | some group =>
    dsimp only
    split_ifs with hkeep
    · exact hstage
    · have hnot : a ∉ ((((c.allDependents b).foldl State.dropDependent w.state).groupMembers
          group).getD []).insertionSort (· ≤ ·) := by
        rw [(List.perm_insertionSort _ _).mem_iff, hmem]
        cases hms : w.state.groupMembers group with
        | none => simp
        | some ms => exact fun hin => ha ((h.shared.members group ms hms).2 a hin).1
      rw [State.skipMembers_stage hnot]
      exact hstage

/-- The anchor is at the stage, past its gate, or has left it with every partner launched. -/
structure Reached (c : Config β γ) (a : Anchor) (j : ℕ) (row : Option Row) (w : World β γ) : Prop where
  list : w.state.lists a j = row
  placed : (w.state.stage a = .entered j ∧ a ∉ w.state.entering) ∨
    ((w.view a).Streamed j (c.rowLength j row) ∧ w.state.stage a ≠ .queued ∧
      ∀ i, w.state.stage a = .entered i → j < i)

lemma Reached.not_queued {row : Option Row} (h : Reached c a j row w) :
    w.state.stage a ≠ .queued := by
  rcases h.placed with ⟨hs, -⟩ | ⟨-, hs, -⟩
  · simp [hs]
  · exact hs

/-- A world that says the same about the anchor. -/
lemma Reached.congr {row : Option Row} (h : Reached c a j row w)
    (hl : w'.state.lists a = w.state.lists a) (hs : w'.state.stage a = w.state.stage a)
    (he : a ∈ w'.state.entering → a ∈ w.state.entering)
    (ht : (w'.view a).launched = (w.view a).launched) : Reached c a j row w' where
  list := by rw [hl, h.list]
  placed := by
    have hv : ∀ e, (w'.view a).Streamed j e ↔ (w.view a).Streamed j e := by
      intro e
      unfold View.Streamed View.launchedAt
      rw [ht]
    rw [hs, hv]
    exact h.placed.imp_left fun hp => hp.imp_right fun hn hmem => hn (he hmem)

/-- A launched group, of the anchor's own stage or of another anchor. -/
lemma Reached.launch {row : Option Row} {b : Anchor} {i start stop : ℕ} {carried : Bool}
    (h : Reached c a j row w) (hb : b = a → w.state.stage a = .entered i) :
    Reached c a j row (w.launched c b i start stop carried) where
  list := h.list
  placed := by
    refine h.placed.imp id ?_
    rintro ⟨hstr, hq, hlt⟩
    refine ⟨?_, hq, hlt⟩
    unfold View.Streamed View.launchedAt at *
    have hview : ((w.launched c b i start stop carried).view a).launched = (w.view a).launched ++
        if b = a then [⟨b, i, start, stop, carried⟩] else [] := by
      by_cases hba : b = a <;> simp [World.view, World.launched, hba]
    rw [hview, List.filter_append]
    split_ifs with hba
    · have hne : i ≠ j := (hlt i (hb hba)).ne'
      simpa [hne] using hstr
    · simpa using hstr

/-- The anchor leaves a stage it launched whole. -/
lemma Reached.leave {row : Option Row} {i : ℕ} (hr : Reached c a j row w)
    (hs : w.state.stage a = .entered i)
    (hwhole : (w.view a).Streamed i (c.rowLength i (w.state.lists a i)))
    (hl : ∀ i' ≤ i, w'.state.lists a i' = w.state.lists a i') (hq : w'.state.stage a ≠ .queued)
    (hlater : ∀ i', w'.state.stage a = .entered i' → i < i')
    (ht : (w'.view a).launched = (w.view a).launched) : Reached c a j row w' := by
  have hv : ∀ e, (w'.view a).Streamed j e ↔ (w.view a).Streamed j e := by
    intro e
    unfold View.Streamed View.launchedAt
    rw [ht]
  rcases hr.placed with ⟨hj, -⟩ | ⟨hstr, -, hlt⟩
  · obtain rfl : i = j := Stage.entered.inj (hs.symm.trans hj)
    refine ⟨by rw [hl i le_rfl, hr.list], .inr ⟨(hv _).2 ?_, hq, hlater⟩⟩
    rwa [hr.list] at hwhole
  · have hji := hlt i hs
    refine ⟨by rw [hl j hji.le, hr.list], .inr ⟨(hv _).2 hstr, hq, fun i' hi' => ?_⟩⟩
    exact hji.trans (hlater i' hi')

/-- A waiting anchor passes its gate. -/
lemma Reached.gate {row : Option Row} {i : ℕ} (hr : Reached c a j row w)
    (hs : w.state.stage a = .entered i) (he : a ∈ w.state.entering)
    (hl : ∀ i' < i, w'.state.lists a i' = w.state.lists a i') (hq : w'.state.stage a ≠ .queued)
    (hlater : ∀ i', w'.state.stage a = .entered i' → i ≤ i')
    (ht : (w'.view a).launched = (w.view a).launched) : Reached c a j row w' := by
  rcases hr.placed with ⟨-, hn⟩ | ⟨hstr, -, hlt⟩
  · exact absurd he hn
  · have hji := hlt i hs
    refine ⟨by rw [hl j hji, hr.list], .inr ⟨?_, hq, fun i' hi' => hji.trans_le (hlater i' hi')⟩⟩
    unfold View.Streamed View.launchedAt at *
    rwa [ht]

/-- Entering a stage leaves the lists of the stages before it. -/
lemma Enters.before {decided : Bool} {ended : Option Kind} {out : Outcome}
    (h : Enters c s a j decided ended out) : (∀ i < j, out.lists i = s.lists a i) ∧
      out.stage ≠ .queued ∧ ∀ i, out.stage = .entered i → j ≤ i := by
  obtain ⟨i₀, hi₀, -, hlists, hend⟩ := h.lists
  refine ⟨fun i hi => hlists i (by omega), ?_, fun i hi => ?_⟩
  · rcases hend with ⟨_, _, hst, _⟩ | ⟨_, hst, _⟩ <;> simp [hst]
  · rcases hend with ⟨_, _, hst, _⟩ | ⟨_, hst, _⟩
    · rw [hst] at hi
      cases hi
    · rw [hst] at hi
      obtain rfl := Stage.entered.inj hi
      exact hi₀

/-- What every partner of a stage answered, or launched, is launched whole. -/
lemma Inv.streamed_next (h : Inv c w) (hj : w.state.stage a = .entered j)
    (hn : w.state.next a = w.state.numPartners c a j) :
    (w.view a).Streamed j (c.rowLength j (w.state.lists a j)) := by
  have hstr : (w.view a).Streamed j (w.state.next a) := ((h.anchors a).entered hj).streamed
  rwa [hn, State.numPartners_eq] at hstr

lemma Inv.streamed_answers (h : Inv c w) (hj : w.state.stage a = .entered j)
    (hans : (w.state.answers a j).length = w.state.numPartners c a j)
    (hpos : 0 < w.state.numPartners c a j) :
    (w.view a).Streamed j (c.rowLength j (w.state.lists a j)) := by
  have hE := (h.anchors a).entered hj
  have hle : (w.state.answers a j).length ≤ w.state.next a := (h.anchors a).answers_le hE.streamed
  have hpos' : 0 < (w.view a).next := lt_of_lt_of_le hpos (hans ▸ hle)
  have hge : w.state.next a ≤ c.rowLength j (w.state.lists a j) :=
    hE.next_le (hE.running_of_pos hpos').1
  rw [State.numPartners_eq] at hans
  exact h.streamed_next hj (by rw [State.numPartners_eq]; omega)

lemma State.entered_ne (s : State β γ) (out : Outcome) {b : Anchor} (hb : a ≠ b) :
    (s.entered b out).lists a = s.lists a ∧ (s.entered b out).stage a = s.stage a ∧
      (a ∈ (s.entered b out).entering → a ∈ s.entering) := by
  refine ⟨update_of_ne hb _ _, update_of_ne hb _ _, ?_⟩
  simp only [State.entered, State.setStage]
  cases out.waits with
  | false => exact id
  | true =>
    intro hmem
    simpa [hb] using hmem

lemma State.entered_self (s : State β γ) (a : Anchor) (out : Outcome) :
    (s.entered a out).lists a = out.lists ∧ (s.entered a out).stage a = out.stage :=
  ⟨update_self _ _ _, update_self _ _ _⟩

lemma Reached.move {row : Option Row} (h : Inv c w) (hr : Reached c a j row w)
    (hm : Move c w w') : Reached c a j row w' := by
  have hq := hr.not_queued
  cases hm with
  | quiet hperm => exact hr.congr rfl rfl id rfl
  | @launch b i stop ready hb hi he hlt hle hperm =>
    refine Reached.launch (hr.congr rfl rfl id rfl) ?_
    rintro rfl
    exact hi
  | @place b i stop borrow chunk canBorrow before after pending waiting ready hb hbor hg _ hlt hle
      hperm =>
    have hstage : b = a → w.state.stage a = .entered i := by
      rintro rfl
      rcases hb with ⟨_, hs, _⟩ | ⟨_, hs, _⟩
      · exact absurd hs hq
      · exact hs
    refine Reached.launch (hr.congr rfl ?_ id rfl) ?_
    · by_cases hba : b = a
      · subst hba
        simp [State.placed, State.joined, State.setStage, hstage rfl]
      · simp [State.placed, State.joined, State.setStage, Ne.symm hba]
    · rintro rfl
      simp [State.placed, State.joined, State.setStage]
  | @ask b out hd hb hs ho =>
    obtain ⟨hlists, hst, he⟩ := State.entered_ne w.state out
      (fun hab : a = b => hq (hab ▸ hs))
    exact hr.congr hlists hst he rfl
  | @askEmpty b out kind before after hd hb hs ho =>
    have hab : a ≠ b := fun hab => hq (hab ▸ hs)
    obtain ⟨hlists, hst, he⟩ := State.entered_ne w.state out hab
    exact hr.congr hlists ((update_of_ne hab _ _).trans hst) he rfl
  | popDead hpend hs => exact hr.congr rfl rfl id rfl
  | popEnded hw hs => exact hr.congr rfl rfl id rfl
  | answer hf hb hdue => exact hr.congr rfl rfl id (by simp [World.view])
  | @advance b i out hd hi hk hp hn hpos hdue ho =>
    by_cases hab : a = b
    · subst hab
      obtain ⟨hlists, hst⟩ := State.entered_self w.state a out
      obtain ⟨hl, hq', hlater⟩ := ho.before
      exact hr.leave hi (h.streamed_next hi hn) (fun i' hi' => hlists ▸ hl i' (by omega))
        (hst.symm ▸ hq') (fun i' hi' => hlater i' (hst ▸ hi')) rfl
    · obtain ⟨hlists, hst, he⟩ := State.entered_ne w.state out hab
      exact hr.congr hlists hst he rfl
  | @leave b i out kind hd hi hk hp hn hpos hdue ho =>
    by_cases hab : a = b
    · subst hab
      obtain ⟨hlists, hst⟩ := State.entered_self w.state a out
      obtain ⟨hl, hq', hlater⟩ := ho.before
      exact hr.leave hi (h.streamed_next hi hn) (fun i' hi' => hlists ▸ hl i' (by omega))
        (hst.symm ▸ hq') (fun i' hi' => hlater i' (hst ▸ hi')) rfl
    · obtain ⟨hlists, hst, he⟩ := State.entered_ne w.state out hab
      exact hr.congr hlists hst he rfl
  | @drop b i hd hi hk hp hans hpos hdue =>
    by_cases hab : a = b
    · subst hab
      exact hr.leave hi (h.streamed_answers hi hans hpos) (fun _ _ => rfl)
        (by simp [State.setStage]) (by simp [State.setStage]) rfl
    · exact hr.congr rfl (update_of_ne hab _ _) id rfl
  | @finish b i hi hlast hans hpos hdue =>
    obtain ⟨counted, survivors, hs⟩ :=
      State.countSurvivor_eq (c := c) (s := w.state.setStage b .done) (a := c.branchOf b)
    simp only [hs]
    by_cases hab : a = b
    · subst hab
      exact hr.leave hi (h.streamed_answers hi hans hpos) (fun _ _ => rfl)
        (by simp [State.setStage]) (by simp [State.setStage]) rfl
    · exact hr.congr rfl (update_of_ne hab _ _) id rfl
  | @keep b i out rest he hi ho =>
    by_cases hab : a = b
    · subst hab
      obtain ⟨hlists, hst⟩ := State.entered_self { w.state with entering := rest } a out
      obtain ⟨hl, hq', hlater⟩ := ho.before
      exact hr.gate hi (by simp [he]) (fun i' hi' => hlists ▸ hl i' hi') (hst.symm ▸ hq')
        (fun i' hi' => hlater i' (hst ▸ hi')) rfl
    · obtain ⟨hlists, hst, hent⟩ := State.entered_ne { w.state with entering := rest } out hab
      exact hr.congr hlists hst (fun hmem => by simpa [he] using .inr (hent hmem)) rfl
  | @decline b i out kind rest he hi ho =>
    by_cases hab : a = b
    · subst hab
      obtain ⟨hlists, hst⟩ := State.entered_self { w.state with entering := rest } a out
      obtain ⟨hl, hq', hlater⟩ := ho.before
      exact hr.gate hi (by simp [he]) (fun i' hi' => hlists ▸ hl i' hi') (hst.symm ▸ hq')
        (fun i' hi' => hlater i' (hst ▸ hi')) rfl
    · obtain ⟨hlists, hst, hent⟩ := State.entered_ne { w.state with entering := rest } out hab
      exact hr.congr hlists hst (fun hmem => by simpa [he] using .inr (hent hmem)) rfl
  | @settle e rest hl =>
    have hs := h.settleGroup_stage e.anchor e.survived hq
    obtain ⟨_, _, _, _, _, _, _, _, hform⟩ := w.state.settleGroup_eq c e.anchor e.survived
    rw [hform] at hs ⊢
    exact hr.congr rfl hs id (by simp [World.view])
  | takeSettled hs => exact hr.congr rfl rfl id rfl
  | takeSkipped hs => exact hr.congr rfl rfl id (by simp [World.view])

/-! ## The end of a run -/

/-- Queued anchors are skipped only as dependents or by their stop key group. -/
def SkippedGrouped (c : Config β γ) (w : World β γ) : Prop :=
  ∀ a ∈ skippedIn w.trace ++ w.state.skipped, c.isDependent a ∨ (c.groupOf a).isSome

lemma State.dropDependents_skipped {l : List Anchor} :
    ∀ a ∈ (l.foldl State.dropDependent s).skipped, a ∈ s.skipped ∨ a ∈ l := by
  induction l generalizing s with
  | nil => exact fun a ha => .inl ha
  | cons d l ih =>
    intro a ha
    have hd : ∀ b ∈ (s.dropDependent d).skipped, b ∈ s.skipped ∨ b = d := by
      unfold State.dropDependent
      split_ifs
      · exact fun b hb => .inl hb
      · intro b hb
        simpa using hb
    rcases ih a ha with ha | ha
    · rcases hd a ha with ha | rfl
      · exact .inl ha
      · exact .inr List.mem_cons_self
    · exact .inr (List.mem_cons_of_mem _ ha)

lemma State.skipMembers_skipped {l : List Anchor} :
    (l.foldl State.skipMember s).skipped = s.skipped ++ l := by
  induction l generalizing s with
  | nil => simp
  | cons b l ih =>
    rw [List.foldl_cons, ih]
    simp [State.skipMember]

lemma Inv.settleGroup_skipped {b : Anchor} {survived : Bool} (h : Inv c w) :
    ∀ a ∈ (w.state.settleGroup c b survived).skipped,
      a ∈ w.state.skipped ∨ c.isDependent a ∨ (c.groupOf a).isSome := by
  have hdrop : ∀ a ∈ ((c.allDependents b).foldl State.dropDependent w.state).skipped,
      a ∈ w.state.skipped ∨ c.isDependent a ∨ (c.groupOf a).isSome := by
    intro a ha
    refine (State.dropDependents_skipped a ha).imp_right fun hmem => .inl ?_
    obtain ⟨j, _, hj⟩ := List.mem_flatMap.1 hmem
    exact Config.isDependent_of_mem hj
  unfold State.settleGroup
  dsimp only
  cases hg : c.groupOf b with
  | none => exact hdrop
  | some group =>
    dsimp only
    split_ifs with hkeep
    · exact hdrop
    · intro a ha
      obtain ⟨_, _, _, hform⟩ := State.dropDependents_eq w.state (c.allDependents b)
      rw [State.skipMembers_skipped, List.mem_append, (List.perm_insertionSort _ _).mem_iff] at ha
      rcases ha with ha | ha
      · exact hdrop a ha
      · rw [hform] at ha
        cases hms : w.state.groupMembers group with
        | none => simp [hms] at ha
        | some ms =>
          have hmem : a ∈ ms := by simpa [hms] using ha
          simp [((h.shared.members group ms hms).2 a hmem).2.2.2]

lemma Move.skippedGrouped (h : Inv c w) (hm : Move c w w') (hs : SkippedGrouped c w) :
    SkippedGrouped c w' := by
  unfold SkippedGrouped at *
  cases hm with
  | launch _ _ _ _ _ _ => simpa [World.launched, State.launch] using hs
  | place _ _ _ _ _ _ _ => simpa [World.launched, State.launch, State.placed, State.joined, State.setStage] using hs
  | @askEmpty b out kind before after hd hb hst ho =>
    intro a ha
    rw [← List.append_assoc, List.mem_append, List.mem_singleton] at ha
    rcases ha with ha | rfl
    · exact hs a ha
    · exact .inl hd
  | answer _ _ _ => simpa [State.answer] using hs
  | @finish b i hi hlast hans hpos hdue =>
    obtain ⟨counted, survivors, hsur⟩ :=
      State.countSurvivor_eq (c := c) (s := w.state.setStage b .done) (a := c.branchOf b)
    rw [hsur]
    exact hs
  | @settle e rest hl =>
    intro a ha
    rw [skippedIn_append, skippedIn_settled, List.append_nil, List.mem_append] at ha
    rcases ha with ha | ha
    · exact hs a (List.mem_append_left _ ha)
    · rcases h.settleGroup_skipped a ha with ha | ha
      · exact hs a (List.mem_append_right _ ha)
      · exact ha
  | takeSkipped hsk =>
    rw [hsk] at hs
    simpa using hs
  | _ => exact hs

end Quail.Admission
