import Quail.Admission.Streams

/-!
# The invariant of a run

`Inv` holds of every world: each anchor's `Local`, and the few facts that tie the anchors together.
Each move keeps it.
-/

set_option linter.unusedSectionVars false

namespace Quail.Admission
open Imperative Function

variable {β γ : Type} (c : Config β γ)

/-- What the callers of the constructor promise: dependents hang off documents, are not resident
(their keys are freed when they settle), and their requests are not skipped at their own stage (their
first one); the tree orders the anchors and a borrower computes its last token itself. -/
structure Promised : Prop where
  parents : ∀ d p j, c.dependency d = some (p, j) → c.isDependent p = false
  fresh : ∀ d, c.isDependent d → c.resident.contains d = false
  asks : ∀ d ask, c.isDependent d → c.ask d = some ask → ask (c.startStage d) ≠ .skip
  order : c.freshOrder.Perm (List.range c.n)
  shared : ∀ a p, c.treeParent a = some p → c.treeShared a < c.prefixOf a

section config

variable {c} {a p d : Anchor} {j : ℕ}

lemma Config.check_stages (hc : c.check = none) : 0 < c.k := by
  unfold Config.check at hc
  split_ifs at hc with _ _ _ hk
  exact Nat.pos_of_ne_zero hk

lemma Config.check_longStage (hc : c.check = none) : c.longStage = none := by
  unfold Config.check at hc
  split_ifs at hc
  cases h : c.longStage with
  | none => rfl
  | some j => simp [h] at hc

/-- A dependency names anchors and a stage that exist. -/
lemma Config.check_dependency (hc : c.check = none) (h : c.dependency d = some (p, j)) :
    d < c.n ∧ p < c.n ∧ j < c.k := by
  have hmem : (d, (p, j)) ∈ c.dependencies.entries := Dict.mem_entries_iff.2 h
  have hlong := check_longStage hc
  unfold Config.check at hc
  split_ifs at hc
  simp only [hlong] at hc
  unfold Config.checkIndices at hc
  split_ifs at hc with hdep hres
  simp only [List.any_eq_true, decide_eq_true_eq, not_exists, not_and, not_or, Nat.not_le] at hdep
  exact hdep _ hmem

lemma Config.mem_dependents : d ∈ c.dependents p j ↔ c.dependency d = some (p, j) := by
  unfold Config.dependents Config.dependency
  rw [← Dict.mem_entries_iff]
  constructor
  · intro h
    obtain ⟨e, he, rfl⟩ := List.mem_map.1 h
    obtain ⟨hmem, hv⟩ := List.mem_filter.1 he
    rw [← of_decide_eq_true hv]
    exact hmem
  · intro h
    exact List.mem_map.2 ⟨_, List.mem_filter.2 ⟨h, by simp⟩, rfl⟩

lemma Config.nodup_dependents : (c.dependents p j).Nodup :=
  c.dependencies.nodup.sublist (List.filter_sublist.map _)

lemma Config.isDependent_iff : c.isDependent d ↔ ∃ p j, c.dependency d = some (p, j) := by
  unfold Config.isDependent Config.dependency
  rw [Dict.contains_iff, Prod.exists]

lemma Config.isDependent_of_mem (h : d ∈ c.dependents p j) : c.isDependent d = true :=
  isDependent_iff.2 ⟨p, j, mem_dependents.1 h⟩

/-- An anchor is not its own dependent. -/
lemma Promised.self_free (hp : Promised c) : a ∉ c.dependents a j := by
  intro h
  have hd := hp.parents _ _ _ (Config.mem_dependents.1 h)
  rw [Config.isDependent_of_mem h] at hd
  cases hd

end config

variable [DecidableEq γ] [ToString γ]

/-- What ties the anchors of a world together. -/
structure Shared (w : World β γ) : Prop where
  inFlight : w.state.inFlight = w.flight.length
  dead : w.state.dead = w.state.pending.countP fun a => decide (w.state.stage a = .done)
  members : ∀ group ms, w.state.groupMembers group = some ms → ms.Nodup ∧
    ∀ b ∈ ms, w.state.stage b = .queued ∧ c.isDependent b = false ∧ b < c.n ∧
      c.groupOf b = some group
  carried : ∀ a < c.n, w.state.carried a = if c.resident.contains a then 0 else c.prefixOf a
  borrows : ∀ a p, w.state.borrowing.treeParent a = some p → c.resident.contains a = false ∧
    w.state.borrowing.treeShared a < c.prefixOf a
  delivered : ∀ e ∈ settledIn w.trace, ∀ d ∈ c.allDependents e.anchor,
    w.state.released d ∨ w.state.stage d = .done

/-- The invariant of a world. -/
structure Inv (w : World β γ) : Prop where
  anchors : ∀ a, Local c a (w.view a)
  shared : Shared c w

section moves

variable {c} {w : World β γ} {a b : Anchor} {j start stop : ℕ} {carried : Bool}

/-! ## Launches -/

lemma State.mem_newlyReleased {s : State β γ} :
    b ∈ s.newlyReleased c a j ↔ b ∈ c.dependents a j ∧ s.released b = false := by
  unfold State.newlyReleased
  rw [(List.perm_insertionSort _ _).mem_iff, List.mem_filter]
  simp

lemma State.count_newlyReleased {s : State β γ} :
    (s.newlyReleased c a j).count b = if b ∈ s.newlyReleased c a j then 1 else 0 := by
  have hnd : (s.newlyReleased c a j).Nodup :=
    (List.perm_insertionSort _ _).nodup_iff.2 (Config.nodup_dependents.filter _)
  by_cases h : b ∈ s.newlyReleased c a j
  · rw [if_pos h, List.count_eq_one_of_mem hnd h]
  · rw [if_neg h, List.count_eq_zero_of_not_mem h]

/-- The view of a dependent after its parent's launch. -/
def View.release (v : View β) : View β := { v with released := true, waiting := v.waiting + 1 }

lemma World.view_launched_ne (hb : b ≠ a) : (w.launched c a j start stop carried).view b =
    if b ∈ w.state.newlyReleased c a j then (w.view b).release else w.view b := by
  have hrel : (w.state.released b || decide (b ∈ w.state.newlyReleased c a j)) =
      if b ∈ w.state.newlyReleased c a j then true else w.state.released b := by
    by_cases h : b ∈ w.state.newlyReleased c a j <;> simp [h]
  have hcount := State.count_newlyReleased (c := c) (s := w.state) (a := a) (j := j) (b := b)
  split_ifs at hrel hcount ⊢ with h
  all_goals
    simp [World.view, World.launched, State.launch, World.settlements, View.release, hb, Ne.symm hb,
      List.filter_append, List.count_append, hrel, hcount]
    rfl

lemma World.view_launched_self (ha : a ∉ c.dependents a j) :
    (w.launched c a j start stop carried).view a = { w.view a with
      next := stop
      flight := (w.view a).flight ++ [⟨a, j, start, stop, carried⟩]
      launched := (w.view a).launched ++ [⟨a, j, start, stop, carried⟩] } := by
  have h : a ∉ w.state.newlyReleased c a j := fun h => ha (State.mem_newlyReleased.1 h).1
  have hcount := State.count_newlyReleased (c := c) (s := w.state) (a := a) (j := j) (b := a)
  rw [if_neg h] at hcount
  simp [World.view, World.launched, State.launch, World.settlements, List.filter_append,
    List.count_append, hcount, h]
  rfl

/-- A launch releases dependents and moves its own anchor's cursor. -/
lemma World.local_launched (hp : Promised c) (hothers : ∀ b ≠ a, Local c b (w.view b))
    (hself : Local c a { w.view a with
      next := stop
      flight := (w.view a).flight ++ [⟨a, j, start, stop, carried⟩]
      launched := (w.view a).launched ++ [⟨a, j, start, stop, carried⟩] }) (b : Anchor) :
    Local c b ((w.launched c a j start stop carried).view b) := by
  by_cases hb : b = a
  · subst hb
    rw [view_launched_self hp.self_free]
    exact hself
  · rw [view_launched_ne hb]
    split_ifs with hrel
    · obtain ⟨hmem, hr⟩ := State.mem_newlyReleased.1 hrel
      exact (hothers b hb).release (Config.isDependent_of_mem hmem) hr
    · exact hothers b hb

lemma Shared.launched (h : Shared c w) : Shared c (w.launched c a j start stop carried) := by
  refine { h with inFlight := ?_, delivered := ?_ }
  · simp [World.launched, State.launch, h.inFlight]
  · intro e he d hd
    have he : e ∈ settledIn w.trace := by simpa [World.launched] using he
    rcases h.delivered e he d hd with hr | hr
    · exact .inl (by simp [World.launched, State.launch, hr])
    · exact .inr hr

/-- The view of an anchor in a reordered ready queue. -/
lemma World.view_ready {ready : List Anchor} :
    ({ w with state := { w.state with ready } } : World β γ).view b =
      { w.view b with ready := ready.count b } := rfl

/-- A ready anchor with partners left is past its gate. -/
lemma Inv.ready_view (h : Inv c w) (ha : a ∈ w.state.ready) (hj : w.state.stage a = .entered j)
    (he : w.state.entering = []) (hlt : w.state.next a < w.state.numPartners c a j) :
    (w.view a).ready = 1 ∧ (w.view a).entering = 0 ∧ (w.view a).admitted = true := by
  have hE := (h.anchors a).entered hj
  have hent : (w.view a).entering = 0 := by simp [World.view, he]
  have hpos : 0 < (w.view a).ready := List.count_pos_iff.2 ha
  have hadm : (w.view a).admitted = true := by
    by_contra hu
    have := (hE.asked (by simpa using hu)).2.1
    omega
  have hready := ((hE.running hadm).2 hent).1
  rw [State.numPartners_eq] at hlt
  rw [if_pos (show (w.view a).next < c.rowLength j ((w.view a).lists j) from hlt)] at hready
  exact ⟨hready, hent, hadm⟩

lemma Inv.launch {ready : List Anchor} (hp : Promised c) (h : Inv c w) (ha : a ∈ w.state.ready)
    (hj : w.state.stage a = .entered j) (he : w.state.entering = []) (hlt : w.state.next a < stop)
    (hle : stop ≤ w.state.numPartners c a j)
    (hperm : ready.Perm
      (if stop < w.state.numPartners c a j then w.state.ready else w.state.ready.erase a)) :
    Inv c (({ w with state := { w.state with ready } } : World β γ).launched c a j
      (w.state.next a) stop false) := by
  obtain ⟨hready, hent, _⟩ := h.ready_view ha hj he (hlt.trans_le hle)
  refine ⟨World.local_launched hp ?_ ?_, ?_⟩
  · intro b hb
    rw [World.view_ready]
    have hcount : ready.count b = (w.view b).ready := by
      rw [hperm.count_eq]
      split_ifs
      · rfl
      · exact List.count_erase_of_ne hb
    rw [hcount]
    exact h.anchors b
  · rw [State.numPartners_eq] at hle hperm
    have hcount : ready.count a =
        if decide (stop < c.rowLength j (w.state.lists a j)) then 1 else 0 := by
      have hone : w.state.ready.count a = 1 := hready
      rw [hperm.count_eq]
      by_cases hm : stop < c.rowLength j (w.state.lists a j)
      · simp [hm, hone]
      · simp [hm, hone]
    have hL := (h.anchors a).launch hj hready hent hlt hle
    rw [World.view_ready, hcount]
    exact hL
  · refine Shared.launched { h.shared with }

/-! ## Placements -/

lemma Borrowing.record_admitted {r : Borrowing} {borrow : Option (Anchor × ℕ)} :
    (r.record a borrow).admitted = update r.admitted a true := by
  cases borrow <;> rfl

lemma Borrowing.record_treeParent {r : Borrowing} {borrow : Option (Anchor × ℕ)} :
    (r.record a borrow).treeParent = r.treeParent ∧
      (r.record a borrow).treeShared = r.treeShared := by
  cases borrow <;> exact ⟨rfl, rfl⟩

/-- A borrow is from the tree's parent. -/
lemma Borrowing.choice_some {r : Borrowing} {canBorrow : Anchor → Anchor → Bool → Bool}
    {chunk : List Anchor} {p : Anchor} {n : ℕ}
    (h : r.choice canBorrow a chunk = .choose (some (p, n))) :
    r.treeParent a = some p ∧ n = r.treeShared a := by
  unfold Borrowing.choice at h
  split at h
  · cases h
  · rename_i parent hparent
    split_ifs at h
    · cases h
    · cases h
    · simp only [Decision.choose.injEq, Option.some.injEq, Prod.mk.injEq] at h
      exact ⟨h.1 ▸ hparent, h.2.symm⟩

/-- A fresh anchor carries prefix tokens unless it is resident or has none. -/
lemma Shared.packed_pos {borrow : Option (Anchor × ℕ)} {chunk : List Anchor}
    {canBorrow : Anchor → Anchor → Bool → Bool} (h : Shared c w) (ha : a < c.n)
    (hb : w.state.borrowing.choice canBorrow a chunk = .choose borrow) :
    decide (0 < w.state.packed c a borrow) =
      decide (c.resident.contains a = false ∧ 0 < c.prefixOf a) := by
  rw [decide_eq_decide]
  cases borrow with
  | none =>
    show 0 < w.state.carried a ↔ _
    rw [h.carried a ha]
    cases c.resident.contains a <;> simp
  | some choice =>
    obtain ⟨p, n⟩ := choice
    obtain ⟨hparent, rfl⟩ := Borrowing.choice_some hb
    obtain ⟨hres, hlt⟩ := h.borrows a p hparent
    show 0 < c.prefixOf a - w.state.borrowing.treeShared a ↔ _
    simp only [hres, true_and]
    omega

section place

variable {borrow : Option (Anchor × ℕ)} {before after pending waiting ready : List Anchor}

lemma World.view_placed_ne (hb : b ≠ a) :
    ({ w with state := w.state.placed c a j borrow pending waiting ready } : World β γ).view b =
      { w.view b with
        pending := pending.count b, waiting := waiting.count b, ready := ready.count b } := by
  simp only [World.view, State.placed, State.joined, State.setStage, Borrowing.record_admitted,
    update_of_ne hb]
  rfl

lemma World.view_placed_self :
    ({ w with state := w.state.placed c a j borrow pending waiting ready } : World β γ).view a =
      { w.view a with
        stage := .entered j, admitted := true
        pending := pending.count a, waiting := waiting.count a, ready := ready.count a } := by
  simp only [World.view, State.placed, State.joined, State.setStage, Borrowing.record_admitted,
    update_self]
  rfl

lemma countP_done_update {stage : Anchor → Stage} {x : Stage} {l : List Anchor}
    (ha : stage a ≠ .done) (hx : x ≠ .done) :
    l.countP (fun b => decide (update stage a x b = .done)) =
      l.countP fun b => decide (stage b = .done) := by
  refine List.countP_congr fun b _ => ?_
  by_cases hb : b = a
  · subst hb
    simp [ha, hx]
  · simp [hb]

lemma Shared.placed (h : Shared c w) (hs : w.state.stage a ≠ .done)
    (hpending : pending.countP (fun b => decide (w.state.stage b = .done)) =
      w.state.pending.countP fun b => decide (w.state.stage b = .done)) :
    Shared c
      ({ w with state := w.state.placed c a j borrow pending waiting ready } : World β γ) := by
  refine { h with dead := ?_, members := ?_, borrows := ?_, delivered := ?_ }
  · show w.state.dead = _
    rw [h.dead, ← hpending, ← countP_done_update hs (by simp : Stage.entered j ≠ .done)]
    rfl
  · intro group ms hms
    have key : ms.Nodup ∧ ∀ b ∈ ms, b ≠ a ∧ w.state.stage b = .queued ∧ c.isDependent b = false ∧
        b < c.n ∧ c.groupOf b = some group := by
      cases hgroup : c.groupOf a with
      | none =>
        simp only [State.placed, State.joined, State.setStage, hgroup] at hms
        obtain ⟨hnd, hall⟩ := h.members group ms hms
        refine ⟨hnd, fun b hb => ⟨?_, hall b hb⟩⟩
        rintro rfl
        rw [(hall _ hb).2.2.2] at hgroup
        cases hgroup
      | some group' =>
        simp only [State.placed, State.joined, State.setStage, hgroup] at hms
        by_cases hg : group = group'
        · subst hg
          rw [update_self] at hms
          obtain ⟨members, hmem, rfl⟩ := Option.map_eq_some_iff.1 hms
          obtain ⟨hnd, hall⟩ := h.members group members hmem
          refine ⟨hnd.filter _, fun b hb => ?_⟩
          obtain ⟨hb, hne⟩ := List.mem_filter.1 hb
          exact ⟨by simpa using hne, hall b hb⟩
        · rw [update_of_ne hg] at hms
          obtain ⟨hnd, hall⟩ := h.members group ms hms
          refine ⟨hnd, fun b hb => ⟨?_, hall b hb⟩⟩
          rintro rfl
          rw [(hall _ hb).2.2.2] at hgroup
          exact hg (Option.some.inj hgroup)
    refine ⟨key.1, fun b hb => ?_⟩
    obtain ⟨hne, hq, hrest⟩ := key.2 b hb
    exact ⟨by simpa [State.placed, State.joined, State.setStage, hne] using hq, hrest⟩
  · intro b p hbp
    simp only [State.placed, Borrowing.record_treeParent] at hbp ⊢
    exact h.borrows b p hbp
  · intro e he d hd
    rcases h.delivered e he d hd with hr | hr
    · exact .inl hr
    · refine .inr ?_
      have hne : d ≠ a := fun hda => hs (hda ▸ hr)
      simpa [State.placed, State.joined, State.setStage, hne] using hr

lemma Inv.place {chunk : List Anchor} {canBorrow : Anchor → Anchor → Bool → Bool}
    (hp : Promised c) (hc : c.check = none) (h : Inv c w)
    (hq : (c.isDependent a = false ∧ w.state.stage a = .queued ∧ j = 0 ∧ waiting = w.state.waiting ∧
        w.state.pending = before ++ a :: after ∧ pending = before ++ after) ∨
      (c.isDependent a ∧ w.state.stage a = .entered j ∧ pending = w.state.pending ∧
        w.state.waiting = before ++ a :: after ∧ waiting = before ++ after))
    (hb : w.state.borrowing.choice canBorrow a chunk = .choose borrow) (hlt : 0 < stop)
    (hle : stop ≤ w.state.numPartners c a j)
    (hperm : ready.Perm
      (if stop < w.state.numPartners c a j then a :: w.state.ready else w.state.ready)) :
    Inv c (({ w with state := w.state.placed c a j borrow pending waiting ready } :
      World β γ).launched c a j 0 stop (decide (0 < w.state.packed c a borrow))) := by
  have hL := h.anchors a
  rw [State.numPartners_eq] at hle hperm
  have hview : (w.view a).admitted = false ∧ (w.view a).next = 0 ∧ (w.view a).ready = 0 ∧
      pending.count a = 0 ∧ waiting.count a = 0 ∧ a < c.n ∧
      ((c.isDependent a = false ∧ (w.view a).stage = .queued ∧ j = 0 ∧ 0 < c.k ∧ a < c.n) ∨
        (c.isDependent a ∧ (w.view a).stage = .entered j ∧ (w.view a).admitted = false)) := by
    rcases hq with ⟨hd, hs, rfl, rfl, hbefore, rfl⟩ | ⟨hd, hs, rfl, hbefore, rfl⟩
    · have hQ := hL.queued hs
      have hcount : (w.view a).pending = (before ++ after).count a + 1 := by
        show w.state.pending.count a = _
        rw [hbefore]
        simp [List.count_append, Nat.add_assoc]
      have hcond : a < c.n ∧ c.isDependent a = false := by
        by_contra hn
        rw [hQ.pending, if_neg hn] at hcount
        omega
      rw [hQ.pending, if_pos hcond] at hcount
      have hwait : w.state.waiting.count a = 0 := by
        have hw := hQ.waiting
        rw [if_neg (by simp [hd])] at hw
        exact hw
      exact ⟨hQ.unadmitted, hQ.next, hQ.ready, by omega, hwait, hcond.1,
        .inl ⟨hd, hs, rfl, Config.check_stages hc, hcond.1⟩⟩
    · have hE := hL.entered hs
      have hcount : (w.view a).waiting = (before ++ after).count a + 1 := by
        show w.state.waiting.count a = _
        rw [hbefore]
        simp [List.count_append, Nat.add_assoc]
      have hu : (w.view a).admitted = false := by
        by_contra hadm
        have := (hE.running (by simpa using hadm)).1
        omega
      obtain ⟨hw, hr, _, hn, _⟩ := hE.asked hu
      exact ⟨hu, hn, hr, hE.pending, by omega, hL.known (by simp [World.view, hs]),
        .inr ⟨hd, hs, hu⟩⟩
  obtain ⟨hu, hn, hr, hpend, hwait, ha, hq'⟩ := hview
  refine ⟨World.local_launched hp ?_ ?_, Shared.launched (h.shared.placed ?_ ?_)⟩
  · intro b hb
    have hcounts : pending.count b = (w.view b).pending ∧ waiting.count b = (w.view b).waiting := by
      rcases hq with ⟨_, _, _, rfl, hbefore, rfl⟩ | ⟨_, _, rfl, hbefore, rfl⟩
      · simp [World.view, hbefore, List.count_append, Ne.symm hb]
      · simp [World.view, hbefore, List.count_append, Ne.symm hb]
    have hcount : ready.count b = (w.view b).ready := by
      rw [hperm.count_eq]
      split_ifs <;> simp [World.view, Ne.symm hb]
    rw [World.view_placed_ne hb, hcounts.1, hcounts.2, hcount]
    exact h.anchors b
  · have hcount : ready.count a =
        if decide (stop < c.rowLength j (w.state.lists a j)) then 1 else 0 := by
      have hzero : w.state.ready.count a = 0 := hr
      rw [hperm.count_eq]
      by_cases hm : stop < c.rowLength j (w.state.lists a j)
      · simp [hm, hzero]
      · simp [hm, hzero]
    have hplace := hL.place hq' hlt hle (h.shared.packed_pos ha hb)
    rw [World.view_placed_self, hpend, hwait, hcount]
    rw [show (0 : ℕ) = (w.view a).next from hn.symm]
    unfold View.place View.launch at hplace
    rw [hn] at hplace ⊢
    exact hplace
  · rcases hq with ⟨_, hs, _⟩ | ⟨_, hs, _⟩
    · simp [hs]
    · simp [hs]
  · rcases hq with ⟨_, hs, _, _, hbefore, rfl⟩ | ⟨_, _, rfl, _⟩
    · simp [hbefore, hs]
    · rfl

end place

/-! ## Entering and ending -/

/-- A change of one anchor's stage that is not pending. -/
lemma Shared.setStage {w' : World β γ} {x : Stage} (h : Shared c w)
    (hs : w'.state.stage = update w.state.stage a x) (ha : w.state.stage a ≠ .done)
    (hq : w.state.stage a = .queued → c.isDependent a) (hpa : w.state.pending.count a = 0)
    (hin : w'.state.inFlight = w.state.inFlight) (hflight : w'.flight = w.flight)
    (hpend : w'.state.pending = w.state.pending) (hdead : w'.state.dead = w.state.dead)
    (hmembers : w'.state.groupMembers = w.state.groupMembers)
    (hcarried : w'.state.carried = w.state.carried)
    (hborrow : w'.state.borrowing = w.state.borrowing)
    (hrel : w'.state.released = w.state.released) (htrace : w'.trace = w.trace) : Shared c w' := by
  have hne : ∀ b, b ≠ a → w'.state.stage b = w.state.stage b := fun b hb => by
    rw [hs, update_of_ne hb]
  refine
    { inFlight := by rw [hin, hflight, h.inFlight]
      dead := ?_
      members := ?_
      carried := by rw [hcarried]; exact h.carried
      borrows := by rw [hborrow]; exact h.borrows
      delivered := ?_ }
  · rw [hdead, hpend, h.dead]
    congr 1
    refine List.countP_congr fun b hb => ?_
    have hba : b ≠ a := by
      rintro rfl
      exact absurd hpa (List.count_pos_iff.2 hb).ne'
    rw [hne b hba]
  · intro group ms hms
    rw [hmembers] at hms
    obtain ⟨hnd, hall⟩ := h.members group ms hms
    refine ⟨hnd, fun b hb => ?_⟩
    obtain ⟨hqueued, hd, hrest⟩ := hall b hb
    have hba : b ≠ a := by
      rintro rfl
      rw [hq hqueued] at hd
      cases hd
    exact ⟨by rw [hne b hba, hqueued], hd, hrest⟩
  · intro e he d hd
    rw [htrace] at he
    rcases h.delivered e he d hd with hr | hr
    · exact .inl (by rw [hrel]; exact hr)
    · refine .inr ?_
      have hda : d ≠ a := fun hda => ha (hda ▸ hr)
      rw [hne d hda, hr]

lemma State.firstCost_zero {s : State β γ} :
    s.firstCost c a j 0 = c.firstRows j (s.lists a j) := by
  unfold State.firstCost State.suffix State.cum Config.firstRows
  rw [Cumulative.sub_eq, if_pos rfl]
  unfold State.lengths
  cases s.lists a j <;> rfl

lemma World.view_entered_ne {o : Outcome} (hb : b ≠ a) :
    ({ w with state := w.state.entered a o } : World β γ).view b = w.view b := by
  simp only [World.view, State.entered, State.setStage, update_of_ne hb]
  cases o.waits with
  | false => rfl
  | true =>
    simp only [if_true, List.count_append, List.count_singleton, beq_iff_eq, Ne.symm hb, if_false,
      Nat.add_zero]
    rfl

lemma World.view_entered_self {o : Outcome} :
    ({ w with state := w.state.entered a o } : World β γ).view a = (w.view a).enter o := by
  simp only [World.view, State.entered, State.setStage, update_self, View.enter]
  cases o.waits with
  | false => rfl
  | true =>
    simp only [if_true, List.count_append, List.count_singleton, beq_iff_eq]
    rfl

/-- A waiting dependent still to be asked. -/
lemma Inv.waiting_view (h : Inv c w) (hd : c.isDependent a) (ha : a ∈ w.state.waiting)
    (hq : w.state.stage a = .queued) :
    (w.view a).waiting = 1 ∧ (w.view a).pending = 0 ∧ (w.view a).released = true := by
  have hQ := (h.anchors a).queued hq
  have hpos : 0 < (w.view a).waiting := List.count_pos_iff.2 ha
  have hw := hQ.waiting
  have hp := hQ.pending
  rw [if_neg (by simp [hd])] at hp
  split_ifs at hw with hcond
  · exact ⟨hw, hp, hcond.2⟩
  · omega

lemma Config.dependent_lt (hc : c.check = none) (hd : c.isDependent a) : a < c.n := by
  obtain ⟨p, j, hdep⟩ := isDependent_iff.1 hd
  exact (check_dependency hc hdep).1

lemma Inv.ask {o : Outcome} (hp : Promised c) (hc : c.check = none) (h : Inv c w)
    (hd : c.isDependent a) (ha : a ∈ w.state.waiting) (hq : w.state.stage a = .queued)
    (he : Enters c w.state a (c.startStage a) true none o) :
    Inv c { w with state := { w.state.entered a o with
      first := update w.state.first a ((w.state.entered a o).firstCost c a (c.startStage a) 0) } } := by
  obtain ⟨hw, hpend, _⟩ := h.waiting_view hd ha hq
  refine ⟨fun b => ?_, h.shared.setStage rfl (by simp [hq]) (fun _ => hd) hpend rfl rfl rfl rfl rfl
    rfl rfl rfl rfl⟩
  by_cases hb : b = a
  · subst hb
    have hview := World.view_entered_self (w := w) (a := b) (o := o)
    have hL := (h.anchors b).ask hd hq hw (Config.dependent_lt hc hd)
      (fun ask hask => hp.asks b ask hd hask) he
    rw [← hview] at hL
    have hfirst : (w.state.entered b o).firstCost c b (c.startStage b) 0 =
        c.firstRows (c.startStage b) (o.lists (c.startStage b)) := by
      rw [State.firstCost_zero]
      simp [State.entered]
    have hgoal : (({ w with state := { w.state.entered b o with
        first := update w.state.first b ((w.state.entered b o).firstCost c b (c.startStage b) 0) } } :
        World β γ).view b) = { ({ w with state := w.state.entered b o } : World β γ).view b with
          first := c.firstRows (c.startStage b) (o.lists (c.startStage b)) } := by
      simp only [World.view, update_self, hfirst]
      rfl
    rw [hgoal]
    exact hL
  · have hview := World.view_entered_ne (w := w) (o := o) hb
    have hgoal : (({ w with state := { w.state.entered a o with
        first := update w.state.first a ((w.state.entered a o).firstCost c a (c.startStage a) 0) } } :
        World β γ).view b) = w.view b := by
      rw [← hview]
      simp only [World.view, update_of_ne hb]
      rfl
    rw [hgoal]
    exact h.anchors b

lemma Inv.askEmpty {o : Outcome} {kind : Kind} {before after : List Anchor}
    (hc : c.check = none) (h : Inv c w) (hd : c.isDependent a)
    (hw : w.state.waiting = before ++ a :: after) (hq : w.state.stage a = .queued)
    (hwaits : o.waits = false) :
    Inv c { w with state := { (w.state.entered a o).setStage a .done with
      waiting := before ++ after
      settled := w.state.settled ++ [⟨kind, a, false⟩]
      skipped := w.state.skipped ++ [a] } } := by
  have hQ := (h.anchors a).queued hq
  obtain ⟨hone, hpend, _⟩ := h.waiting_view hd (by simp [hw]) hq
  have hstage : ∀ x y, update (update w.state.stage a x) a y = update w.state.stage a y := by simp
  refine ⟨fun b => ?_, h.shared.setStage (hstage _ _) (by simp [hq]) (fun _ => hd) hpend rfl rfl rfl
    rfl rfl rfl rfl rfl rfl⟩
  by_cases hb : b = a
  · subst hb
    have hcount : (w.view b).waiting = (before ++ after).count b + 1 := by
      show w.state.waiting.count b = _
      rw [hw]
      simp [List.count_append, Nat.add_assoc]
    refine (h.anchors b).end_unadmitted hq (Config.dependent_lt hc hd) ⟨rfl, rfl, rfl, rfl, rfl⟩ ?_
      hQ.ready ?_ ⟨?_, fun _ => ?_⟩ ⟨?_, fun _ => hpend⟩ (.inl ?_)
    · exact update_self _ _ _
    · show (if o.waits then w.state.entering ++ [b] else w.state.entering).count b = 0
      rw [hwaits]
      exact hQ.entering
    · show (before ++ after).count b ≤ 1
      omega
    · show (before ++ after).count b = 0
      omega
    · show (w.view b).pending ≤ 1
      omega
    · have hended : w.settlements.countP (fun e => decide (e.anchor = b)) = 0 := hQ.ended
      simp only [World.settlements, List.countP_append] at hended
      simp [World.view, World.settlements, List.countP_append]
      omega
  · have hcount : (before ++ after).count b = w.state.waiting.count b := by
      simp [hw, List.count_append, Ne.symm hb]
    have hview : ({ w with state := { (w.state.entered a o).setStage a .done with
        waiting := before ++ after
        settled := w.state.settled ++ [⟨kind, a, false⟩]
        skipped := w.state.skipped ++ [a] } } : World β γ).view b = w.view b := by
      simp [World.view, World.settlements, State.entered, State.setStage, hwaits, hb, Ne.symm hb,
        hcount, List.countP_append, List.count_append]
    rw [hview]
    exact h.anchors b

/-! ## Queues -/

lemma Inv.quiet {ready : List Anchor} {blocked : ℕ} (h : Inv c w) (hperm : ready.Perm w.state.ready) :
    Inv c { w with state := { w.state with ready, blockedPages := blocked } } := by
  refine ⟨fun b => ?_, { h.shared with }⟩
  have hview : ({ w with state := { w.state with ready, blockedPages := blocked } } :
      World β γ).view b = w.view b := by
    simp only [World.view, hperm.count_eq]
    rfl
  rw [hview]
  exact h.anchors b

lemma Inv.popDead {before after : List Anchor} (h : Inv c w)
    (hp : w.state.pending = before ++ a :: after) (hs : w.state.stage a = .done) :
    Inv c { w with state := { w.state with
      pending := before ++ after, dead := w.state.dead - 1 } } := by
  refine ⟨fun b => ?_, { h.shared with dead := ?_ }⟩
  · by_cases hb : b = a
    · subst hb
      show Local c b { w.view b with
        pending := (before ++ after).count b, waiting := (w.view b).waiting }
      refine (h.anchors b).leave_queue hs ?_ le_rfl
      show _ ≤ w.state.pending.count b
      rw [hp]
      simp [List.count_append]
    · have hview : ({ w with state := { w.state with
          pending := before ++ after, dead := w.state.dead - 1 } } : World β γ).view b = w.view b := by
        simp [World.view, World.settlements, hp, List.count_append, Ne.symm hb]
      rw [hview]
      exact h.anchors b
  · have hdead := h.shared.dead
    rw [hp] at hdead
    simp only [List.countP_append, List.countP_cons, hs, decide_true, if_true] at hdead ⊢
    push_cast at hdead ⊢
    omega

lemma Inv.popEnded {before after : List Anchor} (h : Inv c w)
    (hw : w.state.waiting = before ++ a :: after) (hs : w.state.stage a = .done) :
    Inv c { w with state := { w.state with waiting := before ++ after } } := by
  refine ⟨fun b => ?_, { h.shared with }⟩
  by_cases hb : b = a
  · subst hb
    show Local c b { w.view b with
      pending := (w.view b).pending, waiting := (before ++ after).count b }
    refine (h.anchors b).leave_queue hs le_rfl ?_
    show _ ≤ w.state.waiting.count b
    rw [hw]
    simp [List.count_append]
  · have hview : ({ w with state := { w.state with waiting := before ++ after } } :
        World β γ).view b = w.view b := by
      simp [World.view, World.settlements, hw, List.count_append, Ne.symm hb]
    rw [hview]
    exact h.anchors b

/-! ## Answers -/

/-- A reported group is its anchor's first in flight. -/
lemma flight_split {flight : List Group} {g : Group}
    (h : flight.find? (fun h => decide (h.anchor = g.anchor)) = some g) :
    ∃ before after, flight = before ++ g :: after ∧ flight.erase g = before ++ after ∧
      ∀ g' ∈ before, g'.anchor ≠ g.anchor := by
  obtain ⟨_, before, after, rfl, hbefore⟩ := List.find?_eq_some_iff_append.1 h
  refine ⟨before, after, rfl, ?_, by simpa using hbefore⟩
  have hnot : g ∉ before := fun hmem => by simpa using hbefore g hmem
  rw [List.erase_append_right _ hnot, List.erase_cons_head]

lemma Inv.answer {g : Group} {bits : List β} (h : Inv c w)
    (hf : w.flight.find? (fun h => decide (h.anchor = g.anchor)) = some g)
    (hbits : bits.length = g.stop - g.start) (hdue : w.due = none) :
    Inv c
      { state := w.state.answer c g.anchor g.stage g.stop bits
        flight := w.flight.erase g
        trace := w.trace ++ [.answered g bits]
        limbo := w.limbo
        due := if w.state.stage g.anchor = .entered g.stage ∧
          g.stop = w.state.numPartners c g.anchor g.stage then some g.anchor else none } := by
  obtain ⟨before, after, hflight, herase, hbefore⟩ := flight_split hf
  refine ⟨fun b => ?_, ?_⟩
  · by_cases hb : b = g.anchor
    · subst hb
      have hnone : before.filter (fun g' => decide (g'.anchor = g.anchor)) = [] := by
        simpa using hbefore
      have hview : (w.view g.anchor).flight =
          g :: after.filter fun g' => decide (g'.anchor = g.anchor) := by
        simp [World.view, hflight, List.filter_append, hnone]
      have hL := (h.anchors g.anchor).answer hview hbits (by simp [World.view, hdue])
      convert hL using 1
      rw [herase]
      simp only [World.view, World.settlements, View.answer, State.answer, State.numPartners_eq]
      simp [List.filter_append, hnone]
      exact (Bool.decide_and _ _).symm
    · have hview : (({
          state := w.state.answer c g.anchor g.stage g.stop bits
          flight := w.flight.erase g
          trace := w.trace ++ [.answered g bits]
          limbo := w.limbo
          due := if w.state.stage g.anchor = .entered g.stage ∧
            g.stop = w.state.numPartners c g.anchor g.stage then some g.anchor else none } :
          World β γ).view b) = w.view b := by
        rw [herase]
        simp only [World.view, World.settlements, State.answer, update_of_ne hb]
        simp [hflight, List.filter_append, Ne.symm hb, hdue]
      rw [hview]
      exact h.anchors b
  · refine { h.shared with inFlight := ?_, delivered := ?_ }
    · show w.state.inFlight - 1 = _
      rw [h.shared.inFlight, herase, hflight]
      simp only [List.length_append, List.length_cons]
      push_cast
      omega
    · intro e he
      exact h.shared.delivered e (by simpa using he)

/-! ## Stages -/

/-- The streams of an anchor that launched its stage whole. -/
lemma Inv.whole_view (h : Inv c w) (hj : w.state.stage a = .entered j)
    (hn : w.state.next a = w.state.numPartners c a j) (hpos : 0 < w.state.next a) :
    (w.view a).admitted = true ∧ (w.view a).entering = 0 ∧ (w.view a).waiting = 0 ∧
      (w.view a).ready = 0 ∧ (∀ i < j + 1, (w.view a).Past c i) ∧
      ∀ i, j + 1 ≤ i → (w.view a).Streamed i 0 := by
  have hE := (h.anchors a).entered hj
  obtain ⟨hent, hadm⟩ := hE.running_of_pos hpos
  obtain ⟨hw, hrun⟩ := hE.running hadm
  have hnext : (w.view a).next = c.rowLength j ((w.view a).lists j) :=
    hn.trans State.numPartners_eq
  refine ⟨hadm, hent, hw, ?_, ?_, fun i hi => hE.later i hi⟩
  · rw [(hrun hent).1, if_neg (by omega)]
  · intro i hi
    rcases Nat.lt_succ_iff_lt_or_eq.1 hi with hi | rfl
    · exact hE.past i hi
    · exact .inr (hnext ▸ hE.streamed)

lemma Enters.waits_false {s : State β γ} {decided : Bool} {kind : Kind} {o : Outcome}
    (h : Enters c s a j decided (some kind) o) : o.waits = false := by
  obtain ⟨i, _, _, _, hend⟩ := h.lists
  rcases hend with ⟨_, _, _, hwaits⟩ | ⟨hnone, _⟩
  · exact hwaits
  · cases hnone

lemma due_other (hdue : ∀ b, w.due = some b → b = a) (hb : b ≠ a) :
    decide (w.due = some b) = false := by
  have h : w.due ≠ some b := fun h => hb (hdue b h)
  simp [h]

lemma Inv.advance {o : Outcome} (h : Inv c w) (hd : c.isDependent a = false)
    (hj : w.state.stage a = .entered j) (hn : w.state.next a = w.state.numPartners c a j)
    (hpos : 0 < w.state.next a) (hdue : ∀ b, w.due = some b → b = a)
    (he : Enters c w.state a (j + 1) false none o) :
    Inv c { w with
      state := { w.state.entered a o with ready := w.state.ready ++ [a] }
      due := none } := by
  obtain ⟨hadm, hent, hw, hready, hpast, hzero⟩ := h.whole_view hj hn hpos
  have hE := (h.anchors a).entered hj
  refine ⟨fun b => ?_, h.shared.setStage rfl (by simp [hj]) (by simp [hj]) hE.pending rfl rfl rfl
    rfl rfl rfl rfl rfl rfl⟩
  by_cases hb : b = a
  · subst hb
    have hL := (h.anchors b).enter hj hd hadm hw (Nat.le_succ j) hpast hzero rfl he false
    have hready : w.state.ready.count b = 0 := hready
    have hent : w.state.entering.count b = 0 := hent
    convert hL using 1
    simp only [World.view, State.entered, State.setStage, update_self, View.enter]
    cases o.waits <;> simp [World.settlements, hready, hent]
  · have hview : ({ w with
        state := { w.state.entered a o with ready := w.state.ready ++ [a] }
        due := none } : World β γ).view b = w.view b := by
      rw [← World.view_entered_ne (w := w) (o := o) hb]
      simp [World.view, World.settlements, Ne.symm hb, due_other hdue hb]
      rfl
    rw [hview]
    exact h.anchors b

lemma Inv.leave {o : Outcome} {kind : Kind} {survived : Bool} (h : Inv c w)
    (hd : c.isDependent a = false) (hj : w.state.stage a = .entered j) (hk : j + 1 < c.k)
    (hn : w.state.next a = w.state.numPartners c a j) (hpos : 0 < w.state.next a)
    (hdue : ∀ b, w.due = some b → b = a)
    (he : Enters c w.state a (j + 1) false (some kind) o) :
    Inv c { w with
      state := w.state.entered a o
      limbo := w.limbo ++ [⟨kind, a, survived⟩]
      due := none } := by
  obtain ⟨hadm, hent, hw, hready, hpast, hzero⟩ := h.whole_view hj hn hpos
  have hE := (h.anchors a).entered hj
  refine ⟨fun b => ?_, h.shared.setStage rfl (by simp [hj]) (by simp [hj]) hE.pending rfl rfl rfl
    rfl rfl rfl rfl rfl rfl⟩
  by_cases hb : b = a
  · subst hb
    have hflight : ∀ g ∈ (w.view b).flight, g.stage + 1 < c.k := fun g hg => by
      have := hE.flight g hg
      omega
    have hL := (h.anchors b).end_enter hj hd hw hpast hzero hflight rfl he false
    have hready : w.state.ready.count b = 0 := hready
    have hent : w.state.entering.count b = 0 := hent
    have hended : w.settlements.countP (fun e => decide (e.anchor = b)) = 0 := hE.ended
    have hwaits := he.waits_false
    convert hL using 1
    simp only [World.settlements, List.countP_append] at hended
    simp [World.view, World.settlements, State.entered, State.setStage, View.enter, hwaits, hready,
      hent, List.countP_append]
    omega
  · have hview : ({ w with
        state := w.state.entered a o
        limbo := w.limbo ++ [⟨kind, a, survived⟩]
        due := none } : World β γ).view b = w.view b := by
      rw [← World.view_entered_ne (w := w) (o := o) hb]
      simp [World.view, World.settlements, Ne.symm hb, due_other hdue hb, List.countP_append]
    rw [hview]
    exact h.anchors b

/-- An anchor whose row is in ends, dropped or finished. -/
lemma Inv.complete {s : State β γ} {kind : Kind} {survived : Bool} {counted : Anchor → Bool}
    {survivors : ℕ} (h : Inv c w) (hj : w.state.stage a = .entered j)
    (hans : (w.state.answers a j).length = w.state.numPartners c a j)
    (hpos : 0 < w.state.numPartners c a j) (hdue : ∀ b, w.due = some b → b = a)
    (hs : s = { w.state.setStage a .done with counted, survivors }) :
    Inv c { w with
      state := s
      limbo := w.limbo ++ [⟨kind, a, survived⟩]
      due := none } := by
  subst hs
  have hE := (h.anchors a).entered hj
  refine ⟨fun b => ?_, h.shared.setStage rfl (by simp [hj]) (by simp [hj]) hE.pending rfl rfl rfl
    rfl rfl rfl rfl rfl rfl⟩
  by_cases hb : b = a
  · subst hb
    rw [State.numPartners_eq] at hans hpos
    have hL := (h.anchors b).complete hj hans hpos false
    have hended : w.settlements.countP (fun e => decide (e.anchor = b)) = 0 := hE.ended
    convert hL using 1
    simp only [World.settlements, List.countP_append] at hended
    simp [World.view, World.settlements, State.setStage, List.countP_append]
    omega
  · have hview : ({ w with
        state := { w.state.setStage a .done with counted, survivors }
        limbo := w.limbo ++ [⟨kind, a, survived⟩]
        due := none } : World β γ).view b = w.view b := by
      simp [World.view, World.settlements, State.setStage, hb, Ne.symm hb, due_other hdue hb,
        List.countP_append]
    rw [hview]
    exact h.anchors b

lemma State.countSurvivor_eq {s : State β γ} : ∃ counted survivors,
    s.countSurvivor c a = { s with counted, survivors } := by
  unfold State.countSurvivor
  split_ifs
  · exact ⟨_, _, rfl⟩
  · exact ⟨_, _, rfl⟩
  · exact ⟨_, _, rfl⟩

section entering

variable {o : Outcome} {rest : List Anchor}

/-- The anchor first in line at its gate. -/
lemma Inv.gate_view (h : Inv c w) (he : w.state.entering = a :: rest)
    (hj : w.state.stage a = .entered j) :
    rest.count a = 0 ∧ (w.view a).ready = 1 ∧ (w.view a).waiting = 0 ∧
      (w.view a).admitted = true ∧ c.isDependent a = false ∧ (∀ i < j, (w.view a).Past c i) ∧
      ∀ i, j ≤ i → (w.view a).Streamed i 0 := by
  have hE := (h.anchors a).entered hj
  have hcount : (w.view a).entering = rest.count a + 1 := by
    show w.state.entering.count a = _
    rw [he, List.count_cons_self]
  rcases hE.gate with ⟨hent, hnext, hready, hw, hadm, hd⟩ | hg
  · refine ⟨by omega, hready, hw, hadm, hd, hE.past, fun i hi => ?_⟩
    rcases hi.lt_or_eq with hlt | rfl
    · exact hE.later i hlt
    · exact hnext ▸ hE.streamed
  · omega

lemma Inv.keep (h : Inv c w) (he : w.state.entering = a :: rest) (hj : w.state.stage a = .entered j)
    (ho : Enters c w.state a j true none o) :
    Inv c { w with state := ({ w.state with entering := rest }).entered a o } := by
  obtain ⟨hrest, hready, hw, hadm, hd, hpast, hzero⟩ := h.gate_view he hj
  have hE := (h.anchors a).entered hj
  refine ⟨fun b => ?_, h.shared.setStage rfl (by simp [hj]) (by simp [hj]) hE.pending rfl rfl rfl
    rfl rfl rfl rfl rfl rfl⟩
  by_cases hb : b = a
  · subst hb
    have hL := (h.anchors b).enter hj hd hadm hw le_rfl hpast hzero rfl ho (w.view b).due
    have hready : w.state.ready.count b = 1 := hready
    convert hL using 1
    simp only [World.view, State.entered, State.setStage, update_self, View.enter]
    cases o.waits <;> simp [World.settlements, hready, hrest]
  · have hview : ({ w with state := ({ w.state with entering := rest }).entered a o } :
        World β γ).view b = w.view b := by
      have hne := World.view_entered_ne (w := { w with state := { w.state with entering := rest } })
        (o := o) hb
      rw [hne]
      simp [World.view, World.settlements, he, Ne.symm hb]
    rw [hview]
    exact h.anchors b

lemma Inv.decline {kind : Kind} {survived : Bool} (h : Inv c w)
    (he : w.state.entering = a :: rest) (hj : w.state.stage a = .entered j)
    (ho : Enters c w.state a j true (some kind) o) :
    Inv c { w with
      state := { ({ w.state with entering := rest }).entered a o with
        ready := w.state.ready.filter fun b => decide (b ≠ a) }
      limbo := w.limbo ++ [⟨kind, a, survived⟩] } := by
  obtain ⟨hrest, _, hw, _, hd, hpast, hzero⟩ := h.gate_view he hj
  have hE := (h.anchors a).entered hj
  have hwaits := ho.waits_false
  refine ⟨fun b => ?_, h.shared.setStage rfl (by simp [hj]) (by simp [hj]) hE.pending rfl rfl rfl
    rfl rfl rfl rfl rfl rfl⟩
  by_cases hb : b = a
  · subst hb
    have hlast : ∀ g ∈ (w.view b).flight, g.stage + 1 < c.k := by
      intro g hg
      have hle := hE.flight g hg
      have hlt := hE.stage_lt
      have hnone : g.stage ≠ j := by
        have hans := (h.anchors b).answers_eq_nil (hzero j le_rfl)
        have hs : (w.view b).Streamed j ((w.view b).answers j).length := by
          rw [hans]
          exact hzero j le_rfl
        exact (h.anchors b).flight_eq_nil hs g hg
      omega
    have hL := (h.anchors b).end_enter hj hd hw hpast hzero hlast rfl ho (w.view b).due
    have hended : w.settlements.countP (fun e => decide (e.anchor = b)) = 0 := hE.ended
    have hfilter : (w.state.ready.filter fun b' => !decide (b' = b)).count b = 0 := by
      rw [List.count_eq_zero]
      simp
    convert hL using 1
    simp only [World.settlements, List.countP_append] at hended
    simp [World.view, World.settlements, State.entered, State.setStage, View.enter, hwaits, hrest,
      hfilter, List.countP_append]
    omega
  · have hview : ({ w with
        state := { ({ w.state with entering := rest }).entered a o with
          ready := w.state.ready.filter fun b => decide (b ≠ a) }
        limbo := w.limbo ++ [⟨kind, a, survived⟩] } : World β γ).view b = w.view b := by
      have hentering : rest.count b = w.state.entering.count b := by
        simp [he, Ne.symm hb]
      have hfilter : (w.state.ready.filter fun b' => !decide (b' = a)).count b =
          w.state.ready.count b := List.count_filter (by simpa using hb)
      simp [World.view, World.settlements, State.entered, State.setStage, hwaits, hb, Ne.symm hb,
        hentering, hfilter, List.countP_append]
    rw [hview]
    exact h.anchors b

end entering

/-! ## Settling -/

lemma Inv.dropDependent (hc : c.check = none) (h : Inv c w) (hd : c.isDependent a) :
    Inv c { w with state := w.state.dropDependent a } := by
  unfold State.dropDependent
  split_ifs with hcond
  · exact h
  · rw [not_or, not_not] at hcond
    obtain ⟨hq, hr⟩ := hcond
    have hQ := (h.anchors a).queued hq
    have hpend : (w.view a).pending = 0 := by
      rw [hQ.pending, if_neg (by simp [hd])]
    have hwait : (w.view a).waiting = 0 := by
      have hrel : w.state.released a = false := by simpa using hr
      rw [hQ.waiting, if_neg (by simp [World.view, hrel])]
    refine ⟨fun b => ?_, h.shared.setStage rfl (by simp [hq]) (fun _ => hd) hpend rfl rfl rfl rfl rfl
      rfl rfl rfl rfl⟩
    by_cases hb : b = a
    · subst hb
      refine (h.anchors b).end_unadmitted hq (Config.dependent_lt hc hd) ⟨rfl, rfl, rfl, rfl, rfl⟩
        (update_self _ _ _) hQ.ready hQ.entering ⟨?_, fun _ => hwait⟩ ⟨?_, fun _ => hpend⟩ (.inl ?_)
      · show (w.view b).waiting ≤ 1
        omega
      · show (w.view b).pending ≤ 1
        omega
      · have hended : w.settlements.countP (fun e => decide (e.anchor = b)) = 0 := hQ.ended
        simp only [World.settlements, List.countP_append] at hended
        simp [World.view, World.settlements, State.setStage, List.countP_append]
        omega
    · have hview : ({ w with state := { w.state.setStage a .done with
          skipped := w.state.skipped ++ [a]
          settled := w.state.settled ++ [⟨.dropped, a, false⟩] } } : World β γ).view b =
          w.view b := by
        simp [World.view, World.settlements, State.setStage, hb, Ne.symm hb, List.countP_append,
          List.count_append]
      rw [hview]
      exact h.anchors b

/-- A dependent that was neither released nor done is dropped, and the others stay as they are. -/
lemma State.dropDependent_spec {s : State β γ} :
    ((s.dropDependent a).released a ∨ (s.dropDependent a).stage a = .done ∨
      s.stage a ≠ .queued) ∧
      (∀ b, s.stage b = .done → (s.dropDependent a).stage b = .done) ∧
      (s.dropDependent a).released = s.released ∧
      (s.dropDependent a).groupMembers = s.groupMembers := by
  unfold State.dropDependent
  split_ifs with hcond
  · rcases hcond with hq | hr
    · exact ⟨.inr (.inr hq), fun _ h => h, rfl, rfl⟩
    · exact ⟨.inl hr, fun _ h => h, rfl, rfl⟩
  · refine ⟨.inr (.inl ?_), fun b hb => ?_, rfl, rfl⟩
    · simp [State.setStage]
    · by_cases hba : b = a
      · simp [State.setStage, hba]
      · simpa [State.setStage, hba] using hb

/-- A dependent past its queue was released. -/
lemma Inv.released_or_done (h : Inv c w) (hd : c.isDependent a) (hq : w.state.stage a ≠ .queued) :
    w.state.released a ∨ w.state.stage a = .done := by
  cases hs : w.state.stage a with
  | queued => exact absurd hs hq
  | entered j => exact .inl (((h.anchors a).entered hs).own hd).2
  | done => exact .inr rfl

/-- Dropping a document's unreleased dependents. -/
lemma Inv.dropDependents {l : List Anchor} (hc : c.check = none) (h : Inv c w)
    (hl : ∀ d ∈ l, c.isDependent d) :
    Inv c { w with state := l.foldl State.dropDependent w.state } ∧
      (∀ b, w.state.stage b = .done → (l.foldl State.dropDependent w.state).stage b = .done) ∧
      (l.foldl State.dropDependent w.state).released = w.state.released ∧
      (l.foldl State.dropDependent w.state).groupMembers = w.state.groupMembers ∧
      ∀ d ∈ l, (l.foldl State.dropDependent w.state).released d ∨
        (l.foldl State.dropDependent w.state).stage d = .done := by
  induction l generalizing w with
  | nil => exact ⟨h, fun _ hb => hb, rfl, rfl, by simp⟩
  | cons d l ih =>
    obtain ⟨hself, hdone, hrel, hmem⟩ := State.dropDependent_spec (s := w.state) (a := d)
    have hd := hl d List.mem_cons_self
    obtain ⟨hinv, hdone', hrel', hmem', hall⟩ :=
      ih (h.dropDependent hc hd) fun d' hd' => hl d' (List.mem_cons_of_mem _ hd')
    refine ⟨hinv, fun b hb => hdone' b (hdone b hb), hrel'.trans hrel, hmem'.trans hmem, ?_⟩
    intro d' hd'
    rcases List.mem_cons.1 hd' with rfl | hd'
    · have key : (w.state.dropDependent d').released d' ∨
          (w.state.dropDependent d').stage d' = .done := by
        rcases hself with hr | hs | hq
        · exact .inl hr
        · exact .inr hs
        · rcases h.released_or_done hd hq with hr | hs
          · exact .inl (by rw [hrel]; exact hr)
          · exact .inr (hdone _ hs)
      rcases key with hr | hs
      · exact .inl (by rw [List.foldl_cons, hrel']; exact hr)
      · exact .inr (hdone' _ hs)
    · exact hall d' hd'

lemma countP_done_set {stage : Anchor → Stage} {l : List Anchor} (ha : stage a ≠ .done) :
    l.countP (fun b => decide (update stage a .done b = .done)) =
      l.countP (fun b => decide (stage b = .done)) + l.count a := by
  induction l with
  | nil => rfl
  | cons b l ih =>
    rw [List.countP_cons, List.countP_cons, List.count_cons, ih]
    by_cases hb : b = a
    · subst hb
      simp [ha]
      omega
    · simp [hb]
      omega

/-- Skipping a queued member of a group that has a survivor. -/
lemma Inv.skipMember (h : Inv c w) (hq : w.state.stage a = .queued) (hd : c.isDependent a = false)
    (ha : a < c.n) (hm : ∀ group ms, w.state.groupMembers group = some ms → a ∉ ms) :
    Inv c { w with state := w.state.skipMember a } := by
  have hQ := (h.anchors a).queued hq
  have hpend : (w.view a).pending = 1 := by
    rw [hQ.pending, if_pos ⟨ha, hd⟩]
  have hwait : (w.view a).waiting = 0 := by
    rw [hQ.waiting, if_neg (by simp [hd])]
  refine ⟨fun b => ?_, { h.shared with dead := ?_, members := ?_, delivered := ?_ }⟩
  · by_cases hb : b = a
    · subst hb
      refine (h.anchors b).end_unadmitted hq ha ⟨rfl, rfl, rfl, rfl, rfl⟩ (update_self _ _ _)
        hQ.ready hQ.entering ⟨?_, fun _ => hwait⟩ ⟨?_, fun hd' => ?_⟩ (.inr ⟨hQ.ended, ?_, hd⟩)
      · show (w.view b).waiting ≤ 1
        omega
      · show (w.view b).pending ≤ 1
        omega
      · rw [hd] at hd'
        cases hd'
      · have hskips : (skippedIn w.trace ++ w.state.skipped).count b = 0 := hQ.skips
        rw [List.count_append] at hskips
        simp [World.view, State.skipMember, List.count_append]
        omega
    · have hview : ({ w with state := w.state.skipMember a } : World β γ).view b = w.view b := by
        simp [World.view, World.settlements, State.skipMember, State.setStage, hb, Ne.symm hb,
          List.count_append]
      rw [hview]
      exact h.anchors b
  · show w.state.dead + 1 = _
    have hcount : w.state.pending.count a = 1 := hpend
    have hset : w.state.pending.countP (fun b => decide (update w.state.stage a .done b = .done)) =
        _ := countP_done_set (by simp [hq])
    rw [hcount] at hset
    rw [h.shared.dead]
    show _ = ((w.state.pending.countP fun b => decide (update w.state.stage a .done b = .done) : ℕ) : ℤ)
    rw [hset]
    push_cast
    rfl
  · intro group ms hms
    obtain ⟨hnd, hall⟩ := h.shared.members group ms hms
    refine ⟨hnd, fun b hb => ?_⟩
    have hba : b ≠ a := fun hba => hm group ms hms (hba ▸ hb)
    obtain ⟨hqb, hrest⟩ := hall b hb
    exact ⟨by simpa [State.skipMember, State.setStage, hba] using hqb, hrest⟩
  · intro e he d hd'
    rcases h.shared.delivered e he d hd' with hr | hr
    · exact .inl hr
    · refine .inr ?_
      have hda : d ≠ a := fun hda => by
        rw [hda, hq] at hr
        cases hr
      simpa [State.skipMember, State.setStage, hda] using hr

/-- Skipping the queued members of a group that has a survivor. -/
lemma Inv.skipMembers {l : List Anchor} (h : Inv c w) (hnd : l.Nodup)
    (hl : ∀ b ∈ l, w.state.stage b = .queued ∧ c.isDependent b = false ∧ b < c.n)
    (hm : ∀ b ∈ l, ∀ group ms, w.state.groupMembers group = some ms → b ∉ ms) :
    Inv c { w with state := l.foldl State.skipMember w.state } ∧
      (l.foldl State.skipMember w.state).released = w.state.released ∧
      ∀ b, w.state.stage b = .done → (l.foldl State.skipMember w.state).stage b = .done := by
  induction l generalizing w with
  | nil => exact ⟨h, rfl, fun _ hb => hb⟩
  | cons a l ih =>
    obtain ⟨hq, hd, ha⟩ := hl a List.mem_cons_self
    obtain ⟨hal, hnd⟩ := List.nodup_cons.1 hnd
    have hne : ∀ b ∈ l, b ≠ a := fun b hb hba => hal (hba ▸ hb)
    obtain ⟨hinv, hrel, hdone⟩ := ih (h.skipMember hq hd ha (hm a List.mem_cons_self)) hnd
      (fun b hb => by
        obtain ⟨hqb, hrest⟩ := hl b (List.mem_cons_of_mem _ hb)
        exact ⟨by simpa [State.skipMember, State.setStage, hne b hb] using hqb, hrest⟩)
      (fun b hb => hm b (List.mem_cons_of_mem _ hb))
    refine ⟨hinv, hrel, fun b hb => hdone b ?_⟩
    by_cases hba : b = a
    · simp [State.skipMember, State.setStage, hba]
    · simpa [State.skipMember, State.setStage, hba] using hb

/-- The anchors of a done group are no longer its members. -/
lemma Inv.closeGroup (h : Inv c w) (group : γ) (busy : γ → ℕ) (done : γ → Bool) :
    Inv c { w with state := { w.state with
      groupBusy := busy, groupDone := done
      groupMembers := update w.state.groupMembers group none } } := by
  refine ⟨h.anchors, { h.shared with members := ?_ }⟩
  intro group' ms hms
  by_cases hg : group' = group
  · subst hg
    simp at hms
  · exact h.shared.members group' ms (by simpa [hg] using hms)

/-- Settling an anchor's group. -/
lemma Inv.settleGroup (hc : c.check = none) (h : Inv c w) (a : Anchor) (survived : Bool) :
    Inv c { w with state := w.state.settleGroup c a survived } ∧
      (∀ b, w.state.stage b = .done → (w.state.settleGroup c a survived).stage b = .done) ∧
      (w.state.settleGroup c a survived).released = w.state.released ∧
      ∀ d ∈ c.allDependents a, (w.state.settleGroup c a survived).released d ∨
        (w.state.settleGroup c a survived).stage d = .done := by
  have hdep : ∀ d ∈ c.allDependents a, c.isDependent d := by
    intro d hd
    obtain ⟨j, _, hj⟩ := List.mem_flatMap.1 hd
    exact Config.isDependent_of_mem hj
  obtain ⟨hinv, hdone, hrel, _, hall⟩ := h.dropDependents hc hdep
  unfold State.settleGroup
  cases hgroup : c.groupOf a with
  | none => exact ⟨hinv, hdone, hrel, hall⟩
  | some group =>
    dsimp only
    split_ifs with hcond
    · exact ⟨⟨hinv.anchors, { hinv.shared with }⟩, hdone, hrel, hall⟩
    · set s := (c.allDependents a).foldl State.dropDependent w.state with hs
      have hclose := hinv.closeGroup group (update s.groupBusy group (s.groupBusy group - 1))
        (update s.groupDone group true)
      have hmembers : ((s.groupMembers group).getD []).Nodup ∧
          ∀ b ∈ (s.groupMembers group).getD [], s.stage b = .queued ∧ c.isDependent b = false ∧
            b < c.n ∧ c.groupOf b = some group := by
        cases hm : s.groupMembers group with
        | none => exact ⟨List.nodup_nil, by simp⟩
        | some ms => exact hinv.shared.members group ms hm
      have hperm := List.perm_insertionSort (· ≤ ·) ((s.groupMembers group).getD [])
      obtain ⟨hskip, hrel', hdone'⟩ := hclose.skipMembers (hperm.nodup_iff.2 hmembers.1)
        (fun b hb => by
          obtain ⟨hq, hd, hn, _⟩ := hmembers.2 b (hperm.mem_iff.1 hb)
          exact ⟨hq, hd, hn⟩)
        (fun b hb group' ms hms hbms => by
          have hg := (hmembers.2 b (hperm.mem_iff.1 hb)).2.2.2
          have hg' := (hclose.shared.members group' ms hms).2 b hbms
          rw [hg'.2.2.2, Option.some.injEq] at hg
          subst hg
          simp at hms)
      refine ⟨hskip, fun b hb => hdone' b (hdone b hb), hrel'.trans hrel, fun d hd => ?_⟩
      rcases hall d hd with hr | hr
      · refine .inl ?_
        rw [hrel']
        exact hr
      · exact .inr (hdone' d hr)

lemma Inv.settle {e : Settlement} {rest : List Settlement} (hc : c.check = none) (h : Inv c w)
    (hl : w.limbo = e :: rest) :
    Inv c
      { state := w.state.settleGroup c e.anchor e.survived
        flight := w.flight
        trace := w.trace ++ [.settled e]
        limbo := rest
        due := w.due } := by
  obtain ⟨hinv, _, _, hall⟩ := h.settleGroup hc e.anchor e.survived
  refine ⟨fun b => ?_, { hinv.shared with delivered := ?_ }⟩
  · have hview : (({
        state := w.state.settleGroup c e.anchor e.survived
        flight := w.flight
        trace := w.trace ++ [.settled e]
        limbo := rest
        due := w.due } : World β γ).view b) =
        ({ w with state := w.state.settleGroup c e.anchor e.survived } : World β γ).view b := by
      simp [World.view, World.settlements, hl]
    rw [hview]
    exact hinv.anchors b
  · intro e' he' d hd
    simp only [settledIn_append, settledIn_settled, List.mem_append, List.mem_singleton] at he'
    rcases he' with he' | rfl
    · exact hinv.shared.delivered e' he' d hd
    · exact hall d hd

lemma Inv.takeSettled {e : Settlement} {rest : List Settlement} (h : Inv c w)
    (hs : w.state.settled = e :: rest) :
    Inv c { w with state := { w.state with settled := rest }, limbo := w.limbo ++ [e] } := by
  refine ⟨fun b => ?_, { h.shared with }⟩
  have hview : ({ w with state := { w.state with settled := rest }, limbo := w.limbo ++ [e] } :
      World β γ).view b = w.view b := by
    simp [World.view, World.settlements, hs]
  rw [hview]
  exact h.anchors b

lemma Inv.takeSkipped {rest : List Anchor} (h : Inv c w) (hs : w.state.skipped = a :: rest) :
    Inv c { w with
      state := { w.state with skipped := rest, borrowing := w.state.borrowing.skip a }
      trace := w.trace ++ [.skipped a] } := by
  refine ⟨fun b => ?_, { h.shared with delivered := ?_ }⟩
  · have hview : ({ w with
        state := { w.state with skipped := rest, borrowing := w.state.borrowing.skip a }
        trace := w.trace ++ [.skipped a] } : World β γ).view b = w.view b := by
      simp [World.view, World.settlements, Borrowing.skip, hs]
    rw [hview]
    exact h.anchors b
  · intro e he
    exact h.shared.delivered e (by simpa using he)

/-- Every move keeps the invariant. -/
theorem Inv.move {w' : World β γ} (hp : Promised c) (hc : c.check = none) (h : Inv c w)
    (hm : Move c w w') : Inv c w' := by
  cases hm with
  | quiet hperm => exact h.quiet hperm
  | launch ha hj he hlt hle hperm => exact h.launch hp ha hj he hlt hle hperm
  | place hq hb _ _ hlt hle hperm => exact h.place hp hc hq hb hlt hle hperm
  | ask hd ha hq he => exact h.ask hp hc hd ha hq he
  | askEmpty hd hw hq he => exact h.askEmpty hc hd hw hq he.waits_false
  | popDead hpend hs => exact h.popDead hpend hs
  | popEnded hw hs => exact h.popEnded hw hs
  | answer hf hb hdue => exact h.answer hf hb hdue
  | advance hd hj _ _ hn hpos hdue he => exact h.advance hd hj hn hpos hdue he
  | leave hd hj hk _ hn hpos hdue he => exact h.leave hd hj hk hn hpos hdue he
  | drop _ hj _ _ hans hpos hdue => exact h.complete hj hans hpos hdue rfl
  | @finish a _ hj _ hans hpos hdue =>
    obtain ⟨counted, survivors, hs⟩ :=
      State.countSurvivor_eq (c := c) (s := w.state.setStage a .done) (a := c.branchOf a)
    exact h.complete hj hans hpos hdue hs
  | keep he hj ho => exact h.keep he hj ho
  | decline he hj ho => exact h.decline he hj ho
  | settle hl => exact h.settle hc hl
  | takeSettled hs => exact h.takeSettled hs
  | takeSkipped hs => exact h.takeSkipped hs

theorem Inv.moves {w' : World β γ} (hp : Promised c) (hc : c.check = none) (h : Inv c w)
    (hm : Moves c w w') : Inv c w' := by
  induction hm with
  | refl => exact h
  | tail _ hm ih => exact ih.move hp hc hm

end moves

end Quail.Admission
