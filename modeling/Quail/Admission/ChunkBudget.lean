import Quail.Admission.Budget

/-!
# A chunk stays within its room and its pages

Each turn of `next_chunk` keeps the account of the chunk (`Charged`): a launched group's rows come
off the room, its pages off the free pages. From it, what a whole call charges.
-/

set_option linter.unusedSectionVars false

namespace Quail.Admission
open Imperative Function

variable {β γ : Type} [DecidableEq γ] [ToString γ] {c : Config β γ}
variable {s s' old : State β γ} {r r' : Run β γ} {ch ch' : Chunk} {turn : Turn} {o : Oracle}
variable {a : Anchor} {j freePages room : ℕ} {g : Group}

/-! ## One turn -/

/-- The prices read no queue. -/
lemma Chunk.priced_world : Priced c (ch.world r s).state ↔ Priced c s := by
  constructor
  · intro h
    exact ⟨h.costs, h.unchosen⟩
  · intro h
    exact ⟨h.costs, h.unchosen⟩

/-- The account of the groups so far, read in a state with their anchors' lists and choices. -/
lemma Charged.carry (h : Charged c old freePages room s ch)
    (hlists : ∀ g ∈ ch.groups, s'.lists g.anchor = s.lists g.anchor)
    (hchosen : ∀ g ∈ ch.groups, s'.borrowing.chosen g.anchor = s.borrowing.chosen g.anchor) :
    (ch.groups.map (s'.rowsOf c)).sum + ch.room = room ∧
      (ch.groups.map (s'.pagesOf c old)).sum + ch.freePages = freePages ∧
      (ch.groups.map (s'.temporaryOf c)).sum = ch.temporaryPages ∧
      ∀ before g after, ch.groups = before ++ g :: after →
        old.borrowing.admitted g.anchor = false →
        (before.map (s'.pagesOf c old)).sum + s'.chargeOf c g.anchor +
          (old.pageReserve - (before.map (s'.temporaryOf c)).sum) +
          c.dependentPages g.anchor ≤ freePages := by
  have hsame : ∀ g ∈ ch.groups, s'.rowsOf c g = s.rowsOf c g ∧
      s'.temporaryOf c g = s.temporaryOf c g ∧ s'.pagesOf c old g = s.pagesOf c old g := by
    intro g hg
    exact State.rowsOf_congr (hlists g hg) (hchosen g hg)
  refine ⟨?_, ?_, ?_, ?_⟩
  · rw [List.map_congr_left fun g hg => (hsame g hg).1]
    exact h.rows
  · rw [List.map_congr_left fun g hg => (hsame g hg).2.2]
    exact h.pages
  · rw [List.map_congr_left fun g hg => (hsame g hg).2.1]
    exact h.temporary
  · intro before g after hsplit hnew
    have hbefore : ∀ g ∈ before, g ∈ ch.groups := by
      intro g hg
      rw [hsplit]
      exact List.mem_append_left _ hg
    have hcharge : s'.chargeOf c g.anchor = s.chargeOf c g.anchor := by
      unfold State.chargeOf
      rw [hchosen g (by simp [hsplit])]
    rw [List.map_congr_left fun g hg => (hsame g (hbefore g hg)).2.2,
      List.map_congr_left fun g hg => (hsame g (hbefore g hg)).2.1, hcharge]
    exact h.reserved before g after hsplit hnew

/-- A turn that launches nothing leaves the account as it is. -/
lemma Charged.idle (h : Charged c old freePages room s ch) (hpriced : Priced c s')
    (hdistinct : Distinct c s' ch') (hgroups : ch'.groups = ch.groups) (hroom : ch'.room = ch.room)
    (hfree : ch'.freePages = ch.freePages) (htemp : ch'.temporaryPages = ch.temporaryPages)
    (hlists : ∀ g ∈ ch.groups, s'.lists g.anchor = s.lists g.anchor)
    (hbor : s'.borrowing = s.borrowing) (hreserve : s'.pageReserve = s.pageReserve) :
    Charged c old freePages room s' ch' := by
  obtain ⟨hrows, hpages, htemporary, hreserved⟩ := h.carry hlists fun g _ => by rw [hbor]
  refine
    { priced := hpriced
      distinct := hdistinct
      admitted := ?_
      rows := ?_
      pages := ?_
      temporary := ?_
      reserve := hreserve.trans h.reserve
      reserved := ?_ }
  · rw [hgroups, hbor]
    exact h.admitted
  · rw [hgroups, hroom]
    exact hrows
  · rw [hgroups, hfree]
    exact hpages
  · rw [hgroups, htemp]
    exact htemporary
  · rw [hgroups]
    exact hreserved

/-- A group of a chunk is its last one, or stands where it stood before the last was added. -/
lemma group_last_or_before {groups before after : List Group} {last : Group}
    (h : groups ++ [last] = before ++ g :: after) :
    (before = groups ∧ g = last) ∨ ∃ rest, groups = before ++ g :: rest := by
  rcases List.append_eq_append_iff.1 h with ⟨more, hbefore, hlast⟩ | ⟨more, hgroups, hafter⟩
  · rw [List.singleton_eq_append_iff] at hlast
    rcases hlast with ⟨rfl, hg⟩ | ⟨-, hnil⟩
    · rw [List.append_nil] at hbefore
      exact .inl ⟨hbefore, (List.cons.inj hg).1⟩
    · cases hnil
  · cases more with
    | nil =>
      rw [List.append_nil] at hgroups
      exact .inl ⟨hgroups.symm, (List.cons.inj hafter).1⟩
    | cons x rest =>
      obtain ⟨rfl, -⟩ := List.cons.inj hafter
      exact .inr ⟨rest, hgroups⟩

/-- What a launched group takes comes off what the chunk had left. -/
lemma Charged.launch (h : Charged c old freePages room s ch) (hpriced : Priced c s')
    (hdistinct : Distinct c s' ch') (hgroups : ch'.groups = ch.groups ++ [g])
    (hlists : ∀ b ≠ g.anchor, s'.lists b = s.lists b)
    (hchosen : ∀ b ≠ g.anchor, s'.borrowing.chosen b = s.borrowing.chosen b)
    (hadmitted : ∀ b, s'.borrowing.admitted b = true ↔
      s.borrowing.admitted b = true ∨ b = g.anchor)
    (hrows : s'.rowsOf c g + ch'.room = ch.room)
    (hpages : s'.pagesOf c old g + ch'.freePages = ch.freePages)
    (htemp : ch'.temporaryPages = ch.temporaryPages + s'.temporaryOf c g)
    (hreserve : s'.pageReserve = s.pageReserve)
    (htest : old.borrowing.admitted g.anchor = false →
      s'.chargeOf c g.anchor + (s.pageReserve - ch.temporaryPages) + c.dependentPages g.anchor ≤
        ch.freePages) : Charged c old freePages room s' ch' := by
  -- the earlier groups are of other anchors
  have hnodup := hdistinct.nodup
  rw [hgroups, List.map_append, List.map_singleton] at hnodup
  have hother : ∀ g' ∈ ch.groups, g'.anchor ≠ g.anchor := by
    intro g' hg' heq
    apply List.disjoint_of_nodup_append hnodup (List.mem_map_of_mem hg')
    exact List.mem_singleton.2 heq
  obtain ⟨hrows₀, hpages₀, htemp₀, hreserved⟩ := h.carry
    (fun g' hg' => hlists _ (hother g' hg')) (fun g' hg' => hchosen _ (hother g' hg'))
  refine
    { priced := hpriced
      distinct := hdistinct
      admitted := ?_
      rows := ?_
      pages := ?_
      temporary := ?_
      reserve := hreserve.trans h.reserve
      reserved := ?_ }
  · intro b
    rw [hadmitted, h.admitted, hgroups]
    simp [or_assoc]
  · rw [hgroups, List.map_append, List.sum_append, List.map_singleton, List.sum_singleton]
    omega
  · rw [hgroups, List.map_append, List.sum_append, List.map_singleton, List.sum_singleton]
    omega
  · rw [hgroups, List.map_append, List.sum_append, List.map_singleton, List.sum_singleton]
    omega
  · intro before g' after hsplit hnew
    rw [hgroups] at hsplit
    rcases group_last_or_before hsplit with ⟨rfl, rfl⟩ | ⟨rest, hrest⟩
    · have ht := htest hnew
      rw [h.reserve] at ht
      omega
    · exact hreserved before g' rest hrest hnew

/-- The rows and the pages of a run of partners are those of the group launched with it. -/
lemma Taken.account {t : Taken} {i pageRoom : ℕ} (ht : t = s.take c a j i room pageRoom)
    (hi : i ≤ s.numPartners c a j) (hframe : c.frameAt j i ≤ room) :
    t.tokens = c.frameAt j i + (((s.lengths c a j).take t.stop).drop i).sum ∧ t.tokens ≤ room ∧
      (∀ carried, t.pages = s.temporaryOf c ⟨a, j, i, t.stop, carried⟩) ∧ t.pages ≤ pageRoom := by
  subst ht
  refine ⟨State.take_rows hi hframe, (State.take_tokens hi hframe).2, ?_, (State.take_pages hi).2⟩
  intro carried
  exact State.take_temporary hi hframe

/-! ## Placed anchors -/

lemma ReadyEnd.charged (h : Inv c (ch.world r s)) (he : s.entering = [])
    (hc : Charged c old freePages room s ch) (hpriced : Priced c s')
    (hend : ReadyEnd c s ch turn s') : Charged c old freePages room s' turn.chunk := by
  have hdistinct := hend.distinct h he hc.distinct
  cases hend with
  | closed => exact hc
  | @defer a rest hr hroom =>
    exact hc.idle hpriced hdistinct rfl rfl rfl rfl (fun _ _ => rfl) rfl rfl
  | short hr hroom ht hstop =>
    exact hc.idle hpriced hdistinct rfl rfl rfl rfl (fun _ _ => rfl) rfl rfl
  | @launch a rest t hr hroom ht hstop =>
    have hmem : a ∈ (ch.world r s).state.ready := by simp [Chunk.world, hr]
    have hj := h.ready_stage hmem
    have hnext := h.ready_next hmem hj he
    have hadm : s.borrowing.admitted a = true := (h.ready_view hmem hj he hnext).2.2
    -- the queue of the placed anchors holds none this chunk admitted
    have hold : old.borrowing.admitted a = true := by
      rcases (hc.admitted a).1 hadm with hold | hgroup
      · exact hold
      · obtain ⟨g, hg, rfl⟩ := List.mem_map.1 hgroup
        exact absurd (by simp [hr]) (hc.distinct.ready g hg)
    have hi : s.next a ≤ s.numPartners c a (s.stageIndex a) := hnext.le
    have hframe : c.frameAt (s.stageIndex a) (s.next a) ≤ ch.room := by
      unfold State.firstCost at hroom
      unfold Config.frameAt
      omega
    obtain ⟨hrows, htokens, htemp, hpages⟩ := Taken.account ht hi hframe
    refine hc.launch (g := ⟨a, s.stageIndex a, s.next a, t.stop, false⟩) hpriced hdistinct rfl
      (fun _ _ => rfl) (fun _ _ => rfl) (fun b => ?_) ?_ ?_ ?_ rfl ?_
    · show s.borrowing.admitted b = true ↔ _
      constructor
      · exact .inl
      · rintro (hb | rfl)
        · exact hb
        · exact hadm
    · show 0 + (c.frameAt (s.stageIndex a) (s.next a) + _) + (ch.room - t.tokens) = ch.room
      rw [Nat.zero_add]
      exact hrows ▸ Nat.add_sub_cancel' htokens
    · unfold State.pagesOf
      rw [if_pos hold, Nat.zero_add]
      exact htemp false ▸ Nat.add_sub_cancel' hpages
    · exact congrArg (ch.temporaryPages + ·) (htemp false)
    · intro hnew
      rw [hold] at hnew
      cases hnew

/-! ## Fresh anchors -/

/-- What an anchor taken from a queue brings to its placing. -/
structure Placeable (c : Config β γ) (s : State β γ) (a : Anchor) (j : ℕ) : Prop where
  lt : a < c.n
  live : s.stage a ≠ .done
  unadmitted : s.borrowing.admitted a = false
  first : s.first a = c.firstRows j (s.lists a j)
  carried : s.carried a = if c.resident.contains a then 0 else c.prefixOf a

/-- The rows of the first request, frame included. -/
lemma Config.frameAt_le_firstRows {row : Option Row} : c.frameAt j 0 ≤ c.firstRows j row := by
  unfold Config.frameAt Config.firstRows
  rw [if_pos rfl]
  exact Nat.le_add_left _ _

/-- The pages an admitted anchor costs are the pages it is charged. -/
lemma Placeable.need (ha : Placeable c s a j) (hpriced : Priced c s)
    {borrow : Option (Anchor × ℕ)} (hchosen : s'.borrowing.chosen a = borrow) :
    s.need c a borrow = s'.chargeOf c a := by
  unfold State.chargeOf
  rw [hchosen]
  cases borrow with
  | none => exact hpriced.costs a ha.lt ha.live
  | some choice => rfl

/-- The prefix tokens an admitted anchor packs are the prefix rows of its first group. -/
lemma Placeable.packed (ha : Placeable c s a j) {borrow : Option (Anchor × ℕ)}
    (hchosen : s'.borrowing.chosen a = borrow) :
    (if decide (0 < s.packed c a borrow) then c.prefixOf a - s'.borrowing.shared a else 0) =
      s.packed c a borrow := by
  unfold Borrowing.shared
  rw [hchosen]
  simp only [decide_eq_true_eq]
  cases borrow with
  | none =>
    show (if 0 < s.carried a then c.prefixOf a - 0 else 0) = s.carried a
    rw [ha.carried]
    split_ifs <;> omega
  | some choice =>
    show (if 0 < c.prefixOf a - choice.2 then c.prefixOf a - choice.2 else 0) =
      c.prefixOf a - choice.2
    split_ifs <;> omega

lemma PlaceEnd.charged {dependent : Bool} (ha : Placeable c s a j)
    (hc : Charged c old freePages room s ch) (hdistinct : Distinct c s' turn.chunk)
    (hpriced : Priced c s') (hend : PlaceEnd c o s ch a j dependent turn s') :
    Charged c old freePages room s' turn.chunk := by
  cases hend with
  | @hold _ pages blocked hh ht =>
    have hchunk : turn.chunk = { ch.hold a dependent with blocked } := by
      rcases ht with rfl | rfl <;> rfl
    rw [hchunk] at hdistinct ⊢
    have hfields : (ch.hold a dependent).groups = ch.groups ∧
        (ch.hold a dependent).room = ch.room ∧
        (ch.hold a dependent).freePages = ch.freePages ∧
        (ch.hold a dependent).temporaryPages = ch.temporaryPages := by
      cases dependent <;> exact ⟨rfl, rfl, rfl, rfl⟩
    obtain ⟨hgroups, hroom, hfree, htemp⟩ := hfields
    exact hc.idle hpriced hdistinct hgroups hroom hfree htemp (fun _ _ => rfl) rfl rfl
  | @fits borrow t hf hgroup =>
    have hchosen : (s.afterAdmission c a j borrow t.stop).borrowing.chosen a = borrow :=
      Borrowing.record_chosen_self (hc.priced.unchosen a ha.unadmitted)
    have hneed := ha.need hc.priced hchosen
    have hpacked := ha.packed hchosen
    have hfits := hf.pages
    have hroom := hf.room
    have hfirst : c.frameAt j 0 ≤ s.first a := ha.first ▸ Config.frameAt_le_firstRows
    have hframe : c.frameAt j 0 ≤ ch.room - s.packed c a borrow := by omega
    obtain ⟨hrows, htokens, htemp, hpages⟩ := Taken.account hf.taken (Nat.zero_le _) hframe
    have hnew : old.borrowing.admitted a = false := by
      by_contra hold
      have hadm := (hc.admitted a).2 (.inl (by simpa using hold))
      rw [ha.unadmitted] at hadm
      cases hadm
    refine hc.launch (g := ⟨a, j, 0, t.stop, decide (0 < s.packed c a borrow)⟩) hpriced hdistinct
      rfl (fun _ _ => rfl) (fun b hb => Borrowing.record_chosen hb) (fun b => ?_) ?_ ?_ ?_ rfl ?_
    · show (s.borrowing.record a borrow).admitted b = true ↔ _
      rw [Borrowing.record_admitted]
      rcases eq_or_ne b a with rfl | hb
      · simp
      · simp [hb]
    · show (if decide (0 < s.packed c a borrow) then
          c.prefixOf a - (s.afterAdmission c a j borrow t.stop).borrowing.shared a else 0) +
        (c.frameAt j 0 + (((s.lengths c a j).take t.stop).drop 0).sum) +
          (ch.room - (s.packed c a borrow + t.tokens)) = ch.room
      rw [hpacked, ← hrows]
      omega
    · unfold State.pagesOf
      rw [if_neg (by simp [hnew]), ← hneed]
      show s.need c a borrow + s.temporaryOf c _ + (ch.freePages - (s.need c a borrow + t.pages)) =
        ch.freePages
      rw [← htemp]
      omega
    · exact congrArg (ch.temporaryPages + ·) (htemp _)
    · intro _
      rw [← hneed]
      exact hfits

/-- A released dependent that was just asked. -/
lemma Inv.placeable_asked {rest : List Anchor} {out : Outcome} (hp : Promised c)
    (hcheck : c.check = none) (h : Inv c (ch.world r s)) (hw : s.waiting = a :: rest)
    (hs : s.stage a = .queued)
    (hE : Enters c { s with waiting := rest } a (c.startStage a) true none out) :
    Placeable c { ({ s with waiting := rest } : State β γ).entered a out with
      first := update s.first a
        ((({ s with waiting := rest } : State β γ).entered a out).firstCost c a (c.startStage a) 0) }
      a (c.startStage a) := by
  have hmem : a ∈ (ch.world r s).state.waiting := by simp [Chunk.world, hw]
  have hd := h.waiting_dependent hmem
  have hlt : a < c.n := by
    obtain ⟨p, j, hdep⟩ := Config.isDependent_iff.1 hd
    exact (Config.check_dependency hcheck hdep).1
  have hstage := (hE.own hp hd).2 rfl
  exact
    { lt := hlt
      live := by simp [State.entered, State.setStage, hstage]
      unadmitted := ((h.anchors a).queued hs).unadmitted
      first := by
        show update s.first a _ a = _
        rw [update_self, State.firstCost_zero]
      carried := h.shared.carried a hlt }

/-- A dependent that waits on after it was asked. -/
lemma Inv.placeable_waiting {rest : List Anchor} (h : Inv c (ch.world r s))
    (hw : s.waiting = a :: rest) (hq : s.stage a ≠ .queued) (hs : s.stage a ≠ .done) :
    Placeable c { s with waiting := rest } a (c.startStage a) := by
  have hmem : a ∈ (ch.world r s).state.waiting := by simp [Chunk.world, hw]
  have hpos : 0 < ((ch.world r s).view a).waiting := List.count_pos_iff.2 hmem
  have hd := h.waiting_dependent hmem
  have hlt : a < c.n := (h.anchors a).known hq
  cases hst : s.stage a with
  | queued => exact absurd hst hq
  | done => exact absurd hst hs
  | entered j =>
    have hE := (h.anchors a).entered hst
    have hadm : ((ch.world r s).view a).admitted = false := by
      by_contra hadm
      have hnone := (hE.running (by simpa using hadm)).1
      omega
    have hj := (hE.own hd).1
    have hfirst := (hE.asked hadm).2.2.2.2
    rw [hj] at hfirst
    exact ⟨hlt, hs, hadm, hfirst, h.shared.carried a hlt⟩

/-- A pending anchor that was not skipped. -/
lemma Inv.placeable_pending {rest : List Anchor} (h : Inv c (ch.world r s))
    (hq : s.pending = a :: rest) (hs : s.stage a ≠ .done) :
    Placeable c { s with pending := rest } a 0 := by
  have hmem : a ∈ (ch.world r s).state.pending := by simp [Chunk.world, hq]
  obtain ⟨hst, hd⟩ := h.pending_queued hmem hs
  have hQ := (h.anchors a).queued hst
  have hlt : a < c.n := by
    by_contra hlt
    have hpend := hQ.pending
    rw [if_neg fun hcond => hlt hcond.1] at hpend
    have hpos : 0 < ((ch.world r s).view a).pending := List.count_pos_iff.2 hmem
    omega
  exact ⟨hlt, hs, hQ.unadmitted, (hQ.partners hlt hd).2, h.shared.carried a hlt⟩

/-- A chunk whose next turn only takes an anchor from a queue. -/
lemma Charged.pop (hc : Charged c old freePages room s ch) (dead : ℤ)
    {pending waiting : List Anchor} (hp : pending ⊆ s.pending) (hw : waiting ⊆ s.waiting) :
    Charged c old freePages room { s with pending, waiting, dead } ch := by
  have hpriced : Priced c { s with pending, waiting, dead } := ⟨hc.priced.costs, hc.priced.unchosen⟩
  have hdistinct : Distinct c { s with pending, waiting, dead } ch :=
    hc.distinct.shrink rfl (List.Subset.refl _) hp hw rfl
  exact hc.idle hpriced hdistinct rfl rfl rfl rfl (fun _ _ => rfl) rfl rfl

lemma FreshEnd.charged {limited : Bool} (hp : Promised c) (hcheck : c.check = none)
    (h : Inv c (ch.world r s)) (hc : Charged c old freePages room s ch) (hpriced : Priced c s')
    (hend : FreshEnd c o limited s ch turn s') : Charged c old freePages room s' turn.chunk := by
  have hdistinct := hend.distinct h hc.distinct
  have hothers {a : Anchor} {rest : List Anchor} (hw : s.waiting = a :: rest) :
      ∀ g ∈ ch.groups, g.anchor ≠ a := by
    rintro g hg rfl
    exact hc.distinct.waiting g hg (by simp [hw])
  cases hend with
  | empty hw hq => exact hc
  | paced hw hq hl => exact hc
  | @dropped a rest hw hs => exact hc.pop s.dead (List.Subset.refl _) (by simp [hw])
  | @dead a rest hw hq hs => exact hc.pop _ (by simp [hq]) (List.Subset.refl _)
  | @ended a rest _ hw hs hask =>
    cases hask with
    | ended hE =>
      exact hc.idle hpriced hdistinct rfl rfl rfl rfl
        (fun g hg => update_of_ne (hothers hw g hg) _ _) rfl rfl
  | @asked a rest s₁ _ _ hw hs hask hplace =>
    cases hask with
    | @asked out hE =>
      have hplaceable := h.placeable_asked hp hcheck hw hs hE
      have hpopped := hc.pop s.dead (List.Subset.refl s.pending)
        (show rest ⊆ s.waiting by simp [hw])
      have hfixed : Fixed s { ({ s with waiting := rest } : State β γ).entered a out with
          first := update s.first a ((({ s with waiting := rest } : State β γ).entered a
            out).firstCost c a (c.startStage a) 0) } :=
        .setStage (by simp [hs]) ⟨rfl, rfl, rfl, rfl⟩ rfl
      refine hplace.charged hplaceable ?_ hdistinct hpriced
      refine hpopped.idle (hc.priced.same hfixed rfl) ?_ rfl rfl rfl rfl
        (fun g hg => update_of_ne (hothers hw g hg) _ _) rfl rfl
      exact hpopped.distinct.shrink rfl (List.Subset.refl _) (List.Subset.refl _)
        (List.Subset.refl _) rfl
  | @waited a rest _ _ hw hs hs' hplace =>
    have hpopped := hc.pop s.dead (List.Subset.refl s.pending)
      (show rest ⊆ s.waiting by simp [hw])
    exact hplace.charged (h.placeable_waiting hw hs hs') hpopped hdistinct hpriced
  | @fresh a rest _ _ hw hq hs hl hplace =>
    have hpopped := hc.pop s.dead (show rest ⊆ s.pending by simp [hq])
      (List.Subset.refl s.waiting)
    exact hplace.charged (h.placeable_pending hq hs) hpopped hdistinct hpriced

/-! ## A call -/

/-- The account a call starts with. -/
lemma Charged.start (hpriced : Priced c r.state) : Charged c r.state freePages room
    { r.state with blockedPages := 0 } (Chunk.start freePages room) where
  priced := ⟨hpriced.costs, hpriced.unchosen⟩
  distinct := ⟨by simp [Chunk.start], by simp [Chunk.start], by simp [Chunk.start],
    by simp [Chunk.start], by simp [Chunk.start]⟩
  admitted := by simp [Chunk.start]
  rows := by simp [Chunk.start]
  pages := by simp [Chunk.start]
  temporary := by simp [Chunk.start]
  reserve := rfl
  reserved := by simp [Chunk.start]

/-- The groups of a call, and the account they were charged to. -/
theorem nextChunk_charged (o : Oracle) (freePages : ℕ) (size : Option ℕ) (hp : Promised c)
    (hc : c.check = none) (h : Inv c (World.of r)) (he : r.state.entering = [])
    (hpriced : Priced c r.state) :
    wp (nextChunk c o freePages size)
      (fun groups s' => ∃ s ch, Charged c r.state freePages (size.getD c.chunkBudget) s ch ∧
        ch.groups = groups ∧ s'.lists = s.lists ∧ s'.borrowing = s.borrowing)
      (fun _ _ => True) r.state := by
  have hstart : Charged c r.state freePages (size.getD c.chunkBudget)
      { r.state with blockedPages := 0 } (Chunk.start freePages (size.getD c.chunkBudget)) :=
    .start hpriced
  have hquiet : Move c (World.of r)
      (World.of { r with state := { r.state with blockedPages := 0 } }) :=
    .quiet (List.Perm.refl _)
  have h₀ := h.move hp hc hquiet
  rw [← Chunk.start_world (r := r) freePages (size.getD c.chunkBudget)] at h₀
  -- the prices of a turn's end are those its moves keep
  have hturn {s s' : State β γ} {ch : Chunk} {turn : Turn} (hinv : Inv c (ch.world r s))
      (hs : Priced c s) (hm : Moves c (ch.world r s) (turn.chunk.world r s')) : Priced c s' :=
    Chunk.priced_world.1 (hm.priced hp hc hinv (Chunk.priced_world.2 hs))
  unfold nextChunk
  rw [wp_bind, wp_modify, wp_bind, wp_get]
  dsimp only
  rw [wp_ite]
  refine ⟨fun _ => ⟨_, _, hstart, rfl, rfl, rfl⟩, fun _ => ?_⟩
  rw [wp_bind]
  refine wp_mono readyTurns_spec ?_ (fun _ _ h => h)
  intro ch s hloop
  obtain ⟨hm, hes, hI⟩ := hloop.moves hp hc (fun _ _ _ _ hinv he hend => hend.moves hinv he)
    (fun _ _ _ _ hinv he hI hend =>
      hend.charged hinv he hI (hturn hinv hI.priced (hend.moves hinv he).1)) h₀ he hstart
  rw [wp_bind, wp_get, wp_bind]
  have hlive : Charged c r.state freePages (size.getD c.chunkBudget) s
      { ch with expectedRows := s.live c } :=
    hI.idle hI.priced (hI.distinct.shrink rfl (List.Subset.refl _) (List.Subset.refl _)
      (List.Subset.refl _) rfl) rfl rfl rfl rfl (fun _ _ => rfl) rfl rfl
  have hinv : Inv c (({ ch with expectedRows := s.live c } : Chunk).world r s) := h₀.moves hp hc hm
  refine wp_mono (freshTurns_spec hp hc hinv hes) ?_ (fun _ _ h => h)
  intro ch' s' hloop'
  obtain ⟨-, -, hI'⟩ := hloop'.moves hp hc (fun _ _ _ _ hinv he hend => hend.moves hp hinv he)
    (fun _ _ _ _ hinv he hI hend =>
      hend.charged hp hc hinv hI (hturn hinv hI.priced (hend.moves hp hinv he).1)) hinv hes hlive
  rw [wp_bind, wp_modify, wp_pure]
  exact ⟨_, _, hI', rfl, rfl, rfl⟩

/-- Every chunk of every run: its rows fit the room, its pages the free pages, and each anchor placed
in it passed the test of its own pages, the reserve and its dependents against what was left. -/
theorem chunk_fits {size : Option ℕ} (hp : Promised c) (h : Reachable c r)
    (hstep : Step c r (.nextChunk o freePages size) r') :
    ∃ groups : List Group, r'.trace = r.trace ++ groups.map .launched ∧
      (groups.map (r'.state.rowsOf c)).sum ≤ size.getD c.chunkBudget ∧
      (groups.map (r'.state.pagesOf c r.state)).sum ≤ freePages ∧
      ∀ before g after, groups = before ++ g :: after →
        r.state.borrowing.admitted g.anchor = false →
        (before.map (r'.state.pagesOf c r.state)).sum + r'.state.chargeOf c g.anchor +
          (r.state.pageReserve - (before.map (r'.state.temporaryOf c)).sum) +
          c.dependentPages g.anchor ≤ freePages := by
  obtain ⟨hc, hinv⟩ := h.inv hp
  obtain ⟨he, groups, s', hok, rfl⟩ := hstep.nextChunk
  have hcharged := nextChunk_charged o freePages size hp hc hinv he (h.priced hp)
  unfold wp at hcharged
  rw [hok] at hcharged
  obtain ⟨s, ch, hI, rfl, hlists, hbor⟩ := hcharged
  have hsame : ∀ g, s'.rowsOf c g = s.rowsOf c g ∧ s'.temporaryOf c g = s.temporaryOf c g ∧
      s'.pagesOf c r.state g = s.pagesOf c r.state g := by
    intro g
    apply State.rowsOf_congr
    · rw [hlists]
    · rw [hbor]
  have hrows : s'.rowsOf c = s.rowsOf c := funext fun g => (hsame g).1
  have htemp : s'.temporaryOf c = s.temporaryOf c := funext fun g => (hsame g).2.1
  have hpages : s'.pagesOf c r.state = s.pagesOf c r.state := funext fun g => (hsame g).2.2
  have hcharge : s'.chargeOf c = s.chargeOf c := by
    unfold State.chargeOf
    rw [hbor]
  have hroom := hI.rows
  have hfree := hI.pages
  refine ⟨ch.groups, rfl, ?_, ?_, ?_⟩
  · show (ch.groups.map (s'.rowsOf c)).sum ≤ _
    rw [hrows]
    omega
  · show (ch.groups.map (s'.pagesOf c r.state)).sum ≤ _
    rw [hpages]
    omega
  · intro before g after hsplit hnew
    show (before.map (s'.pagesOf c r.state)).sum + s'.chargeOf c g.anchor +
      (r.state.pageReserve - (before.map (s'.temporaryOf c)).sum) + c.dependentPages g.anchor ≤
        freePages
    rw [hpages, hcharge, htemp]
    exact hI.reserved before g after hsplit hnew

/-- The first chunk of a join of two stages, over eight free pages. -/
theorem chunk_fits_twoStages : ∃ r r', Reachable twoStages r ∧
    Step twoStages r (.nextChunk .yes 8 none) r' ∧
    ∃ groups : List Group, r'.trace = r.trace ++ groups.map .launched ∧
      (groups.map (r'.state.rowsOf twoStages)).sum ≤ 10 := by
  obtain ⟨r, hr, hend⟩ := exists_reachable twoStages
    (fun r => (Run.call twoStages r (.nextChunk .yes 8 none)).isSome) []
    (show _ = some true by decide +kernel)
  obtain ⟨r', hcall⟩ := Option.isSome_iff_exists.1 hend
  have hstep := Run.call_step hcall
  obtain ⟨groups, htrace, hrows, -⟩ := chunk_fits twoStages_promised hr hstep
  exact ⟨r, r', hr, hstep, groups, htrace, hrows⟩

end Quail.Admission
