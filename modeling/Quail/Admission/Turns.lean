import Quail.Admission.Moves

/-!
# What the pieces of a call return

For each piece of `next_chunk`, `report` and `decide_waiting`, one inductive relation that lists the
ways it can end, with everything it read on the way, and the proof that it ends in one of them.
-/

set_option linter.unusedSectionVars false

namespace Quail.Admission
open Imperative Function

variable {β γ : Type} [DecidableEq γ] [ToString γ] {c : Config β γ}
variable {s : State β γ} {a : Anchor} {j : ℕ}

/-! ## Entering a stage -/

lemma partnerList_spec {selection : Selection} :
    wp (partnerList c a j selection) (fun _ s' => s' = s) (fun e _ => ∃ text, e = .value text) s := by
  cases selection with
  | whole => exact Eq.refl s
  | own lengths => exact Eq.refl s
  | indices l =>
    unfold partnerList
    dsimp only
    cases badIndex l (c.stageLengths j).length with
    | none => exact Eq.refl s
    | some i => exact ⟨_, rfl⟩

/-- How an entry ends at a stage with requests of its own. -/
lemma settleEmpty_spec (decided : Bool) (lists : ℕ → Option Row) (hj : j < c.k)
    (hl : ∀ i ≠ j, lists i = s.lists a i) :
    wp (settleEmpty c a j) (fun r s' => ∃ o, Enters c s a j decided r o ∧ s' = s.entered a o)
      (fun e _ => ∃ text, e = .value text)
      { s.setStage a (.entered j) with
        next := update s.next a 0, lists := update s.lists a lists } := by
  simp only [settleEmpty, wp_bind, wp_get, wp_ite, wp_pure, wp_modify]
  have hnum : ∀ x y, State.numPartners c { s.setStage a x with
      next := y, lists := update s.lists a lists } a j = c.rowLength j (lists j) := by
    intro x y
    rw [State.numPartners_eq]
    show c.rowLength j (update s.lists a lists a j) = c.rowLength j (lists j)
    rw [update_self]
  rw [hnum]
  refine ⟨fun hne => ?_, fun _ => ?_⟩
  · refine ⟨⟨.entered j, lists, s.passed a, false, false⟩, ?_, ?_⟩
    · exact
        { lists := ⟨j, le_rfl, hj, hl, .inr ⟨rfl, rfl, .inr ⟨rfl, Nat.pos_of_ne_zero hne⟩⟩⟩
          decided := fun _ _ => ⟨.inr rfl, rfl, rfl, rfl⟩
          skipped := by rintro ⟨⟩
          passed := fun _ h => absurd rfl h
          earlier := fun _ _ => rfl }
    · simp [State.entered, State.setStage]
  · refine ⟨⟨.done, lists, s.passed a, false, false⟩, ?_, ?_⟩
    · exact
        { lists := ⟨j, le_rfl, hj, hl, .inl ⟨_, rfl, rfl, rfl⟩⟩
          decided := fun _ _ => ⟨.inl rfl, rfl, rfl, rfl⟩
          skipped := by rintro ⟨⟩
          passed := fun _ _ => rfl
          earlier := fun _ _ => rfl }
    · simp [State.entered, State.setStage]

/-- An anchor that skips a stage enters the next one. -/
lemma Enters.of_skip {decided : Bool} {r : Option Kind} {o : Outcome}
    {ask : ℕ → Request} {s' : State β γ} (h : Enters c s' a (j + 1) false r o)
    (hask : c.ask a = some ask) (hskip : ask j = .skip) (hlists : s'.lists a = s.lists a)
    (hpassed : ∀ i ≠ j, s'.passed a i = s.passed a i) : Enters c s a j decided r o := by
  obtain ⟨i, hi, hik, hl, hend⟩ := h.lists
  refine
    { lists := ⟨i, by omega, hik, fun i' hi' => by rw [hl i' hi', hlists], ?_⟩
      decided := fun _ hno => absurd hskip (hno ask hask)
      skipped := h.skipped
      passed := fun hs hr => by rw [h.passed hs hr, hpassed _ (by omega)]
      earlier := fun i' hi' => by rw [h.earlier i' (by omega), hpassed _ (by omega)] }
  rcases hend with hend | ⟨hr, hst, hrow⟩
  · exact .inl hend
  · rw [hlists] at hrow
    exact .inr ⟨hr, hst, hrow⟩

/-- Entering a stage changes only the anchor's own fields. -/
theorem enter_spec {decided : Bool} {left : ℕ} (hleft : left + j = c.k) (hj : j < c.k) :
    wp (enter c a left j decided)
      (fun r s' => ∃ o, Enters c s a j decided r o ∧ s' = s.entered a o)
      (fun e _ => ∃ text, e = .value text) s := by
  induction left generalizing j decided s with
  | zero => omega
  | succ left ih =>
    rw [enter, wp_bind, wp_modify]
    have hself : update s.lists a (s.lists a) = s.lists := update_eq_self a s.lists
    cases hask : c.ask a with
    | none =>
      have hE := settleEmpty_spec (c := c) (s := s) (a := a) decided (s.lists a) hj (fun _ _ => rfl)
      rw [hself] at hE
      exact hE
    | some ask =>
      dsimp only
      rw [wp_ite]
      refine ⟨fun hgate => ?_, fun hgate => ?_⟩
      · simp only [wp_bind, wp_modify, wp_pure]
        refine ⟨⟨.entered j, s.lists a, s.passed a, true, false⟩, ?_, ?_⟩
        · exact
            { lists := ⟨j, le_rfl, hj, fun _ _ => rfl, .inr ⟨rfl, rfl, .inl ⟨rfl, rfl⟩⟩⟩
              decided := fun hd => by simp [hd] at hgate
              skipped := by rintro ⟨⟩
              passed := fun _ h => absurd rfl h
              earlier := fun _ _ => rfl }
        · simp [State.entered, State.setStage]
      · cases hreq : ask j with
        | drop =>
          simp only [wp_bind, wp_modify, wp_pure]
          refine ⟨⟨.done, s.lists a, s.passed a, false, false⟩, ?_, ?_⟩
          · exact
              { lists := ⟨j, le_rfl, hj, fun _ _ => rfl, .inl ⟨_, rfl, rfl, rfl⟩⟩
                decided := fun _ _ => ⟨.inl rfl, rfl, rfl, rfl⟩
                skipped := by rintro ⟨⟩
                passed := fun _ _ => rfl
                earlier := fun _ _ => rfl }
          · simp [State.entered, State.setStage]
        | skip =>
          simp only [wp_bind, wp_modify, wp_ite, wp_pure]
          refine ⟨fun hk => ?_, fun hk => ?_⟩
          · refine ⟨⟨.done, s.lists a, update (s.passed a) j true, false, true⟩, ?_, ?_⟩
            · exact
                { lists := ⟨j, le_rfl, hj, fun _ _ => rfl, .inl ⟨_, rfl, rfl, rfl⟩⟩
                  decided := fun _ hno => absurd hreq (hno ask hask)
                  skipped := fun _ => ⟨rfl, rfl, by simp [← hk]⟩
                  passed := by rintro ⟨⟩
                  earlier := fun i hi => by simp [hi.ne] }
            · simp [State.entered, State.setStage]
          · refine wp_mono (ih (by omega) (by omega)) ?_ (fun _ _ h => h)
            rintro r s' ⟨o, ho, rfl⟩
            refine ⟨o, ho.of_skip hask hreq rfl (fun i hi => by simp [State.setStage, hi]), ?_⟩
            simp [State.entered, State.setStage]
        | select selection =>
          simp only [wp_bind]
          refine wp_mono partnerList_spec ?_ (fun _ _ h => h)
          rintro row s' rfl
          simp only [setList]
          have hE := settleEmpty_spec (c := c) (s := s) (a := a) decided (update (s.lists a) j row) hj
            (fun i hi => by simp [hi])
          exact hE

/-! ## Placed anchors -/

/-- The chunk after a group of a placed anchor. -/
def Chunk.launched (ch : Chunk) (s : State β γ) (a : Anchor) (t : Taken) (more : Bool) : Chunk :=
  Chunk.keep { ch with
    freePages := ch.freePages - t.pages
    temporaryPages := ch.temporaryPages + t.pages
    groups := ch.groups ++ [⟨a, s.stageIndex a, s.next a, t.stop, false⟩]
    room := ch.room - t.tokens } a more

/-- How a turn over the placed anchors ends. -/
inductive ReadyEnd (c : Config β γ) (s : State β γ) (ch : Chunk) : Turn → State β γ → Prop
  | closed : ReadyEnd c s ch (.stop ch) s
  | defer {a : Anchor} {rest : List Anchor} :
      s.ready = a :: rest → ch.room < s.firstCost c a (s.stageIndex a) (s.next a) →
      ReadyEnd c s ch (.next { ch with deferred := ch.deferred ++ [a] }) { s with ready := rest }
  | short {a : Anchor} {rest : List Anchor} {t : Taken} {pages : ℕ} :
      s.ready = a :: rest → s.firstCost c a (s.stageIndex a) (s.next a) ≤ ch.room →
      t = s.take c a (s.stageIndex a) (s.next a) ch.room ch.freePages → t.stop = s.next a →
      ReadyEnd c s ch (.stop ch) { s with blockedPages := pages }
  | launch {a : Anchor} {rest : List Anchor} {t : Taken} :
      s.ready = a :: rest → s.firstCost c a (s.stageIndex a) (s.next a) ≤ ch.room →
      t = s.take c a (s.stageIndex a) (s.next a) ch.room ch.freePages → t.stop ≠ s.next a →
      ReadyEnd c s ch
        (.next (ch.launched s a t (decide (t.stop < s.numPartners c a (s.stageIndex a)))))
        (({ s with ready := rest }).launch c a (s.stageIndex a) t.stop)

lemma readyTurn_spec {limited : Bool} {ch : Chunk} :
    wp (readyTurn c limited ch) (ReadyEnd c s ch) (fun _ _ => True) s := by
  unfold readyTurn
  rw [wp_ite]
  refine ⟨fun _ => .closed, fun _ => ?_⟩
  rw [wp_bind, wp_get]
  cases hr : s.ready with
  | nil => trivial
  | cons a rest =>
    dsimp only
    simp only [wp_ite, wp_bind, wp_set, wp_pure]
    refine ⟨fun hroom => .defer hr hroom, fun hroom => ⟨fun hstop => ?_, fun hstop => ?_⟩⟩
    · rw [← hr]
      exact .short hr (Nat.not_lt.1 hroom) rfl hstop
    · exact .launch hr (Nat.not_lt.1 hroom) rfl hstop

/-! ## Fresh anchors -/

/-- The chunk after a fresh anchor is admitted. -/
def Chunk.afterAdmission (ch : Chunk) (a : Anchor) (j need packed : ℕ) (t : Taken) (dependent more : Bool) :
    Chunk :=
  Chunk.keep { ch with
    temporaryPages := ch.temporaryPages + t.pages
    groups := ch.groups ++ [⟨a, j, 0, t.stop, decide (0 < packed)⟩]
    room := ch.room - (packed + t.tokens)
    freePages := ch.freePages - (need + t.pages)
    admitted := ch.admitted ++ [a]
    expectedRows := ch.expectedRows + if dependent then 0 else 1 } a more

/-- Everything checked before a fresh anchor is admitted with a borrow. -/
structure Fits (c : Config β γ) (o : Oracle) (s : State β γ) (ch : Chunk) (a : Anchor) (j : ℕ)
    (borrow : Option (Anchor × ℕ)) (t : Taken) : Prop where
  group : s.groupFull c a = false
  choice : s.borrowing.choice o.canBorrow a ch.admitted = .choose borrow
  blocked : ch.blocked = false ∨ s.need c a borrow = 0
  pages : s.need c a borrow + (s.pageReserve - ch.temporaryPages) + c.dependentPages a ≤ ch.freePages
  room : s.packed c a borrow + s.first a ≤ ch.room
  taken : t = s.take c a j 0 (ch.room - s.packed c a borrow) (ch.freePages - s.need c a borrow)
  partners : t.stop ≠ 0
  reserved : o.reserve a borrow (c.chunkBudget - ch.room) = true

/-- Why a fresh anchor is held for a later chunk. -/
inductive Holds (c : Config β γ) (o : Oracle) (s : State β γ) (ch : Chunk) (a : Anchor) (j : ℕ) : Prop
  | group : s.groupFull c a = true → Holds c o s ch a j
  | wait : s.borrowing.choice o.canBorrow a ch.admitted = .wait → Holds c o s ch a j
  | blocked : ch.blocked = true → Holds c o s ch a j
  | pages {borrow : Option (Anchor × ℕ)} :
      s.borrowing.choice o.canBorrow a ch.admitted = .choose borrow →
      ch.freePages <
        s.need c a borrow + (s.pageReserve - ch.temporaryPages) + c.dependentPages a →
      Holds c o s ch a j
  | room {borrow : Option (Anchor × ℕ)} :
      s.borrowing.choice o.canBorrow a ch.admitted = .choose borrow →
      ch.room < s.packed c a borrow + s.first a → Holds c o s ch a j
  | suffix {borrow : Option (Anchor × ℕ)} :
      s.borrowing.choice o.canBorrow a ch.admitted = .choose borrow →
      s.need c a borrow + (s.pageReserve - ch.temporaryPages) + c.dependentPages a ≤ ch.freePages →
      s.packed c a borrow + s.first a ≤ ch.room →
      (s.take c a j 0 (ch.room - s.packed c a borrow) (ch.freePages - s.need c a borrow)).stop = 0 →
      Holds c o s ch a j
  | refused {borrow : Option (Anchor × ℕ)} :
      o.reserve a borrow (c.chunkBudget - ch.room) = false → Holds c o s ch a j

/-- The state after an admission; the ready queue is filled when the chunk is done. -/
def State.afterAdmission (s : State β γ) (c : Config β γ) (a : Anchor) (j : ℕ)
    (borrow : Option (Anchor × ℕ)) (stop : ℕ) : State β γ :=
  (s.placed c a j borrow s.pending s.waiting s.ready).launch c a j stop

/-- How the placing of a popped anchor ends. -/
inductive PlaceEnd (c : Config β γ) (o : Oracle) (s : State β γ) (ch : Chunk) (a : Anchor) (j : ℕ)
    (dependent : Bool) : Turn → State β γ → Prop
  | hold {turn : Turn} {pages : ℕ} (blocked : Bool) :
      Holds c o s ch a j →
      turn = .next { ch.hold a dependent with blocked } ∨
        turn = .stop { ch.hold a dependent with blocked } →
      PlaceEnd c o s ch a j dependent turn { s with blockedPages := pages }
  | fits {borrow : Option (Anchor × ℕ)} {t : Taken} :
      Fits c o s ch a j borrow t →
      (∀ group, c.groupOf a = some group → s.groupMembers group ≠ none) →
      PlaceEnd c o s ch a j dependent
        (.next (ch.afterAdmission a j (s.need c a borrow) (s.packed c a borrow) t dependent
          (decide (t.stop < s.numPartners c a j))))
        (s.afterAdmission c a j borrow t.stop)

lemma admitAnchor_spec {borrow : Option (Anchor × ℕ)} {stop : ℕ} :
    wp (admitAnchor c a j borrow stop)
      (fun more s' => more = decide (stop < s.numPartners c a j) ∧
        (∀ group, c.groupOf a = some group → s.groupMembers group ≠ none) ∧
        s' = s.afterAdmission c a j borrow stop)
      (fun _ _ => True) s := by
  unfold admitAnchor joinGroup
  simp only [wp_bind, wp_modify]
  cases hg : c.groupOf a with
  | none =>
    simp only [wp_pure, wp_bind]
    refine ⟨rfl, by simp, ?_⟩
    simp [State.afterAdmission, State.placed, State.joined, State.setStage, hg]
  | some group =>
    simp only [wp_bind, wp_modify, wp_get]
    cases hm : s.groupMembers group with
    | none =>
      simp only [State.setStage, hm]
      trivial
    | some members =>
      simp only [State.setStage, hm, wp_set, wp_pure, wp_modify, wp_get, wp_bind]
      refine ⟨rfl, ?_, ?_⟩
      · intro group' hg'
        rw [Option.some.injEq] at hg'
        rw [← hg', hm]
        simp
      · simp [State.afterAdmission, State.placed, State.joined, State.setStage, hg, hm]

lemma place_spec {o : Oracle} {dependent : Bool} {ch : Chunk} :
    wp (place c o a j dependent ch) (PlaceEnd c o s ch a j dependent) (fun _ _ => True) s := by
  have hkeep : ∀ {turn : Turn}, Holds c o s ch a j →
      (turn = .next (ch.hold a dependent) ∨ turn = .stop (ch.hold a dependent)) →
      PlaceEnd c o s ch a j dependent turn s := by
    intro turn hh ht
    have hblocked : (ch.hold a dependent) =
        { ch.hold a dependent with blocked := (ch.hold a dependent).blocked } := rfl
    rw [hblocked] at ht
    exact .hold _ hh ht
  unfold place
  rw [wp_bind, wp_get]
  dsimp only
  rw [wp_ite]
  refine ⟨fun hfull => hkeep (.group hfull) (.inl rfl), fun hfull => ?_⟩
  cases hchoice : s.borrowing.choice o.canBorrow a ch.admitted with
  | wait => exact hkeep (.wait hchoice) (.inl rfl)
  | choose borrow =>
    dsimp only
    simp only [wp_ite, wp_pure, wp_bind, wp_set]
    refine ⟨fun hblocked => ?_, fun hblocked => ⟨fun hpages => ?_, fun hpages =>
      ⟨fun hroom => ?_, fun hroom => ⟨fun hstop => ?_, fun hstop => ⟨fun hres => ?_, fun hres => ?_⟩⟩⟩⟩⟩
    · refine hkeep (.blocked (by simpa using hblocked.1)) ?_
      split_ifs
      · exact .inr rfl
      · exact .inl rfl
    · refine .hold true (.pages hchoice hpages) ?_
      split_ifs
      · exact .inr rfl
      · exact .inl rfl
    · exact hkeep (.room hchoice hroom) (.inl rfl)
    · exact .hold _ (.suffix hchoice (Nat.not_lt.1 hpages) (Nat.not_lt.1 hroom) hstop) (.inr rfl)
    · exact hkeep (.refused hres) (.inr rfl)
    · refine wp_mono admitAnchor_spec ?_ (fun _ _ h => h)
      rintro more s' ⟨rfl, hgroup, rfl⟩
      refine .fits ?_ hgroup
      exact
        { group := by simpa using hfull
          choice := hchoice
          blocked := by
            by_contra hb
            rw [not_or] at hb
            exact hblocked ⟨by simpa using hb.1, hb.2⟩
          pages := Nat.not_lt.1 hpages
          room := Nat.not_lt.1 hroom
          taken := rfl
          partners := hstop
          reserved := by simpa using hres }

/-- How the asking of a released dependent ends. -/
inductive AskEnd (c : Config β γ) (s : State β γ) (a : Anchor) (j : ℕ) : Bool → State β γ → Prop
  | ended {kind : Kind} {o : Outcome} :
      Enters c s a j true (some kind) o →
      AskEnd c s a j false { (s.entered a o).setStage a .done with
        settled := s.settled ++ [⟨kind, a, false⟩]
        skipped := s.skipped ++ [a] }
  | asked {o : Outcome} :
      Enters c s a j true none o →
      AskEnd c s a j true { s.entered a o with
        first := update s.first a ((s.entered a o).firstCost c a j 0) }

lemma askDependent_spec (hj : j < c.k) :
    wp (askDependent c a j) (AskEnd c s a j) (fun _ _ => True) s := by
  unfold askDependent
  rw [wp_bind]
  refine wp_mono (enter_spec (by omega) hj) ?_ (fun _ _ _ => trivial)
  rintro r s' ⟨o, ho, rfl⟩
  cases r with
  | none => exact .asked ho
  | some kind => exact .ended ho

/-- How a turn over the waiting dependents and the pending anchors ends. -/
inductive FreshEnd (c : Config β γ) (o : Oracle) (limited : Bool) (s : State β γ) (ch : Chunk) :
    Turn → State β γ → Prop
  | empty : s.waiting = [] → s.pending = [] → FreshEnd c o limited s ch (.stop ch) s
  | paced {a : Anchor} {rest : List Anchor} : s.waiting = [] → s.pending = a :: rest →
      limited = true ∨ s.paced c ch.expectedRows → FreshEnd c o limited s ch (.stop ch) s
  | dropped {a : Anchor} {rest : List Anchor} : s.waiting = a :: rest → s.stage a = .done →
      FreshEnd c o limited s ch (.next ch) { s with waiting := rest }
  | dead {a : Anchor} {rest : List Anchor} : s.waiting = [] → s.pending = a :: rest →
      s.stage a = .done →
      FreshEnd c o limited s ch (.next ch) { s with pending := rest, dead := s.dead - 1 }
  | ended {a : Anchor} {rest : List Anchor} {s' : State β γ} : s.waiting = a :: rest →
      s.stage a = .queued → AskEnd c { s with waiting := rest } a (c.startStage a) false s' →
      FreshEnd c o limited s ch (.next ch) s'
  | asked {a : Anchor} {rest : List Anchor} {s' s'' : State β γ} {turn : Turn} :
      s.waiting = a :: rest → s.stage a = .queued →
      AskEnd c { s with waiting := rest } a (c.startStage a) true s' →
      PlaceEnd c o s' ch a (c.startStage a) true turn s'' → FreshEnd c o limited s ch turn s''
  | waited {a : Anchor} {rest : List Anchor} {s' : State β γ} {turn : Turn} :
      s.waiting = a :: rest → s.stage a ≠ .queued → s.stage a ≠ .done →
      PlaceEnd c o { s with waiting := rest } ch a (c.startStage a) true turn s' →
      FreshEnd c o limited s ch turn s'
  | fresh {a : Anchor} {rest : List Anchor} {s' : State β γ} {turn : Turn} :
      s.waiting = [] → s.pending = a :: rest → s.stage a ≠ .done → limited = false →
      PlaceEnd c o { s with pending := rest } ch a 0 false turn s' →
      FreshEnd c o limited s ch turn s'

/-- The stage a waiting anchor is asked for exists. -/
def Dependable (c : Config β γ) (s : State β γ) : Prop := ∀ a ∈ s.waiting, c.startStage a < c.k

lemma freshTurn_spec {o : Oracle} {limited : Bool} {ch : Chunk} (hs : Dependable c s) :
    wp (freshTurn c o limited ch) (FreshEnd c o limited s ch) (fun _ _ => True) s := by
  unfold freshTurn
  rw [wp_bind, wp_get]
  cases hw : s.waiting with
  | cons a rest =>
    have hj := hs a (by simp [hw])
    dsimp only
    simp only [wp_bind, wp_set, wp_ite, wp_pure]
    refine ⟨fun hd => .dropped hw hd, fun hd => ⟨fun hq => ?_, fun hq => ?_⟩⟩
    · refine wp_mono (askDependent_spec hj) ?_ (fun _ _ h => h)
      intro asked s' hask
      cases asked with
      | false => exact .ended hw hq hask
      | true =>
        rw [if_pos rfl]
        exact wp_mono place_spec (fun turn s'' hp => .asked hw hq hask hp) (fun _ _ h => h)
    · exact wp_mono place_spec (fun turn s'' hp => .waited hw hq hd hp) (fun _ _ h => h)
  | nil =>
    cases hp : s.pending with
    | nil => exact .empty hw hp
    | cons a rest =>
      dsimp only
      simp only [wp_bind, wp_set, wp_ite, wp_pure, wp_modify]
      rw [← hw]
      refine ⟨fun hl => .paced hw hp hl, fun hl => ⟨fun hd => ?_, fun hd => ?_⟩⟩
      · exact .dead hw hp hd
      · rw [not_or] at hl
        refine wp_mono place_spec (fun turn s'' hp' => ?_) (fun _ _ h => h)
        exact .fresh hw hp hd (by simpa using hl.1) hp'

/-! ## Loops -/

/-- The turns of a loop, up to a stop or the end of its range. -/
inductive Loop (R : State β γ → Chunk → Turn → State β γ → Prop) :
    State β γ → Chunk → Chunk → State β γ → Prop
  | refl {s : State β γ} {ch : Chunk} : Loop R s ch ch s
  | next {s s' s'' : State β γ} {ch ch' ch'' : Chunk} :
      R s ch (.next ch') s' → Loop R s' ch' ch'' s'' → Loop R s ch ch'' s''
  | stop {s s' : State β γ} {ch ch' : Chunk} : R s ch (.stop ch') s' → Loop R s ch ch' s'

/-- The chunk a turn leaves. -/
def Turn.chunk : Turn → Chunk
  | .next ch => ch
  | .stop ch => ch

/-- What every turn keeps, the loop keeps. -/
theorem Loop.invariant {R : State β γ → Chunk → Turn → State β γ → Prop}
    {I : State β γ → Chunk → Prop} {s s' : State β γ} {ch ch' : Chunk}
    (hI : ∀ s ch turn s', I s ch → R s ch turn s' → I s' turn.chunk) (h : Loop R s ch ch' s')
    (hs : I s ch) : I s' ch' := by
  induction h with
  | refl => exact hs
  | next hturn _ ih => exact ih (hI _ _ _ _ hs hturn)
  | stop hturn => exact hI _ _ _ _ hs hturn

lemma readyTurns_spec {limited : Bool} {turns : ℕ} {ch : Chunk} :
    wp (readyTurns c limited turns ch) (Loop (ReadyEnd c) s ch) (fun _ _ => True) s := by
  induction turns generalizing ch s with
  | zero => exact .refl
  | succ turns ih =>
    rw [readyTurns, wp_bind]
    refine wp_mono readyTurn_spec ?_ (fun _ _ h => h)
    intro turn s' hturn
    cases turn with
    | next ch' => exact wp_mono ih (fun _ _ h => .next hturn h) (fun _ _ h => h)
    | stop ch' => exact .stop hturn

end Quail.Admission
