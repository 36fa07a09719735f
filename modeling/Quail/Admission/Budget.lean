import Quail.Admission.Delivery

/-!
# What a chunk charges

A chunk stays within the room and the free pages it is given. Rows are charged against the room, the
pages of newly placed anchors and of temporary suffixes against the free pages. The pages a placed
anchor's dependents will need are tested when it is placed and are not charged.
-/

set_option linter.unusedSectionVars false

namespace Quail.Admission
open Imperative Function

variable {β γ : Type} [DecidableEq γ] [ToString γ] {c : Config β γ}
variable {s s' old : State β γ} {r r' : Run β γ} {w w' : World β γ} {ch : Chunk} {turn : Turn}
variable {o : Oracle} {a : Anchor} {j : ℕ} {g : Group}

/-! ## What registration fixes -/

/-- The prices of the anchors are the same. -/
structure SamePrices (s s' : State β γ) : Prop where
  pageCosts : s'.pageCosts = s.pageCosts
  carried : s'.carried = s.carried
  pageReserve : s'.pageReserve = s.pageReserve
  minFresh : s'.minFresh = s.minFresh

lemma SamePrices.refl (s : State β γ) : SamePrices s s := ⟨rfl, rfl, rfl, rfl⟩

lemma SamePrices.trans {s'' : State β γ} (h : SamePrices s s') (h' : SamePrices s' s'') :
    SamePrices s s'' where
  pageCosts := h'.pageCosts.trans h.pageCosts
  carried := h'.carried.trans h.carried
  pageReserve := h'.pageReserve.trans h.pageReserve
  minFresh := h'.minFresh.trans h.minFresh

/-- The prices are the same, and no anchor that was done comes back. -/
structure Fixed (s s' : State β γ) : Prop extends SamePrices s s' where
  done : ∀ a, s.stage a = .done → s'.stage a = .done

lemma Fixed.refl (s : State β γ) : Fixed s s := ⟨.refl s, fun _ h => h⟩

lemma Fixed.trans {s'' : State β γ} (h : Fixed s s') (h' : Fixed s' s'') : Fixed s s'' :=
  ⟨h.toSamePrices.trans h'.toSamePrices, fun a ha => h'.done a (h.done a ha)⟩

/-- Only the stage of an anchor that is not done changes. -/
lemma Fixed.setStage {x : Stage} (ha : s.stage a ≠ .done) (hp : SamePrices s s')
    (hs : s'.stage = update s.stage a x) : Fixed s s' := by
  refine ⟨hp, fun b hb => ?_⟩
  have hba : b ≠ a := fun hba => ha (hba ▸ hb)
  rw [hs, update_of_ne hba, hb]

lemma Move.fixed (hc : c.check = none) (h : Inv c w) (hm : Move c w w') :
    Fixed w.state w'.state := by
  cases hm with
  | quiet _ => exact ⟨⟨rfl, rfl, rfl, rfl⟩, fun _ h => h⟩
  | launch _ _ _ _ _ _ => exact ⟨⟨rfl, rfl, rfl, rfl⟩, fun _ h => h⟩
  | place hq _ _ _ _ _ _ =>
    refine .setStage ?_ ⟨rfl, rfl, rfl, rfl⟩ rfl
    rcases hq with ⟨_, hs, _⟩ | ⟨_, hs, _⟩ <;> simp [hs]
  | ask _ _ hs _ => exact .setStage (by simp [hs]) ⟨rfl, rfl, rfl, rfl⟩ rfl
  | @askEmpty b out _ _ _ _ _ hs _ =>
    have hstage : ∀ x y, update (update w.state.stage b x) b y = update w.state.stage b y := by simp
    exact .setStage (by simp [hs]) ⟨rfl, rfl, rfl, rfl⟩ (hstage _ _)
  | popDead _ _ => exact ⟨⟨rfl, rfl, rfl, rfl⟩, fun _ h => h⟩
  | popEnded _ _ => exact ⟨⟨rfl, rfl, rfl, rfl⟩, fun _ h => h⟩
  | answer _ _ _ => exact ⟨⟨rfl, rfl, rfl, rfl⟩, fun _ h => h⟩
  | advance _ hs _ _ _ _ _ _ => exact .setStage (by simp [hs]) ⟨rfl, rfl, rfl, rfl⟩ rfl
  | leave _ hs _ _ _ _ _ _ => exact .setStage (by simp [hs]) ⟨rfl, rfl, rfl, rfl⟩ rfl
  | drop _ hs _ _ _ _ _ => exact .setStage (by simp [hs]) ⟨rfl, rfl, rfl, rfl⟩ rfl
  | @finish b i hs _ _ _ _ =>
    obtain ⟨counted, survivors, hsur⟩ :=
      State.countSurvivor_eq (c := c) (s := w.state.setStage b .done) (a := c.branchOf b)
    simp only [hsur]
    exact .setStage (a := b) (by simp [hs]) ⟨rfl, rfl, rfl, rfl⟩ rfl
  | keep _ hs _ => exact .setStage (by simp [hs]) ⟨rfl, rfl, rfl, rfl⟩ rfl
  | decline _ hs _ => exact .setStage (by simp [hs]) ⟨rfl, rfl, rfl, rfl⟩ rfl
  | @settle e rest hl =>
    have hdone := (h.settleGroup hc e.anchor e.survived).2.1
    obtain ⟨_, _, _, _, _, _, _, _, hform⟩ := w.state.settleGroup_eq c e.anchor e.survived
    rw [hform] at hdone ⊢
    exact ⟨⟨rfl, rfl, rfl, rfl⟩, hdone⟩
  | takeSettled _ => exact ⟨⟨rfl, rfl, rfl, rfl⟩, fun _ h => h⟩
  | takeSkipped _ => exact ⟨⟨rfl, rfl, rfl, rfl⟩, fun _ h => h⟩

/-- What the anchors still to settle cost, and borrow before they are admitted. -/
structure Priced (c : Config β γ) (s : State β γ) : Prop where
  costs : ∀ a < c.n, s.stage a ≠ .done →
    s.pageCosts a = c.cost (c.prefixOf a + c.extra) - (c.resident.get? a).getD 0
  unchosen : ∀ a, s.borrowing.admitted a = false → s.borrowing.chosen a = none

lemma Priced.same (h : Priced c s) (hf : Fixed s s') (hb : s'.borrowing = s.borrowing) :
    Priced c s' where
  costs := fun a ha hs => by
    rw [hf.pageCosts]
    exact h.costs a ha fun hd => hs (hf.done a hd)
  unchosen := by
    rw [hb]
    exact h.unchosen

/-- The choice of the other anchors stays. -/
lemma Borrowing.record_chosen {b : Borrowing} {borrow : Option (Anchor × ℕ)} {d : Anchor}
    (hd : d ≠ a) : (b.record a borrow).chosen d = b.chosen d := by
  cases borrow with
  | none => rfl
  | some choice => exact update_of_ne hd _ _

/-- The choice an anchor is admitted with. -/
lemma Borrowing.record_chosen_self {b : Borrowing} {borrow : Option (Anchor × ℕ)}
    (hb : b.chosen a = none) : (b.record a borrow).chosen a = borrow := by
  cases borrow with
  | none => exact hb
  | some choice => exact update_self _ _ _

lemma Move.priced (hc : c.check = none) (h : Inv c w) (hp : Priced c w.state) (hm : Move c w w') :
    Priced c w'.state := by
  have hf := hm.fixed hc h
  cases hm with
  | @place a j stop borrow chunk canBorrow before after pending waiting ready hq hb hg _ hlt hle hperm =>
    refine ⟨fun b hb hs => ?_, fun b hb => ?_⟩
    · rw [hf.pageCosts]
      exact hp.costs b hb fun hd => hs (hf.done b hd)
    · have hba : b ≠ a := by
        rintro rfl
        have hadm : (w.state.borrowing.record b borrow).admitted b = false := hb
        rw [Borrowing.record_admitted, update_self] at hadm
        cases hadm
      have hadm : (w.state.borrowing.record a borrow).admitted b = false := hb
      rw [Borrowing.record_admitted, update_of_ne hba] at hadm
      exact (Borrowing.record_chosen hba).trans (hp.unchosen b hadm)
  | @finish b i hs _ _ _ _ =>
    obtain ⟨counted, survivors, hsur⟩ :=
      State.countSurvivor_eq (c := c) (s := w.state.setStage b .done) (a := c.branchOf b)
    simp only [hsur] at hf ⊢
    exact hp.same hf rfl
  | @settle e rest hl =>
    obtain ⟨_, _, _, _, _, _, _, _, hform⟩ := w.state.settleGroup_eq c e.anchor e.survived
    refine hp.same hf ?_
    rw [hform]
  | takeSkipped _ =>
    refine ⟨fun b hb hs => hp.costs b hb hs, fun b hb => hp.unchosen b hb⟩
  | _ => exact hp.same hf rfl

lemma Moves.priced (hp : Promised c) (hc : c.check = none) (h : Inv c w) (hw : Priced c w.state)
    (hm : Moves c w w') : Priced c w'.state := by
  induction hm with
  | refl => exact hw
  | tail hms hm ih => exact hm.priced hc (h.moves hp hc hms) ih

lemma Registered.priced (h : Registered c (List.range c.n) s) : Priced c (s.started c) where
  costs := fun a ha hs => by
    rcases h.stage a with hq | ⟨-, hd⟩
    · exact h.costs a (List.mem_range.2 ha) hq
    · exact absurd hd hs
  unchosen := fun a _ => by
    have hchosen (l : List Anchor) (b : Borrowing) :
        (l.foldl Borrowing.detach b).chosen = b.chosen := by
      induction l generalizing b with
      | nil => rfl
      | cons d l ih => exact ih _
    have hnone : s.borrowing.chosen = fun _ => none := congrArg (·.borrowing.chosen) h.blank
    show (c.resident.keys.foldl Borrowing.detach s.borrowing).chosen a = none
    rw [hchosen, hnone]

lemma Reachable.priced (hp : Promised c) (h : Reachable c r) : Priced c r.state := by
  induction h with
  | start hinit =>
    have hspec := init_spec (check_of_init hinit)
    unfold wp at hspec
    rw [hinit] at hspec
    obtain ⟨s, hs, rfl⟩ := hspec
    exact hs.priced
  | step hr hstep ih =>
    obtain ⟨hc, hinv⟩ := hr.inv hp
    exact Moves.priced hp hc hinv ih (hstep.moves hp hc hinv)

/-! ## What a group takes -/

/-- The rows a launched group packs: the prefix rows it does not borrow, when it carries them, the
frame rows, canvas included, and its partners' rows. -/
def State.rowsOf (s : State β γ) (c : Config β γ) (g : Group) : ℕ :=
  (if g.carried then c.prefixOf g.anchor - s.borrowing.shared g.anchor else 0) +
    (c.frameAt g.stage g.start +
      (((s.lengths c g.anchor g.stage).take g.stop).drop g.start).sum)

/-- The temporary pages of a launched group's suffixes. -/
def State.temporaryOf (s : State β γ) (c : Config β γ) (g : Group) : ℕ :=
  if c.temporarySuffixPages then
    (((List.range g.stop).drop g.start).map (s.suffixPageCost c g.anchor g.stage)).sum
  else 0

/-- The pages an admitted anchor is charged: those past the ones it borrows, or those a resident
one does not hold yet. -/
def State.chargeOf (s : State β γ) (c : Config β γ) (a : Anchor) : ℕ :=
  match s.borrowing.chosen a with
  | none => c.cost (c.prefixOf a + c.extra) - (c.resident.get? a).getD 0
  | some (_, shared) => c.cost (c.prefixOf a - shared + c.extra)

/-- The pages a launched group takes, the anchor's own included when it is newly placed. -/
def State.pagesOf (s : State β γ) (c : Config β γ) (old : State β γ) (g : Group) : ℕ :=
  (if old.borrowing.admitted g.anchor then 0 else s.chargeOf c g.anchor) + s.temporaryOf c g

/-- The charges of a group read its anchor's lists and choice. -/
lemma State.rowsOf_congr (hl : s'.lists g.anchor = s.lists g.anchor)
    (hb : s'.borrowing.chosen g.anchor = s.borrowing.chosen g.anchor) :
    s'.rowsOf c g = s.rowsOf c g ∧ s'.temporaryOf c g = s.temporaryOf c g ∧
      s'.pagesOf c old g = s.pagesOf c old g := by
  have htemp : s'.temporaryOf c g = s.temporaryOf c g := by
    unfold State.temporaryOf State.suffixPageCost State.suffix State.cum State.lengths
    simp only [hl]
  refine ⟨?_, htemp, ?_⟩
  · unfold State.rowsOf State.lengths Borrowing.shared
    simp only [hl, hb]
  · unfold State.pagesOf State.chargeOf
    rw [htemp, hb]

/-- The rows of a run of partners are the rows of the group launched with it. -/
lemma State.take_rows {i room pageRoom : ℕ} (hi : i ≤ s.numPartners c a j)
    (hframe : c.frameAt j i ≤ room) :
    (s.take c a j i room pageRoom).tokens = c.frameAt j i +
      (((s.lengths c a j).take (s.take c a j i room pageRoom).stop).drop i).sum := by
  rw [(State.take_tokens hi hframe).1, Cumulative.sum_slice (State.le_take_stop hi hframe)]
  rfl

lemma State.take_temporary {i room pageRoom : ℕ} {carried : Bool}
    (hi : i ≤ s.numPartners c a j) (hframe : c.frameAt j i ≤ room) :
    (s.take c a j i room pageRoom).pages =
      s.temporaryOf c ⟨a, j, i, (s.take c a j i room pageRoom).stop, carried⟩ := by
  rw [(State.take_pages hi).1]
  unfold State.temporaryOf
  dsimp only
  have hstop : (s.take c a j i room pageRoom).stop ≤ s.numPartners c a j := State.take_stop_le
  split_ifs with ht
  · unfold State.pagesBetween
    rw [← Cumulative.sum_slice (State.le_take_stop hi hframe), ← List.map_take, ← List.map_drop,
      List.take_range, Nat.min_eq_left hstop]
  · rfl

/-! ## The account of a chunk -/

/-- The rows and pages left in a chunk, and what each placed anchor was tested against. -/
structure Charged (c : Config β γ) (old : State β γ) (freePages room : ℕ) (s : State β γ)
    (ch : Chunk) : Prop where
  priced : Priced c s
  distinct : Distinct c s ch
  admitted : ∀ a, s.borrowing.admitted a = true ↔
    old.borrowing.admitted a = true ∨ a ∈ ch.groups.map Group.anchor
  rows : (ch.groups.map (s.rowsOf c)).sum + ch.room = room
  pages : (ch.groups.map (s.pagesOf c old)).sum + ch.freePages = freePages
  temporary : (ch.groups.map (s.temporaryOf c)).sum = ch.temporaryPages
  reserve : s.pageReserve = old.pageReserve
  reserved : ∀ before g after, ch.groups = before ++ g :: after →
    old.borrowing.admitted g.anchor = false →
    (before.map (s.pagesOf c old)).sum + s.chargeOf c g.anchor +
      (old.pageReserve - (before.map (s.temporaryOf c)).sum) + c.dependentPages g.anchor ≤ freePages

end Quail.Admission
