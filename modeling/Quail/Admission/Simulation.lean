import Quail.Admission.Invariant
import Quail.Admission.Take
import Quail.Admission.Turns

/-!
# A call is a sequence of moves

While `next_chunk` runs, its local lists hold anchors taken off the queues. `Chunk.world` is the
world with these anchors put back where the end of the call puts them, and each turn of a loop is a
move of that world. The other calls are followed move by move.
-/

set_option linter.unusedSectionVars false

namespace Quail.Admission
open Imperative Function

variable {β γ : Type} [DecidableEq γ] [ToString γ] {c : Config β γ}
variable {s s' : State β γ} {r : Run β γ} {ch : Chunk} {turn : Turn} {o : Oracle}

/-- A run between calls. -/
def World.of (r : Run β γ) : World β γ := { r with limbo := [], due := none }

/-! ## Building a chunk -/

/-- The world inside `next_chunk`. -/
def Chunk.world (ch : Chunk) (r : Run β γ) (s : State β γ) : World β γ where
  state := { s with
    pending := ch.held ++ s.pending
    waiting := ch.heldWaiting ++ s.waiting
    ready := ch.deferred ++ ch.continued ++ s.ready }
  flight := r.flight ++ ch.groups
  trace := r.trace ++ ch.groups.map .launched
  limbo := []
  due := none

/-- A ready anchor is at a stage. -/
lemma Inv.ready_stage {w : World β γ} {a : Anchor} (h : Inv c w) (ha : a ∈ w.state.ready) :
    w.state.stage a = .entered (w.state.stageIndex a) := by
  have hpos : 0 < (w.view a).ready := List.count_pos_iff.2 ha
  unfold State.stageIndex
  cases hs : w.state.stage a with
  | queued =>
    have := ((h.anchors a).queued hs).ready
    omega
  | entered j => rfl
  | done =>
    have := ((h.anchors a).done hs).ready
    omega

/-- A ready anchor past its gate has partners left. -/
lemma Inv.ready_next {w : World β γ} {a : Anchor} {j : ℕ} (h : Inv c w) (ha : a ∈ w.state.ready)
    (hj : w.state.stage a = .entered j) (he : w.state.entering = []) :
    w.state.next a < w.state.numPartners c a j := by
  have hE := (h.anchors a).entered hj
  have hpos : 0 < (w.view a).ready := List.count_pos_iff.2 ha
  have hent : (w.view a).entering = 0 := by simp [World.view, he]
  have hadm : (w.view a).admitted = true := by
    by_contra hu
    have := (hE.asked (by simpa using hu)).2.1
    omega
  have hready := ((hE.running hadm).2 hent).1
  rw [State.numPartners_eq]
  by_contra hlt
  rw [if_neg (show ¬(w.view a).next < c.rowLength j ((w.view a).lists j) from hlt)] at hready
  omega

/-- A turn over the placed anchors is at most one move. -/
lemma ReadyEnd.moves (h : Inv c (ch.world r s)) (he : s.entering = [])
    (hend : ReadyEnd c s ch turn s') :
    Moves c (ch.world r s) (turn.chunk.world r s') ∧ s'.entering = [] := by
  cases hend with
  | closed => exact ⟨.refl, he⟩
  | @defer a rest hr hroom =>
    have hperm : (ch.deferred ++ [a] ++ ch.continued ++ rest).Perm
        (ch.world r s).state.ready := by
      show List.Perm _ (ch.deferred ++ ch.continued ++ s.ready)
      rw [hr, List.perm_iff_count]
      intro b
      simp only [List.count_append, List.count_cons, List.count_nil]
      omega
    exact ⟨.single (.quiet hperm), he⟩
  | short hr hroom ht hstop =>
    exact ⟨.single (Move.quiet (w := ch.world r s) (List.Perm.refl _)), he⟩
  | @launch a rest t hr hroom ht hstop =>
    have ha : a ∈ (ch.world r s).state.ready := by simp [Chunk.world, hr]
    have hj : (ch.world r s).state.stage a = .entered (s.stageIndex a) := h.ready_stage ha
    have hnext := h.ready_next ha hj he
    have hframe : c.frameAt (s.stageIndex a) (s.next a) ≤ ch.room :=
      le_trans (Nat.le_add_left _ _) hroom
    have hle : s.next a ≤ t.stop := ht ▸ State.le_take_stop (le_of_lt hnext) hframe
    have hstop' : t.stop ≤ s.numPartners c a (s.stageIndex a) := ht ▸ State.take_stop_le
    have hperm : (ch.deferred ++ (if t.stop < s.numPartners c a (s.stageIndex a) then
        ch.continued ++ [a] else ch.continued) ++ rest).Perm
        (if t.stop < s.numPartners c a (s.stageIndex a) then ch.deferred ++ ch.continued ++ s.ready
          else (ch.deferred ++ ch.continued ++ s.ready).erase a) := by
      have hcount : (ch.deferred ++ ch.continued ++ s.ready).count a = 1 :=
        (h.ready_view ha hj he hnext).1
      rw [hr] at hcount ⊢
      rw [List.perm_iff_count]
      intro b
      split_ifs with hmore
      · simp only [List.count_append, List.count_cons, List.count_nil]
        omega
      · rw [List.count_erase]
        simp only [List.count_append, List.count_cons] at hcount ⊢
        by_cases hb : b = a
        · subst hb
          simp at hcount ⊢
        · simp [Ne.symm hb]
    have hmove := Move.launch (w := ch.world r s) ha hj he (lt_of_le_of_ne hle (Ne.symm hstop))
      hstop' hperm
    refine ⟨.single ?_, he⟩
    convert hmove using 1
    simp only [Chunk.world, World.launched, State.launch, Turn.chunk, Chunk.launched, Chunk.keep,
      State.newlyReleased]
    simp

/-- A waiting anchor is a dependent. -/
lemma Inv.waiting_dependent {w : World β γ} {a : Anchor} (h : Inv c w) (ha : a ∈ w.state.waiting) :
    c.isDependent a = true := by
  have hpos : 0 < (w.view a).waiting := List.count_pos_iff.2 ha
  by_contra hd
  cases hs : w.state.stage a with
  | queued =>
    have hw := ((h.anchors a).queued hs).waiting
    rw [if_neg (by simp [hd])] at hw
    omega
  | entered j =>
    have hE := (h.anchors a).entered hs
    cases hadm : (w.view a).admitted with
    | false => exact hd (hE.asked hadm).2.2.1
    | true =>
      have hw := (hE.running hadm).1
      omega
  | done =>
    have hw := ((h.anchors a).done hs).waiting.2 (.inl (by simpa using hd))
    omega

/-- A pending anchor is queued until it ends. -/
lemma Inv.pending_queued {w : World β γ} {a : Anchor} (h : Inv c w) (ha : a ∈ w.state.pending)
    (hs : w.state.stage a ≠ .done) : w.state.stage a = .queued ∧ c.isDependent a = false := by
  have hpos : 0 < (w.view a).pending := List.count_pos_iff.2 ha
  cases hst : w.state.stage a with
  | queued =>
    have hp := ((h.anchors a).queued hst).pending
    split_ifs at hp with hcond
    · exact ⟨rfl, hcond.2⟩
    · omega
  | entered j =>
    have hp := ((h.anchors a).entered hst).pending
    omega
  | done => exact absurd hst hs

/-- The world with a popped anchor put back. -/
lemma Chunk.hold_world {a : Anchor} {rest : List Anchor} :
    (s.waiting = a :: rest → (ch.hold a true).world r { s with waiting := rest } = ch.world r s) ∧
      (s.pending = a :: rest → (ch.hold a false).world r { s with pending := rest } = ch.world r s) := by
  constructor
  · intro hw
    simp [Chunk.world, Chunk.hold, hw]
  · intro hp
    simp [Chunk.world, Chunk.hold, hp]

/-- Placing a popped anchor is at most one move. -/
lemma PlaceEnd.moves {a : Anchor} {j : ℕ} {dependent : Bool}
    (hq : if dependent then c.isDependent a = true ∧ s.stage a = .entered j
      else c.isDependent a = false ∧ s.stage a = .queued ∧ j = 0)
    (he : s.entering = []) (hend : PlaceEnd c o s ch a j dependent turn s') :
    Moves c ((ch.hold a dependent).world r s) (turn.chunk.world r s') ∧ s'.entering = [] := by
  cases hend with
  | @hold _ pages blocked hh ht =>
    have hchunk : turn.chunk = { ch.hold a dependent with blocked } := by
      rcases ht with rfl | rfl <;> rfl
    rw [hchunk]
    exact ⟨.single (Move.quiet (w := (ch.hold a dependent).world r s) (List.Perm.refl _)), he⟩
  | @fits borrow t hf hgroup =>
    have hstop : t.stop ≤ s.numPartners c a j := hf.taken ▸ State.take_stop_le
    have hpop : ∃ before after,
        (c.isDependent a = false ∧ s.stage a = .queued ∧ j = 0 ∧
          ch.heldWaiting ++ s.waiting = (ch.hold a dependent).heldWaiting ++ s.waiting ∧
          (ch.hold a dependent).held ++ s.pending = before ++ a :: after ∧
          ch.held ++ s.pending = before ++ after) ∨
        (c.isDependent a = true ∧ s.stage a = .entered j ∧
          ch.held ++ s.pending = (ch.hold a dependent).held ++ s.pending ∧
          (ch.hold a dependent).heldWaiting ++ s.waiting = before ++ a :: after ∧
          ch.heldWaiting ++ s.waiting = before ++ after) := by
      cases dependent with
      | false =>
        rw [if_neg (by simp)] at hq
        exact ⟨ch.held, s.pending, .inl ⟨hq.1, hq.2.1, hq.2.2, by simp [Chunk.hold]⟩⟩
      | true =>
        rw [if_pos rfl] at hq
        exact ⟨ch.heldWaiting, s.waiting, .inr ⟨hq.1, hq.2, by simp [Chunk.hold]⟩⟩
    obtain ⟨before, after, hpop⟩ := hpop
    have hready : (ch.deferred ++ (if t.stop < s.numPartners c a j then ch.continued ++ [a]
        else ch.continued) ++ s.ready).Perm
        (if t.stop < s.numPartners c a j then a :: (ch.deferred ++ ch.continued ++ s.ready)
          else ch.deferred ++ ch.continued ++ s.ready) := by
      split_ifs with hmore
      · rw [List.perm_iff_count]
        intro b
        simp only [List.count_append, List.count_cons, List.count_nil]
        omega
      · exact List.Perm.refl _
    have hfields : (ch.hold a dependent).groups = ch.groups ∧
        (ch.hold a dependent).deferred = ch.deferred ∧
        (ch.hold a dependent).continued = ch.continued := by
      cases dependent <;> exact ⟨rfl, rfl, rfl⟩
    have hmove : Move c ((ch.hold a dependent).world r s)
        (({ (ch.hold a dependent).world r s with
          state := ((ch.hold a dependent).world r s).state.placed c a j borrow
            (ch.held ++ s.pending) (ch.heldWaiting ++ s.waiting)
            (ch.deferred ++ (if t.stop < s.numPartners c a j then ch.continued ++ [a]
              else ch.continued) ++ s.ready) } : World β γ).launched c a j 0 t.stop
          (decide (0 < s.packed c a borrow))) := by
      refine Move.place hpop hf.choice hgroup hf.group (Nat.pos_of_ne_zero hf.partners) hstop ?_
      show List.Perm _ (if t.stop < s.numPartners c a j then
        a :: ((ch.hold a dependent).deferred ++ (ch.hold a dependent).continued ++ s.ready)
        else (ch.hold a dependent).deferred ++ (ch.hold a dependent).continued ++ s.ready)
      rw [hfields.2.1, hfields.2.2]
      exact hready
    refine ⟨.single ?_, he⟩
    convert hmove using 1
    simp only [Chunk.world, World.launched, State.launch, Turn.chunk, Chunk.afterAdmission,
      State.afterAdmission, Chunk.keep, State.placed, State.joined, State.setStage, State.newlyReleased, hfields.1]
    simp

/-- Entering a stage reads the anchor's own lists and passed stages. -/
lemma Enters.congr {a : Anchor} {j : ℕ} {decided : Bool} {ended : Option Kind} {out : Outcome}
    (h : Enters c s a j decided ended out) (hl : s'.lists a = s.lists a)
    (hp : s'.passed a = s.passed a) : Enters c s' a j decided ended out where
  lists := hl ▸ h.lists
  decided := hp ▸ h.decided
  skipped := h.skipped
  passed := hp ▸ h.passed
  earlier := hp ▸ h.earlier

/-- A dependent asked for its stage stops there, past its gate. -/
lemma Enters.own {a : Anchor} {ended : Option Kind} {out : Outcome} (hp : Promised c)
    (h : Enters c s a (c.startStage a) true ended out) (hd : c.isDependent a = true) :
    out.waits = false ∧ (ended = none → out.stage = .entered (c.startStage a)) := by
  obtain ⟨hst, hw, -⟩ := h.decided rfl (hp.asks a · hd)
  refine ⟨hw, fun hr => ?_⟩
  obtain ⟨i, -, -, -, ⟨kind, hk, -⟩ | ⟨-, hi, -⟩⟩ := h.lists
  · rw [hr] at hk
    cases hk
  · rcases hst with hst | hst
    · rw [hst] at hi
      cases hi
    · exact hst

/-- A turn over the fresh anchors is at most two moves. -/
lemma FreshEnd.moves {limited : Bool} (hp : Promised c) (h : Inv c (ch.world r s))
    (he : s.entering = []) (hend : FreshEnd c o limited s ch turn s') :
    Moves c (ch.world r s) (turn.chunk.world r s') ∧ s'.entering = [] := by
  cases hend with
  | empty hw hq => exact ⟨.refl, he⟩
  | paced hw hq hl => exact ⟨.refl, he⟩
  | @dropped a rest hw hs =>
    refine ⟨.single (Move.popEnded (w := ch.world r s) (a := a) ?_ hs), he⟩
    simp [Chunk.world, Turn.chunk, hw]
  | @dead a rest hw hq hs =>
    refine ⟨.single (Move.popDead (w := ch.world r s) (a := a) ?_ hs), he⟩
    simp [Chunk.world, Turn.chunk, hq]
  | @ended a rest _ hw hs hask =>
    have hmem : a ∈ (ch.world r s).state.waiting := by simp [Chunk.world, hw]
    have hd := h.waiting_dependent hmem
    cases hask with
    | @ended kind out hE =>
      have hpop : (ch.world r s).state.waiting = ch.heldWaiting ++ a :: rest := by
        simp [Chunk.world, hw]
      refine ⟨.single (Move.askEmpty hd hpop hs (hE.congr rfl rfl)), ?_⟩
      simp [State.setStage, State.entered, (hE.own hp hd).1, he]
  | @asked a rest s₁ _ _ hw hs hask hplace =>
    have hmem : a ∈ (ch.world r s).state.waiting := by simp [Chunk.world, hw]
    have hd := h.waiting_dependent hmem
    cases hask with
    | @asked out hE =>
      obtain ⟨hwaits, hst⟩ := hE.own hp hd
      have hmove := Move.ask (w := ch.world r s) hd hmem hs (hE.congr rfl rfl)
      have hnext := hplace.moves (r := r)
        (by rw [if_pos rfl]; exact ⟨hd, by simp [State.entered, State.setStage, hst rfl]⟩)
        (by simp [State.entered, hwaits, he, State.setStage])
      refine ⟨.head ?_ hnext.1, hnext.2⟩
      convert hmove using 1
      rw [State.firstCost_zero, State.firstCost_zero]
      simp [Chunk.world, Chunk.hold, State.entered, State.setStage, hw, he]
  | @waited a rest _ _ hw hs hs' hplace =>
    have hmem : a ∈ (ch.world r s).state.waiting := by simp [Chunk.world, hw]
    have hd := h.waiting_dependent hmem
    rw [← Chunk.hold_world.1 hw]
    refine hplace.moves ?_ he
    rw [if_pos rfl]
    refine ⟨hd, ?_⟩
    cases hst : s.stage a with
    | queued => exact absurd hst hs
    | entered j => exact congrArg _ (((h.anchors a).entered hst).own hd).1
    | done => exact absurd hst hs'
  | @fresh a rest _ _ hw hq hs hl hplace =>
    have hmem : a ∈ (ch.world r s).state.pending := by simp [Chunk.world, hq]
    obtain ⟨hst, hd⟩ := h.pending_queued hmem hs
    rw [← Chunk.hold_world.2 hq]
    exact hplace.moves (by rw [if_neg (by simp)]; exact ⟨hd, hst, rfl⟩) he

/-- A loop whose turns are moves, and keep a property, does so as a whole. -/
lemma Loop.moves {R : State β γ → Chunk → Turn → State β γ → Prop} {I : State β γ → Chunk → Prop}
    {ch' : Chunk} (hp : Promised c) (hc : c.check = none)
    (hR : ∀ s ch turn s', Inv c (ch.world r s) → s.entering = [] → R s ch turn s' →
      Moves c (ch.world r s) (turn.chunk.world r s') ∧ s'.entering = [])
    (hI : ∀ s ch turn s', Inv c (ch.world r s) → s.entering = [] → I s ch → R s ch turn s' →
      I s' turn.chunk)
    (h : Inv c (ch.world r s)) (he : s.entering = []) (hs : I s ch) (hloop : Loop R s ch ch' s') :
    Moves c (ch.world r s) (ch'.world r s') ∧ s'.entering = [] ∧ I s' ch' := by
  induction hloop with
  | refl => exact ⟨.refl, he, hs⟩
  | next hturn _ ih =>
    obtain ⟨hm, he'⟩ := hR _ _ _ _ h he hturn
    exact (ih (h.moves hp hc hm) he' (hI _ _ _ _ h he hs hturn)).imp_left hm.trans
  | stop hturn =>
    obtain ⟨hm, he'⟩ := hR _ _ _ _ h he hturn
    exact ⟨hm, he', hI _ _ _ _ h he hs hturn⟩

/-- Released anchors start at a stage of the join. -/
lemma Inv.dependable (hc : c.check = none) (h : Inv c (ch.world r s)) : Dependable c s := by
  intro a ha
  have hmem : a ∈ (ch.world r s).state.waiting := by simp [Chunk.world, ha]
  obtain ⟨p, j, hd⟩ := Config.isDependent_iff.1 (h.waiting_dependent hmem)
  have hj := (Config.check_dependency hc hd).2.2
  simpa [Config.startStage, hd] using hj

lemma freshTurns_spec {limited : Bool} {turns : ℕ} (hp : Promised c) (hc : c.check = none)
    (h : Inv c (ch.world r s)) (he : s.entering = []) :
    wp (freshTurns c o limited turns ch) (Loop (FreshEnd c o limited) s ch) (fun _ _ => True) s := by
  induction turns generalizing ch s with
  | zero => exact .refl
  | succ turns ih =>
    rw [freshTurns, wp_bind, wp_get, wp_ite]
    refine ⟨fun _ => ?_, fun _ => .refl⟩
    rw [wp_bind]
    refine wp_mono (freshTurn_spec (h.dependable hc)) ?_ (fun _ _ h => h)
    intro turn s' hturn
    obtain ⟨hm, he'⟩ := hturn.moves hp h he
    cases turn with
    | next ch' =>
      refine wp_mono (ih (h.moves hp hc hm) he') ?_ (fun _ _ h => h)
      exact fun ch'' s'' hloop => .next hturn hloop
    | stop ch' => exact .stop hturn

/-- A run after a chunk was built. -/
def Run.extend (r : Run β γ) (groups : List Group) (s : State β γ) : Run β γ :=
  ⟨s, r.flight ++ groups, r.trace ++ groups.map .launched⟩

/-- The chunk a call starts from. -/
def Chunk.start (freePages room : ℕ) : Chunk :=
  { freePages, room, groups := [], continued := [], deferred := [], temporaryPages := 0, held := []
    heldWaiting := [], blocked := false, admitted := [], expectedRows := 0 }

/-- At the start of a call the world is the run's. -/
lemma Chunk.start_world (freePages room : ℕ) :
    (Chunk.start freePages room).world r { r.state with blockedPages := 0 } =
      World.of { r with state := { r.state with blockedPages := 0 } } := by
  simp [Chunk.world, World.of, Chunk.start]

/-- Building a chunk is a sequence of moves, and what each of its turns keeps holds at its end. -/
theorem nextChunk_moves {freePages : ℕ} {room : Option ℕ} {I : State β γ → Chunk → Prop}
    (hp : Promised c) (hc : c.check = none) (h : Inv c (World.of r)) (he : r.state.entering = [])
    (hstart : I { r.state with blockedPages := 0 }
      (Chunk.start freePages (room.getD c.chunkBudget)))
    (hlive : ∀ s ch n, I s ch → I s { ch with expectedRows := n })
    (hready : ∀ s ch turn s', Inv c (ch.world r s) → s.entering = [] → I s ch →
      ReadyEnd c s ch turn s' → I s' turn.chunk)
    (hfresh : ∀ s ch turn s', Inv c (ch.world r s) → s.entering = [] → I s ch →
      FreshEnd c o (r.state.limitReached c) s ch turn s' → I s' turn.chunk) :
    wp (nextChunk c o freePages room)
      (fun groups s' => Moves c (World.of r) (World.of (r.extend groups s')) ∧
        ∃ s ch, I s ch ∧ ch.groups = groups)
      (fun _ _ => True) r.state := by
  have hquiet : Move c (World.of r)
      (World.of { r with state := { r.state with blockedPages := 0 } }) :=
    .quiet (List.Perm.refl _)
  have h₀ := h.move hp hc hquiet
  have hworld := Chunk.start_world (r := r) freePages (room.getD c.chunkBudget)
  rw [← hworld] at h₀
  unfold nextChunk
  rw [wp_bind, wp_modify, wp_bind, wp_get]
  dsimp only
  rw [wp_ite]
  refine ⟨fun _ => ⟨?_, _, _, hstart, rfl⟩, fun _ => ?_⟩
  · convert Relation.ReflTransGen.single hquiet using 1
    simp [Run.extend, World.of]
  · rw [wp_bind]
    refine wp_mono readyTurns_spec ?_ (fun _ _ h => h)
    intro ch s hloop
    obtain ⟨hm, hes, hIs⟩ := hloop.moves hp hc (fun _ _ _ _ h he hend => hend.moves h he) hready h₀ he
      hstart
    rw [wp_bind, wp_get, wp_bind]
    have hlived := hlive s ch (s.live c) hIs
    have hinv : Inv c (({ ch with expectedRows := s.live c } : Chunk).world r s) := h₀.moves hp hc hm
    refine wp_mono (freshTurns_spec hp hc hinv hes) ?_ (fun _ _ h => h)
    intro ch' s' hloop'
    obtain ⟨hm', -, hIs'⟩ := hloop'.moves hp hc (fun _ _ _ _ h he hend => hend.moves hp h he) hfresh
      hinv hes hlived
    rw [wp_bind, wp_modify, wp_pure]
    rw [← hworld] at hquiet
    exact ⟨.head hquiet (hm.trans hm'), _, _, hIs', rfl⟩

/-! ## Reporting answers -/

/-- The first group of an anchor in flight. -/
lemma World.view_flight {w : World β γ} {g : Group}
    (hf : w.flight.find? (fun h => decide (h.anchor = g.anchor)) = some g) :
    ∃ rest, (w.view g.anchor).flight = g :: rest := by
  obtain ⟨before, after, hflight, -, hbefore⟩ := flight_split hf
  have hnone : before.filter (fun g' => decide (g'.anchor = g.anchor)) = [] := by
    simpa using hbefore
  exact ⟨after.filter fun g' => decide (g'.anchor = g.anchor), by
    simp [World.view, hflight, List.filter_append, hnone]⟩

/-- The next group to be answered starts where the answers end. -/
lemma Inv.next_answer {w : World β γ} {g : Group} (h : Inv c w)
    (hf : w.flight.find? (fun h => decide (h.anchor = g.anchor)) = some g) :
    g.start = (w.state.answers g.anchor g.stage).length ∧ g.start < g.stop := by
  obtain ⟨rest, hflight⟩ := World.view_flight hf
  obtain ⟨e, hs, -⟩ := (h.anchors g.anchor).streamed_exists g.stage
  obtain ⟨hstart, hlt, -⟩ := (h.anchors g.anchor).next_answer hflight hs
  exact ⟨hstart, hstart ▸ hlt⟩

/-- A group of the stage an anchor is at lies in what it launched there. -/
lemma Inv.answer_next {w : World β γ} {g : Group} (h : Inv c w)
    (hf : w.flight.find? (fun h => decide (h.anchor = g.anchor)) = some g)
    (hj : w.state.stage g.anchor = .entered g.stage) :
    g.stop ≤ w.state.next g.anchor ∧
      w.state.next g.anchor ≤ w.state.numPartners c g.anchor g.stage := by
  obtain ⟨rest, hflight⟩ := World.view_flight hf
  have hE := (h.anchors g.anchor).entered hj
  obtain ⟨-, hlt, hle⟩ := (h.anchors g.anchor).next_answer hflight hE.streamed
  have hpos : 0 < (w.view g.anchor).next := lt_of_le_of_lt (Nat.zero_le _) (hlt.trans_le hle)
  refine ⟨hle, ?_⟩
  rw [State.numPartners_eq]
  exact hE.next_le (hE.running_of_pos hpos).1

/-- Answers at the last stage, or at a dependent's stage, come while the anchor is at it. -/
lemma Inv.answer_last {w : World β γ} {g : Group} (h : Inv c w)
    (hf : w.flight.find? (fun h => decide (h.anchor = g.anchor)) = some g)
    (hlast : c.isDependent g.anchor ∨ g.stage + 1 = c.k) :
    w.state.stage g.anchor = .entered g.stage := by
  obtain ⟨rest, hflight⟩ := World.view_flight hf
  have hmem : g ∈ (w.view g.anchor).flight := by simp [hflight]
  cases hs : w.state.stage g.anchor with
  | queued =>
    have hnil := (h.anchors g.anchor).flight_nil ((h.anchors g.anchor).queued hs).unadmitted
    rw [hnil] at hflight
    cases hflight
  | entered j =>
    have hE := (h.anchors g.anchor).entered hs
    have hle := hE.flight g hmem
    rcases hlast with hd | hk
    · have hlaunched : g ∈ (w.view g.anchor).launched := by
        rw [(h.anchors g.anchor).log]
        exact List.mem_append_right _ hmem
      rw [(h.anchors g.anchor).own hd g hlaunched, (hE.own hd).1]
    · have hlt := hE.stage_lt
      rw [show g.stage = j by omega]
  | done =>
    obtain ⟨hk, hd⟩ := ((h.anchors g.anchor).done hs).flight g hmem
    rcases hlast with hd' | hk'
    · rw [hd] at hd'
      cases hd'
    · omega

/-- The settlements of a call, applied and told to the caller. -/
def World.settled (w : World β γ) : World β γ where
  state := w.state.settleGroups c w.limbo
  flight := w.flight
  trace := w.trace ++ w.limbo.map .settled
  limbo := []
  due := w.due

lemma World.settled_moves {w : World β γ} : Moves c w (w.settled (c := c)) := by
  cases w with
  | mk r limbo due =>
    induction limbo generalizing r with
    | nil =>
      have hend : World.settled (c := c) ⟨r, [], due⟩ = ⟨r, [], due⟩ := by
        simp [World.settled, State.settleGroups]
      rw [hend]
    | cons e rest ih =>
      refine .head (.settle rfl) ?_
      convert ih _ using 1
      simp [World.settled, State.settleGroups]

/-- After a call's work on the stages, before its settlements are applied. -/
def World.told (w : World β γ) (s : State β γ) (settlements : List Settlement) : World β γ :=
  { w with state := s, limbo := w.limbo ++ settlements, due := none }

lemma advanceStage_moves {w : World β γ} {a : Anchor} {j : ℕ} {complete : Bool}
    (hd : c.isDependent a = false) (hj : w.state.stage a = .entered j) (hk : j + 1 < c.k)
    (hpos : 0 < w.state.next a) (hdue : w.due = if complete then some a else none)
    (hcomplete : complete → (w.state.answers a j).length = w.state.numPartners c a j ∧
      w.state.next a = w.state.numPartners c a j) :
    wp (advanceStage c a j complete)
      (fun rep s' => Moves c w (w.told s' rep.settlements)) (fun e _ => ∃ text, e = .value text)
      w.state := by
  have hdue' : ∀ b, w.due = some b → b = a := by
    intro b hb
    rw [hdue] at hb
    split_ifs at hb
    exact (Option.some.inj hb).symm
  unfold advanceStage
  rw [wp_bind, wp_get]
  simp only [wp_ite]
  refine ⟨?_, fun hnot => ⟨?_, fun hc => ?_⟩⟩
  · rintro ⟨hp, hn⟩
    rw [wp_bind]
    refine wp_mono (enter_spec (by omega) hk) ?_ (fun _ _ h => h)
    rintro ended s' ⟨out, ho, rfl⟩
    cases ended with
    | none =>
      simp only [wp_bind, wp_modify, wp_pure]
      convert Relation.ReflTransGen.single (Move.advance hd hj hk hp hn hpos hdue' ho) using 1
      simp [World.told, State.entered, State.setStage]
    | some kind =>
      simp only [wp_bind, wp_get, wp_pure]
      convert Relation.ReflTransGen.single (Move.leave hd hj hk hp hn hpos hdue' ho) using 1
      simp [World.told, State.entered, State.setStage]
  · rintro ⟨hc, hp⟩
    rw [wp_bind, wp_set, wp_pure]
    obtain ⟨hans, hn⟩ := hcomplete hc
    exact .single (.drop hd hj hk hp hans (hn ▸ hpos) hdue')
  · rw [wp_pure]
    have hnone : w.due = none := by
      rw [hdue, if_neg]
      intro hcomp
      cases hp : w.state.passed a j with
      | false => exact hc ⟨hcomp, hp⟩
      | true => exact hnot ⟨hp, (hcomplete hcomp).2⟩
    have hsame : w.told w.state ([] : List Settlement) = w := by
      simp [World.told, ← hnone]
    rw [hsame]

lemma finishStage_moves {w : World β γ} {a : Anchor} {j : ℕ}
    (hj : w.state.stage a = .entered j) (hlast : c.isDependent a ∨ j + 1 = c.k)
    (hans : (w.state.answers a j).length = w.state.numPartners c a j)
    (hpos : 0 < w.state.numPartners c a j) (hdue : ∀ b, w.due = some b → b = a) :
    wp (finishStage c a j)
      (fun rep s' => Moves c w (w.told s' rep.settlements)) (fun e _ => ∃ text, e = .value text)
      w.state := by
  unfold finishStage
  simp only [wp_bind, wp_modify, wp_get, wp_pure]
  obtain ⟨counted, survivors, hs⟩ :=
    State.countSurvivor_eq (c := c) (s := w.state.setStage a .done) (a := c.branchOf a)
  have hpassed : ((w.state.setStage a .done).countSurvivor c (c.branchOf a)).passed a j =
      w.state.passed a j := by
    rw [hs]
    rfl
  rw [hpassed]
  exact .single (.finish hj hlast hans hpos hdue)

/-- A report returns, unless an anchor's callable names a partner the stage does not have. -/
theorem report_moves {g : Group} {bits : List β} (h : Inv c (World.of r))
    (hf : r.flight.find? (fun h => decide (h.anchor = g.anchor)) = some g)
    (hbits : bits.length = g.stop - g.start) :
    wp (report c g.anchor g.stage g.start g.stop bits)
      (fun rep s' => Moves c (World.of r) (World.of ⟨s', r.flight.erase g,
        r.trace ++ .answered g bits :: rep.settlements.map .settled⟩))
      (fun e _ => ∃ text, e = .value text) r.state := by
  obtain ⟨hstart, hlt⟩ := h.next_answer hf
  have hreceived : (r.state.answers g.anchor g.stage).length = g.start := hstart.symm
  -- the answers are in
  let w : World β γ :=
    { state := r.state.answer c g.anchor g.stage g.stop bits
      flight := r.flight.erase g
      trace := r.trace ++ [.answered g bits]
      limbo := []
      due := if r.state.stage g.anchor = .entered g.stage ∧
        g.stop = r.state.numPartners c g.anchor g.stage then some g.anchor else none }
  have hanswer : Move c (World.of r) w := .answer hf hbits rfl
  have hans : (w.state.answers g.anchor g.stage).length = g.stop := by
    simp only [w, State.answer, update_self, List.length_append, hreceived, hbits]
    omega
  have hdue : ∀ b, w.due = some b → b = g.anchor := by
    intro b hb
    simp only [w] at hb
    split_ifs at hb
    exact (Option.some.inj hb).symm
  have hsettle : ∀ rep : AdmissionReport, ∀ s', Moves c w (w.told s' rep.settlements) →
      Moves c (World.of r) (World.of ⟨s'.settleGroups c rep.settlements, r.flight.erase g,
        r.trace ++ .answered g bits :: rep.settlements.map .settled⟩) := by
    intro rep s' hm
    convert (Relation.ReflTransGen.single hanswer).trans (hm.trans World.settled_moves) using 1
    simp [World.settled, World.told, World.of, w]
  unfold report
  rw [wp_bind, wp_get]
  dsimp only
  rw [if_neg (by rw [hreceived, hbits]; omega)]
  rw [wp_bind, wp_set, wp_ite]
  refine ⟨?_, fun hother => ?_⟩
  · rintro ⟨hd, hst, hk⟩
    obtain ⟨hle, hnum⟩ := h.answer_next hf hst
    rw [wp_bind]
    refine wp_mono (advanceStage_moves (w := w) hd hst hk ?_ ?_ ?_) ?_ (fun _ _ h => h)
    · exact lt_of_le_of_lt (Nat.zero_le _) (hlt.trans_le hle)
    · simp only [w, hst, true_and, decide_eq_true_eq]
    · intro hstop
      have hstop : g.stop = r.state.numPartners c g.anchor g.stage := by simpa using hstop
      exact ⟨hans.trans hstop, le_antisymm hnum (hstop ▸ hle)⟩
    · rintro ⟨settlements, transitions⟩ s' hm
      have hnot : ¬((c.isDependent g.anchor = true ∨ g.stage + 1 = c.k) ∧
          decide (g.stop = r.state.numPartners c g.anchor g.stage) = true) := by
        rintro ⟨hlast | hlast, -⟩
        · simp [hd] at hlast
        · omega
      rw [if_neg hnot]
      simp only [wp_bind, wp_pure, wp_modify, List.append_nil]
      exact hsettle _ _ hm
  · rw [wp_bind, wp_pure, wp_ite]
    refine ⟨?_, fun hopen => ?_⟩
    · rintro ⟨hlast, hstop⟩
      have hst := h.answer_last hf hlast
      have hstop : g.stop = r.state.numPartners c g.anchor g.stage := by simpa using hstop
      rw [wp_bind]
      refine wp_mono (finishStage_moves (w := w) hst hlast (hans.trans hstop) ?_ hdue) ?_
        (fun _ _ h => h)
      · exact hstop ▸ lt_of_le_of_lt (Nat.zero_le _) hlt
      · rintro ⟨settlements, transitions⟩ s' hm
        simp only [wp_bind, wp_pure, wp_modify, List.nil_append]
        exact hsettle _ _ hm
    · simp only [wp_bind, wp_pure, wp_modify, List.nil_append]
      refine hsettle ⟨[], []⟩ _ ?_
      have hnone : w.due = none := by
        simp only [w]
        rw [if_neg]
        rintro ⟨hst, hstop⟩
        have hlt : g.stage < c.k := ((h.anchors g.anchor).entered hst).stage_lt
        have hstop' : decide (g.stop = r.state.numPartners c g.anchor g.stage) = true := by
          simpa using hstop
        rw [not_and] at hopen
        have hlast : ¬(c.isDependent g.anchor = true ∨ g.stage + 1 = c.k) :=
          fun hl => hopen hl hstop'
        rw [not_or] at hlast
        exact hother ⟨by simpa using hlast.1, hst, by omega⟩
      have hsame : w.told w.state ([] : List Settlement) = w := by
        simp [World.told, ← hnone]
      exact hsame ▸ .refl

/-! ## Deciding gated stages -/

/-- An anchor waiting at a gate is at its stage. -/
lemma Inv.entering_stage {w : World β γ} {a : Anchor} (h : Inv c w) (ha : a ∈ w.state.entering) :
    w.state.stage a = .entered (w.state.stageIndex a) ∧ w.state.stageIndex a < c.k := by
  have hpos : 0 < (w.view a).entering := List.count_pos_iff.2 ha
  unfold State.stageIndex
  cases hs : w.state.stage a with
  | queued =>
    have hz := ((h.anchors a).queued hs).entering
    omega
  | entered j => exact ⟨rfl, ((h.anchors a).entered hs).stage_lt⟩
  | done =>
    have hz := ((h.anchors a).done hs).entering
    omega

/-- The world inside a round of `decide_waiting`: `todo` are the anchors still to be asked, `left` are
the settlements of the round so far. -/
def World.deciding (w : World β γ) (s : State β γ) (todo : List Anchor) (left : List Settlement) :
    World β γ :=
  { w with
    state := { s with
      entering := todo ++ s.entering
      ready := s.ready.filter fun a => decide (a ∉ left.map (·.anchor)) }
    limbo := w.limbo ++ left }

lemma decideAll_moves {w : World β γ} {todo : List Anchor} {left : List Settlement}
    (hp : Promised c) (hc : c.check = none) (h : Inv c (w.deciding s todo left)) :
    wp (decideAll c todo)
      (fun new s' => Moves c (w.deciding s todo left) (w.deciding s' [] (left ++ new)))
      (fun e _ => ∃ text, e = .value text) s := by
  induction todo generalizing s left with
  | nil =>
    rw [decideAll, wp_pure, List.append_nil]
  | cons a rest ih =>
    have hmem : a ∈ (w.deciding s (a :: rest) left).state.entering := by simp [World.deciding]
    obtain ⟨hj, hlt⟩ := h.entering_stage hmem
    have hj : s.stage a = .entered (s.stageIndex a) := hj
    have hlt : s.stageIndex a < c.k := hlt
    have he : (w.deciding s (a :: rest) left).state.entering = a :: (rest ++ s.entering) := rfl
    rw [decideAll, wp_bind, decideEntering, wp_bind, wp_get, wp_bind]
    refine wp_mono (enter_spec (by omega) hlt) ?_ (fun _ _ h => h)
    rintro ended s' ⟨out, ho, rfl⟩
    cases ended with
    | none =>
      have hmove := Move.keep (w := w.deciding s (a :: rest) left) he hj (ho.congr rfl rfl)
      have hsame : ({ w.deciding s (a :: rest) left with
          state := ({ (w.deciding s (a :: rest) left).state with
            entering := rest ++ s.entering }).entered a out } : World β γ) =
          w.deciding (s.entered a out) rest left := by
        simp only [World.deciding, State.entered, State.setStage]
        cases out.waits <;> simp
      rw [hsame] at hmove
      rw [wp_pure, wp_bind]
      refine wp_mono (ih (h.move hp hc hmove)) ?_ (fun _ _ h => h)
      intro new s' hm
      exact .head hmove hm
    | some kind =>
      have hmove := Move.decline (w := w.deciding s (a :: rest) left) he hj (ho.congr rfl rfl)
      rw [wp_bind, wp_get, wp_pure, wp_bind]
      have hpassed : (s.entered a out).passed a (c.k - 1) = out.passed (c.k - 1) := by
        simp [State.entered]
      rw [hpassed]
      have hsame : ({ w.deciding s (a :: rest) left with
          state := { ({ (w.deciding s (a :: rest) left).state with
              entering := rest ++ s.entering }).entered a out with
            ready := (w.deciding s (a :: rest) left).state.ready.filter fun b => decide (b ≠ a) }
          limbo := (w.deciding s (a :: rest) left).limbo ++
            [⟨kind, a, out.passed (c.k - 1)⟩] } : World β γ) =
          w.deciding (s.entered a out) rest (left ++ [⟨kind, a, out.passed (c.k - 1)⟩]) := by
        have hready : (s.ready.filter fun b => decide (b ∉ left.map (·.anchor))).filter
            (fun b => decide (b ≠ a)) = s.ready.filter fun b => decide (b ∉
              (left ++ [(⟨kind, a, out.passed (c.k - 1)⟩ : Settlement)]).map (·.anchor)) := by
          rw [List.filter_filter]
          refine List.filter_congr fun b _ => ?_
          by_cases hb : b = a <;> simp [hb]
        simp only [World.deciding, State.entered, State.setStage, ho.waits_false, hready]
        simp
      rw [hsame] at hmove
      refine wp_mono (ih (h.move hp hc hmove)) ?_ (fun _ _ h => h)
      intro new s' hm
      rw [List.append_assoc] at hm
      exact .head hmove hm

lemma decideTurns_moves {turns : ℕ} {w : World β γ} (hp : Promised c) (hc : c.check = none)
    (h : Inv c w) :
    wp (decideTurns c turns w.limbo)
      (fun settlements s' => Moves c w { w with state := s', limbo := settlements })
      (fun e _ => ∃ text, e = .value text) w.state := by
  induction turns generalizing w with
  | zero => exact .refl
  | succ turns ih =>
    rw [decideTurns, wp_bind, wp_get]
    dsimp only
    rw [wp_ite]
    refine ⟨fun _ => .refl, fun hne => ?_⟩
    have hstart : w.deciding { w.state with entering := [] } w.state.entering [] = w := by
      simp [World.deciding]
    rw [wp_bind, wp_modify, wp_bind]
    refine wp_mono (decideAll_moves (w := w) hp hc (hstart.symm ▸ h)) ?_ (fun _ _ h => h)
    intro left s' hm
    rw [hstart, List.nil_append] at hm
    rw [wp_bind, wp_modify]
    refine wp_mono (ih (w := w.deciding s' [] left) (h.moves hp hc hm)) ?_ (fun _ _ h => h)
    intro settlements s'' hm'
    exact hm.trans hm'

theorem decideWaiting_moves (hp : Promised c) (hc : c.check = none) (h : Inv c (World.of r)) :
    wp (decideWaiting c)
      (fun settlements s' => Moves c (World.of r) (World.of ⟨s', r.flight,
        r.trace ++ settlements.map .settled⟩))
      (fun e _ => ∃ text, e = .value text) r.state := by
  unfold decideWaiting
  rw [wp_bind]
  refine wp_mono (decideTurns_moves (w := World.of r) hp hc h) ?_ (fun _ _ h => h)
  intro settlements s' hm
  rw [wp_bind, wp_modify, wp_pure]
  exact hm.trans World.settled_moves

/-! ## Taking settlements -/

/-- The settlements made without a forward pass are taken one by one. -/
lemma takeAll_moves {w : World β γ} : Moves c w { w with
    state := { w.state with settled := [] }, limbo := w.limbo ++ w.state.settled } := by
  generalize hs : w.state.settled = settled
  induction settled generalizing w with
  | nil =>
    have hsame : ({ w with state := { w.state with settled := [] }, limbo := w.limbo ++ [] } :
        World β γ) = w := by
      obtain ⟨⟨⟨⟩, _, _⟩, _, _⟩ := w
      cases hs
      simp
    rw [hsame]
  | cons e rest ih =>
    refine .head (.takeSettled hs) ?_
    have hm := ih (w := { w with
      state := { w.state with settled := rest }, limbo := w.limbo ++ [e] }) rfl
    simpa using hm

lemma takeSettledTurns_moves {turns : ℕ} {events : List Settlement} :
    wp (takeSettledTurns c turns events)
      (fun events' s' => ∃ new, events' = events ++ new ∧
        Moves c (World.of r) (World.of ⟨s', r.flight, r.trace ++ new.map .settled⟩))
      (fun _ _ => False) r.state := by
  induction turns generalizing r events with
  | zero => exact ⟨[], by simp, by simpa using .refl⟩
  | succ turns ih =>
    rw [takeSettledTurns, wp_bind, wp_get]
    dsimp only
    rw [wp_ite]
    refine ⟨fun _ => ⟨[], by simp, by simpa using .refl⟩, fun _ => ?_⟩
    rw [wp_bind, wp_modify]
    have hm : Moves c (World.of r) (World.of
        ⟨({ r.state with settled := [] } : State β γ).settleGroups c r.state.settled, r.flight,
          r.trace ++ r.state.settled.map .settled⟩) :=
      takeAll_moves.trans World.settled_moves
    refine wp_mono (ih (r := ⟨_, r.flight, r.trace ++ r.state.settled.map .settled⟩)) ?_
      (fun _ _ h => h)
    rintro events' s' ⟨new, rfl, hm'⟩
    refine ⟨r.state.settled ++ new, by simp, hm.trans ?_⟩
    rw [List.map_append, ← List.append_assoc]
    exact hm'

theorem takeSettled_moves :
    wp (takeSettled c)
      (fun settlements s' => Moves c (World.of r) (World.of ⟨s', r.flight,
        r.trace ++ settlements.map .settled⟩)) (fun _ _ => False) r.state := by
  refine wp_mono takeSettledTurns_moves ?_ (fun _ _ h => h)
  rintro _ s' ⟨new, rfl, hm⟩
  exact hm

/-- Every skipped anchor is taken, and its borrowers pack whole. -/
lemma takeSkipped_moves {w : World β γ} : Moves c w { w with
    state := { w.state with
      skipped := [], borrowing := w.state.skipped.foldl Borrowing.skip w.state.borrowing }
    trace := w.trace ++ w.state.skipped.map .skipped } := by
  generalize hs : w.state.skipped = skipped
  induction skipped generalizing w with
  | nil =>
    have hsame : ({ w with
        state := { w.state with skipped := [], borrowing := [].foldl Borrowing.skip w.state.borrowing }
        trace := w.trace ++ [].map .skipped } : World β γ) = w := by
      obtain ⟨⟨⟨⟩, _, _⟩, _, _⟩ := w
      cases hs
      simp
    rw [hsame]
  | cons a rest ih =>
    refine .head (.takeSkipped hs) ?_
    have hm := ih (w := { w with
      state := { w.state with skipped := rest, borrowing := w.state.borrowing.skip a }
      trace := w.trace ++ [.skipped a] }) rfl
    simpa using hm

/-! ## Runs -/

/-- A call of the owner is a sequence of moves. -/
lemma perform_moves {call : Call β} (hp : Promised c) (hc : c.check = none)
    (h : Inv c (World.of r)) (ha : Allowed r call) :
    wp (perform c call) (fun t s' => Moves c (World.of r)
      (World.of ⟨s', flightAfter r.flight t call, r.trace ++ t⟩)) (fun _ _ => True) r.state := by
  cases call with
  | nextChunk o freePages room =>
    rw [perform, wp_bind]
    refine wp_mono (nextChunk_moves (I := fun _ _ => True) hp hc h ha trivial (fun _ _ _ h => h)
      (fun _ _ _ _ _ _ _ _ => trivial) fun _ _ _ _ _ _ _ _ => trivial) ?_ (fun _ _ h => h)
    rintro groups s' ⟨hm, -⟩
    have hlaunches : launches (groups.map (Event.launched (β := β))) = groups := by
      simp [launches, List.filterMap_map]
    rw [wp_pure, flightAfter, hlaunches]
    exact hm
  | report g bits =>
    rw [perform, wp_bind]
    exact wp_mono (report_moves h ha.1 ha.2) (fun rep s' hm => hm) (fun _ _ _ => trivial)
  | decideWaiting =>
    rw [perform, wp_bind]
    exact wp_mono (decideWaiting_moves hp hc h) (fun settlements s' hm => hm) (fun _ _ _ => trivial)
  | takeSettled =>
    rw [perform, wp_bind]
    exact wp_mono takeSettled_moves (fun settlements s' hm => hm) (fun _ _ h => h.elim)
  | takeSkipped => exact takeSkipped_moves (w := World.of r)

/-- Every step of a run is a sequence of moves. -/
theorem Step.moves {r' : Run β γ} {call : Call β} (hp : Promised c) (hc : c.check = none)
    (h : Inv c (World.of r)) (hs : Step c r call r') : Moves c (World.of r) (World.of r') := by
  cases hs with
  | call hallowed hperform =>
    have hmoves := perform_moves hp hc h hallowed
    unfold wp at hmoves
    rw [hperform] at hmoves
    exact hmoves

end Quail.Admission
