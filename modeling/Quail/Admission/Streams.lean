import Quail.Admission.Moves

/-!
# Every anchor's stream

The invariant of a world, anchor by anchor. `World.view` is everything a world says about one anchor;
`Local` says where the anchor is (queued, entered or done) and that its launched groups tile its
partner lists. A move about one anchor leaves the views of the others alone, so each move is checked
on the view of its own anchor.
-/

namespace Quail.Admission
open Imperative Function

variable {β γ : Type} (c : Config β γ)

/-! ## Views -/

/-- The groups answered among some events, with their answers. -/
def answeredIn (t : List (Event β)) : List (Group × List β) :=
  t.filterMap fun | .answered g bits => some (g, bits) | _ => none

/-- The settlements among some events. -/
def settledIn (t : List (Event β)) : List Settlement :=
  t.filterMap fun | .settled e => some e | _ => none

/-- The anchors skipped among some events. -/
def skippedIn (t : List (Event β)) : List Anchor :=
  t.filterMap fun | .skipped a => some a | _ => none

section events

variable {t t' : List (Event β)} {g : Group} {bits : List β} {e : Settlement} {a : Anchor}

@[simp] lemma launches_nil : launches ([] : List (Event β)) = [] := rfl
@[simp] lemma answeredIn_nil : answeredIn ([] : List (Event β)) = [] := rfl
@[simp] lemma settledIn_nil : settledIn ([] : List (Event β)) = [] := rfl
@[simp] lemma skippedIn_nil : skippedIn ([] : List (Event β)) = [] := rfl

@[simp] lemma launches_append : launches (t ++ t') = launches t ++ launches t' :=
  List.filterMap_append
@[simp] lemma answeredIn_append : answeredIn (t ++ t') = answeredIn t ++ answeredIn t' :=
  List.filterMap_append
@[simp] lemma settledIn_append : settledIn (t ++ t') = settledIn t ++ settledIn t' :=
  List.filterMap_append
@[simp] lemma skippedIn_append : skippedIn (t ++ t') = skippedIn t ++ skippedIn t' :=
  List.filterMap_append

@[simp] lemma launches_launched : launches [Event.launched (β := β) g] = [g] := rfl
@[simp] lemma launches_answered : launches [Event.answered g bits] = [] := rfl
@[simp] lemma launches_settled : launches [Event.settled (β := β) e] = [] := rfl
@[simp] lemma launches_skipped : launches [Event.skipped (β := β) a] = [] := rfl
@[simp] lemma answeredIn_launched : answeredIn [Event.launched (β := β) g] = [] := rfl
@[simp] lemma answeredIn_answered : answeredIn [Event.answered g bits] = [(g, bits)] := rfl
@[simp] lemma answeredIn_settled : answeredIn [Event.settled (β := β) e] = [] := rfl
@[simp] lemma answeredIn_skipped : answeredIn [Event.skipped (β := β) a] = [] := rfl
@[simp] lemma settledIn_launched : settledIn [Event.launched (β := β) g] = [] := rfl
@[simp] lemma settledIn_answered : settledIn [Event.answered g bits] = [] := rfl
@[simp] lemma settledIn_settled : settledIn [Event.settled (β := β) e] = [e] := rfl
@[simp] lemma settledIn_skipped : settledIn [Event.skipped (β := β) a] = [] := rfl
@[simp] lemma skippedIn_launched : skippedIn [Event.launched (β := β) g] = [] := rfl
@[simp] lemma skippedIn_answered : skippedIn [Event.answered g bits] = [] := rfl
@[simp] lemma skippedIn_settled : skippedIn [Event.settled (β := β) e] = [] := rfl
@[simp] lemma skippedIn_skipped : skippedIn [Event.skipped (β := β) a] = [a] := rfl

end events

/-- What a world says about one anchor. -/
@[ext] structure View (β : Type) where
  stage : Stage
  next : ℕ
  lists : ℕ → Option Row
  answers : ℕ → List β
  first : ℕ
  released : Bool
  admitted : Bool
  pending : ℕ
  waiting : ℕ
  ready : ℕ
  entering : ℕ
  ended : ℕ
  skips : ℕ
  flight : List Group
  launched : List Group
  answered : List (Group × List β)
  due : Bool

/-- The settlements made so far: told to the caller, still in `limbo`, or waiting to be taken. -/
def World.settlements (w : World β γ) : List Settlement :=
  settledIn w.trace ++ w.limbo ++ w.state.settled

/-- Everything a world says about an anchor. -/
def World.view (w : World β γ) (a : Anchor) : View β where
  stage := w.state.stage a
  next := w.state.next a
  lists := w.state.lists a
  answers := w.state.answers a
  first := w.state.first a
  released := w.state.released a
  admitted := w.state.borrowing.admitted a
  pending := w.state.pending.count a
  waiting := w.state.waiting.count a
  ready := w.state.ready.count a
  entering := w.state.entering.count a
  ended := w.settlements.countP fun e => decide (e.anchor = a)
  skips := (skippedIn w.trace ++ w.state.skipped).count a
  flight := w.flight.filter fun g => decide (g.anchor = a)
  launched := (launches w.trace).filter fun g => decide (g.anchor = a)
  answered := (answeredIn w.trace).filter fun p => decide (p.1.anchor = a)
  due := decide (w.due = some a)

namespace View

variable (v : View β)

/-- The groups launched at a stage. -/
def launchedAt (j : ℕ) : List Group := v.launched.filter fun g => decide (g.stage = j)

/-- The answers reported at a stage. -/
def answeredAt (j : ℕ) : List (Group × List β) :=
  v.answered.filter fun p => decide (p.1.stage = j)

/-- The first `e` partners of a stage are launched, in order, each once. -/
def Streamed (j e : ℕ) : Prop := Tiles Group.start Group.stop 0 (v.launchedAt j) e

/-- A stage the anchor left: skipped, or launched whole. -/
def Past (j : ℕ) : Prop := v.Streamed j 0 ∨ v.Streamed j (c.rowLength j (v.lists j))

end View

/-- The rows of an anchor's first request at a stage. -/
def Config.firstRows (j : ℕ) (row : Option Row) : ℕ :=
  ((row.map Row.lengths).getD (c.stageLengths j)).getD 0 0 + c.frameRows j

/-- A queued anchor: a dependent waits once it is released, any other anchor is pending. -/
structure Queued (a : Anchor) (v : View β) : Prop where
  unadmitted : v.admitted = false
  next : v.next = 0
  ready : v.ready = 0
  entering : v.entering = 0
  ended : v.ended = 0
  skips : v.skips = 0
  pending : v.pending = if a < c.n ∧ c.isDependent a = false then 1 else 0
  waiting : v.waiting = if c.isDependent a ∧ v.released then 1 else 0
  partners : a < c.n → c.isDependent a = false →
    0 < c.rowLength 0 (v.lists 0) ∧ v.first = c.firstRows 0 (v.lists 0)

/-- An anchor at a stage: waiting at its gate, asked and not yet admitted (a dependent), or admitted
and ready while partners are left. -/
structure Entered (a : Anchor) (j : ℕ) (v : View β) : Prop where
  stage_lt : j < c.k
  ended : v.ended = 0
  skips : v.skips = 0
  pending : v.pending = 0
  past : ∀ i < j, v.Past c i
  later : ∀ i, j < i → v.Streamed i 0
  streamed : v.Streamed j v.next
  next_le : v.entering = 0 → v.next ≤ c.rowLength j (v.lists j)
  flight : ∀ g ∈ v.flight, g.stage ≤ j
  own : c.isDependent a → j = c.startStage a ∧ v.released
  gate : (v.entering = 1 ∧ v.next = 0 ∧ v.ready = 1 ∧ v.waiting = 0 ∧ v.admitted = true ∧
      c.isDependent a = false) ∨ (v.entering = 0 ∧ 0 < c.rowLength j (v.lists j))
  asked : v.admitted = false → v.waiting = 1 ∧ v.ready = 0 ∧ c.isDependent a ∧
    v.next = 0 ∧ v.first = c.firstRows j (v.lists j)
  running : v.admitted = true → v.waiting = 0 ∧ (v.entering = 0 →
    v.ready = (if v.next < c.rowLength j (v.lists j) then 1 else 0) ∧
      ((v.answers j).length < c.rowLength j (v.lists j) ∨ v.due))

/-- An anchor that ended: settled once, or skipped by its group while queued. -/
structure Ended (a : Anchor) (v : View β) : Prop where
  ready : v.ready = 0
  entering : v.entering = 0
  waiting : v.waiting ≤ 1 ∧ (c.isDependent a = false ∨ v.released = false → v.waiting = 0)
  pending : v.pending ≤ 1 ∧ (c.isDependent a → v.pending = 0)
  past : ∀ i, v.Past c i
  ended : v.ended = 1 ∨ (v.ended = 0 ∧ v.skips = 1 ∧ v.admitted = false ∧ c.isDependent a = false)
  flight : ∀ g ∈ v.flight, g.stage + 1 < c.k ∧ c.isDependent a = false

/-- What every world says about an anchor. -/
structure Local (a : Anchor) (v : View β) : Prop where
  log : v.launched = v.answered.map Prod.fst ++ v.flight
  bits : ∀ j, v.answers j = (v.answeredAt j).flatMap Prod.snd
  tiled : ∀ j, Tiles (fun p : Group × List β => p.1.start) (fun p => p.1.stop) 0 (v.answeredAt j)
    (v.answers j).length
  unlaunched : v.admitted = false ↔ v.launched = []
  carries : ∀ g l, v.launched = g :: l →
    g.carried = decide (c.resident.contains a = false ∧ 0 < c.prefixOf a) ∧
      ∀ h ∈ l, h.carried = false
  own : c.isDependent a → ∀ g ∈ v.launched, g.stage = c.startStage a
  known : v.stage ≠ .queued → a < c.n
  placed : match v.stage with
    | .queued => Queued c a v
    | .entered j => Entered c a j v
    | .done => Ended c a v

/-! ## One anchor's moves -/

section views

variable {c} {a : Anchor} {j e : ℕ} {v : View β}

/-- The groups answered at a stage are the first ones launched there. -/
lemma Local.launchedAt_eq (h : Local c a v) (j : ℕ) : v.launchedAt j =
    (v.answeredAt j).map Prod.fst ++ v.flight.filter fun g => decide (g.stage = j) := by
  unfold View.launchedAt View.answeredAt
  rw [h.log, List.filter_append, List.filter_map]
  rfl

lemma tiles_map {l : List (Group × List β)} {lo hi : ℕ} :
    Tiles Group.start Group.stop lo (l.map Prod.fst) hi ↔
      Tiles (fun p : Group × List β => p.1.start) (fun p => p.1.stop) lo l hi := by
  induction l generalizing lo with
  | nil => rfl
  | cons p l ih => simp [ih]

/-- What is in flight at a stage goes on where the answers end. -/
lemma Local.flight_tiles (h : Local c a v) (hs : v.Streamed j e) :
    Tiles Group.start Group.stop (v.answers j).length
      (v.flight.filter fun g => decide (g.stage = j)) e := by
  unfold View.Streamed at hs
  rw [h.launchedAt_eq] at hs
  obtain ⟨mid, h₁, h₂⟩ := hs.split
  rw [tiles_map] at h₁
  rwa [h₁.unique (h.tiled j)] at h₂

lemma Local.answers_le (h : Local c a v) (hs : v.Streamed j e) : (v.answers j).length ≤ e :=
  (h.flight_tiles hs).le

/-- With every partner of a stage answered, none of its groups is in flight. -/
lemma Local.flight_eq_nil (h : Local c a v) (hs : v.Streamed j (v.answers j).length) :
    ∀ g ∈ v.flight, g.stage ≠ j := by
  have hnil := (h.flight_tiles hs).eq_nil
  simpa using hnil

/-- A stage with nothing launched has no answers. -/
lemma Local.answers_eq_nil (h : Local c a v) (hs : v.Streamed j 0) : (v.answers j).length = 0 :=
  Nat.le_zero.1 (h.answers_le hs)

lemma Local.entered (h : Local c a v) (hj : v.stage = .entered j) : Entered c a j v := by
  have hp := h.placed
  rw [hj] at hp
  exact hp

lemma Local.queued (h : Local c a v) (hj : v.stage = .queued) : Queued c a v := by
  have hp := h.placed
  rw [hj] at hp
  exact hp

lemma Local.done (h : Local c a v) (hj : v.stage = .done) : Ended c a v := by
  have hp := h.placed
  rw [hj] at hp
  exact hp

/-- Every stage of an unadmitted anchor is still to be launched. -/
lemma Local.streamed_zero (h : Local c a v) (hu : v.admitted = false) (i : ℕ) : v.Streamed i 0 := by
  unfold View.Streamed View.launchedAt
  rw [h.unlaunched.1 hu]
  rfl

lemma Local.flight_nil (h : Local c a v) (hu : v.admitted = false) : v.flight = [] := by
  have hlog := h.log
  rw [h.unlaunched.1 hu] at hlog
  exact (List.append_eq_nil_iff.1 hlog.symm).2

/-- The view after a launch: the cursor moves, and the group is in flight. -/
def View.launch (v : View β) (a : Anchor) (j e : ℕ) (carried more : Bool) : View β :=
  { v with
    next := e
    ready := if more then 1 else 0
    flight := v.flight ++ [⟨a, j, v.next, e, carried⟩]
    launched := v.launched ++ [⟨a, j, v.next, e, carried⟩] }

lemma View.launch_streamed {carried more : Bool} (hs : v.Streamed j v.next) (hlt : v.next < e) :
    (v.launch a j e carried more).Streamed j e := by
  unfold View.Streamed View.launchedAt View.launch at *
  rw [List.filter_append]
  exact hs.append (by simp [hlt])

lemma View.launch_streamed_ne {carried more : Bool} {i d : ℕ} (hi : i ≠ j) (hs : v.Streamed i d) :
    (v.launch a j e carried more).Streamed i d := by
  unfold View.Streamed View.launchedAt View.launch at *
  rw [List.filter_append, List.filter_cons_of_neg (by simpa using hi.symm)]
  simpa using hs

lemma View.launch_past {carried more : Bool} {i : ℕ} (hi : i ≠ j) (hs : v.Past c i) :
    (v.launch a j e carried more).Past c i := by
  cases hs with
  | inl h => exact .inl (launch_streamed_ne hi h)
  | inr h => exact .inr (launch_streamed_ne hi h)

/-- A ready anchor's next group. -/
lemma Local.launch (h : Local c a v) (hj : v.stage = .entered j) (hr : v.ready = 1)
    (he : v.entering = 0) (hlt : v.next < e) (hle : e ≤ c.rowLength j (v.lists j)) :
    Local c a (v.launch a j e false (decide (e < c.rowLength j (v.lists j)))) := by
  have hE := h.entered hj
  have hadm : v.admitted = true := by
    by_contra hu
    have := (hE.asked (by simpa using hu)).2.1
    omega
  have hne : v.launched ≠ [] := fun hnil => by
    rw [h.unlaunched.2 hnil] at hadm
    cases hadm
  have hrun := hE.running hadm
  refine { h with
    log := ?_
    unlaunched := ?_
    carries := ?_
    own := ?_
    placed := ?_ }
  · simp [View.launch, h.log]
  · simp [View.launch, hadm]
  · intro g l hgl
    obtain ⟨g', l', hl'⟩ := List.exists_cons_of_ne_nil hne
    simp only [View.launch, hl', List.cons_append, List.cons.injEq] at hgl
    obtain ⟨rfl, rfl⟩ := hgl
    obtain ⟨hg, hall⟩ := h.carries _ _ hl'
    refine ⟨hg, ?_⟩
    intro g hg
    rw [List.mem_append, List.mem_singleton] at hg
    rcases hg with hg | rfl
    · exact hall g hg
    · rfl
  · intro hd g hg
    simp only [View.launch, List.mem_append, List.mem_singleton] at hg
    rcases hg with hg | rfl
    · exact h.own hd g hg
    · exact (hE.own hd).1
  · rw [show (v.launch a j e false _).stage = .entered j from hj]
    refine { hE with
      past := fun i hi => View.launch_past hi.ne (hE.past i hi)
      later := fun i hi => View.launch_streamed_ne hi.ne' (hE.later i hi)
      streamed := View.launch_streamed hE.streamed hlt
      next_le := fun _ => hle
      flight := ?_
      gate := ?_
      asked := ?_
      running := ?_ }
    · intro g hg
      simp only [View.launch, List.mem_append, List.mem_singleton] at hg
      rcases hg with hg | rfl
      · exact hE.flight g hg
      · exact le_rfl
    · refine .inr ⟨he, ?_⟩
      exact Nat.zero_lt_of_lt (hlt.trans_le hle)
    · intro hu
      rw [show (v.launch a j e false _).admitted = v.admitted from rfl, hadm] at hu
      cases hu
    · intro _
      refine ⟨hrun.1, fun _ => ⟨by simp [View.launch], (hrun.2 he).2⟩⟩

/-- The view after an anchor is placed at a stage. -/
def View.place (v : View β) (a : Anchor) (j e : ℕ) (carried more : Bool) : View β :=
  { v.launch a j e carried more with
    stage := .entered j, admitted := true, pending := 0, waiting := 0 }

lemma View.place_streamed {carried more : Bool} (hs : v.Streamed j v.next) (hlt : v.next < e) :
    (v.place a j e carried more).Streamed j e :=
  (View.launch_streamed hs hlt : (v.launch a j e carried more).Streamed j e)

lemma View.place_streamed_ne {carried more : Bool} {i d : ℕ} (hi : i ≠ j) (hs : v.Streamed i d) :
    (v.place a j e carried more).Streamed i d :=
  (View.launch_streamed_ne hi hs : (v.launch a j e carried more).Streamed i d)

/-- An anchor's first group. -/
lemma Local.place {carried : Bool} (h : Local c a v)
    (hq : (c.isDependent a = false ∧ v.stage = .queued ∧ j = 0 ∧ 0 < c.k ∧ a < c.n) ∨
      (c.isDependent a ∧ v.stage = .entered j ∧ v.admitted = false))
    (hlt : 0 < e) (hle : e ≤ c.rowLength j (v.lists j))
    (hc : carried = decide (c.resident.contains a = false ∧ 0 < c.prefixOf a)) :
    Local c a (v.place a j e carried (decide (e < c.rowLength j (v.lists j)))) := by
  have hu : v.admitted = false := by
    rcases hq with ⟨_, hs, _⟩ | ⟨_, _, hu⟩
    · exact (h.queued hs).unadmitted
    · exact hu
  have hnil := h.unlaunched.1 hu
  have hnext : v.next = 0 := by
    rcases hq with ⟨_, hs, _⟩ | ⟨_, hs, _⟩
    · exact (h.queued hs).next
    · exact ((h.entered hs).asked hu).2.2.2.1
  have hent : v.entering = 0 := by
    rcases hq with ⟨_, hs, _⟩ | ⟨hd, hs, _⟩
    · exact (h.queued hs).entering
    · rcases (h.entered hs).gate with hg | hg
      · rw [hg.2.2.2.2.2] at hd
        cases hd
      · exact hg.1
  have hz := h.streamed_zero hu
  have hown : c.isDependent a → j = c.startStage a ∧ v.released := by
    intro hd
    rcases hq with ⟨hn, _⟩ | ⟨_, hs, _⟩
    · rw [hn] at hd
      cases hd
    · exact (h.entered hs).own hd
  have hends : v.ended = 0 ∧ v.skips = 0 ∧ j < c.k ∧ a < c.n := by
    rcases hq with ⟨_, hs, rfl, hk, ha⟩ | ⟨_, hs, _⟩
    · exact ⟨(h.queued hs).ended, (h.queued hs).skips, hk, ha⟩
    · exact ⟨(h.entered hs).ended, (h.entered hs).skips, (h.entered hs).stage_lt,
        h.known (by simp [hs])⟩
  have hflight := h.flight_nil hu
  refine { h with
    log := ?_
    unlaunched := ?_
    carries := ?_
    own := ?_
    known := fun _ => hends.2.2.2
    placed := ?_ }
  · simp [View.place, View.launch, h.log]
  · simp [View.place, View.launch]
  · intro g l hgl
    simp only [View.place, View.launch, hnil, List.nil_append, List.cons.injEq] at hgl
    obtain ⟨rfl, rfl⟩ := hgl
    exact ⟨hc, by simp⟩
  · intro hd g hg
    simp only [View.place, View.launch, hnil, List.nil_append, List.mem_singleton] at hg
    rw [hg]
    exact (hown hd).1
  · show Entered c a j _
    refine
      { stage_lt := hends.2.2.1
        ended := hends.1
        skips := hends.2.1
        pending := rfl
        past := fun i hi => .inl (View.place_streamed_ne hi.ne (hz i))
        later := fun i hi => View.place_streamed_ne hi.ne' (hz i)
        streamed := View.place_streamed (by rw [hnext]; exact hz j) (hnext ▸ hlt)
        next_le := fun _ => hle
        flight := ?_
        own := hown
        gate := .inr ⟨hent, hlt.trans_le hle⟩
        asked := nofun
        running := ?_ }
    · intro g hg
      simp only [View.place, View.launch, hflight, List.nil_append, List.mem_singleton] at hg
      rw [hg]
    · intro _
      refine ⟨rfl, fun _ => ⟨by simp [View.place, View.launch], .inl ?_⟩⟩
      rw [show (v.place a j e carried _).answers = v.answers from rfl, h.answers_eq_nil (hz j)]
      exact hlt.trans_le hle

/-- A dependent is released by its parent's launch. -/
lemma Local.release (h : Local c a v) (hd : c.isDependent a) (hr : v.released = false) :
    Local c a { v with released := true, waiting := v.waiting + 1 } := by
  refine { h with placed := ?_ }
  cases hs : v.stage with
  | queued =>
    have hq := h.queued hs
    refine { hq with waiting := ?_ }
    rw [hq.waiting]
    simp [hd, hr]
  | entered j => exact absurd ((h.entered hs).own hd).2 (by simp [hr])
  | done =>
    have hE := h.done hs
    refine { hE with waiting := ⟨?_, by simp [hd]⟩ }
    rw [hE.waiting.2 (.inr hr)]

/-- The view after an anchor entered stages. -/
def View.enter (v : View β) (o : Outcome) : View β :=
  { v with
    stage := o.stage
    next := 0
    lists := o.lists
    entering := v.entering + if o.waits then 1 else 0 }

/-- A released dependent is asked and keeps waiting. -/
lemma Local.ask {s : State β γ} {o : Outcome} (h : Local c a v) (hd : c.isDependent a)
    (hq : v.stage = .queued) (hw : v.waiting = 1) (ha : a < c.n)
    (hask : ∀ ask, c.ask a = some ask → ask (c.startStage a) ≠ .skip)
    (he : Enters c s a (c.startStage a) true none o) :
    Local c a { v.enter o with first := c.firstRows (c.startStage a) (o.lists (c.startStage a)) } := by
  have hQ := h.queued hq
  have hz := h.streamed_zero hQ.unadmitted
  obtain ⟨hstage, hwaits, _, _⟩ := he.decided rfl hask
  obtain ⟨i, hji, hik, hlist, hend⟩ := he.lists
  rcases hend with ⟨kind, hk, _⟩ | ⟨_, hi, hrow⟩
  · cases hk
  have hij : i = c.startStage a := by
    rcases hstage with hs | hs
    · rw [hs] at hi
      cases hi
    · rw [hs] at hi
      exact (Stage.entered.inj hi).symm
  subst hij
  have hrel : v.released = true := by
    have hw' := hQ.waiting
    rw [hw] at hw'
    by_contra hr
    simp [hr] at hw'
  have hpos : 0 < c.rowLength (c.startStage a) (o.lists (c.startStage a)) := by
    rcases hrow with ⟨hw, _⟩ | ⟨_, hpos⟩
    · rw [hw] at hwaits
      cases hwaits
    · exact hpos
  refine { h with known := fun _ => ha, placed := ?_ }
  show match o.stage with | .queued => _ | .entered j => _ | .done => _
  rw [hi]
  refine
    { stage_lt := hik
      ended := hQ.ended
      skips := hQ.skips
      pending := by rw [show (v.enter o).pending = v.pending from rfl, hQ.pending]; simp [hd]
      past := fun i _ => .inl (hz i)
      later := fun i _ => hz i
      streamed := hz _
      next_le := fun _ => Nat.zero_le _
      flight := ?_
      own := fun _ => ⟨rfl, hrel⟩
      gate := .inr ⟨by simp [View.enter, hQ.entering, hwaits], hpos⟩
      asked := fun _ => ⟨hw, hQ.ready, hd, rfl, rfl⟩
      running := ?_ }
  · intro g hg
    have hg : g ∈ v.flight := hg
    rw [h.flight_nil hQ.unadmitted] at hg
    cases hg
  · intro hadm
    rw [show (v.enter o).admitted = v.admitted from rfl, hQ.unadmitted] at hadm
    cases hadm

/-- Two views with the same groups and answers. -/
structure View.SameLog (v v' : View β) : Prop where
  launched : v'.launched = v.launched
  answered : v'.answered = v.answered
  flight : v'.flight = v.flight
  answers : v'.answers = v.answers
  admitted : v'.admitted = v.admitted

lemma View.SameLog.streamed {v' : View β} (h : v.SameLog v') {i d : ℕ} (hs : v.Streamed i d) :
    v'.Streamed i d := by
  unfold View.Streamed View.launchedAt at *
  rw [h.launched]
  exact hs

/-- What `Local` says of the groups carries over to a view with the same log. -/
lemma Local.of_sameLog {v' : View β} (h : Local c a v) (hv : v.SameLog v')
    (hknown : v'.stage ≠ .queued → a < c.n)
    (hplaced : match v'.stage with
      | .queued => Queued c a v'
      | .entered j => Entered c a j v'
      | .done => Ended c a v') : Local c a v' where
  log := by rw [hv.launched, hv.answered, hv.flight, h.log]
  bits := by
    intro j
    unfold View.answeredAt
    rw [hv.answers, hv.answered]
    exact h.bits j
  tiled := by
    intro j
    unfold View.answeredAt
    rw [hv.answers, hv.answered]
    exact h.tiled j
  unlaunched := by rw [hv.admitted, hv.launched, h.unlaunched]
  carries := by rw [hv.launched]; exact h.carries
  own := by rw [hv.launched]; exact h.own
  known := hknown
  placed := hplaced

/-- An unadmitted anchor ends: skipped by its group, dropped with its document, or with nothing to
ask. -/
lemma Local.end_unadmitted {v' : View β} (h : Local c a v) (hq : v.stage = .queued) (ha : a < c.n)
    (hv : v.SameLog v') (hs : v'.stage = .done) (hr : v'.ready = 0) (hent : v'.entering = 0)
    (hw : v'.waiting ≤ 1 ∧ (c.isDependent a = false ∨ v'.released = false → v'.waiting = 0))
    (hp : v'.pending ≤ 1 ∧ (c.isDependent a → v'.pending = 0))
    (he : v'.ended = 1 ∨ (v'.ended = 0 ∧ v'.skips = 1 ∧ c.isDependent a = false)) :
    Local c a v' := by
  have hQ := h.queued hq
  refine h.of_sameLog hv (fun _ => ha) ?_
  rw [hs]
  refine
    { ready := hr
      entering := hent
      waiting := hw
      pending := hp
      past := fun i => .inl (hv.streamed (h.streamed_zero hQ.unadmitted i))
      ended := ?_
      flight := ?_ }
  · rcases he with he | ⟨he, hskips, hd⟩
    · exact .inl he
    · exact .inr ⟨he, hskips, by rw [hv.admitted]; exact hQ.unadmitted, hd⟩
  · intro g hg
    rw [hv.flight, h.flight_nil hQ.unadmitted] at hg
    cases hg

/-- An ended anchor leaves a queue. -/
lemma Local.leave_queue {pending waiting : ℕ} (h : Local c a v) (hs : v.stage = .done)
    (hp : pending ≤ v.pending) (hw : waiting ≤ v.waiting) :
    Local c a { v with pending, waiting } := by
  refine { h with placed := ?_ }
  have hE := h.done hs
  rw [show ({ v with pending, waiting } : View β).stage = .done from hs]
  refine { hE with
    waiting := ⟨hw.trans hE.waiting.1, fun hd => Nat.le_zero.1 (hw.trans (hE.waiting.2 hd).le)⟩
    pending := ⟨hp.trans hE.pending.1, fun hd => Nat.le_zero.1 (hp.trans (hE.pending.2 hd).le)⟩ }

/-- Every stage's launched partners are a first part of its list. -/
lemma Local.streamed_exists (h : Local c a v) (i : ℕ) :
    ∃ e, v.Streamed i e ∧ e ≤ c.rowLength i (v.lists i) := by
  cases hs : v.stage with
  | queued => exact ⟨0, h.streamed_zero (h.queued hs).unadmitted i, Nat.zero_le _⟩
  | entered j =>
    have hE := h.entered hs
    rcases lt_trichotomy i j with hi | rfl | hi
    · rcases hE.past i hi with hp | hp
      · exact ⟨0, hp, Nat.zero_le _⟩
      · exact ⟨_, hp, le_rfl⟩
    · refine ⟨_, hE.streamed, ?_⟩
      rcases hE.gate with hg | hg
      · rw [hg.2.1]
        exact Nat.zero_le _
      · exact hE.next_le hg.1
    · exact ⟨0, hE.later i hi, Nat.zero_le _⟩
  | done =>
    rcases (h.done hs).past i with hp | hp
    · exact ⟨0, hp, Nat.zero_le _⟩
    · exact ⟨_, hp, le_rfl⟩

/-- The first group in flight starts where the answers of its stage end. -/
lemma Local.next_answer {g : Group} {rest : List Group} (h : Local c a v) (hf : v.flight = g :: rest)
    (hs : v.Streamed g.stage e) :
    g.start = (v.answers g.stage).length ∧ (v.answers g.stage).length < g.stop ∧ g.stop ≤ e := by
  have ht := h.flight_tiles hs
  rw [hf, List.filter_cons_of_pos (by simp)] at ht
  exact ⟨ht.1, ht.2.1, ht.2.2.le⟩

/-- The view after a group's answers are in. -/
def View.answer (v : View β) (g : Group) (rest : List Group) (bits : List β) (due : Bool) : View β :=
  { v with
    answers := update v.answers g.stage (v.answers g.stage ++ bits)
    flight := rest
    answered := v.answered ++ [(g, bits)]
    due }

lemma View.answer_answers {g : Group} {rest : List Group} {bits : List β} {due : Bool} :
    (v.answer g rest bits due).answers j =
      if j = g.stage then v.answers g.stage ++ bits else v.answers j :=
  update_apply _ _ _ _

lemma View.answeredAt_answer {g : Group} {rest : List Group} {bits : List β} {due : Bool} :
    (v.answer g rest bits due).answeredAt j =
      v.answeredAt j ++ if j = g.stage then [(g, bits)] else [] := by
  unfold View.answeredAt View.answer
  rw [List.filter_append]
  by_cases hj : j = g.stage
  · rw [if_pos hj, List.filter_cons_of_pos (by simpa using hj.symm), List.filter_nil]
  · rw [if_neg hj, List.filter_cons_of_neg (by simpa using Ne.symm hj), List.filter_nil]

/-- The answers of an anchor's first group in flight. -/
lemma Local.answer {g : Group} {rest : List Group} {bits : List β} (h : Local c a v)
    (hf : v.flight = g :: rest) (hb : bits.length = g.stop - g.start) (hdue : v.due = false) :
    Local c a (v.answer g rest bits
      (decide (v.stage = .entered g.stage ∧ g.stop = c.rowLength g.stage (v.lists g.stage)))) := by
  obtain ⟨e, hs, hle⟩ := h.streamed_exists g.stage
  obtain ⟨hstart, hlt, hstop⟩ := h.next_answer hf hs
  have hlen : (v.answers g.stage ++ bits).length = g.stop := by
    rw [List.length_append, hb]
    omega
  refine { h with
    log := ?_
    bits := ?_
    tiled := ?_
    placed := ?_ }
  · rw [show (v.answer g rest bits _).launched = v.launched from rfl, h.log, hf]
    simp [View.answer]
  · intro j
    rw [View.answer_answers, View.answeredAt_answer, List.flatMap_append]
    by_cases hj : j = g.stage
    · rw [if_pos hj, if_pos hj, hj, h.bits]
      simp
    · rw [if_neg hj, if_neg hj, h.bits]
      simp
  · intro j
    rw [View.answer_answers, View.answeredAt_answer]
    by_cases hj : j = g.stage
    · rw [if_pos hj, if_pos hj, hj, hlen]
      exact (h.tiled g.stage).snoc (x := (g, bits)) hstart hlt
    · rw [if_neg hj, if_neg hj, List.append_nil]
      exact h.tiled j
  · show match v.stage with | .queued => _ | .entered j => _ | .done => _
    have hsub : ∀ g' ∈ rest, g' ∈ v.flight := fun g' hg' => by
      rw [hf]
      exact List.mem_cons_of_mem _ hg'
    cases hst : v.stage with
    | queued =>
      rw [h.flight_nil (h.queued hst).unadmitted] at hf
      cases hf
    | entered j =>
      have hE := h.entered hst
      refine { hE with flight := fun g' hg' => hE.flight g' (hsub g' hg'), running := ?_ }
      intro hadm
      obtain ⟨hw, hrun⟩ := hE.running hadm
      refine ⟨hw, fun hent => ?_⟩
      obtain ⟨hready, hans⟩ := hrun hent
      refine ⟨hready, ?_⟩
      have hans := hans.resolve_right (by simp [hdue])
      rw [View.answer_answers]
      by_cases hj : j = g.stage
      · subst hj
        rw [if_pos rfl, hlen]
        rcases (hstop.trans hle).lt_or_eq with hlt' | heq
        · exact .inl hlt'
        · exact .inr (by simp [View.answer, heq, hst])
      · rw [if_neg hj]
        exact .inl hans
    | done =>
      have hE := h.done hst
      exact { hE with flight := fun g' hg' => hE.flight g' (hsub g' hg') }

/-- An anchor with partners launched at its stage is past the gate and admitted. -/
lemma Entered.running_of_pos (hE : Entered c a j v) (hpos : 0 < v.next) :
    v.entering = 0 ∧ v.admitted = true := by
  refine ⟨?_, ?_⟩
  · rcases hE.gate with hg | hg
    · omega
    · exact hg.1
  · by_contra hu
    have := (hE.asked (by simpa using hu)).2.2.2.1
    omega

/-- Entering a stage leaves the streams of the stages before it alone. -/
lemma View.past_enter {o : Outcome} {i d : ℕ} (hpast : ∀ i' < d, v.Past c i')
    (hzero : ∀ i', d ≤ i' → v.Streamed i' 0) (hd : d ≤ i)
    (hl : ∀ i' ≠ i, o.lists i' = v.lists i') (i' : ℕ) : (v.enter o).Past c i' := by
  rcases Nat.lt_or_ge i' d with h | h
  · have hrow : (v.enter o).lists i' = v.lists i' := hl i' (h.trans_le hd).ne
    unfold View.Past
    rw [hrow]
    exact hpast i' h
  · exact .inl (hzero i' h)

/-- An anchor stops at a later stage, waiting at its gate or ready to stream. -/
lemma Local.enter {s : State β γ} {o : Outcome} {d : ℕ} {decided : Bool} (h : Local c a v)
    (hj : v.stage = .entered j) (hd : c.isDependent a = false) (hadm : v.admitted = true)
    (hw : v.waiting = 0) (hjd : j ≤ d) (hpast : ∀ i < d, v.Past c i)
    (hzero : ∀ i, d ≤ i → v.Streamed i 0) (hl : v.lists = s.lists a)
    (he : Enters c s a d decided none o) (due : Bool) :
    Local c a { v.enter o with ready := 1, entering := if o.waits then 1 else 0, due } := by
  have hE := h.entered hj
  obtain ⟨i, hdi, hik, hlist, hend⟩ := he.lists
  rcases hend with ⟨kind, hk, _⟩ | ⟨_, hi, hrow⟩
  · cases hk
  rw [← hl] at hlist
  have hp := View.past_enter hpast hzero hdi hlist
  refine { h with known := fun _ => h.known (by simp [hj]), placed := ?_ }
  show match o.stage with | .queued => _ | .entered j => _ | .done => _
  rw [hi]
  refine
    { stage_lt := hik
      ended := hE.ended
      skips := hE.skips
      pending := hE.pending
      past := fun i' _ => hp i'
      later := fun i' hi' => hzero i' (hdi.trans hi'.le)
      streamed := hzero i hdi
      next_le := fun _ => Nat.zero_le _
      flight := fun g hg => ((hE.flight g hg).trans hjd).trans hdi
      own := by simp [hd]
      gate := ?_
      asked := ?_
      running := fun _ => ⟨hw, ?_⟩ }
  · rcases hrow with ⟨hwaits, _⟩ | ⟨hwaits, hpos⟩
    · exact .inl ⟨by simp [hwaits], rfl, rfl, hw, hadm, hd⟩
    · exact .inr ⟨by simp [hwaits], hpos⟩
  · intro hu
    rw [show (v.enter o).admitted = v.admitted from rfl, hadm] at hu
    cases hu
  · intro hent
    rcases hrow with ⟨hwaits, _⟩ | ⟨_, hpos⟩
    · simp [hwaits] at hent
    · refine ⟨(if_pos hpos).symm, .inl ?_⟩
      rw [show (v.enter o).answers = v.answers from rfl, h.answers_eq_nil (hzero i hdi)]
      exact hpos

/-- An anchor ends at a later stage. -/
lemma Local.end_enter {s : State β γ} {o : Outcome} {d : ℕ} {decided : Bool} {kind : Kind}
    (h : Local c a v) (hj : v.stage = .entered j) (hd : c.isDependent a = false)
    (hw : v.waiting = 0) (hpast : ∀ i < d, v.Past c i)
    (hzero : ∀ i, d ≤ i → v.Streamed i 0) (hflight : ∀ g ∈ v.flight, g.stage + 1 < c.k)
    (hl : v.lists = s.lists a) (he : Enters c s a d decided (some kind) o) (due : Bool) :
    Local c a { v.enter o with ready := 0, entering := 0, ended := 1, due } := by
  have hE := h.entered hj
  obtain ⟨i, hdi, _, hlist, hend⟩ := he.lists
  rcases hend with ⟨_, _, hi, _⟩ | ⟨hk, _⟩
  · rw [← hl] at hlist
    have hp := View.past_enter hpast hzero hdi hlist
    refine { h with known := fun _ => h.known (by simp [hj]), placed := ?_ }
    show match o.stage with | .queued => _ | .entered j => _ | .done => _
    rw [hi]
    exact
      { ready := rfl
        entering := rfl
        waiting := ⟨by show v.waiting ≤ 1; omega, fun _ => hw⟩
        pending := ⟨by show v.pending ≤ 1; rw [hE.pending]; exact Nat.zero_le _, fun _ => hE.pending⟩
        past := hp
        ended := .inl rfl
        flight := fun g hg => ⟨hflight g hg, hd⟩ }
  · cases hk

/-- An anchor whose row is in ends at its stage. -/
lemma Local.complete (h : Local c a v) (hj : v.stage = .entered j)
    (hans : (v.answers j).length = c.rowLength j (v.lists j)) (hpos : 0 < c.rowLength j (v.lists j))
    (due : Bool) : Local c a { v with stage := .done, ended := 1, due } := by
  have hE := h.entered hj
  have hle := h.answers_le hE.streamed
  have hent : v.entering = 0 := by
    rcases hE.gate with hg | hg
    · omega
    · exact hg.1
  have hnext : v.next = c.rowLength j (v.lists j) := (hE.next_le hent).antisymm (hans ▸ hle)
  have hadm : v.admitted = true := by
    by_contra hu
    have := (hE.asked (by simpa using hu)).2.2.2.1
    omega
  obtain ⟨hw, hrun⟩ := hE.running hadm
  have hnone : ∀ g ∈ v.flight, g.stage < j := by
    intro g hg
    refine (hE.flight g hg).lt_of_ne ?_
    exact h.flight_eq_nil (by rw [hans, ← hnext]; exact hE.streamed) g hg
  refine { h with known := fun _ => h.known (by simp [hj]), placed := ?_ }
  show Ended c a _
  refine
    { ready := by show v.ready = 0; rw [(hrun hent).1, if_neg (by omega)]
      entering := hent
      waiting := ⟨by show v.waiting ≤ 1; omega, fun _ => hw⟩
      pending := ⟨by show v.pending ≤ 1; rw [hE.pending]; exact Nat.zero_le _, fun _ => hE.pending⟩
      past := ?_
      ended := .inl rfl
      flight := ?_ }
  · intro i
    rcases lt_trichotomy i j with hi | rfl | hi
    · exact hE.past i hi
    · exact .inr (hnext ▸ hE.streamed)
    · exact .inl (hE.later i hi)
  · intro g hg
    have hlt := hnone g hg
    refine ⟨by have := hE.stage_lt; omega, ?_⟩
    by_contra hd
    have hd : c.isDependent a = true := by simpa using hd
    have hown := h.own hd g (by rw [h.log]; exact List.mem_append_right _ hg)
    have := (hE.own hd).1
    omega

end views

end Quail.Admission
