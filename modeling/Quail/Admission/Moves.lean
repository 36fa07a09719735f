import Quail.Admission.Run
import Quail.Lib.Tiling
import Mathlib.Data.List.Perm.Basic
import Mathlib.Logic.Relation

/-!
# What a call can do

Every call is a sequence of moves, each about one anchor: `Move` lists them with their guards. A
`World` is a run together with the settlements a call has made but not yet applied (`limbo`). The
invariants of runs are proved over moves; `Simulation` shows that every call of a run is a sequence
of them.
-/

namespace Quail.Admission
open Imperative Function

variable {β γ : Type} [DecidableEq γ] [ToString γ] (c : Config β γ)

/-- A run inside a call: `limbo` are the settlements whose groups are not settled yet, `due` is the
anchor whose whole row is in and whose stage is not decided yet. -/
structure World (β γ : Type) extends Run β γ where
  limbo : List Settlement
  due : Option Anchor

/-- The state of an anchor after it entered stages. -/
structure Outcome where
  stage : Stage
  lists : ℕ → Option Row
  passed : ℕ → Bool
  /-- It waits at a gated stage. -/
  waits : Bool
  /-- It skipped the last stage. -/
  skippedLast : Bool

/-- What `enter` does to the state. -/
def State.entered (s : State β γ) (a : Anchor) (o : Outcome) : State β γ :=
  { s.setStage a o.stage with
    next := update s.next a 0
    lists := update s.lists a o.lists
    passed := update s.passed a o.passed
    entering := if o.waits then s.entering ++ [a] else s.entering
    survivors := s.survivors + if o.skippedLast then 1 else 0 }

/-- The length of a list of requests, the stage's own when it is the whole list. -/
def Config.rowLength (j : ℕ) : Option Row → ℕ
  | none => (c.stageLengths j).length
  | some row => row.indices.length

omit [DecidableEq γ] [ToString γ] in
lemma State.numPartners_eq {c : Config β γ} {s : State β γ} {a : Anchor} {j : ℕ} :
    s.numPartners c a j = c.rowLength j (s.lists a j) := by
  unfold State.numPartners Config.rowLength
  cases s.lists a j <;> rfl

/-- Where an anchor can be after it enters stage `j`. -/
structure Enters (s : State β γ) (a : Anchor) (j : ℕ) (decided : Bool) (ended : Option Kind)
    (o : Outcome) : Prop where
  /-- Only the list of the stage it stops at changes. -/
  lists : ∃ i, j ≤ i ∧ i < c.k ∧ (∀ i' ≠ i, o.lists i' = s.lists a i') ∧
    ((∃ kind, ended = some kind ∧ o.stage = .done ∧ o.waits = false) ∨
      (ended = none ∧ o.stage = .entered i ∧
        (o.waits = true ∧ o.lists i = s.lists a i ∨ o.waits = false ∧ 0 < c.rowLength i (o.lists i))))
  /-- A dependent asked for its own stage stops there. -/
  decided : decided = true → (∀ ask, c.ask a = some ask → ask j ≠ .skip) →
    (o.stage = .done ∨ o.stage = .entered j) ∧ o.waits = false ∧ o.skippedLast = false ∧
      o.passed = s.passed a
  skipped : o.skippedLast = true → ended = some .finished ∧ o.stage = .done ∧
    o.passed (c.k - 1) = true
  passed : o.skippedLast = false → ended ≠ none → o.passed (c.k - 1) = s.passed a (c.k - 1)
  earlier : ∀ i < j, o.passed i = s.passed a i

/-- An anchor's group is in flight and the anchor no longer queued. -/
def State.joined (s : State β γ) (a : Anchor) : State β γ :=
  { s with
    groupBusy := match c.groupOf a with
      | none => s.groupBusy
      | some group => update s.groupBusy group (s.groupBusy group + 1)
    groupMembers := match c.groupOf a with
      | none => s.groupMembers
      | some group => update s.groupMembers group
        ((s.groupMembers group).map fun members => members.filter (· ≠ a)) }

/-- An anchor is admitted and leaves its queue. -/
def State.placed (s : State β γ) (a : Anchor) (j : ℕ) (borrow : Option (Anchor × ℕ))
    (pending waiting ready : List Anchor) : State β γ :=
  { ({ s.setStage a (.entered j) with
        zeroCost := if s.pageCosts a = 0 then s.zeroCost - 1 else s.zeroCost }.joined c a) with
    pending, waiting, ready, borrowing := s.borrowing.record a borrow }

/-- A group of the anchor is launched. -/
def World.launched (w : World β γ) (a : Anchor) (j start stop : ℕ) (carried : Bool) : World β γ :=
  { w with
    state := w.state.launch c a j stop
    flight := w.flight ++ [⟨a, j, start, stop, carried⟩]
    trace := w.trace ++ [.launched ⟨a, j, start, stop, carried⟩] }

/-- One move of a world. -/
inductive Move : World β γ → World β γ → Prop
  /-- The ready queue is reordered. -/
  | quiet {w : World β γ} {ready : List Anchor} {blocked : ℕ} :
      ready.Perm w.state.ready →
      Move w { w with state := { w.state with ready, blockedPages := blocked } }
  | launch {w : World β γ} {a : Anchor} {j stop : ℕ} {ready : List Anchor} :
      a ∈ w.state.ready → w.state.stage a = .entered j → w.state.entering = [] →
      w.state.next a < stop → stop ≤ w.state.numPartners c a j →
      ready.Perm (if stop < w.state.numPartners c a j then w.state.ready else w.state.ready.erase a) →
      Move w (({ w with state := { w.state with ready } } : World β γ).launched c a j
        (w.state.next a) stop false)
  | place {w : World β γ} {a : Anchor} {j stop : ℕ} {borrow : Option (Anchor × ℕ)}
      {chunk : List Anchor} {canBorrow : Anchor → Anchor → Bool → Bool}
      {before after pending waiting ready : List Anchor} :
      ((c.isDependent a = false ∧ w.state.stage a = .queued ∧ j = 0 ∧ waiting = w.state.waiting ∧
          w.state.pending = before ++ a :: after ∧ pending = before ++ after) ∨
        (c.isDependent a ∧ w.state.stage a = .entered j ∧ pending = w.state.pending ∧
          w.state.waiting = before ++ a :: after ∧ waiting = before ++ after)) →
      w.state.borrowing.choice canBorrow a chunk = .choose borrow →
      (∀ group, c.groupOf a = some group → w.state.groupMembers group ≠ none) →
      w.state.groupFull c a = false → 0 < stop → stop ≤ w.state.numPartners c a j →
      ready.Perm (if stop < w.state.numPartners c a j then a :: w.state.ready else w.state.ready) →
      Move w (({ w with state := w.state.placed c a j borrow pending waiting ready } :
        World β γ).launched c a j 0 stop (decide (0 < w.state.packed c a borrow)))
  /-- A released dependent is asked and waits on. -/
  | ask {w : World β γ} {a : Anchor} {o : Outcome} :
      c.isDependent a → a ∈ w.state.waiting → w.state.stage a = .queued →
      Enters c w.state a (c.startStage a) true none o →
      Move w { w with state := { w.state.entered a o with
        first := update w.state.first a ((w.state.entered a o).firstCost c a (c.startStage a) 0) } }
  /-- A released dependent is asked and ends. -/
  | askEmpty {w : World β γ} {a : Anchor} {o : Outcome} {kind : Kind} {before after : List Anchor} :
      c.isDependent a → w.state.waiting = before ++ a :: after → w.state.stage a = .queued →
      Enters c w.state a (c.startStage a) true (some kind) o →
      Move w { w with state := { (w.state.entered a o).setStage a .done with
        waiting := before ++ after
        settled := w.state.settled ++ [⟨kind, a, false⟩]
        skipped := w.state.skipped ++ [a] } }
  | popDead {w : World β γ} {a : Anchor} {before after : List Anchor} :
      w.state.pending = before ++ a :: after → w.state.stage a = .done →
      Move w { w with state := { w.state with
        pending := before ++ after, dead := w.state.dead - 1 } }
  /-- A dropped dependent leaves the waiting queue. -/
  | popEnded {w : World β γ} {a : Anchor} {before after : List Anchor} :
      w.state.waiting = before ++ a :: after → w.state.stage a = .done →
      Move w { w with state := { w.state with waiting := before ++ after } }
  | answer {w : World β γ} {g : Group} {bits : List β} :
      w.flight.find? (fun h => decide (h.anchor = g.anchor)) = some g →
      bits.length = g.stop - g.start → w.due = none →
      Move w
        { state := w.state.answer c g.anchor g.stage g.stop bits
          flight := w.flight.erase g
          trace := w.trace ++ [.answered g bits]
          limbo := w.limbo
          due := if w.state.stage g.anchor = .entered g.stage ∧
            g.stop = w.state.numPartners c g.anchor g.stage then some g.anchor else none }
  /-- An anchor goes on to a later stage. -/
  | advance {w : World β γ} {a : Anchor} {j : ℕ} {o : Outcome} :
      c.isDependent a = false → w.state.stage a = .entered j → j + 1 < c.k → w.state.passed a j →
      w.state.next a = w.state.numPartners c a j → 0 < w.state.next a →
      (∀ b, w.due = some b → b = a) → Enters c w.state a (j + 1) false none o →
      Move w { w with
        state := { w.state.entered a o with ready := w.state.ready ++ [a] }
        due := none }
  /-- An anchor goes on and ends at a later stage. -/
  | leave {w : World β γ} {a : Anchor} {j : ℕ} {o : Outcome} {kind : Kind} :
      c.isDependent a = false → w.state.stage a = .entered j → j + 1 < c.k → w.state.passed a j →
      w.state.next a = w.state.numPartners c a j → 0 < w.state.next a →
      (∀ b, w.due = some b → b = a) → Enters c w.state a (j + 1) false (some kind) o →
      Move w { w with
        state := w.state.entered a o
        limbo := w.limbo ++ [⟨kind, a, o.passed (c.k - 1)⟩]
        due := none }
  | drop {w : World β γ} {a : Anchor} {j : ℕ} :
      c.isDependent a = false → w.state.stage a = .entered j → j + 1 < c.k →
      w.state.passed a j = false → (w.state.answers a j).length = w.state.numPartners c a j →
      0 < w.state.numPartners c a j → (∀ b, w.due = some b → b = a) →
      Move w { w with
        state := w.state.setStage a .done
        limbo := w.limbo ++ [⟨.dropped, a, false⟩]
        due := none }
  | finish {w : World β γ} {a : Anchor} {j : ℕ} :
      w.state.stage a = .entered j → c.isDependent a ∨ j + 1 = c.k →
      (w.state.answers a j).length = w.state.numPartners c a j → 0 < w.state.numPartners c a j →
      (∀ b, w.due = some b → b = a) →
      Move w { w with
        state := (w.state.setStage a .done).countSurvivor c (c.branchOf a)
        limbo := w.limbo ++ [⟨.finished, a, w.state.passed a j⟩]
        due := none }
  /-- The conditions of a gated stage keep an anchor. -/
  | keep {w : World β γ} {a : Anchor} {j : ℕ} {o : Outcome} {rest : List Anchor} :
      w.state.entering = a :: rest → w.state.stage a = .entered j →
      Enters c w.state a j true none o →
      Move w { w with state := ({ w.state with entering := rest }).entered a o }
  /-- The conditions of a gated stage end an anchor. -/
  | decline {w : World β γ} {a : Anchor} {j : ℕ} {o : Outcome} {kind : Kind}
      {rest : List Anchor} :
      w.state.entering = a :: rest → w.state.stage a = .entered j →
      Enters c w.state a j true (some kind) o →
      Move w { w with
        state := { ({ w.state with entering := rest }).entered a o with
          ready := w.state.ready.filter fun b => decide (b ≠ a) }
        limbo := w.limbo ++ [⟨kind, a, o.passed (c.k - 1)⟩] }
  | settle {w : World β γ} {e : Settlement} {rest : List Settlement} :
      w.limbo = e :: rest →
      Move w
        { state := w.state.settleGroup c e.anchor e.survived
          flight := w.flight
          trace := w.trace ++ [.settled e]
          limbo := rest
          due := w.due }
  | takeSettled {w : World β γ} {e : Settlement} {rest : List Settlement} :
      w.state.settled = e :: rest →
      Move w { w with state := { w.state with settled := rest }, limbo := w.limbo ++ [e] }
  | takeSkipped {w : World β γ} {a : Anchor} {rest : List Anchor} :
      w.state.skipped = a :: rest →
      Move w { w with
        state := { w.state with skipped := rest, borrowing := w.state.borrowing.skip a }
        trace := w.trace ++ [.skipped a] }

/-- A sequence of moves. -/
abbrev Moves : World β γ → World β γ → Prop := Relation.ReflTransGen (Move c)

end Quail.Admission
