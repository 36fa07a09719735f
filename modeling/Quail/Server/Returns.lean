import Quail.Server.RunOne
import Mathlib.Order.Monotone.Basic

/-!
# `run_one` returns

In a run that keeps giving `run_one` turns, with a clock that passes every time, `run_one` returns: the
polls end by the deadline or by the grace after the record closed (`Polls`), and what follows them only
goes forward (`Loop.rank`).
-/

set_option linter.unusedSectionVars false

namespace Quail.Server
open Imperative Execution

variable {δ : Type} [DecidableEq δ] {specHash : Payload → Payload → Payload → ℚ → δ} {task : Task}
  {s : Execution δ} {r : Record Payload δ} {store : Store Payload δ}

/-! ## One turn -/

/-- The steps from a place past the polls to the return. -/
def Loop.rank : Loop δ → Option ℕ
  | .returned _ => some 0
  | .last => some 1
  | .abort | .exit => some 2
  | .raised _ _ | .check => some 3
  | .stop => some 4
  | .close _ => some 5
  | _ => none

/-- Past the polls. -/
def Exits (loop : Loop δ) : Prop := loop.rank.isSome = true

/-- Among the polls, with this deadline, and with this grace if one is given. -/
def Polls (deadline : ℚ) (grace : Option ℚ) : Loop δ → Prop
  | .wait deadline' grace' => deadline' = deadline ∧ ∀ f ∈ grace, grace' = some f
  | .get deadline' grace' => deadline' = deadline ∧ ∀ f ∈ grace, grace' = some f
  | .polled deadline' grace' _ => deadline' = deadline ∧ ∀ f ∈ grace, grace' = some f
  | _ => False

lemma step_loop {move : Move} (h : ∀ w, move ≠ .turn w) : (s.step specHash task move).loop = s.loop := by
  cases move with
  | emit event now =>
    show (s.emit event now).loop = s.loop
    unfold Execution.emit
    split
    · rfl
    · split_ifs
      · rfl
      · cases event with
        | answers | progress =>
          dsimp only
          unfold Execution.report
          split_ifs <;> rfl
        | finished | failed =>
          dsimp only
          unfold Execution.beforeClose
          split_ifs <;> rfl
        | _ => rfl
  | act verified time =>
    have hupdate {state : Option State} {phase progress plan : Option Payload} {rest : List Action} :
        (s.update task state phase progress plan time rest).loop = s.loop := by
      unfold Execution.update
      split <;> rfl
    have hfinish {why : Closing} {error result : Option Payload} :
        (s.finish task why error result time).2.loop = s.loop := by
      unfold Execution.finish
      split <;> rfl
    show (s.act task verified time).loop = s.loop
    unfold Execution.act
    split
    · rfl
    · exact hupdate
    · split <;> first | exact hupdate | exact hfinish | rfl
    · split <;> exact hfinish
  | turn w => exact absurd rfl (h w)
  | other call =>
    show (if foreign task call then { s with store := call.step specHash s.store } else s).loop = s.loop
    split_ifs <;> rfl
  | stop => rfl

/-- A close by `run_one` does not raise. -/
lemma Begun.finishes (h : Begun task s r) {why : Closing} (hloop : why.byLoop = true)
    (error : Option Payload) (time : ℚ) : ∃ s', s.finish task why error none time = (.ok (), s') := by
  obtain ⟨s', hfinish, -⟩ := h.closes error time hloop .stop fun _ _ _ => trivial
  exact ⟨s', hfinish⟩

/-- Past the polls a turn goes forward. -/
lemma Sound.turn_exits (h : Sound task s) {n : ℕ} (hrank : s.loop.rank = some (n + 1)) (w : World) :
    ∃ m ≤ n, (s.turn task w).loop.rank = some m := by
  cases h with
  | fresh h =>
    rw [h.loop] at hrank
    cases hrank
  | refused h =>
    obtain hloop | hloop := h.loop
    · rw [hloop] at hrank
      cases hrank
      unfold Execution.turn
      rw [hloop]
      dsimp only
      rw [perform_getRecord h.row]
      exact ⟨0, le_rfl, rfl⟩
    · rw [hloop] at hrank
      cases hrank
  | begun h =>
    have hsafe := h.loop
    have hget := perform_getRecord h.row
    unfold Execution.turn
    cases hloop : s.loop with
    | returned | begin | job | start | wait | get | polled | escaped =>
      rw [hloop] at hrank
      cases hrank
    | close why =>
      rw [hloop] at hrank hsafe
      cases hrank
      obtain ⟨s', hfinish⟩ := h.finishes hsafe (some (loopError task why)) w.time
      dsimp only
      rw [hfinish]
      exact ⟨4, le_rfl, rfl⟩
    | stop =>
      rw [hloop] at hrank
      cases hrank
      exact ⟨3, le_rfl, rfl⟩
    | check =>
      rw [hloop] at hrank
      cases hrank
      dsimp only
      rw [hget]
      dsimp only
      split_ifs
      · exact ⟨1, by decide, rfl⟩
      · exact ⟨2, le_rfl, rfl⟩
    | exit =>
      rw [hloop] at hrank
      cases hrank
      have hexit : Closing.exit.byLoop = true := rfl
      obtain ⟨s', hfinish⟩ := h.finishes hexit (some (loopError task .exit)) w.time
      dsimp only
      rw [hfinish]
      exact ⟨1, le_rfl, rfl⟩
    | raised error executing =>
      rw [hloop] at hrank
      cases hrank
      have hraised : Closing.raised.byLoop = true := rfl
      obtain ⟨s', hfinish⟩ := h.finishes hraised (some error) w.time
      dsimp only
      rw [hfinish]
      cases executing with
      | true => exact ⟨2, le_rfl, rfl⟩
      | false => exact ⟨1, by decide, rfl⟩
    | abort =>
      rw [hloop] at hrank
      cases hrank
      exact ⟨1, le_rfl, rfl⟩
    | last =>
      rw [hloop] at hrank
      cases hrank
      dsimp only
      rw [hget]
      exact ⟨0, le_rfl, rfl⟩

/-- A poll goes on, or past the polls. -/
lemma poll_polls {deadline now : ℚ} {grace grace' : Option ℚ} {current : Record Payload δ}
    (h : ∀ f ∈ grace', grace = some f) :
    Exits (s.poll deadline grace current now) ∨ Polls deadline grace' (s.poll deadline grace current now) := by
  unfold Execution.poll
  by_cases hdone : current.state.terminal = true
  · rw [if_pos hdone]
    dsimp only
    split_ifs
    · exact .inl rfl
    · refine .inr ⟨rfl, fun f hf => ?_⟩
      rw [h f hf]
      rfl
  · rw [if_neg hdone]
    split_ifs
    · exact .inl rfl
    · exact .inl rfl
    · exact .inl rfl
    · exact .inr ⟨rfl, h⟩

/-- A poll past the deadline ends the polls, or has a grace for the record that closed. -/
lemma poll_late (s : Execution δ) {deadline now : ℚ} (grace : Option ℚ) (current : Record Payload δ)
    (hlate : deadline < now) :
    Exits (s.poll deadline grace current now) ∨
      ∃ f, s.poll deadline grace current now = .wait deadline (some f) := by
  unfold Execution.poll
  by_cases hdone : current.state.terminal = true
  · rw [if_pos hdone]
    dsimp only
    split_ifs
    · exact .inl rfl
    · exact .inr ⟨_, rfl⟩
  · rw [if_neg hdone]
    split_ifs
    · exact .inl rfl
    · exact .inl rfl
    · exact .inl rfl

/-- A poll past the grace ends the polls. -/
lemma poll_graced {deadline now f : ℚ} {current : Record Payload δ}
    (hterminal : current.state.terminal = true) (hlate : f ≤ now) :
    Exits (s.poll deadline (some f) current now) := by
  unfold Execution.poll
  rw [if_pos hterminal, Option.getD_some, if_pos (.inr hlate)]
  rfl

/-- A turn in the polls stays there, or goes past them. -/
lemma turn_polls {deadline : ℚ} {grace : Option ℚ}
    (hpolls : Polls deadline grace s.loop) (w : World) :
    Exits (s.turn task w).loop ∨ Polls deadline grace (s.turn task w).loop := by
  unfold Execution.turn
  cases hloop : s.loop with
  | wait deadline' grace' =>
    rw [hloop] at hpolls
    dsimp only
    split
    · exact .inl rfl
    · exact .inr hpolls
    · exact .inl rfl
  | get deadline' grace' =>
    rw [hloop] at hpolls
    dsimp only
    split
    · exact .inr hpolls
    · exact .inl rfl
  | polled deadline' grace' current =>
    rw [hloop] at hpolls
    obtain ⟨rfl, hgrace⟩ := hpolls
    exact poll_polls hgrace
  | _ =>
    rw [hloop] at hpolls
    cases hpolls

/-- The first turn begins the record, or finds that it was cancelled. -/
lemma Sound.turn_begin (h : Sound task s) (hloop : s.loop = .begin) (w : World) :
    (s.turn task w).loop = .job ∨ Exits (s.turn task w).loop := by
  cases h with
  | @fresh r h =>
    unfold Execution.turn
    rw [hloop]
    dsimp only
    by_cases hqueued : r.state = .queued
    · obtain ⟨r', hperform, -⟩ := begin_queued w.time h.row hqueued
      rw [hperform]
      exact .inl rfl
    · obtain ⟨text, hperform⟩ := begin_refused w.time h.row hqueued
      rw [hperform]
      exact .inr rfl
  | begun h =>
    have hsafe := h.loop
    rw [hloop] at hsafe
    exact hsafe.elim
  | refused h =>
    obtain hlast | hreturned := h.loop
    · rw [hloop] at hlast
      cases hlast
    · rw [hloop] at hreturned
      cases hreturned

/-- A grace is given only once the record closed. -/
lemma Sound.graced (h : Sound task s) {deadline f : ℚ} {current : Record Payload δ}
    (hloop : s.loop = .polled deadline (some f) current) : current.state.terminal = true := by
  cases h with
  | fresh h =>
    rw [h.loop] at hloop
    cases hloop
  | begun h =>
    have hsafe := h.loop
    rw [hloop] at hsafe
    exact hsafe.1 rfl
  | refused h =>
    obtain hlast | hreturned := h.loop
    · rw [hlast] at hloop
      cases hloop
    · rw [hreturned] at hloop
      cases hloop

/-! ## Runs that go on -/

/-- The states of a run that goes on. -/
def states (specHash : Payload → Payload → Payload → ℚ → δ) (task : Task) (moves : ℕ → Move)
    (s : Execution δ) : ℕ → Execution δ
  | 0 => s
  | n + 1 => (states specHash task moves s n).step specHash task (moves n)

/-- `run_one` keeps getting turns, and the clock it reads passes every time. -/
structure Fair (moves : ℕ → Move) (clock : ℕ → ℚ) : Prop where
  turns : ∀ n, ∃ m, n ≤ m ∧ ∃ w, moves m = .turn w
  reads : ∀ n w, moves n = .turn w → w.clock = clock n
  monotone : Monotone clock
  passes : ∀ time, ∃ n, time < clock n

section Going

variable {moves : ℕ → Move} {clock : ℕ → ℚ} {n m : ℕ} {deadline : ℚ} {grace : Option ℚ}

/-- A place is left by a turn only. -/
lemma next_turn (specHash : Payload → Payload → Payload → ℚ → δ) (task : Task) (hfair : Fair moves clock)
    (s : Execution δ) (n : ℕ) :
    ∃ m, n ≤ m ∧ ∃ w : World, w.clock = clock m ∧
      (states specHash task moves s m).loop = (states specHash task moves s n).loop ∧
      states specHash task moves s (m + 1) = (states specHash task moves s m).turn task w := by
  obtain ⟨m, hle, w, hw⟩ := hfair.turns n
  obtain ⟨k, rfl⟩ := Nat.exists_eq_add_of_le hle
  clear hle
  induction k generalizing n with
  | zero =>
    refine ⟨n, le_rfl, w, hfair.reads n w hw, rfl, ?_⟩
    show (states specHash task moves s n).step specHash task (moves n) = _
    rw [show moves n = .turn w from hw]
    rfl
  | succ k ih =>
    by_cases hturn : ∃ w', moves n = .turn w'
    · obtain ⟨w', hw'⟩ := hturn
      refine ⟨n, le_rfl, w', hfair.reads n w' hw', rfl, ?_⟩
      show (states specHash task moves s n).step specHash task (moves n) = _
      rw [hw']
      rfl
    · obtain ⟨m, hle, w', hclock, hloop, hstep⟩ := ih (n + 1) (by rw [← hw]; congr 1; omega)
      refine ⟨m, by omega, w', hclock, hloop.trans ?_, hstep⟩
      exact step_loop fun w'' heq => hturn ⟨w'', heq⟩

/-- What every turn keeps of the place stays. -/
lemma loop_stays {P : Loop δ → Prop} (s : Execution δ)
    (hturn : ∀ n w, P (states specHash task moves s n).loop →
      P ((states specHash task moves s n).turn task w).loop)
    (hle : n ≤ m) (h : P (states specHash task moves s n).loop) : P (states specHash task moves s m).loop := by
  induction m, hle using Nat.le_induction with
  | base => exact h
  | succ m hle ih =>
    show P ((states specHash task moves s m).step specHash task (moves m)).loop
    by_cases hmove : ∃ w, moves m = .turn w
    · obtain ⟨w, hw⟩ := hmove
      rw [hw]
      exact hturn m w ih
    · rw [step_loop fun w heq => hmove ⟨w, heq⟩]
      exact ih

variable {s : Execution δ}

/-- Past the polls `run_one` returns. -/
lemma rank_returns (hsound : ∀ n, Sound task (states specHash task moves s n))
    (hfair : Fair moves clock) {k : ℕ}
    (hrank : (states specHash task moves s n).loop.rank = some k) :
    ∃ m status, (states specHash task moves s m).loop = .returned status := by
  induction k using Nat.strong_induction_on generalizing n with
  | _ k ih =>
    cases k with
    | zero =>
      refine ⟨n, ?_⟩
      cases hloop : (states specHash task moves s n).loop with
      | returned status => exact ⟨status, rfl⟩
      | raised error executing =>
        rw [hloop] at hrank
        cases hrank
      | _ =>
        rw [hloop] at hrank
        cases hrank
    | succ k =>
      obtain ⟨m, -, w, -, hloop, hstep⟩ := next_turn specHash task hfair s n
      obtain ⟨j, hj, hnext⟩ := (hsound m).turn_exits (hloop ▸ hrank) w
      refine ih j (Nat.lt_succ_of_le hj) (n := m + 1) ?_
      rw [hstep]
      exact hnext

lemma Exits.returns (hsound : ∀ n, Sound task (states specHash task moves s n))
    (hfair : Fair moves clock)
    (h : Exits (states specHash task moves s n).loop) :
    ∃ m status, (states specHash task moves s m).loop = .returned status := by
  obtain ⟨k, hrank⟩ := Option.isSome_iff_exists.1 h
  exact rank_returns hsound hfair hrank

/-- Among the polls a poll comes, or they end. -/
lemma Polls.polled (hfair : Fair moves clock)
    (h : Polls deadline grace (states specHash task moves s n).loop) :
    ∃ m, n ≤ m ∧ (Exits (states specHash task moves s m).loop ∨ ∃ grace' current,
      (states specHash task moves s m).loop = .polled deadline grace' current ∧
        ∀ f ∈ grace, grace' = some f) := by
  have hget : ∀ n grace', (states specHash task moves s n).loop = .get deadline grace' →
      (∀ f ∈ grace, grace' = some f) → ∃ m, n ≤ m ∧ (Exits (states specHash task moves s m).loop ∨
        ∃ grace' current, (states specHash task moves s m).loop = .polled deadline grace' current ∧
          ∀ f ∈ grace, grace' = some f) := by
    intro n grace' hloop hgrace
    obtain ⟨m, hle, w, -, hsame, hstep⟩ := next_turn specHash task hfair s n
    refine ⟨m + 1, Nat.le_succ_of_le hle, ?_⟩
    rw [hstep]
    unfold Execution.turn
    rw [hsame, hloop]
    dsimp only
    split
    · exact .inr ⟨_, _, rfl, hgrace⟩
    · exact .inl rfl
  cases hloop : (states specHash task moves s n).loop with
  | wait deadline' grace' =>
    rw [hloop] at h
    obtain ⟨rfl, hgrace⟩ := h
    obtain ⟨m, hle, w, -, hsame, hstep⟩ := next_turn specHash task hfair s n
    have hnext : Exits (states specHash task moves s (m + 1)).loop ∨
        (states specHash task moves s (m + 1)).loop = .get deadline' grace' := by
      rw [hstep]
      unfold Execution.turn
      rw [hsame, hloop]
      dsimp only
      split
      · exact .inl rfl
      · exact .inr rfl
      · exact .inl rfl
    obtain hexits | hloop' := hnext
    · exact ⟨m + 1, Nat.le_succ_of_le hle, .inl hexits⟩
    · obtain ⟨m', hle', hdone⟩ := hget (m + 1) grace' hloop' hgrace
      exact ⟨m', by omega, hdone⟩
  | get deadline' grace' =>
    rw [hloop] at h
    obtain ⟨rfl, hgrace⟩ := h
    exact hget n grace' hloop hgrace
  | polled deadline' grace' current =>
    rw [hloop] at h
    obtain ⟨rfl, hgrace⟩ := h
    exact ⟨n, le_rfl, .inr ⟨grace', current, hloop, hgrace⟩⟩
  | _ =>
    rw [hloop] at h
    cases h

/-- A turn past the polls stays past them. -/
lemma exits_turn {s : Execution δ} (h : Sound task s) (hexits : Exits s.loop) (w : World) :
    Exits (s.turn task w).loop := by
  obtain ⟨k, hrank⟩ := Option.isSome_iff_exists.1 hexits
  cases k with
  | zero =>
    have hreturned : ∃ status, s.loop = .returned status := by
      cases hloop : s.loop with
      | returned status => exact ⟨status, rfl⟩
      | _ =>
        rw [hloop] at hrank
        cases hrank
    obtain ⟨status, hloop⟩ := hreturned
    unfold Execution.turn
    rw [hloop]
    dsimp only
    rw [hloop]
    rfl
  | succ k =>
    obtain ⟨m, -, hnext⟩ := h.turn_exits hrank w
    exact Option.isSome_iff_exists.2 ⟨m, hnext⟩

/-- The polls end. -/
lemma Polls.exits (hsound : ∀ n, Sound task (states specHash task moves s n))
    (hfair : Fair moves clock)
    (h : Polls deadline none (states specHash task moves s n).loop) :
    ∃ m, Exits (states specHash task moves s m).loop := by
  -- what a later state can be: among the polls with what is known of them, or past them
  have hlater : ∀ {grace : Option ℚ} {n m : ℕ}, n ≤ m →
      Polls deadline grace (states specHash task moves s n).loop →
      Exits (states specHash task moves s m).loop ∨
        Polls deadline grace (states specHash task moves s m).loop := by
    intro grace n m hle hpolls
    refine loop_stays (P := fun loop : Loop δ => Exits loop ∨ Polls deadline grace loop) s ?_ hle (.inr hpolls)
    intro n w hstate
    obtain hexits | hpolls := hstate
    · exact .inl (exits_turn (hsound n) hexits w)
    · exact turn_polls hpolls w
  obtain ⟨late, hlate⟩ := hfair.passes deadline
  obtain hexits | hpolls := hlater (le_max_left n late) h
  · exact ⟨_, hexits⟩
  obtain ⟨m, hle, hexits | ⟨grace, current, hloop, -⟩⟩ := Polls.polled hfair hpolls
  · exact ⟨m, hexits⟩
  obtain ⟨m', hle', w, hclock, hsame, hstep⟩ := next_turn specHash task hfair s m
  have hpast : deadline < w.clock := by
    rw [hclock]
    exact hlate.trans_le (hfair.monotone (by omega))
  have hpoll : (states specHash task moves s (m' + 1)).loop =
      (states specHash task moves s m').poll deadline grace current w.clock := by
    rw [hstep]
    unfold Execution.turn
    rw [hsame, hloop]
  obtain hexits | ⟨f, hwait⟩ := poll_late (states specHash task moves s m') grace current hpast
  · exact ⟨m' + 1, hpoll ▸ hexits⟩
  have hgraced : Polls deadline (some f) (states specHash task moves s (m' + 1)).loop := by
    rw [hpoll, hwait]
    exact ⟨rfl, fun f' hf' => hf'⟩
  obtain ⟨end', hend⟩ := hfair.passes f
  obtain hexits | hpolls := hlater (le_max_left (m' + 1) end') hgraced
  · exact ⟨_, hexits⟩
  obtain ⟨m₂, hle₂, hexits | ⟨grace', current', hloop', hgrace'⟩⟩ := Polls.polled hfair hpolls
  · exact ⟨m₂, hexits⟩
  obtain ⟨m₃, hle₃, w', hclock', hsame', hstep'⟩ := next_turn specHash task hfair s m₂
  refine ⟨m₃ + 1, ?_⟩
  rw [hstep']
  unfold Execution.turn
  rw [hsame', hloop', hgrace' f rfl]
  refine poll_graced ((hsound m₂).graced (hgrace' f rfl ▸ hloop')) ?_
  rw [hclock']
  exact hend.le.trans (hfair.monotone (by omega))

lemma returns (hsound : ∀ n, Sound task (states specHash task moves s n)) (hfair : Fair moves clock)
    (hbegin : s.loop = .begin) : ∃ n status, (states specHash task moves s n).loop = .returned status := by
  obtain ⟨m, -, w, -, hsame, hstep⟩ := next_turn specHash task hfair s 0
  have hfirst := (hsound m).turn_begin (hsame.trans hbegin) w
  rw [← hstep] at hfirst
  obtain hjob | hexits := hfirst
  · obtain ⟨m₁, -, w₁, -, hsame₁, hstep₁⟩ := next_turn specHash task hfair s (m + 1)
    have hsecond : (states specHash task moves s (m₁ + 1)).loop = .start ∨
        Exits (states specHash task moves s (m₁ + 1)).loop := by
      rw [hstep₁]
      unfold Execution.turn
      rw [hsame₁, hjob]
      dsimp only
      split
      · exact .inl rfl
      · exact .inr rfl
    obtain hstart | hexits := hsecond
    · obtain ⟨m₂, -, w₂, -, hsame₂, hstep₂⟩ := next_turn specHash task hfair s (m₁ + 1)
      have hthird : Polls (w₂.clock + task.timeout) none (states specHash task moves s (m₂ + 1)).loop ∨
          Exits (states specHash task moves s (m₂ + 1)).loop := by
        rw [hstep₂]
        unfold Execution.turn
        rw [hsame₂, hstart]
        dsimp only
        split
        · exact .inl ⟨rfl, nofun⟩
        · exact .inr rfl
      obtain hpolls | hexits := hthird
      · obtain ⟨m₃, hexits⟩ := Polls.exits hsound hfair hpolls
        exact Exits.returns hsound hfair hexits
      · exact Exits.returns hsound hfair hexits
    · exact Exits.returns hsound hfair hexits
  · exact Exits.returns hsound hfair hexits

end Going

/-! ## Every run -/

lemma start_sound (hr : store.get? task.id = some r) (hqueued : r.state = .queued) :
    Sound task (start store) :=
  .fresh ⟨hr, .inl hqueued, rfl, rfl, rfl, rfl, rfl, rfl, rfl⟩

/-- What is promised of `run_one` on a store: of every timely run, and that it returns. -/
structure Promised (specHash : Payload → Payload → Payload → ℚ → δ) (task : Task)
    (store : Store Payload δ) : Prop where
  kept : ∀ moves move,
    EachStep (Execution.step specHash task) (Timely task) (start store) (moves ++ [move]) →
      RunKept specHash task (run (Execution.step specHash task) (start store) moves) move
  returns : ∀ moves clock, Fair moves clock →
    (∀ n, Timely task (states specHash task moves (start store) n) (moves n)) →
      ∃ n status, (states specHash task moves (start store) n).loop = .returned status

/-- A run and its last move. -/
lemma eachStep_concat {σ ι : Type} {step : σ → ι → σ} {C : σ → ι → Prop} {s : σ} {is : List ι} {i : ι}
    (h : EachStep step C s (is ++ [i])) : EachStep step C s is ∧ C (run step s is) i := by
  induction is generalizing s with
  | nil => exact ⟨trivial, h.1⟩
  | cons j is ih =>
    obtain ⟨hj, hrest⟩ := h
    exact ⟨⟨hj, (ih hrest).1⟩, (ih hrest).2⟩

/-- `run_one` on a queued record, in runs whose answers come before the record closes and whose progress
comes when the clock is past the interval of its writes. -/
theorem run_one_kept (specHash : Payload → Payload → Payload → ℚ → δ) (task : Task)
    (store : Store Payload δ) (r : Record Payload δ) (hr : store.get? task.id = some r)
    (hqueued : r.state = .queued) : Promised specHash task store where
  kept := by
    intro moves move hmoves
    obtain ⟨hmoves, hmove⟩ := eachStep_concat hmoves
    have hsound : Sound task (run (Execution.step specHash task) (start store) moves) :=
      run_invariant (fun s move h htimely => h.step move htimely) (start_sound hr hqueued) hmoves
    exact hsound.kept move hmove
  returns := by
    intro moves clock hfair htimely
    refine returns (fun n => ?_) hfair rfl
    induction n with
    | zero => exact start_sound hr hqueued
    | succ n ih => exact ih.step (moves n) (htimely n)

/-- A queued review. -/
def reviewStore : Store Payload Unit :=
  (Dict.empty).set "q" (.new () .empty .empty .empty 10 none 0)

/-- The task of the review. -/
def reviewTask : Task := ⟨"q", 10, "10", "results/q"⟩

theorem run_one_kept_review : Promised (fun _ _ _ _ => ()) reviewTask reviewStore :=
  run_one_kept _ reviewTask reviewStore _ rfl rfl

/-- The execution still runs when it is asked. -/
def pending : World := ⟨1, 1, .ok (), .ok (), .ok false, ""⟩

/-- Answers are saved at once, whatever became of the record. -/
lemma emit_answers {payload : Payload} {now : ℚ} (hqueue : s.queue = []) (harmed : s.armed = true) :
    (s.emit (.answers payload) now).lines = s.lines ++ [payload] := by
  unfold Execution.emit
  split
  case h_1 action rest hcons =>
    rw [hqueue] at hcons
    cases hcons
  case h_2 =>
    rw [if_neg (by rw [harmed]; decide)]
    dsimp only
    unfold Execution.report
    split_ifs <;> rfl

/-- An answer that comes after the cancellation closed the record is saved. -/
theorem run_one_not_kept : ¬RunKept (fun _ _ _ _ => ()) reviewTask
    (run (Execution.step (fun _ _ _ _ => ()) reviewTask) (start reviewStore)
      [.turn pending, .turn pending, .turn pending, .other (.requestCancel "q" 2), .turn pending,
        .turn pending, .turn pending, .turn pending])
    (.emit (.answers .empty) 3) := by
  intro h
  have hlines := (h.stale _ rfl rfl rfl).2
  have hsaved := (emit_answers rfl rfl).symm.trans hlines
  cases hsaved

end Quail.Server
