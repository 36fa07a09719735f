import Quail.Baselines.FilterTurns
import Quail.Lib.Fallible
import Mathlib.Data.Finset.Prod

/-!
# Runs of a filter sequence

What the loop has asked, answered and aborted however it ends, that it ends on an engine that finishes its
requests, and that the workers of the asynchronous version come to the same answers and survivors.
-/

namespace Quail.Baselines
open Imperative

variable {ε σ ω α : Type} {q : Query ε ω α} {truthy : α → Bool} {engine : Engine ε σ ω} {cap : ℤ} {e : σ}
  {s u : Loop σ ω α}

/-! ## The loop -/

/-- There is a document to open or a request in flight. -/
def Loop.Open (q : Query ε ω α) (s : Loop σ ω α) : Prop :=
  s.nextDocument < q.bodyIds.length ∨ s.inflight.entries ≠ []

instance : Decidable (s.Open q) := inferInstanceAs (Decidable (_ ∨ _))

lemma turns_zero : turns q truthy engine cap 0 s = .ok (decide ¬s.Open q) s := by
  have hover : (!(decide (s.nextDocument < q.bodyIds.length) || !s.inflight.entries.isEmpty)) =
      decide ¬s.Open q := by
    rw [Bool.eq_iff_iff, decide_eq_true_iff, Bool.not_eq_true', Bool.or_eq_false_iff, decide_eq_false_iff_not,
      Bool.not_eq_false', List.isEmpty_iff]
    unfold Loop.Open
    rw [not_or, not_not]
  show EStateM.Result.ok _ s = _
  rw [hover]

lemma turns_succ {fuel : ℕ} (hopen : s.Open q) : turns q truthy engine cap (fuel + 1) s =
    match turn q truthy engine cap s with
    | .ok () t => turns q truthy engine cap fuel t
    | .error error t => .error error t := by
  have hunfold : turns q truthy engine cap (fuel + 1) s =
      EStateM.bind (turn q truthy engine cap) (fun _ => turns q truthy engine cap fuel) s := by
    have hopen : s.nextDocument < q.bodyIds.length ∨ s.inflight.entries ≠ [] := hopen
    show (if s.nextDocument < q.bodyIds.length ∨ s.inflight.entries ≠ [] then _ else _ : EStateM _ _ _) s = _
    rw [if_pos hopen]
    rfl
  rw [hunfold]
  unfold EStateM.bind
  cases turn q truthy engine cap s <;> rfl

lemma turns_over {fuel : ℕ} (hopen : ¬s.Open q) : turns q truthy engine cap (fuel + 1) s = .ok true s := by
  have hopen : ¬(s.nextDocument < q.bodyIds.length ∨ s.inflight.entries ≠ []) := hopen
  show (if s.nextDocument < q.bodyIds.length ∨ s.inflight.entries ≠ [] then _ else _ : EStateM _ _ _) s = _
  rw [if_neg hopen]
  rfl

/-- A loop that still runs after one turn more ran before it. -/
lemma turns_running {fuel : ℕ} (h : turns q truthy engine cap (fuel + 1) s = .ok false u) :
    ∃ t, turns q truthy engine cap fuel s = .ok false t ∧ turn q truthy engine cap t = .ok () u := by
  induction fuel generalizing s with
  | zero =>
    by_cases hopen : s.Open q
    · refine ⟨s, by rw [turns_zero, decide_eq_false (not_not_intro hopen)], ?_⟩
      rw [turns_succ hopen] at h
      cases hturn : turn q truthy engine cap s with
      | error error t =>
        rw [hturn] at h
        cases h
      | ok x t =>
        rw [hturn] at h
        dsimp only at h
        rw [turns_zero] at h
        obtain ⟨_, rfl⟩ := EStateM.Result.ok.inj h
        rfl
    · rw [turns_over hopen] at h
      cases (EStateM.Result.ok.inj h).1
  | succ fuel ih =>
    by_cases hopen : s.Open q
    · rw [turns_succ hopen] at h
      cases hturn : turn q truthy engine cap s with
      | error error t =>
        rw [hturn] at h
        cases h
      | ok x t =>
        rw [hturn] at h
        obtain ⟨t', hrunning, hlast⟩ := ih h
        refine ⟨t', ?_, hlast⟩
        rw [turns_succ hopen, hturn]
        exact hrunning
    · rw [turns_over hopen] at h
      cases (EStateM.Result.ok.inj h).1

lemma wp_turns (hq : 0 < q.questionIds.length ∨ q.bodyIds = []) {fuel : ℕ}
    (h : Standing q truthy engine cap e [] s) (hempty : q.bodyIds = [] → s.inflight.entries = []) :
    wp (turns q truthy engine cap fuel) (fun ended u => Standing q truthy engine cap e [] u ∧
      (ended = true ↔ ¬u.Open q)) (fun _ => Broken q truthy cap) s := by
  induction fuel generalizing s with
  | zero =>
    unfold wp
    rw [turns_zero]
    exact ⟨h, decide_eq_true_iff⟩
  | succ fuel ih =>
    by_cases hopen : s.Open q
    · have hbodies : q.bodyIds ≠ [] := fun hbodies => hopen.elim
        (fun hnext => absurd hnext (by rw [hbodies]; exact Nat.not_lt_zero _)) fun hne => hne (hempty hbodies)
      have hturn := wp_turn (hq.resolve_right hbodies) h
      unfold wp at hturn ⊢
      rw [turns_succ hopen]
      cases heq : turn q truthy engine cap s with
      | error error t =>
        rw [heq] at hturn
        exact hturn
      | ok x t =>
        rw [heq] at hturn
        exact ih hturn.standing fun hnone => absurd hnone hbodies
    · unfold wp
      rw [turns_over hopen]
      exact ⟨h, iff_of_true rfl hopen⟩

/-! ## The start and the end -/

lemma documentCap_ok (h : q.documentCap = .ok cap) :
    (q.bodyIds = [] ∨ 0 < q.questionIds.length) ∧
      (q.bodyIds ≠ [] → (∀ m, q.maxNumSeqs = some m → 0 < m) → 0 < cap) := by
  unfold Query.documentCap filterDocumentCap at h
  by_cases hbodies : q.bodyIds = []
  · exact ⟨.inl hbodies, fun hne => absurd hbodies hne⟩
  · rw [if_neg hbodies] at h
    split at h
    case h_1 => cases h
    case h_2 longestTail hlongest =>
      refine ⟨.inr ?_, fun _ hseats => ?_⟩
      · cases hquestions : q.questionIds with
        | nil =>
          rw [hquestions] at hlongest
          cases hlongest
        | cons question questions => exact Nat.succ_pos _
      · split_ifs at h
        dsimp only at h
        split_ifs at h
        cases hseqs : q.maxNumSeqs with
        | none =>
          rw [hseqs] at h
          obtain rfl := Except.ok.inj h
          exact lt_of_lt_of_le Int.one_pos (le_max_left _ _)
        | some m =>
          rw [hseqs] at h
          obtain rfl := Except.ok.inj h
          exact lt_min (lt_of_lt_of_le Int.one_pos (le_max_left _ _)) (hseats m hseqs)

lemma standing_start : Standing q truthy engine cap e [] (.start e) where
  sound := Stages.Flow.sound_empty
  held := {
    ids := fun _ hentry => absurd hentry List.not_mem_nil
    widest := le_max_right _ _
    once := List.nodup_nil
    finishedOnce := List.nodup_nil
    finished := fun _ => iff_of_false List.not_mem_nil fun h => List.not_mem_nil h.1
    goes := .start
    added := rfl
    heard := fun _ hx => absurd hx List.not_mem_nil }
  rows := rfl
  within := le_max_right _ _
  opened := Nat.zero_le _
  shut := fun _ => rfl

/-- What the `finally` clause leaves. -/
structure Aborts (q : Query ε ω α) (s u : Loop σ ω α) : Prop where
  sequence : u.sequence = s.sequence
  asked : u.calls.asked = s.calls.asked
  finished : u.calls.finished = s.calls.finished
  history : u.calls.history = s.calls.history
  widest : u.calls.widest = s.calls.widest
  opened : u.nextDocument = s.nextDocument
  inflight : u.inflight = s.inflight
  aborted : ∀ x ∈ u.calls.asked, x ∉ u.calls.finished → q.requestId x.1 x.2 ∈ u.calls.aborted

/-- The requests in flight are aborted, also when that raises. -/
lemma wp_abort (h : ∀ x ∈ s.calls.asked, x ∉ s.calls.finished → q.requestId x.1 x.2 ∈ s.inflight.keys) :
    wp (abort engine) (fun _ u => Aborts q s u) (fun _ u => Aborts q s u) s := by
  unfold abort onEngine
  rw [wp_bind, wp_get, wp_ite]
  refine ⟨fun _ => ?_, fun hnone => ?_⟩
  · rw [wp_bind, wp_modify, wp_onPart]
    unfold wp
    cases engine.abortRequest s.inflight.keys s.engine <;> exact ⟨rfl, rfl, rfl, rfl, rfl, rfl, rfl, h⟩
  · refine ⟨rfl, rfl, rfl, rfl, rfl, rfl, rfl, fun x hx hnot => ?_⟩
    have hkey := h x hx hnot
    unfold Dict.keys at hkey
    rw [not_not.1 hnone] at hkey
    cases hkey

/-- What an outcome says of the loop it leaves. -/
def Outcome.Fits (q : Query ε ω α) (truthy : α → Bool) (engine : Engine ε σ ω) (cap : ℤ) (e : σ) :
    Outcome ε σ ω α → Prop
  | .running s => Standing q truthy engine cap e [] s ∧ s.Open q
  | .returned result u => ∃ s, Standing q truthy engine cap e [] s ∧ ¬s.Open q ∧ Aborts q s u ∧
      result = u.sequence.result
  | .raised _ u => ∃ s, Broken q truthy cap s ∧ Aborts q s u

lemma outcome_fits (hcap : q.documentCap = .ok cap) (fuel : ℕ) :
    (runFilterSequence q truthy engine e fuel).Fits q truthy engine cap e := by
  have hturns := @wp_turns _ _ _ _ q truthy engine cap e _ (documentCap_ok hcap).1.symm fuel
    standing_start fun _ => rfl
  unfold runFilterSequence
  rw [hcap]
  dsimp only
  unfold wp at hturns
  cases hrun : turns q truthy engine cap fuel (.start e) with
  | error error s =>
    rw [hrun] at hturns
    have habort := @wp_abort _ _ _ _ q engine s hturns.kept
    unfold wp at habort
    dsimp only
    cases heq : abort engine s with
    | ok x u =>
      rw [heq] at habort
      exact ⟨s, hturns, habort⟩
    | error error' u =>
      rw [heq] at habort
      exact ⟨s, hturns, habort⟩
  | ok ended s =>
    rw [hrun] at hturns
    obtain ⟨hstanding, hover⟩ := hturns
    cases ended with
    | false => exact ⟨hstanding, by_contra fun hnot => Bool.false_ne_true (hover.2 hnot)⟩
    | true =>
      have habort := @wp_abort _ _ _ _ q engine s hstanding.broken.kept
      unfold wp at habort
      dsimp only
      cases heq : abort engine s with
      | ok x u =>
        rw [heq] at habort
        exact ⟨s, hstanding, hover.1 rfl, habort, rfl⟩
      | error error' u =>
        rw [heq] at habort
        exact ⟨s, hstanding.broken, habort⟩

/-- A loop that is over has opened each document and waits for none. -/
lemma Standing.done (h : Standing q truthy engine cap e [] s) (hover : ¬s.Open q) :
    s.flow.Done q.bodyIds.length := by
  obtain ⟨hnext, hnone⟩ := not_or.1 hover
  refine ⟨le_antisymm h.opened (not_lt.1 hnext), ?_⟩
  show s.inflight.entries.map Prod.snd = []
  rw [not_not.1 hnone]
  rfl

lemma Aborts.flow (h : Aborts q s u) : u.flow = s.flow := by
  unfold Loop.flow
  rw [h.opened, h.inflight, h.asked, h.sequence]

/-! ## It ends -/

/-- How much was asked and finished. -/
def Loop.work (s : Loop σ ω α) : ℕ := s.calls.asked.length + s.calls.finished.length

lemma Standing.asked_le (h : Standing q truthy engine cap e [] s) :
    s.calls.asked.length ≤ q.bodyIds.length * q.questionIds.length := by
  have hsub : s.calls.asked.toFinset ⊆ Finset.range q.bodyIds.length ×ˢ Finset.range q.questionIds.length := by
    intro x hx
    obtain ⟨hd, hk⟩ := h.sound.lt_of_asked (List.mem_toFinset.1 hx)
    rw [Finset.mem_product, Finset.mem_range, Finset.mem_range]
    exact ⟨lt_of_lt_of_le hd h.opened, hk⟩
  have hcard := Finset.card_le_card hsub
  rwa [List.toFinset_card_of_nodup h.held.once, Finset.card_product, Finset.card_range, Finset.card_range] at hcard

lemma Standing.finished_le (h : Standing q truthy engine cap e [] s) :
    s.calls.finished.length ≤ s.calls.asked.length :=
  (h.held.finishedOnce.subperm fun _ hx => ((h.held.finished _).1 hx).1).length_le

lemma Standing.work_le (h : Standing q truthy engine cap e [] s) :
    s.work ≤ 2 * (q.bodyIds.length * q.questionIds.length) := by
  have hasked := h.asked_le
  have hfinished := h.finished_le
  unfold Loop.work
  omega

lemma Grows.work_le (h : Grows s u) : s.work ≤ u.work :=
  Nat.add_le_add h.asked.length_le h.finished.length_le

/-- The loop does not run forever on an engine that finishes its requests. -/
lemma not_forever (hcap : 0 < cap) (hengine : engine.Finishes e) {states : ℕ → Loop σ ω α}
    (hstanding : ∀ i, Standing q truthy engine cap e [] (states i)) (hopen : ∀ i, (states i).Open q)
    (hturned : ∀ i, Turned q truthy engine cap e (states i) (states (i + 1))) : False := by
  have hgrows : ∀ {i j}, i ≤ j → Grows (states i) (states j) := by
    intro i j hij
    induction hij with
    | refl => exact .refl
    | step _ ih => exact ih.trans (hturned _).grows
  have hanswered : ∀ i, ∀ id ∈ added (states i).calls.history, ∃ j, Answered (states j).calls.history id := by
    refine hengine (fun i => (states i).calls.history) (fun i => (hturned i).grows.history)
      (fun i => ⟨_, (hstanding i).held.goes⟩) (fun i => ?_) fun i => ?_
    · rw [(hstanding i).held.added]
      refine (hstanding i).held.once.map fun x y hxy => ?_
      obtain ⟨hd, hk⟩ := requestId_inj hxy
      exact Prod.ext hd hk
    · induction i with
      | zero => exact Nat.zero_le _
      | succ i ih => exact lt_of_le_of_lt ih (hturned i).steps
  -- from each turn on, something more is asked or finished
  have hmore : ∀ i, ∃ j, (states i).work < (states j).work := by
    intro i
    by_cases hwaiting : (states i).inflight.entries = []
    · refine ⟨i + 1, Nat.add_lt_add_of_lt_of_le ((hturned i).asks ?_ ?_) (hturned i).grows.finished.length_le⟩
      · exact (hopen i).resolve_right fun hne => hne hwaiting
      · rw [(hstanding i).rows, hwaiting]
        exact hcap
    · obtain ⟨entry, hentry⟩ := List.exists_mem_of_ne_nil _ hwaiting
      have hmem : entry.2 ∈ (states i).inflight.entries.map Prod.snd := List.mem_map.2 ⟨entry, hentry, rfl⟩
      have hasked : entry.2 ∈ (states i).calls.asked := (hstanding i).sound.asked_of_waiting hmem
      obtain ⟨j, hj⟩ := hanswered i (q.requestId entry.2.1 entry.2.2) (by
        rw [(hstanding i).held.added]
        exact List.mem_map.2 ⟨_, hasked, rfl⟩)
      have hnot : entry.2 ∉ (states i).calls.finished := fun hin => (((hstanding i).held.finished _).1 hin).2 hmem
      have hfinished : ∀ j, Answered (states j).calls.history (q.requestId entry.2.1 entry.2.2) →
          entry.2 ∈ (states j).calls.asked → entry.2 ∈ (states j).calls.finished := by
        intro j hj hin
        obtain hdone | ⟨_, ho, _⟩ := (hstanding j).held.heard _ hin hj
        · exact hdone
        · cases ho
      have hij : i ≤ j := by
        by_contra hlt
        have hle : j ≤ i := le_of_lt (not_le.1 hlt)
        obtain ⟨rest, hrest⟩ := (hgrows hle).history
        obtain ⟨before, prompt, after, outputs, output, heq, hstepped, ho⟩ := hj
        refine hnot (hfinished i ⟨before, prompt, after ++ rest, outputs, output, ?_,
          List.mem_append_left _ hstepped, ho⟩ hasked)
        rw [← hrest, heq, List.append_assoc]
        rfl
      have hdone := hfinished j hj ((hgrows hij).asked.subset hasked)
      refine ⟨j, Nat.add_lt_add_of_le_of_lt (hgrows hij).asked.length_le ?_⟩
      refine lt_of_le_of_ne (hgrows hij).finished.length_le fun heq => hnot ?_
      rw [(hgrows hij).finished.eq_of_length heq]
      exact hdone
  have hunbounded : ∀ m, ∃ i, m ≤ (states i).work := by
    intro m
    induction m with
    | zero => exact ⟨0, Nat.zero_le _⟩
    | succ m ih =>
      obtain ⟨i, hi⟩ := ih
      obtain ⟨j, hj⟩ := hmore i
      exact ⟨j, lt_of_le_of_lt hi hj⟩
  obtain ⟨i, hi⟩ := hunbounded (2 * (q.bodyIds.length * q.questionIds.length) + 1)
  exact absurd (hstanding i).work_le (not_le.2 hi)

/-- Some number of turns is enough. -/
lemma ends (hseats : ∀ m, q.maxNumSeqs = some m → 0 < m) (hengine : engine.Finishes e) :
    ∃ fuel, ∀ s, runFilterSequence q truthy engine e fuel ≠ .running s := by
  by_contra hforever
  have hrunning : ∀ fuel, ∃ s, runFilterSequence q truthy engine e fuel = .running s := fun fuel => by
    by_contra hnot
    exact hforever ⟨fuel, fun s hs => hnot ⟨s, hs⟩⟩
  cases hcap : q.documentCap with
  | error error =>
    obtain ⟨s, hs⟩ := hrunning 0
    unfold runFilterSequence at hs
    rw [hcap] at hs
    cases hs
  | ok cap =>
    choose states hstates using hrunning
    have hfits := fun fuel => @outcome_fits _ _ _ _ q truthy engine cap e hcap fuel
    have hstanding : ∀ i, Standing q truthy engine cap e [] (states i) ∧ (states i).Open q := by
      intro i
      have h := hfits i
      rw [hstates] at h
      exact h
    have hturns : ∀ i, turns q truthy engine cap i (.start e) = .ok false (states i) := by
      intro i
      have h := hstates i
      unfold runFilterSequence at h
      rw [hcap] at h
      dsimp only at h
      split at h
      case h_1 s heq =>
        rw [heq, Outcome.running.inj h]
      case h_2 s heq => split at h <;> cases h
      case h_3 error s heq => split at h <;> cases h
    have hbodies : q.bodyIds ≠ [] := by
      intro hbodies
      have hopen := (hstanding 0).2
      have hzero := hturns 0
      rw [turns_zero] at hzero
      obtain ⟨_, hstart⟩ := EStateM.Result.ok.inj hzero
      rw [← hstart] at hopen
      exact hopen.elim (fun hnext => absurd hnext (by rw [hbodies]; exact Nat.not_lt_zero _)) fun hne => hne rfl
    obtain ⟨hquestions, hpositive⟩ := documentCap_ok hcap
    refine not_forever (hpositive hbodies hseats) hengine (fun i => (hstanding i).1) (fun i => (hstanding i).2)
      fun i => ?_
    obtain ⟨t, ht, hturn⟩ := turns_running (hturns (i + 1))
    rw [hturns i] at ht
    obtain ⟨_, rfl⟩ := EStateM.Result.ok.inj ht
    have hturned := wp_turn (hquestions.resolve_left hbodies) (hstanding i).1
    unfold wp at hturned
    rw [hturn] at hturned
    exact hturned

/-! ## Workers -/

/-- What a worker awaits. -/
def Worker.waits : Worker → Option (ℕ × ℕ)
  | awaiting document stage => some (document, stage)
  | _ => none

/-- The documents of the group and their filters. -/
def Group.flow (g : Group α) : Stages.Flow α :=
  ⟨g.nextDocument, g.workers.filterMap Worker.waits, g.asked, g.sequence.answers, g.sequence.survivors⟩

/-- The workers between two resumptions. -/
structure Working (q : Query ε ω α) (truthy : α → Bool) (g : Group α) : Prop where
  sound : g.flow.Sound truthy q.questionIds.length
  opened : g.nextDocument ≤ q.bodyIds.length
  done : .done ∈ g.workers → g.nextDocument = q.bodyIds.length

section Working

variable {g : Group α} {w : ℕ} {worker : Worker}

lemma split_workers (h : g.workers[w]? = some worker) :
    ∃ before after, g.workers = before ++ worker :: after ∧
      ∀ next, g.workers.set w next = before ++ next :: after := by
  obtain ⟨hw, rfl⟩ := List.getElem?_eq_some_iff.1 h
  refine ⟨g.workers.take w, g.workers.drop (w + 1), ?_, fun next => List.set_eq_take_cons_drop next hw⟩
  rw [← List.drop_eq_getElem_cons hw, List.take_append_drop]

lemma waits_split {before after : List Worker} : ((before ++ worker :: after).filterMap Worker.waits).Perm
    (worker.waits.toList ++ (before ++ after).filterMap Worker.waits) := by
  rw [List.filterMap_append, List.filterMap_cons, List.filterMap_append]
  cases worker.waits with
  | none => exact .refl _
  | some x => exact List.perm_middle

lemma done_of_set {before after : List Worker} {d k : ℕ} (hworkers : g.workers = before ++ worker :: after)
    (hset : ∀ next, g.workers.set w next = before ++ next :: after)
    (hdone : .done ∈ g.workers.set w (.awaiting d k)) : .done ∈ g.workers := by
  rw [hset, List.mem_append, List.mem_cons] at hdone
  rw [hworkers, List.mem_append, List.mem_cons]
  obtain hdone | hdone | hdone := hdone
  · exact .inl hdone
  · cases hdone
  · exact .inr (.inr hdone)

/-- A worker that waits for nothing takes the next document, or returns. -/
lemma Working.next {before after : List Worker} {next : Group α} {sequence : FilterSequence α}
    (hq : q.bodyIds = [] ∨ 0 < q.questionIds.length) (h : Working q truthy g)
    (hworkers : g.workers = before ++ worker :: after)
    (hset : ∀ next, g.workers.set w next = before ++ next :: after)
    (hsound : Stages.Flow.Sound truthy q.questionIds.length ⟨g.nextDocument,
      (before ++ after).filterMap Worker.waits, g.asked, sequence.answers, sequence.survivors⟩)
    (heq : next = Group.next q { g with sequence } w) : Working q truthy next := by
  unfold Group.next at heq
  dsimp only at heq
  split_ifs at heq with hnext
  · subst heq
    refine ⟨?_, hnext, fun hdone => ?_⟩
    · have hquestions := hq.resolve_left fun hnone => absurd hnext (by rw [hnone]; exact Nat.not_lt_zero _)
      unfold Group.flow
      dsimp only
      rw [hset]
      refine (hsound.opens hquestions).perm (List.Perm.symm ?_)
      exact waits_split.trans (@List.perm_append_comm _ [(g.nextDocument, 0)] _)
    · exact absurd (h.done (done_of_set hworkers hset hdone)) (ne_of_lt hnext)
  · subst heq
    refine ⟨?_, h.opened, fun _ => le_antisymm h.opened (not_lt.1 hnext)⟩
    unfold Group.flow
    dsimp only
    rw [hset]
    exact hsound.perm (@waits_split .done before after).symm

/-- The worker that awaits an answer, and the others. -/
lemma Working.awaiting {before after : List Worker} {d k : ℕ} (h : Working q truthy g)
    (hworkers : g.workers = before ++ .awaiting d k :: after) : (d, k) ∈ g.flow.waiting ∧
      (g.flow.waiting.filter (· ≠ (d, k))).Perm ((before ++ after).filterMap Worker.waits) := by
  have hperm : g.flow.waiting.Perm ((d, k) :: (before ++ after).filterMap Worker.waits) := by
    unfold Group.flow
    dsimp only
    rw [hworkers]
    exact waits_split
  refine ⟨hperm.mem_iff.2 List.mem_cons_self, (hperm.filter _).trans ?_⟩
  have hnodup := hperm.nodup_iff.1 (h.sound.waiting.of_map Prod.fst)
  rw [List.nodup_cons] at hnodup
  rw [List.filter_cons_of_neg (by simp), List.filter_eq_self.2 fun x hx => ?_]
  exact decide_eq_true fun heq => hnodup.1 (heq ▸ hx)

lemma Working.resume {next : Group α} {resumed : Resumed ω} (hq : q.bodyIds = [] ∨ 0 < q.questionIds.length)
    (h : Working q truthy g) (hnext : g.resume q truthy w resumed = .ok next) : Working q truthy next := by
  unfold Group.resume at hnext
  split at hnext
  case h_1 hworker =>
    obtain ⟨before, after, hworkers, hset⟩ := split_workers hworker
    refine h.next hq hworkers hset ?_ (Except.ok.inj hnext).symm
    have hsound := h.sound
    unfold Group.flow at hsound
    rw [hworkers] at hsound
    exact hsound.perm waits_split
  case h_2 d k output hworker =>
    obtain ⟨before, after, hworkers, hset⟩ := split_workers hworker
    obtain ⟨hmem, hrest⟩ := h.awaiting hworkers
    have hrecord := @wp_record ε ω α q truthy d k output g.sequence
      (fun advances sequence => ∃ a, advances = decide (truthy a = true ∧ k + 1 < q.questionIds.length) ∧
        sequence.answers = g.sequence.answers.set (d, k + 1) a ∧
        sequence.survivors = if truthy a = true ∧ ¬k + 1 < q.questionIds.length then
          g.sequence.survivors ++ [d] else g.sequence.survivors)
      (fun _ _ => True) (fun _ _ _ => trivial) fun a sequence hanswers hsurvivors =>
        ⟨a, rfl, hanswers, hsurvivors⟩
    unfold wp at hrecord
    split at hnext
    case h_1 => cases hnext
    case h_2 sequence heq =>
      rw [heq] at hrecord
      obtain ⟨a, hadvances, hanswers, hsurvivors⟩ := hrecord
      obtain ⟨hpass, hlast⟩ := of_decide_eq_true hadvances.symm
      rw [if_neg fun hnot => hnot.2 hlast] at hsurvivors
      obtain rfl := Except.ok.inj hnext
      have hsound := h.sound.records (a := a) hmem
      rw [Stages.Flow.records_advanced hpass hlast] at hsound
      refine ⟨?_, h.opened, fun hdone => h.done ?_⟩
      · unfold Group.flow
        dsimp only
        rw [hset, hanswers, hsurvivors]
        refine hsound.perm (((hrest.append_right _).trans ?_).trans (@waits_split (.awaiting d (k + 1)) before after).symm)
        exact List.perm_append_comm
      · exact done_of_set hworkers hset hdone
    case h_3 sequence heq =>
      rw [heq] at hrecord
      obtain ⟨a, hadvances, hanswers, hsurvivors⟩ := hrecord
      have hstays := of_decide_eq_false hadvances.symm
      refine h.next hq hworkers hset ?_ (Except.ok.inj hnext).symm
      have hsound := h.sound.records (a := a) hmem
      rw [hanswers, hsurvivors]
      cases hpass : truthy a with
      | false =>
        rw [Stages.Flow.records_failed hpass] at hsound
        rw [if_neg fun hboth => Bool.false_ne_true hboth.1]
        exact hsound.perm hrest
      | true =>
        have hlast : ¬k + 1 < q.questionIds.length := fun hlast => hstays ⟨hpass, hlast⟩
        rw [Stages.Flow.records_survived hpass hlast] at hsound
        rw [if_pos ⟨rfl, hlast⟩]
        exact hsound.perm hrest
  case h_3 =>
    obtain rfl := Except.ok.inj hnext
    exact h

lemma Working.run {events : List (ℕ × Resumed ω)} {final : Group α} (hq : q.bodyIds = [] ∨ 0 < q.questionIds.length)
    (h : Working q truthy g)
    (hrun : events.foldlM (fun g event => g.resume q truthy event.1 event.2) g = .ok final) :
    Working q truthy final :=
  foldlM_ok (fun _ g => Working q truthy g) h (fun _ _ _ _ _ hg hnext => hg.resume hq hnext) hrun

lemma working_start : Working q truthy (Group.start q cap) := by
  have hnone : (List.replicate (min cap q.bodyIds.length).toNat Worker.fresh).filterMap Worker.waits = [] :=
    List.filterMap_eq_nil_iff.2 fun worker hworker => by
      rw [List.eq_of_mem_replicate hworker]
      rfl
  refine ⟨?_, Nat.zero_le _, fun hdone => absurd (List.eq_of_mem_replicate hdone) nofun⟩
  unfold Group.flow Group.start
  dsimp only
  rw [hnone]
  exact Stages.Flow.sound_empty

lemma length_workers {next : Group α} {resumed : Resumed ω} (h : g.resume q truthy w resumed = .ok next) :
    next.workers.length = g.workers.length := by
  have hnext : ∀ g : Group α, (Group.next q g w).workers.length = g.workers.length := by
    intro g
    unfold Group.next
    split_ifs <;> exact List.length_set
  unfold Group.resume at h
  split at h
  case h_1 =>
    rw [← Except.ok.inj h, hnext]
  case h_2 =>
    split at h
    case h_1 => cases h
    case h_2 =>
      rw [← Except.ok.inj h]
      exact List.length_set
    case h_3 =>
      rw [← Except.ok.inj h, hnext]
  case h_3 =>
    rw [Except.ok.inj h]

/-- The workers that returned have gone through the documents, when there was a worker. -/
lemma Working.over (h : Working q truthy g) (hdone : ∀ worker ∈ g.workers, worker = .done)
    (hsome : g.workers ≠ [] ∨ q.bodyIds = []) : g.flow.Done q.bodyIds.length := by
  refine ⟨?_, List.filterMap_eq_nil_iff.2 fun worker hworker => by rw [hdone worker hworker]; rfl⟩
  obtain hsome | hnone := hsome
  · obtain ⟨worker, hworker⟩ := List.exists_mem_of_ne_nil _ hsome
    exact h.done (hdone worker hworker ▸ hworker)
  · have hopened := h.opened
    rw [hnone] at hopened ⊢
    exact Nat.le_zero.1 hopened

end Working

/-! ## Every run -/

/-- Whether each question of a document was found true. -/
def trues (q : Query ε ω α) (truthy : α → Bool) (answers : Dict (ℕ × ℕ) α) (d : ℕ) : List Bool :=
  (List.range q.questionIds.length).map fun k => (answers.get? (d, k + 1)).any truthy

/-- What is promised of a sequence that returned: each document was asked its questions in order, up to
the first that was not true, the engine got these requests and no others, each was answered, and the
survivors are the documents whose answers are all true. -/
structure Returned (q : Query ε ω α) (truthy : α → Bool) (result : Result α) (s : Loop σ ω α) : Prop where
  asked : ∀ d, s.flow.stages d =
    if d < q.bodyIds.length then List.range (Stages.asks (trues q truthy result.answers d)) else []
  added : added s.calls.history = s.calls.asked.map fun x => q.requestId x.1 x.2
  answered : ∀ d m, (result.answers.get? (d, m)).isSome ↔ ∃ k ∈ s.flow.stages d, m = k + 1
  survivors : result.survivors =
    (List.range q.bodyIds.length).filter fun d => (trues q truthy result.answers d).all id

/-- What is promised of `run_filter_sequence`: of every run however far it got, of one that raised, of one
that returned, that it ends, and that `run_filter_sequence_async` returns the same on the same answers. -/
structure Promised (q : Query ε ω α) (truthy : α → Bool) (engine : Engine ε σ ω) (e : σ) : Prop where
  orderly : ∀ fuel, (runFilterSequence q truthy engine e fuel).loop.flow.Orderly truthy q.questionIds.length
  within : ∀ fuel cap, q.documentCap = .ok cap →
    ((runFilterSequence q truthy engine e fuel).loop.calls.widest : ℤ) ≤ max cap 0
  aborted : ∀ fuel error s, runFilterSequence q truthy engine e fuel = .raised error s →
    ∀ x ∈ s.calls.asked, x ∉ s.calls.finished → q.requestId x.1 x.2 ∈ s.calls.aborted
  ends : ∃ fuel, ∀ s, runFilterSequence q truthy engine e fuel ≠ .running s
  returned : ∀ fuel result s, runFilterSequence q truthy engine e fuel = .returned result s →
    Returned q truthy result s
  same : ∀ fuel result s events result', runFilterSequence q truthy engine e fuel = .returned result s →
    RunFilterSequenceAsync q truthy events result' →
      (∀ key a b, result.answers.get? key = some a → result'.answers.get? key = some b → a = b) →
        (∀ key, result.answers.get? key = result'.answers.get? key) ∧ result.survivors = result'.survivors

lemma runFilterSequence_refused {error : PyError} (h : q.documentCap = .error error) (fuel : ℕ) :
    runFilterSequence q truthy engine e fuel = .raised (q.raise error) (.start e) := by
  unfold runFilterSequence
  rw [h]

/-- What a loop that returned leaves, read off the loop before its `finally` clause. -/
lemma returned_fits {fuel : ℕ} {result : Result α}
    (h : runFilterSequence q truthy engine e fuel = .returned result u) : ∃ cap s, q.documentCap = .ok cap ∧
      Standing q truthy engine cap e [] s ∧ ¬s.Open q ∧ Aborts q s u ∧ result = u.sequence.result := by
  cases hcap : q.documentCap with
  | error error =>
    rw [runFilterSequence_refused hcap] at h
    cases h
  | ok cap =>
    have hfits := @outcome_fits _ _ _ _ q truthy engine cap e hcap fuel
    rw [h] at hfits
    obtain ⟨s, hs⟩ := hfits
    exact ⟨cap, s, rfl, hs⟩

lemma returned_of_run {fuel : ℕ} {result : Result α}
    (h : runFilterSequence q truthy engine e fuel = .returned result u) : Returned q truthy result u := by
  obtain ⟨cap, s, _, hstanding, hover, haborts, rfl⟩ := returned_fits h
  have hdone := hstanding.done hover
  have hsound := hstanding.sound
  rw [← haborts.flow] at hsound hdone
  refine ⟨hsound.stages_eq hdone, ?_, hsound.answered_iff hdone, hsound.survivors_eq hdone⟩
  rw [haborts.history, haborts.asked]
  exact hstanding.held.added

/-- The workers come to the same answers and survivors. -/
lemma same_of_runs {fuel : ℕ} {result result' : Result α} {events : List (ℕ × Resumed ω)}
    (h : runFilterSequence q truthy engine e fuel = .returned result u)
    (hasync : RunFilterSequenceAsync q truthy events result')
    (hagree : ∀ key a b, result.answers.get? key = some a → result'.answers.get? key = some b → a = b) :
    (∀ key, result.answers.get? key = result'.answers.get? key) ∧ result.survivors = result'.survivors := by
  obtain ⟨cap, s, hcap, hstanding, hover, haborts, rfl⟩ := returned_fits h
  obtain ⟨cap', g, hcap', hrun, hworkers, rfl⟩ := hasync
  obtain rfl := Except.ok.inj (hcap.symm.trans hcap')
  have hdone := hstanding.done hover
  have hworking := (@working_start _ _ _ q truthy cap).run (documentCap_ok hcap).1 hrun
  have hlength : g.workers.length = (min cap q.bodyIds.length).toNat :=
    foldlM_ok (fun _ g => g.workers.length = (min cap q.bodyIds.length).toNat) List.length_replicate
      (fun _ _ _ _ _ hg hnext => (length_workers hnext).trans hg) hrun
  have hsome : g.workers ≠ [] ∨ q.bodyIds = [] := by
    by_cases hpositive : 0 < cap
    · by_cases hbodies : q.bodyIds = []
      · exact .inr hbodies
      · left
        intro hnone
        rw [hnone] at hlength
        have := List.length_pos_of_ne_nil hbodies
        rw [List.length_nil] at hlength
        omega
    · -- a loop that is over had room for a document, if there was one
      right
      have hshut := hstanding.shut (not_lt.1 hpositive)
      have hnext : s.nextDocument = q.bodyIds.length := hdone.next
      exact List.eq_nil_of_length_eq_zero (hnext.symm.trans hshut)
  have hdone' := hworking.over hworkers hsome
  have hsound := hstanding.sound
  rw [← haborts.flow] at hsound hdone
  exact ⟨hsound.answers_eq hworking.sound hdone hdone' hagree,
    hsound.survivors_of_agree hworking.sound hdone hdone' hagree⟩

/-- An engine whose step answers every request true. -/
def echo : Engine PyError (List String) Bool where
  addRequest requestId _ := modify fun ids => ids ++ [requestId]
  step := do
    let ids ← get
    set ([] : List String)
    pure (ids.map fun requestId => ⟨requestId, true, true, [], none⟩)
  abortRequest _ := pure ()

/-- The engine makes this call. -/
def Engine.Does (engine : Engine ε σ ω) (e e' : σ) : Call ω → Prop
  | .added requestId prompt => engine.addRequest requestId prompt e = .ok () e'
  | .stepped outputs => engine.step e = .ok outputs e'

lemma goes_concat {history : List (Call ω)} {call : Call ω} {e' : σ} (h : engine.Goes e (history ++ [call]) e') :
    ∃ e₀, engine.Goes e history e₀ ∧ engine.Does e₀ e' call := by
  generalize hall : history ++ [call] = all at h
  cases h with
  | start => exact absurd hall (List.append_ne_nil_of_right_ne_nil _ (List.cons_ne_nil _ _))
  | added requestId prompt before returned =>
    obtain ⟨rfl, hlast⟩ := List.append_inj' hall rfl
    obtain rfl := (List.cons.inj hlast).1
    exact ⟨_, before, returned⟩
  | stepped outputs before returned =>
    obtain ⟨rfl, hlast⟩ := List.append_inj' hall rfl
    obtain rfl := (List.cons.inj hlast).1
    exact ⟨_, before, returned⟩

lemma answered_append {before after : List (Call ω)} {requestId : String} (h : Answered before requestId) :
    Answered (before ++ after) requestId := by
  obtain ⟨first, prompt, last, outputs, output, rfl, hstepped, ho⟩ := h
  exact ⟨first, prompt, last ++ after, outputs, output, by rw [List.append_assoc]; rfl,
    List.mem_append_left _ hstepped, ho⟩

/-- A request that was added waits until the next step, which answers it. -/
lemma echo_goes {e e' : List String} {before after : List (Call Bool)} {requestId : String} {prompt : Prompt}
    (h : echo.Goes e (before ++ .added requestId prompt :: after) e') :
    (requestId ∈ e' ∧ steps after = 0) ∨ Answered (before ++ .added requestId prompt :: after) requestId := by
  induction after using List.reverseRecOn generalizing e' with
  | nil =>
    obtain ⟨e₀, _, hadd⟩ := goes_concat h
    obtain ⟨_, rfl⟩ := EStateM.Result.ok.inj hadd
    exact .inl ⟨List.mem_append_right _ (List.mem_singleton_self _), rfl⟩
  | append_singleton after call ih =>
    rw [← List.cons_append, ← List.append_assoc] at h ⊢
    obtain ⟨e₀, hgoes, hcall⟩ := goes_concat h
    obtain ⟨hmem, hsteps⟩ | hanswered := ih hgoes
    · cases call with
      | added requestId' prompt' =>
        obtain ⟨_, rfl⟩ := EStateM.Result.ok.inj hcall
        refine .inl ⟨List.mem_append_left _ hmem, ?_⟩
        rw [steps_append, hsteps]
        rfl
      | stepped outputs =>
        obtain ⟨houtputs, _⟩ := EStateM.Result.ok.inj hcall
        refine .inr ⟨before, prompt, after ++ [.stepped outputs], outputs, ⟨requestId, true, true, [], none⟩, ?_,
          List.mem_append_right _ (List.mem_singleton_self _), ?_, rfl, rfl⟩
        · rw [List.append_assoc, List.cons_append]
        · rw [← houtputs]
          exact List.mem_map.2 ⟨requestId, hmem, rfl⟩
    · exact .inr (answered_append hanswered)

lemma mem_added {history : List (Call ω)} {requestId : String} (h : requestId ∈ added history) :
    ∃ before prompt after, history = before ++ .added requestId prompt :: after := by
  induction history with
  | nil => cases h
  | cons call history ih =>
    cases call with
    | added requestId' prompt =>
      cases h with
      | head => exact ⟨[], prompt, history, rfl⟩
      | tail _ h =>
        obtain ⟨before, prompt', after, rfl⟩ := ih h
        exact ⟨_ :: before, prompt', after, rfl⟩
    | stepped outputs =>
      obtain ⟨before, prompt', after, rfl⟩ := ih h
      exact ⟨_ :: before, prompt', after, rfl⟩

lemma echo_finishes : echo.Finishes [] := by
  intro histories hchain hgoes _ hsteps i requestId hadded
  obtain ⟨before, prompt, after, hbefore⟩ := mem_added hadded
  have hprefixes : ∀ {i j}, i ≤ j → histories i <+: histories j := by
    intro i j hij
    induction hij with
    | refl => exact List.prefix_refl _
    | step _ ih => exact ih.trans (hchain _)
  -- a history with a step more
  obtain ⟨rest, hrest⟩ := hprefixes (le_max_left i (steps (histories i) + 1))
  obtain ⟨e', he'⟩ := hgoes (max i (steps (histories i) + 1))
  have hmore := hsteps (max i (steps (histories i) + 1))
  rw [← hrest, hbefore, List.append_assoc, List.cons_append] at he'
  obtain ⟨_, hnone⟩ | hanswered := echo_goes he'
  · rw [← hrest, steps_append] at hmore
    rw [steps_append] at hnone
    have := le_max_right i (steps (histories i) + 1)
    omega
  · refine ⟨max i (steps (histories i) + 1), ?_⟩
    rw [← hrest, hbefore, List.append_assoc, List.cons_append]
    exact hanswered

/-- Two documents and two questions. -/
def echoQuery : Query PyError Bool Bool where
  bodyIds := [[1], [2]]
  questionIds := [[3], [4]]
  budgetTokens := 100
  tag := "q"
  readAnswer output := .ok output.answer
  blockSize := 1
  maxNumSeqs := some 2
  bodyTexts := none
  questionTexts := none
  renderPrompt := none
  raise := id

end Quail.Baselines
