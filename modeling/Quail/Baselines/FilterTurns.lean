import Quail.Baselines.FilterSequence

/-!
# The turns of a filter sequence

Between two outputs the loop is `Standing`: its documents stand as in a `Stages.Flow` of their filters, the
requests in flight are the ones that wait, and the live documents are counted. `fillCap` and `take` keep
that; where one of them raises, the loop is `Broken` off, which is what the `finally` clause needs.
-/

namespace Quail.Baselines
open Imperative

variable {ε σ ω α : Type}

/-! ## Identifiers of requests -/

lemma append_cons_inj {c : Char} {l l' r r' : List Char} (hl : c ∉ l) (hl' : c ∉ l')
    (h : l ++ c :: r = l' ++ c :: r') : l = l' ∧ r = r' := by
  induction l generalizing l' with
  | nil =>
    cases l' with
    | nil => exact ⟨rfl, (List.cons.inj h).2⟩
    | cons b l' =>
      rw [(List.cons.inj h).1] at hl'
      exact absurd List.mem_cons_self hl'
  | cons b l ih =>
    cases l' with
    | nil =>
      rw [← (List.cons.inj h).1] at hl
      exact absurd List.mem_cons_self hl
    | cons b' l' =>
      obtain ⟨hb, hrest⟩ := List.cons.inj h
      obtain ⟨heq, hr⟩ := ih (fun hc => hl (List.mem_cons_of_mem _ hc))
        (fun hc => hl' (List.mem_cons_of_mem _ hc)) hrest
      exact ⟨by rw [hb, heq], hr⟩

lemma toDigits_inj {m n : ℕ} (h : Nat.toDigits 10 m = Nat.toDigits 10 n) : m = n := by
  have hm := @Nat.ofDigitChars_toDigits 10 m (by decide) (by decide)
  rw [h, Nat.ofDigitChars_toDigits (by decide) (by decide)] at hm
  exact hm.symm

lemma dash_not_digit {n : ℕ} : '-' ∉ Nat.toDigits 10 n := fun h =>
  absurd (Nat.isDigit_of_mem_toDigits (by decide) (by decide) h) (by decide)

lemma toList_requestId (q : Query ε ω α) (document stage : ℕ) : (q.requestId document stage).toList =
    q.tag.toList ++ '-' :: (Nat.toDigits 10 document ++ '-' :: Nat.toDigits 10 stage) := by
  unfold Query.requestId
  simp only [String.toList_append, Nat.toString_eq_repr, Nat.toList_repr, List.append_assoc]
  rfl

/-- Two requests of a query have two identifiers. -/
lemma requestId_inj {q : Query ε ω α} {d k d' k' : ℕ} (h : q.requestId d k = q.requestId d' k') :
    d = d' ∧ k = k' := by
  have hlist := congrArg String.toList h
  rw [toList_requestId, toList_requestId] at hlist
  obtain ⟨hd, hk⟩ := append_cons_inj dash_not_digit dash_not_digit
    (List.cons.inj (List.append_cancel_left hlist)).2
  exact ⟨toDigits_inj hd, toDigits_inj hk⟩

/-! ## What an engine does -/

/-- The engine goes from one state to another by these calls. -/
inductive Engine.Goes (engine : Engine ε σ ω) (e : σ) : List (Call ω) → σ → Prop where
  | start : engine.Goes e [] e
  | added {history : List (Call ω)} {e' e'' : σ} (requestId : String) (prompt : Prompt)
      (before : engine.Goes e history e')
      (returned : engine.addRequest requestId prompt e' = .ok () e'') :
      engine.Goes e (history ++ [.added requestId prompt]) e''
  | stepped {history : List (Call ω)} {e' e'' : σ} (outputs : List (Output ω))
      (before : engine.Goes e history e') (returned : engine.step e' = .ok outputs e'') :
      engine.Goes e (history ++ [.stepped outputs]) e''

/-- The requests a history added. -/
def added : List (Call ω) → List String
  | [] => []
  | .added requestId _ :: history => requestId :: added history
  | .stepped _ :: history => added history

/-- How often a history stepped. -/
def steps : List (Call ω) → ℕ
  | [] => 0
  | .added _ _ :: history => steps history
  | .stepped _ :: history => steps history + 1

/-- A request was finished by a step after it was added. -/
def Answered (history : List (Call ω)) (requestId : String) : Prop :=
  ∃ before prompt after outputs output, history = before ++ .added requestId prompt :: after ∧
    .stepped outputs ∈ after ∧ output ∈ outputs ∧ output.finished = true ∧ output.requestId = requestId

/-- The engine eventually finishes each request: where it is stepped again and again, and no request is
added twice, a request that was added comes finished out of a step. -/
def Engine.Finishes (engine : Engine ε σ ω) (e : σ) : Prop :=
  ∀ histories : ℕ → List (Call ω), (∀ i, histories i <+: histories (i + 1)) →
    (∀ i, ∃ e', engine.Goes e (histories i) e') → (∀ i, (added (histories i)).Nodup) →
      (∀ i, i ≤ steps (histories i)) →
        ∀ i, ∀ requestId ∈ added (histories i), ∃ j, Answered (histories j) requestId

lemma added_append {h h' : List (Call ω)} : added (h ++ h') = added h ++ added h' := by
  induction h with
  | nil => rfl
  | cons call h ih => cases call with
    | added requestId prompt => rw [List.cons_append, added, added, ih, List.cons_append]
    | stepped outputs => rw [List.cons_append, added, added, ih]

lemma steps_append {h h' : List (Call ω)} : steps (h ++ h') = steps h + steps h' := by
  induction h with
  | nil => rw [List.nil_append, steps, zero_add]
  | cons call h ih => cases call with
    | added requestId prompt => rw [List.cons_append, steps, steps, ih]
    | stepped outputs => rw [List.cons_append, steps, steps, ih, Nat.add_right_comm]

/-- The last call of a history that answers a request. -/
lemma answered_concat {history : List (Call ω)} {call : Call ω} {requestId : String}
    (h : Answered (history ++ [call]) requestId) : Answered history requestId ∨
      ∃ outputs output, call = .stepped outputs ∧ output ∈ outputs ∧ output.finished = true ∧
        output.requestId = requestId := by
  obtain ⟨before, prompt, after, outputs, output, heq, hstepped, hmem, hfinished, hid⟩ := h
  obtain rfl | ⟨after, last, rfl⟩ := List.eq_nil_or_concat after
  · cases hstepped
  · rw [List.concat_eq_append, ← List.cons_append, ← List.append_assoc] at heq
    obtain ⟨hbefore, hlast⟩ := List.append_inj' heq rfl
    obtain rfl := (List.cons.inj hlast).1
    rw [List.concat_eq_append, List.mem_append, List.mem_singleton] at hstepped
    obtain hstepped | rfl := hstepped
    · exact .inl ⟨before, prompt, after, outputs, output, hbefore, hstepped, hmem, hfinished, hid⟩
    · exact .inr ⟨outputs, output, rfl, hmem, hfinished, hid⟩

/-! ## Between two outputs -/

section

variable {q : Query ε ω α} {truthy : α → Bool} {engine : Engine ε σ ω} {cap : ℤ} {e e' : σ}
  {pending : List (Output ω)} {s : Loop σ ω α} {d k : ℕ}

/-- The documents of the loop and their filters. -/
def Loop.flow (s : Loop σ ω α) : Stages.Flow α :=
  ⟨s.nextDocument, s.inflight.entries.map Prod.snd, s.calls.asked, s.sequence.answers, s.sequence.survivors⟩

/-- The requests in flight are those of the calls. `pending` are the outputs of the last step that are still
to be looked at. -/
structure Held (q : Query ε ω α) (engine : Engine ε σ ω) (cap : ℤ) (e : σ) (pending : List (Output ω))
    (s : Loop σ ω α) : Prop where
  ids : ∀ entry ∈ s.inflight.entries, entry.1 = q.requestId entry.2.1 entry.2.2
  widest : (s.calls.widest : ℤ) ≤ max cap 0
  once : s.calls.asked.Nodup
  finishedOnce : s.calls.finished.Nodup
  finished : ∀ x, x ∈ s.calls.finished ↔ x ∈ s.calls.asked ∧ x ∉ s.inflight.entries.map Prod.snd
  goes : engine.Goes e s.calls.history s.engine
  added : added s.calls.history = s.calls.asked.map fun x => q.requestId x.1 x.2
  heard : ∀ x ∈ s.calls.asked, Answered s.calls.history (q.requestId x.1 x.2) →
    x ∈ s.calls.finished ∨ ∃ o ∈ pending, o.finished = true ∧ o.requestId = q.requestId x.1 x.2

/-- The loop between two outputs. -/
structure Standing (q : Query ε ω α) (truthy : α → Bool) (engine : Engine ε σ ω) (cap : ℤ) (e : σ)
    (pending : List (Output ω)) (s : Loop σ ω α) : Prop where
  sound : s.flow.Sound truthy q.questionIds.length
  held : Held q engine cap e pending s
  rows : s.expectedRows = s.inflight.entries.length
  within : s.expectedRows ≤ max cap 0
  opened : s.nextDocument ≤ q.bodyIds.length
  shut : cap ≤ 0 → s.nextDocument = 0

/-- The loop where something was raised. -/
structure Broken (q : Query ε ω α) (truthy : α → Bool) (cap : ℤ) (s : Loop σ ω α) : Prop where
  orderly : s.flow.Orderly truthy q.questionIds.length
  widest : (s.calls.widest : ℤ) ≤ max cap 0
  kept : ∀ x ∈ s.calls.asked, x ∉ s.calls.finished → q.requestId x.1 x.2 ∈ s.inflight.keys

namespace Held

lemma key_of_waiting (h : Held q engine cap e pending s) (hmem : (d, k) ∈ s.inflight.entries.map Prod.snd) :
    q.requestId d k ∈ s.inflight.keys := by
  obtain ⟨entry, hentry, heq⟩ := List.mem_map.1 hmem
  have hid := h.ids entry hentry
  rw [heq] at hid
  exact List.mem_map.2 ⟨entry, hentry, hid⟩

lemma waiting_of_key (h : Held q engine cap e pending s) (hmem : q.requestId d k ∈ s.inflight.keys) :
    (d, k) ∈ s.inflight.entries.map Prod.snd := by
  obtain ⟨entry, hentry, heq⟩ := List.mem_map.1 hmem
  obtain ⟨hd, hk⟩ := requestId_inj ((h.ids entry hentry).symm.trans heq)
  refine List.mem_map.2 ⟨entry, hentry, ?_⟩
  rw [← hd, ← hk]

lemma id_of_get? (h : Held q engine cap e pending s) {id : String} (hget : s.inflight.get? id = some (d, k)) :
    id = q.requestId d k ∧ (d, k) ∈ s.inflight.entries.map Prod.snd := by
  have hmem := Dict.mem_entries_iff.2 hget
  exact ⟨h.ids _ hmem, List.mem_map.2 ⟨_, hmem, rfl⟩⟩

/-- Popping a request takes it out of what waits. -/
lemma waiting_erase (h : Held q engine cap e pending s) :
    (s.inflight.erase (q.requestId d k)).entries.map Prod.snd =
      (s.inflight.entries.map Prod.snd).filter (· ≠ (d, k)) := by
  show (s.inflight.entries.filter fun entry => !decide (entry.1 = q.requestId d k)).map Prod.snd = _
  rw [List.filter_map]
  congr 1
  refine List.filter_congr fun entry hentry => ?_
  rw [Function.comp_apply, ← decide_not, decide_eq_decide, h.ids entry hentry]
  refine not_congr ⟨fun heq => ?_, fun heq => by rw [heq]⟩
  obtain ⟨hd, hk⟩ := requestId_inj heq
  exact Prod.ext hd hk

/-- A finished output takes its request out of flight. -/
lemma popped {o : Output ω} (h : Held q engine cap e (o :: pending) s)
    (hget : s.inflight.get? o.requestId = some (d, k)) (hasked : (d, k) ∈ s.calls.asked) :
    Held q engine cap e pending (s.pops o.requestId d k) := by
  obtain ⟨hid, hwaiting⟩ := h.id_of_get? hget
  have herase : (s.inflight.erase o.requestId).entries.map Prod.snd =
      (s.inflight.entries.map Prod.snd).filter (· ≠ (d, k)) := by
    rw [hid]
    exact h.waiting_erase
  have hnew : (d, k) ∉ s.calls.finished := fun hmem => ((h.finished _).1 hmem).2 hwaiting
  refine ⟨fun entry hentry => h.ids entry (List.mem_of_mem_filter hentry), h.widest, h.once,
    Stages.Flow.nodup_append_singleton h.finishedOnce hnew, fun x => ?_, h.goes, h.added, fun x hx hanswered => ?_⟩
  · show x ∈ s.calls.finished ++ [(d, k)] ↔ x ∈ s.calls.asked ∧ x ∉ (s.inflight.erase o.requestId).entries.map Prod.snd
    rw [herase, List.mem_append, List.mem_singleton, h.finished, Stages.Flow.mem_without, not_and_or, not_not]
    constructor
    · rintro (⟨hx, hout⟩ | rfl)
      · exact ⟨hx, .inl hout⟩
      · exact ⟨hasked, .inr rfl⟩
    · rintro ⟨hx, hout | rfl⟩
      · exact .inl ⟨hx, hout⟩
      · exact .inr rfl
  · show x ∈ s.calls.finished ++ [(d, k)] ∨ _
    obtain hfinished | ⟨o', ho', hfin, hid'⟩ := h.heard x hx hanswered
    · exact .inl (List.mem_append_left _ hfinished)
    · cases ho' with
      | tail _ ho' => exact .inr ⟨o', ho', hfin, hid'⟩
      | head =>
        obtain ⟨hd, hk⟩ := requestId_inj (hid.symm.trans hid')
        exact .inl (List.mem_append_right _ (List.mem_singleton.2 (Prod.ext hd.symm hk.symm)))

/-- An output of a request that is not in flight changes nothing. -/
lemma skipped {o : Output ω} (h : Held q engine cap e (o :: pending) s)
    (hskip : s.inflight.get? o.requestId = none ∨ o.finished = false) : Held q engine cap e pending s := by
  refine { h with heard := fun x hx hanswered => ?_ }
  obtain hfinished | ⟨o', ho', hfin, hid'⟩ := h.heard x hx hanswered
  · exact .inl hfinished
  · cases ho' with
    | tail _ ho' => exact .inr ⟨o', ho', hfin, hid'⟩
    | head =>
      refine .inl ((h.finished x).2 ⟨hx, fun hwaiting => ?_⟩)
      obtain hnone | hunfinished := hskip
      · obtain ⟨v, hv⟩ := Dict.mem_keys_iff.1 (h.key_of_waiting hwaiting)
        rw [← hid', hnone] at hv
        cases hv
      · rw [hfin] at hunfinished
        cases hunfinished

/-- The outputs of a step are to be looked at. -/
lemma stepped (h : Held q engine cap e [] s) {outputs : List (Output ω)}
    (hstep : engine.step s.engine = .ok outputs e') :
    Held q engine cap e outputs ({ s with engine := e' }.logs (.stepped outputs)) := by
  refine { h with
    goes := .stepped outputs h.goes hstep
    added := ?_
    heard := fun x hx hanswered => ?_ }
  · show Baselines.added (s.calls.history ++ [.stepped outputs]) = _
    rw [added_append, h.added]
    exact List.append_nil _
  · obtain hbefore | ⟨outputs', o, hcall, ho, hfin, hid⟩ := answered_concat hanswered
    · obtain hfinished | ⟨o, ho, _⟩ := h.heard x hx hbefore
      · exact .inl hfinished
      · cases ho
    · obtain rfl := Call.stepped.inj hcall
      exact .inr ⟨o, ho, hfin, hid⟩

end Held

/-- The loop after a request was submitted. -/
def Loop.submits (s : Loop σ ω α) (requestId : String) (d k : ℕ) (prompt : Prompt) (engine : σ) : Loop σ ω α :=
  { (s.sends requestId d k).asks d k with engine }.logs (.added requestId prompt)

/-- A request counts one document more. -/
lemma length_documents (s : Loop σ ω α) : s.documents.length ≤ s.inflight.entries.length := by
  unfold Loop.documents
  exact (List.dedup_sublist _).length_le.trans_eq (List.length_map _)

lemma Held.entries_sends (h : Held q engine cap e pending s)
    (hnew : (d, k) ∉ s.inflight.entries.map Prod.snd) :
    (s.sends (q.requestId d k) d k).inflight.entries = s.inflight.entries ++ [(q.requestId d k, (d, k))] :=
  Dict.entries_set_new fun hkey => hnew (h.waiting_of_key hkey)

lemma Held.widest_sends (h : Held q engine cap e pending s) (hnew : (d, k) ∉ s.inflight.entries.map Prod.snd)
    (hroom : (s.inflight.entries.length : ℤ) + 1 ≤ max cap 0) :
    ((s.sends (q.requestId d k) d k).calls.widest : ℤ) ≤ max cap 0 := by
  have hlength := length_documents (s.sends (q.requestId d k) d k)
  rw [h.entries_sends hnew, List.length_append, List.length_singleton] at hlength
  have hwidest := h.widest
  show ((max s.calls.widest (s.sends (q.requestId d k) d k).documents.length : ℕ) : ℤ) ≤ _
  omega

/-- A request that is submitted is in flight. -/
lemma Held.submits (h : Held q engine cap e pending s) (hnew : (d, k) ∉ s.calls.asked)
    (hout : (d, k) ∉ s.inflight.entries.map Prod.snd)
    (hroom : (s.inflight.entries.length : ℤ) + 1 ≤ max cap 0) {prompt : Prompt}
    (hadd : engine.addRequest (q.requestId d k) prompt s.engine = .ok () e') :
    Held q engine cap e pending (s.submits (q.requestId d k) d k prompt e') := by
  have hentries : (s.submits (q.requestId d k) d k prompt e').inflight.entries =
      s.inflight.entries ++ [(q.requestId d k, (d, k))] := h.entries_sends hout
  refine ⟨fun entry hentry => ?_, h.widest_sends hout hroom, Stages.Flow.nodup_append_singleton h.once hnew,
    h.finishedOnce, fun x => ?_, .added _ _ h.goes hadd, ?_, fun x hx hanswered => ?_⟩
  · rw [hentries, List.mem_append, List.mem_singleton] at hentry
    obtain hentry | rfl := hentry
    · exact h.ids entry hentry
    · rfl
  · rw [hentries, List.map_append]
    show x ∈ s.calls.finished ↔ x ∈ s.calls.asked ++ [(d, k)] ∧ x ∉ s.inflight.entries.map Prod.snd ++ [(d, k)]
    rw [h.finished, List.mem_append, List.mem_append, List.mem_singleton, not_or]
    constructor
    · rintro ⟨hx, hnot⟩
      exact ⟨.inl hx, hnot, fun heq => hnew (heq ▸ hx)⟩
    · rintro ⟨hx, hnot, hne⟩
      exact ⟨hx.resolve_right hne, hnot⟩
  · show Baselines.added (s.calls.history ++ [.added (q.requestId d k) prompt]) = (s.calls.asked ++ [(d, k)]).map _
    rw [added_append, h.added, List.map_append]
    rfl
  · have hx : x ∈ s.calls.asked ++ [(d, k)] := hx
    obtain hanswered | ⟨_, _, hcall, _⟩ := answered_concat hanswered
    · have hanswered : Answered s.calls.history (q.requestId x.1 x.2) := hanswered
      obtain hx | hx := List.mem_append.1 hx
      · exact h.heard x hx hanswered
      · -- what was answered was added before, and this request was not
        obtain ⟨before, prompt', after, _, _, hhistory, _⟩ := hanswered
        have hmem : q.requestId x.1 x.2 ∈ Baselines.added s.calls.history := by
          rw [hhistory, added_append]
          exact List.mem_append_right _ List.mem_cons_self
        rw [h.added] at hmem
        obtain ⟨y, hy, heq⟩ := List.mem_map.1 hmem
        obtain ⟨hd, hk⟩ := requestId_inj heq
        obtain rfl : y = x := Prod.ext hd hk
        rw [List.mem_singleton] at hx
        exact absurd (hx ▸ hy) hnew
    · cases hcall

/-- What `submit` does, and where it can raise: rendering the prompt, or adding the request. -/
lemma wp_submit {Q : Unit → Loop σ ω α → Prop} {E : ε → Loop σ ω α → Prop}
    (hprompt : ∀ error, E error (s.sends (q.requestId d k) d k))
    (hrefused : ∀ error e', E error { (s.sends (q.requestId d k) d k).asks d k with engine := e' })
    (hadded : ∀ prompt e', engine.addRequest (q.requestId d k) prompt s.engine = .ok () e' →
      Q () (s.submits (q.requestId d k) d k prompt e')) :
    wp (submit q engine d k) Q E s := by
  unfold submit onEngine
  simp only [wp_bind, wp_modify, wp_reads, wp_onPart]
  refine ⟨fun prompt _ => ?_, fun error _ => hprompt error⟩
  unfold wp
  cases hadd : engine.addRequest (q.requestId d k) prompt s.engine with
  | ok u e' =>
    have hadd' : engine.addRequest (q.requestId d k) prompt ((s.sends (q.requestId d k) d k).asks d k).engine =
        .ok u e' := hadd
    rw [hadd']
    exact hadded prompt e' hadd
  | error error e' =>
    have hadd' : engine.addRequest (q.requestId d k) prompt ((s.sends (q.requestId d k) d k).asks d k).engine =
        .error error e' := hadd
    rw [hadd']
    exact hrefused error e'

/-! ## Where something is raised -/

lemma Held.kept (h : Held q engine cap e pending s) {x : ℕ × ℕ} (hx : x ∈ s.calls.asked)
    (hnot : x ∉ s.calls.finished) : q.requestId x.1 x.2 ∈ s.inflight.keys :=
  h.key_of_waiting (by_contra fun hout => hnot ((h.finished x).2 ⟨hx, hout⟩))

lemma Standing.broken (h : Standing q truthy engine cap e pending s) : Broken q truthy cap s :=
  ⟨h.sound.orderly, h.held.widest, fun _ hx hnot => h.held.kept hx hnot⟩

lemma mem_keys_sends {id : String} {requestId : String} :
    id ∈ (s.sends requestId d k).inflight.keys ↔ id = requestId ∨ id ∈ s.inflight.keys := Dict.mem_keys_set

/-- `submit` raises with the request already in flight, asked of the engine or not. -/
lemma Held.broken_sends (h : Held q engine cap e pending s) (horderly : s.flow.Orderly truthy q.questionIds.length)
    (hnew : (d, k) ∉ s.inflight.entries.map Prod.snd) (hroom : (s.inflight.entries.length : ℤ) + 1 ≤ max cap 0) :
    Broken q truthy cap (s.sends (q.requestId d k) d k) :=
  ⟨horderly.congr rfl rfl, h.widest_sends hnew hroom, fun _ hx hnot => mem_keys_sends.2 (.inr (h.kept hx hnot))⟩

lemma Held.broken_asks (h : Held q engine cap e pending s)
    (horderly : ({ s.flow with asked := s.calls.asked ++ [(d, k)] }).Orderly truthy q.questionIds.length)
    (hnew : (d, k) ∉ s.inflight.entries.map Prod.snd) (hroom : (s.inflight.entries.length : ℤ) + 1 ≤ max cap 0) :
    Broken q truthy cap { (s.sends (q.requestId d k) d k).asks d k with engine := e' } := by
  refine ⟨horderly.congr rfl rfl, h.widest_sends hnew hroom, fun x hx hnot => mem_keys_sends.2 ?_⟩
  have hx : x ∈ s.calls.asked ++ [(d, k)] := hx
  rw [List.mem_append, List.mem_singleton] at hx
  obtain hx | rfl := hx
  · exact .inr (h.kept hx hnot)
  · exact .inl rfl

/-! ## Filling the cap -/

/-- What was done with the engine only grows. -/
structure Grows (s u : Loop σ ω α) : Prop where
  history : s.calls.history <+: u.calls.history
  asked : s.calls.asked <+: u.calls.asked
  finished : s.calls.finished <+: u.calls.finished

lemma Grows.refl : Grows s s := ⟨List.prefix_refl _, List.prefix_refl _, List.prefix_refl _⟩

lemma Grows.trans {t u : Loop σ ω α} (h : Grows s t) (h' : Grows t u) : Grows s u :=
  ⟨h.history.trans h'.history, h.asked.trans h'.asked, h.finished.trans h'.finished⟩

/-- The loop after the next document was submitted. -/
def Loop.opens (s : Loop σ ω α) (q : Query ε ω α) (prompt : Prompt) (engine : σ) : Loop σ ω α :=
  let submitted := s.submits (q.requestId s.nextDocument 0) s.nextDocument 0 prompt engine
  { submitted with expectedRows := submitted.expectedRows + 1, nextDocument := submitted.nextDocument + 1 }

lemma Standing.next_out (h : Standing q truthy engine cap e pending s) :
    (s.nextDocument, k) ∉ s.inflight.entries.map Prod.snd := fun hmem =>
  h.sound.next_new (h.sound.asked_of_waiting hmem)

lemma Standing.flow_opens (h : Standing q truthy engine cap e pending s) {prompt : Prompt} :
    (s.opens q prompt e').flow = s.flow.opens := by
  have hentries := h.held.entries_sends (h.next_out (k := 0))
  unfold Loop.flow Stages.Flow.opens Loop.opens Loop.submits
  show Stages.Flow.mk _ ((s.sends (q.requestId s.nextDocument 0) s.nextDocument 0).inflight.entries.map Prod.snd) _ _ _ = _
  rw [hentries, List.map_append]
  rfl

lemma Standing.room (h : Standing q truthy engine cap e pending s) (hcap : s.expectedRows < cap) :
    (s.inflight.entries.length : ℤ) + 1 ≤ max cap 0 := by
  have hrows := h.rows
  omega

/-- A document is opened while there is room. -/
lemma Standing.opens (h : Standing q truthy engine cap e pending s) (hq : 0 < q.questionIds.length)
    (hnext : s.nextDocument < q.bodyIds.length) (hcap : s.expectedRows < cap) {prompt : Prompt}
    (hadd : engine.addRequest (q.requestId s.nextDocument 0) prompt s.engine = .ok () e') :
    Standing q truthy engine cap e pending (s.opens q prompt e') := by
  have hheld := h.held.submits h.sound.next_new h.next_out (h.room hcap) hadd
  have hrows := h.rows
  refine ⟨?_, { hheld with }, ?_, ?_, hnext, fun hshut => by omega⟩
  · rw [h.flow_opens]
    exact h.sound.opens hq
  · show s.expectedRows + 1 = ((s.sends _ s.nextDocument 0).inflight.entries.length : ℤ)
    rw [h.held.entries_sends h.next_out, List.length_append, List.length_singleton, h.rows]
    push_cast
    rfl
  · show s.expectedRows + 1 ≤ max cap 0
    omega

/-- `fillCap` opens documents; the first one when there is room at all. -/
lemma wp_fillCap (hq : 0 < q.questionIds.length) (fuel : ℕ) (h : Standing q truthy engine cap e pending s) :
    wp (fillCap q engine cap fuel) (fun _ u => Standing q truthy engine cap e pending u ∧ Grows s u ∧
      (0 < fuel → s.nextDocument < q.bodyIds.length → s.expectedRows < cap →
        s.calls.asked.length < u.calls.asked.length)) (fun _ => Broken q truthy cap) s := by
  induction fuel generalizing s with
  | zero => exact ⟨h, .refl, fun hfuel => absurd hfuel (lt_irrefl _)⟩
  | succ fuel ih =>
    unfold fillCap
    rw [wp_bind, wp_get, wp_ite]
    refine ⟨fun hroom => ?_, fun hroom => ⟨h, .refl, fun _ hnext hcap => absurd ⟨hnext, hcap⟩ hroom⟩⟩
    obtain ⟨hnext, hcap⟩ := hroom
    rw [wp_bind]
    refine wp_submit (fun _ => ?_) (fun _ _ => ?_) fun prompt e' hadd => ?_
    · exact h.held.broken_sends h.sound.orderly h.next_out (h.room hcap)
    · refine h.held.broken_asks ?_ h.next_out (h.room hcap)
      exact (h.sound.opens hq).orderly.congr rfl rfl
    · rw [wp_bind, wp_modify]
      have hopened := h.opens hq hnext hcap hadd
      refine wp_mono (ih hopened) (fun _ u hu => ?_) fun _ _ hbroken => hbroken
      obtain ⟨hstanding, hgrows, _⟩ := hu
      have hgrown : Grows s (s.opens q prompt e') :=
        ⟨List.prefix_append _ _, List.prefix_append _ _, List.prefix_refl _⟩
      refine ⟨hstanding, hgrown.trans hgrows, fun _ _ _ => lt_of_lt_of_le ?_ hgrows.asked.length_le⟩
      show _ < (s.calls.asked ++ [_]).length
      rw [List.length_append, List.length_singleton]
      exact Nat.lt_succ_self _

/-! ## Taking an output -/

/-- What `record` does: it raises before the answer is kept, or it keeps it. -/
lemma wp_record {o : Output ω} {sequence : FilterSequence α} {Q : Bool → FilterSequence α → Prop}
    {E : ε → FilterSequence α → Prop}
    (hraised : ∀ error next, next.answers = sequence.answers → E error next)
    (hread : ∀ a next, next.answers = sequence.answers.set (d, k + 1) a →
      next.survivors = (if truthy a = true ∧ ¬k + 1 < q.questionIds.length then sequence.survivors ++ [d]
        else sequence.survivors) → Q (decide (truthy a = true ∧ k + 1 < q.questionIds.length)) next) :
    wp (FilterSequence.record q truthy d k o) Q E sequence := by
  unfold FilterSequence.record
  simp only [wp_bind, wp_modify, wp_reads, wp_ite, wp_pure]
  refine ⟨fun a _ => ⟨fun hadvances => ?_, fun hstays => ⟨fun hpass => ?_, fun hfails => ?_⟩⟩,
    fun error _ => hraised error _ rfl⟩
  · have h := hread a { sequence with
      answers := sequence.answers.set (d, k + 1) a
      requests := sequence.requests + 1
      promptTokens := sequence.promptTokens + o.promptTokenIds.length
      cachedTokens := sequence.cachedTokens + o.numCachedTokens.getD 0 } rfl
      (by rw [if_neg fun hlast => hlast.2 hadvances.2])
    rwa [decide_eq_true hadvances] at h
  · have h := hread a { sequence with
      answers := sequence.answers.set (d, k + 1) a
      survivors := sequence.survivors ++ [d]
      requests := sequence.requests + 1
      promptTokens := sequence.promptTokens + o.promptTokenIds.length
      cachedTokens := sequence.cachedTokens + o.numCachedTokens.getD 0 } rfl
      (by rw [if_pos ⟨hpass, fun hlast => hstays ⟨hpass, hlast⟩⟩])
    rwa [decide_eq_false hstays] at h
  · have h := hread a { sequence with
      answers := sequence.answers.set (d, k + 1) a
      requests := sequence.requests + 1
      promptTokens := sequence.promptTokens + o.promptTokenIds.length
      cachedTokens := sequence.cachedTokens + o.numCachedTokens.getD 0 } rfl
      (by rw [if_neg fun hlast => hfails hlast.1])
    rwa [decide_eq_false hstays] at h

/-- The loop after an answer was recorded. -/
def Loop.hears (s : Loop σ ω α) (requestId : String) (d k : ℕ) (sequence : FilterSequence α) : Loop σ ω α :=
  { s.pops requestId d k with sequence }

section Taking

variable {o : Output ω} {a : α} {next : FilterSequence α}

/-- What the next lemmas share: a finished output of a request in flight, and its answer. -/
structure Taken (q : Query ε ω α) (truthy : α → Bool) (engine : Engine ε σ ω) (cap : ℤ) (e : σ)
    (pending : List (Output ω)) (s : Loop σ ω α) (o : Output ω) (d k : ℕ) (a : α)
    (next : FilterSequence α) : Prop where
  standing : Standing q truthy engine cap e (o :: pending) s
  get : s.inflight.get? o.requestId = some (d, k)
  answers : next.answers = s.sequence.answers.set (d, k + 1) a
  survivors : next.survivors = (if truthy a = true ∧ ¬k + 1 < q.questionIds.length then
    s.sequence.survivors ++ [d] else s.sequence.survivors)

namespace Taken

variable (h : Taken q truthy engine cap e pending s o d k a next)
include h

lemma waiting : (d, k) ∈ s.flow.waiting := (h.standing.held.id_of_get? h.get).2

lemma asked : (d, k) ∈ s.calls.asked := h.standing.sound.asked_of_waiting h.waiting

lemma hears : Held q engine cap e pending (s.hears o.requestId d k next) :=
  { h.standing.held.popped h.get h.asked with }

lemma waiting_hears : (s.hears o.requestId d k next).inflight.entries.map Prod.snd =
    (s.inflight.entries.map Prod.snd).filter (· ≠ (d, k)) := by
  show (s.inflight.erase o.requestId).entries.map Prod.snd = _
  rw [(h.standing.held.id_of_get? h.get).1, h.standing.held.waiting_erase]

lemma length_hears : (s.hears o.requestId d k next).inflight.entries.length + 1 = s.inflight.entries.length := by
  have hlength := Stages.Flow.length_without (h.standing.sound.waiting.of_map Prod.fst) h.waiting
  have hwaiting := congrArg List.length h.waiting_hears
  rw [List.length_map] at hwaiting
  rw [hwaiting]
  exact hlength.trans (List.length_map _)

lemma sound : (s.flow.records truthy q.questionIds.length d k a).Sound truthy q.questionIds.length :=
  h.standing.sound.records h.waiting

/-- A document that does not go on makes room. -/
lemma stays (hstays : ¬(truthy a = true ∧ k + 1 < q.questionIds.length)) :
    Standing q truthy engine cap e pending
      { s.hears o.requestId d k next with expectedRows := s.expectedRows - 1 } := by
  have hflow : Loop.flow { s.hears o.requestId d k next with expectedRows := s.expectedRows - 1 } =
      s.flow.records truthy q.questionIds.length d k a := by
    have hsurvivors := h.survivors
    unfold Loop.flow
    show Stages.Flow.mk _ ((s.hears o.requestId d k next).inflight.entries.map Prod.snd) _ next.answers
      next.survivors = _
    rw [h.waiting_hears, h.answers]
    cases hpass : truthy a with
    | false =>
      rw [hpass, if_neg fun hlast => Bool.false_ne_true hlast.1] at hsurvivors
      rw [Stages.Flow.records_failed hpass, hsurvivors]
      rfl
    | true =>
      have hlast : ¬k + 1 < q.questionIds.length := fun hlast => hstays ⟨hpass, hlast⟩
      rw [hpass, if_pos ⟨rfl, hlast⟩] at hsurvivors
      rw [Stages.Flow.records_survived hpass hlast, hsurvivors]
      rfl
  have hlength := h.length_hears
  have hrows := h.standing.rows
  have hwithin := h.standing.within
  refine ⟨?_, { h.hears with }, ?_, ?_, h.standing.opened, h.standing.shut⟩
  · rw [hflow]
    exact h.sound
  · show s.expectedRows - 1 = ((s.hears o.requestId d k next).inflight.entries.length : ℤ)
    omega
  · show s.expectedRows - 1 ≤ max cap 0
    omega

lemma stage_out : (d, k + 1) ∉ (s.hears o.requestId d k next).inflight.entries.map Prod.snd := by
  rw [h.waiting_hears, Stages.Flow.mem_without]
  exact fun hmem => h.standing.sound.stage_new h.waiting (h.standing.sound.asked_of_waiting hmem.1)

lemma room : ((s.hears o.requestId d k next).inflight.entries.length : ℤ) + 1 ≤ max cap 0 := by
  have hlength := h.length_hears
  have hrows := h.standing.rows
  have hwithin := h.standing.within
  omega

lemma flow_goes (hpass : truthy a = true) (hlast : k + 1 < q.questionIds.length) {prompt : Prompt} :
    ((s.hears o.requestId d k next).submits (q.requestId d (k + 1)) d (k + 1) prompt e').flow =
      s.flow.records truthy q.questionIds.length d k a := by
  have hentries : ((s.hears o.requestId d k next).submits (q.requestId d (k + 1)) d (k + 1) prompt e').inflight.entries =
      (s.hears o.requestId d k next).inflight.entries ++ [(q.requestId d (k + 1), (d, k + 1))] :=
    h.hears.entries_sends h.stage_out
  have hsurvivors := h.survivors
  rw [if_neg fun hnot => hnot.2 hlast] at hsurvivors
  unfold Loop.flow
  rw [hentries, List.map_append, h.waiting_hears, Stages.Flow.records_advanced hpass hlast]
  show Stages.Flow.mk _ _ _ next.answers next.survivors = _
  rw [h.answers, hsurvivors]
  rfl

/-- A document that goes on is asked its next filter. -/
lemma goes (hpass : truthy a = true) (hlast : k + 1 < q.questionIds.length) {prompt : Prompt}
    (hadd : engine.addRequest (q.requestId d (k + 1)) prompt s.engine = .ok () e') :
    Standing q truthy engine cap e pending
      ((s.hears o.requestId d k next).submits (q.requestId d (k + 1)) d (k + 1) prompt e') := by
  have hnew : (d, k + 1) ∉ s.calls.asked := h.standing.sound.stage_new h.waiting
  refine ⟨?_, h.hears.submits hnew h.stage_out h.room hadd, ?_, h.standing.within, h.standing.opened,
    h.standing.shut⟩
  · rw [h.flow_goes hpass hlast]
    exact h.sound
  · show s.expectedRows = (((s.hears o.requestId d k next).sends _ d (k + 1)).inflight.entries.length : ℤ)
    have hlength := h.length_hears
    rw [h.hears.entries_sends h.stage_out, List.length_append, List.length_singleton, h.standing.rows]
    omega

/-- Before its next filter is asked, the document is in order. -/
lemma orderly : (s.hears o.requestId d k next).flow.Orderly truthy q.questionIds.length := by
  intro d'
  obtain ⟨m, hm, hstages, hpassed⟩ := h.standing.sound.orderly d'
  refine ⟨m, hm, hstages, fun j hj => ?_⟩
  obtain ⟨b, hb, hpass⟩ := hpassed j hj
  refine ⟨b, ?_, hpass⟩
  show next.answers.get? (d', j + 1) = some b
  rw [h.answers, Dict.get?_set_ne ?_]
  · exact hb
  · intro heq
    obtain ⟨rfl, hk⟩ := Prod.mk.inj heq
    obtain rfl := Nat.succ.inj hk
    obtain ⟨_, _, _, _, _, hnone, _⟩ := h.standing.sound.live h.waiting
    rw [hnone (k + 1) (.inr (Nat.lt_succ_self k))] at hb
    cases hb

end Taken

lemma wp_take (h : Standing q truthy engine cap e (o :: pending) s) :
    wp (take q truthy engine o) (fun _ u => Standing q truthy engine cap e pending u ∧ Grows s u)
      (fun _ => Broken q truthy cap) s := by
  unfold take
  rw [wp_bind, wp_get]
  cases hget : s.inflight.get? o.requestId with
  | none => exact ⟨{ h with held := h.held.skipped (.inl hget) }, .refl⟩
  | some x =>
    obtain ⟨d, k⟩ := x
    dsimp only
    rw [wp_ite]
    refine ⟨fun hfinished => ?_, fun hunfinished =>
      ⟨{ h with held := h.held.skipped (.inr (Bool.not_eq_true _ ▸ hunfinished)) }, .refl⟩⟩
    obtain ⟨hid, hwaiting⟩ := h.held.id_of_get? hget
    have hpopped := h.held.popped hget (h.sound.asked_of_waiting hwaiting)
    rw [wp_bind, wp_modify, wp_bind, wp_onPart]
    refine wp_record (fun error next hanswers => ?_) fun a next hanswers hsurvivors => ?_
    · -- the answer was not read: the request is finished, and its document is where it was
      exact ⟨h.sound.orderly.congr rfl hanswers, hpopped.widest, fun x hx hnot => hpopped.kept hx hnot⟩
    · have htaken : Taken q truthy engine cap e pending s o d k a next := ⟨h, hget, hanswers, hsurvivors⟩
      rw [wp_ite]
      refine ⟨fun hadvances => ?_, fun hstays => ?_⟩
      · obtain ⟨hpass, hlast⟩ := of_decide_eq_true hadvances
        refine @wp_submit _ _ _ _ q engine (s.hears o.requestId d k next) d (k + 1) _ _ (fun error => ?_)
          (fun error e' => ?_) fun prompt e' hadd => ?_
        · exact htaken.hears.broken_sends htaken.orderly htaken.stage_out htaken.room
        · refine htaken.hears.broken_asks ?_ htaken.stage_out htaken.room
          have horderly := htaken.sound.orderly
          rw [← @Taken.flow_goes _ _ _ _ _ _ _ _ _ e' _ _ _ _ _ _ _ htaken hpass hlast (.text "")] at horderly
          exact horderly.congr rfl rfl
        · exact ⟨htaken.goes hpass hlast hadd,
            ⟨List.prefix_append _ _, List.prefix_append _ _, List.prefix_append _ _⟩⟩
      · have hstays : ¬(truthy a = true ∧ k + 1 < q.questionIds.length) := fun hboth =>
          hstays (decide_eq_true hboth)
        exact ⟨htaken.stays hstays, ⟨List.prefix_refl _, List.prefix_refl _, List.prefix_append _ _⟩⟩

end Taking

lemma wp_takeAll {outputs : List (Output ω)} (h : Standing q truthy engine cap e outputs s) :
    wp (takeAll q truthy engine outputs) (fun _ u => Standing q truthy engine cap e [] u ∧ Grows s u)
      (fun _ => Broken q truthy cap) s := by
  induction outputs generalizing s with
  | nil => exact ⟨h, .refl⟩
  | cons o outputs ih =>
    unfold takeAll
    rw [wp_bind]
    refine wp_mono (wp_take h) (fun _ t ht => ?_) fun _ _ hbroken => hbroken
    exact wp_mono (ih ht.1) (fun _ u hu => ⟨hu.1, ht.2.trans hu.2⟩) fun _ _ hbroken => hbroken

/-! ## Turns -/

/-- What a turn does to a loop that stands. -/
structure Turned (q : Query ε ω α) (truthy : α → Bool) (engine : Engine ε σ ω) (cap : ℤ) (e : σ)
    (s u : Loop σ ω α) : Prop where
  standing : Standing q truthy engine cap e [] u
  grows : Grows s u
  steps : steps s.calls.history < steps u.calls.history
  asks : s.nextDocument < q.bodyIds.length → s.expectedRows < cap → s.calls.asked.length < u.calls.asked.length

lemma steps_le_of_prefix {h h' : List (Call ω)} (hgrows : h <+: h') : steps h ≤ steps h' := by
  obtain ⟨rest, rfl⟩ := hgrows
  rw [steps_append]
  exact Nat.le_add_right _ _

lemma wp_turn (hq : 0 < q.questionIds.length) (h : Standing q truthy engine cap e [] s) :
    wp (turn q truthy engine cap) (fun _ u => Turned q truthy engine cap e s u) (fun _ => Broken q truthy cap) s := by
  unfold turn onEngine
  rw [wp_bind]
  refine wp_mono (wp_fillCap hq q.bodyIds.length h) (fun _ t ht => ?_) fun _ _ hbroken => hbroken
  obtain ⟨hstanding, hgrows, hasks⟩ := ht
  rw [wp_bind, wp_onPart]
  unfold wp
  cases hstep : engine.step t.engine with
  | error error e' => exact ⟨hstanding.sound.orderly.congr rfl rfl, hstanding.held.widest, hstanding.broken.kept⟩
  | ok outputs e' =>
    have hstepped : Standing q truthy engine cap e outputs ({ t with engine := e' }.logs (.stepped outputs)) :=
      ⟨hstanding.sound, hstanding.held.stepped hstep, hstanding.rows, hstanding.within, hstanding.opened,
        hstanding.shut⟩
    refine wp_mono (wp_takeAll hstepped) (fun _ u hu => ?_) fun _ _ hbroken => hbroken
    have hlogged : Grows t ({ t with engine := e' }.logs (.stepped outputs)) :=
      ⟨List.prefix_append _ _, List.prefix_refl _, List.prefix_refl _⟩
    refine ⟨hu.1, hgrows.trans (hlogged.trans hu.2), ?_, fun hnext hcap => ?_⟩
    · have hbefore := steps_le_of_prefix hgrows.history
      have hafter : steps (t.calls.history ++ [.stepped outputs]) ≤ steps u.calls.history :=
        steps_le_of_prefix hu.2.history
      rw [steps_append] at hafter
      exact lt_of_le_of_lt hbefore hafter
    · exact lt_of_lt_of_le (hasks (lt_of_le_of_lt (Nat.zero_le _) hnext) hnext hcap)
        (hlogged.trans hu.2).asked.length_le

end

end Quail.Baselines
