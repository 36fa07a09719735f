import Quail.Lib.Dict
import Mathlib.Data.List.Sort

/-!
# Items that pass stages

Items are opened in order, and each is asked the stages in order until an answer does not pass or every
one did. `Flow` is the state of such a run, however its items interleave: `opens` and `records` are its two
moves. They keep `Sound`, and a run that has opened every item and waits for none has asked, answered and
kept exactly what the answers say (`Sound.answers_eq`, `Sound.survivors_eq`, `Sound.stages_eq`).
-/

namespace Stages

variable {α : Type}

/-- How many stages are asked of an item that passes these. -/
def asks : List Bool → ℕ
  | [] => 0
  | false :: _ => 1
  | true :: rest => asks rest + 1

/-- The stages an item passes. -/
def passing (passes : α → Bool) (q : ℕ) (answer : ℕ → α) : List Bool :=
  (List.range q).map fun k => passes (answer k)

lemma asks_all {l : List Bool} (h : ∀ b ∈ l, b = true) : asks l = l.length := by
  induction l with
  | nil => rfl
  | cons b l ih =>
    obtain rfl := h b List.mem_cons_self
    rw [asks, ih fun b hb => h b (List.mem_cons_of_mem _ hb), List.length_cons]

lemma asks_append_false {l rest : List Bool} (h : ∀ b ∈ l, b = true) :
    asks (l ++ false :: rest) = l.length + 1 := by
  induction l with
  | nil => rfl
  | cons b l ih =>
    obtain rfl := h b List.mem_cons_self
    rw [List.cons_append, asks, ih fun b hb => h b (List.mem_cons_of_mem _ hb), List.length_cons]

section Passing

variable {passes : α → Bool} {q k : ℕ} {answer : ℕ → α}

lemma asks_passing_all (h : ∀ j < q, passes (answer j) = true) : asks (passing passes q answer) = q := by
  unfold passing
  rw [asks_all, List.length_map, List.length_range]
  intro b hb
  obtain ⟨j, hj, rfl⟩ := List.mem_map.1 hb
  exact h j (List.mem_range.1 hj)

lemma asks_passing_failed (hk : k < q) (h : ∀ j < k, passes (answer j) = true)
    (hfailed : passes (answer k) = false) : asks (passing passes q answer) = k + 1 := by
  obtain ⟨rest, rfl⟩ := Nat.exists_eq_add_of_lt hk
  have hsplit : passing passes (k + rest + 1) answer = (List.range k).map (fun j => passes (answer j)) ++
      false :: (List.range rest).map (fun j => passes (answer (k + 1 + j))) := by
    unfold passing
    rw [show k + rest + 1 = k + (1 + rest) by omega, List.range_add, List.map_append, List.range_add]
    simp only [List.map_map, List.range_one, List.map_cons, List.cons_append, List.nil_append,
      Function.comp_def, add_zero, hfailed, Nat.add_assoc]
  rw [hsplit, asks_append_false, List.length_map, List.length_range]
  intro b hb
  obtain ⟨j, hj, rfl⟩ := List.mem_map.1 hb
  exact h j (List.mem_range.1 hj)

end Passing

/-! ## The moves -/

/-- A run: the next item to open, what is being asked, what was asked, and what came of it. An answer is
kept under its item and the number of its stage. -/
structure Flow (α : Type) where
  next : ℕ
  waiting : List (ℕ × ℕ)
  asked : List (ℕ × ℕ)
  answers : Dict (ℕ × ℕ) α
  survivors : List ℕ

namespace Flow

/-- Nothing was opened. -/
def empty : Flow α := ⟨0, [], [], .empty, []⟩

/-- The next item is asked its first stage. -/
def opens (f : Flow α) : Flow α :=
  { f with
    next := f.next + 1
    waiting := f.waiting ++ [(f.next, 0)]
    asked := f.asked ++ [(f.next, 0)] }

/-- An answer comes: the item is asked its next stage, survives, or is done with. -/
def records (passes : α → Bool) (q : ℕ) (f : Flow α) (d k : ℕ) (a : α) : Flow α :=
  let waiting := f.waiting.filter (· ≠ (d, k))
  let answers := f.answers.set (d, k + 1) a
  if passes a then
    if k + 1 < q then
      { f with waiting := waiting ++ [(d, k + 1)], asked := f.asked ++ [(d, k + 1)], answers }
    else { f with waiting, answers, survivors := f.survivors ++ [d] }
  else { f with waiting, answers }

/-- The stages an item was asked, in order. -/
def stages (f : Flow α) (d : ℕ) : List ℕ := (f.asked.filter (·.1 = d)).map Prod.snd

/-- A stage was answered, and the item passed it. -/
def Passed (passes : α → Bool) (f : Flow α) (d k : ℕ) : Prop :=
  ∃ a, f.answers.get? (d, k + 1) = some a ∧ passes a = true

/-- Where an item is. -/
inductive At (passes : α → Bool) (q : ℕ) (f : Flow α) (d : ℕ) : Prop where
  | unopened (hnext : f.next ≤ d) (hstages : f.stages d = []) (hwaiting : ∀ k, (d, k) ∉ f.waiting)
      (hnone : ∀ k, f.answers.get? (d, k) = none) (hout : d ∉ f.survivors)
  | live (k : ℕ) (hk : k < q) (hnext : d < f.next) (hstages : f.stages d = List.range (k + 1))
      (hwaiting : ∀ k', (d, k') ∈ f.waiting ↔ k' = k) (hpassed : ∀ j < k, f.Passed passes d j)
      (hnone : ∀ m, m = 0 ∨ k < m → f.answers.get? (d, m) = none) (hout : d ∉ f.survivors)
  | failed (k : ℕ) (a : α) (hk : k < q) (hnext : d < f.next) (hstages : f.stages d = List.range (k + 1))
      (hwaiting : ∀ k', (d, k') ∉ f.waiting) (hpassed : ∀ j < k, f.Passed passes d j)
      (ha : f.answers.get? (d, k + 1) = some a) (hfails : passes a = false)
      (hnone : ∀ m, m = 0 ∨ k + 1 < m → f.answers.get? (d, m) = none) (hout : d ∉ f.survivors)
  | passed (hnext : d < f.next) (hstages : f.stages d = List.range q) (hwaiting : ∀ k', (d, k') ∉ f.waiting)
      (hpassed : ∀ j < q, f.Passed passes d j)
      (hnone : ∀ m, m = 0 ∨ q < m → f.answers.get? (d, m) = none) (hin : d ∈ f.survivors)

/-- Every item is somewhere, and none waits or survives twice. -/
structure Sound (passes : α → Bool) (q : ℕ) (f : Flow α) : Prop where
  items : ∀ d, At passes q f d
  waiting : (f.waiting.map Prod.fst).Nodup
  survivors : f.survivors.Nodup

variable {passes : α → Bool} {q : ℕ} {f g : Flow α} {d k : ℕ} {a : α}

lemma sound_empty : Sound passes q (empty : Flow α) :=
  ⟨fun _ => .unopened (Nat.zero_le _) rfl (fun _ => List.not_mem_nil) (fun _ => rfl) List.not_mem_nil,
    List.nodup_nil, List.nodup_nil⟩

/-- What a move does to the other items. -/
structure Elsewhere (f g : Flow α) (d : ℕ) : Prop where
  next : ∀ d', d' ≠ d → (f.next ≤ d' ↔ g.next ≤ d')
  stages : ∀ d', d' ≠ d → g.stages d' = f.stages d'
  waiting : ∀ d', d' ≠ d → ∀ k, (d', k) ∈ g.waiting ↔ (d', k) ∈ f.waiting
  answers : ∀ d', d' ≠ d → ∀ m, g.answers.get? (d', m) = f.answers.get? (d', m)
  survivors : ∀ d', d' ≠ d → (d' ∈ g.survivors ↔ d' ∈ f.survivors)

lemma At.elsewhere (h : Elsewhere f g d) {d' : ℕ} (hne : d' ≠ d) (hat : At passes q f d') :
    At passes q g d' := by
  have hpassed : ∀ j, f.Passed passes d' j → g.Passed passes d' j := by
    rintro j ⟨a, ha, hpass⟩
    exact ⟨a, (h.answers d' hne _).trans ha, hpass⟩
  have hopen : d' < f.next → d' < g.next := fun hlt =>
    not_le.1 fun hle => absurd ((h.next d' hne).2 hle) (not_le.2 hlt)
  cases hat with
  | unopened hnext hstages hwaiting hnone hout =>
    exact .unopened ((h.next d' hne).1 hnext) ((h.stages d' hne).trans hstages)
      (fun k hk => hwaiting k ((h.waiting d' hne k).1 hk)) (fun m => (h.answers d' hne m).trans (hnone m))
      fun hin => hout ((h.survivors d' hne).1 hin)
  | live k hk hnext hstages hwaiting hpass hnone hout =>
    exact .live k hk (hopen hnext) ((h.stages d' hne).trans hstages)
      (fun k' => (h.waiting d' hne k').trans (hwaiting k')) (fun j hj => hpassed j (hpass j hj))
      (fun m hm => (h.answers d' hne m).trans (hnone m hm)) fun hin => hout ((h.survivors d' hne).1 hin)
  | failed k a hk hnext hstages hwaiting hpass ha hfails hnone hout =>
    exact .failed k a hk (hopen hnext) ((h.stages d' hne).trans hstages)
      (fun k' hk' => hwaiting k' ((h.waiting d' hne k').1 hk')) (fun j hj => hpassed j (hpass j hj))
      ((h.answers d' hne _).trans ha) hfails (fun m hm => (h.answers d' hne m).trans (hnone m hm))
      fun hin => hout ((h.survivors d' hne).1 hin)
  | passed hnext hstages hwaiting hpass hnone hin =>
    exact .passed (hopen hnext) ((h.stages d' hne).trans hstages)
      (fun k' hk' => hwaiting k' ((h.waiting d' hne k').1 hk')) (fun j hj => hpassed j (hpass j hj))
      (fun m hm => (h.answers d' hne m).trans (hnone m hm)) ((h.survivors d' hne).2 hin)

lemma stages_asked {asked : List (ℕ × ℕ)} {d' : ℕ} (h : g.asked = asked ++ [(d, k)]) :
    g.stages d' = (asked.filter (·.1 = d')).map Prod.snd ++ if d = d' then [k] else [] := by
  unfold stages
  rw [h, List.filter_append, List.map_append, List.filter_singleton]
  congr 1
  by_cases heq : d = d'
  · rw [if_pos heq, decide_eq_true heq]
    rfl
  · rw [if_neg heq, decide_eq_false heq]
    rfl

lemma mem_stages : k ∈ f.stages d ↔ (d, k) ∈ f.asked := by
  unfold stages
  rw [List.mem_map]
  constructor
  · rintro ⟨⟨d', k'⟩, hmem, rfl⟩
    rw [List.mem_filter, decide_eq_true_iff] at hmem
    obtain ⟨hmem, rfl⟩ := hmem
    exact hmem
  · exact fun hmem => ⟨(d, k), List.mem_filter.2 ⟨hmem, decide_eq_true rfl⟩, rfl⟩

lemma nodup_append_singleton {β : Type} {l : List β} {x : β} (h : l.Nodup) (hx : x ∉ l) : (l ++ [x]).Nodup :=
  h.append (List.nodup_singleton x) (List.disjoint_singleton.2 hx)

/-- The order of what is waited for does not matter. -/
lemma Sound.perm (h : Sound passes q f) {waiting : List (ℕ × ℕ)} (hperm : f.waiting.Perm waiting) :
    Sound passes q { f with waiting } := by
  refine ⟨fun d => ?_, ((hperm.map Prod.fst).nodup_iff).1 h.waiting, h.survivors⟩
  cases h.items d with
  | unopened hnext hstages hwaiting hnone hout =>
    exact .unopened hnext hstages (fun k hk => hwaiting k (hperm.mem_iff.2 hk)) hnone hout
  | live k hk hnext hstages hwaiting hpassed hnone hout =>
    exact .live k hk hnext hstages (fun k' => hperm.mem_iff.symm.trans (hwaiting k')) hpassed hnone hout
  | failed k a hk hnext hstages hwaiting hpassed ha hfails hnone hout =>
    exact .failed k a hk hnext hstages (fun k' hk' => hwaiting k' (hperm.mem_iff.2 hk')) hpassed ha hfails hnone hout
  | passed hnext hstages hwaiting hpassed hnone hin =>
    exact .passed hnext hstages (fun k' hk' => hwaiting k' (hperm.mem_iff.2 hk')) hpassed hnone hin

/-! ## Opening the next item -/

lemma opens_elsewhere : Elsewhere f f.opens f.next where
  next d' hne := by
    show f.next ≤ d' ↔ f.next + 1 ≤ d'
    omega
  stages d' hne := by rw [stages_asked rfl, if_neg (Ne.symm hne), List.append_nil]; rfl
  waiting d' hne k := by
    show (d', k) ∈ f.waiting ++ [(f.next, 0)] ↔ _
    rw [List.mem_append, List.mem_singleton, Prod.mk.injEq]
    exact or_iff_left fun h => hne h.1
  answers _ _ _ := rfl
  survivors _ _ := Iff.rfl

/-- Opening keeps the run sound when there is a stage to ask. -/
lemma Sound.opens (h : Sound passes q f) (hq : 0 < q) : Sound passes q f.opens := by
  cases h.items f.next with
  | live k hk hnext => exact absurd hnext (lt_irrefl _)
  | failed k a hk hnext => exact absurd hnext (lt_irrefl _)
  | passed hnext => exact absurd hnext (lt_irrefl _)
  | unopened hnext hstages hwaiting hnone hout =>
    refine ⟨fun d => ?_, ?_, h.survivors⟩
    · by_cases hd : d = f.next
      · subst hd
        refine .live 0 hq (Nat.lt_succ_self _) ?_ (fun k' => ?_) (fun j hj => absurd hj (Nat.not_lt_zero j))
          (fun m _ => hnone m) hout
        · rw [stages_asked rfl, if_pos rfl]
          show f.stages f.next ++ [0] = _
          rw [hstages]
          rfl
        · show (f.next, k') ∈ f.waiting ++ [(f.next, 0)] ↔ _
          rw [List.mem_append, List.mem_singleton, Prod.mk.injEq]
          exact ⟨fun hmem => (hmem.resolve_left (hwaiting k')).2, fun hk' => .inr ⟨rfl, hk'⟩⟩
      · exact (h.items d).elsewhere opens_elsewhere hd
    · show ((f.waiting ++ [(f.next, 0)]).map Prod.fst).Nodup
      rw [List.map_append]
      refine nodup_append_singleton h.waiting fun hmem => ?_
      obtain ⟨⟨d, k⟩, hdk, hd⟩ := List.mem_map.1 hmem
      obtain rfl : d = f.next := hd
      exact hwaiting k hdk

/-! ## An answer -/

lemma mem_without {l : List (ℕ × ℕ)} {x : ℕ × ℕ} {d k : ℕ} :
    x ∈ l.filter (· ≠ (d, k)) ↔ x ∈ l ∧ x ≠ (d, k) := by
  rw [List.mem_filter, decide_eq_true_iff]

lemma get?_other {answers : Dict (ℕ × ℕ) α} {d' m m' : ℕ} (hne : d' ≠ d) :
    (answers.set (d, m) a).get? (d', m') = answers.get? (d', m') :=
  Dict.get?_set_ne fun h => hne (Prod.mk.inj h).1.symm

lemma records_next : (records passes q f d k a).next = f.next := by
  unfold records
  dsimp only
  split_ifs <;> rfl

lemma records_answers : (records passes q f d k a).answers = f.answers.set (d, k + 1) a := by
  unfold records
  dsimp only
  split_ifs <;> rfl

lemma records_failed (hpass : passes a = false) : records passes q f d k a =
    { f with waiting := f.waiting.filter (· ≠ (d, k)), answers := f.answers.set (d, k + 1) a } := by
  unfold records
  rw [hpass]
  rfl

lemma records_advanced (hpass : passes a = true) (hlast : k + 1 < q) : records passes q f d k a =
    { f with
      waiting := f.waiting.filter (· ≠ (d, k)) ++ [(d, k + 1)]
      asked := f.asked ++ [(d, k + 1)]
      answers := f.answers.set (d, k + 1) a } := by
  unfold records
  rw [hpass, if_pos rfl, if_pos hlast]

lemma records_survived (hpass : passes a = true) (hlast : ¬k + 1 < q) : records passes q f d k a =
    { f with
      waiting := f.waiting.filter (· ≠ (d, k))
      answers := f.answers.set (d, k + 1) a
      survivors := f.survivors ++ [d] } := by
  unfold records
  rw [hpass, if_pos rfl, if_neg hlast]

lemma records_elsewhere : Elsewhere f (records passes q f d k a) d where
  next d' _ := by rw [records_next]
  stages d' hne := by
    unfold records
    dsimp only
    split_ifs
    · rw [stages_asked rfl, if_neg (Ne.symm hne), List.append_nil]
      rfl
    · rfl
    · rfl
  waiting d' hne k' := by
    have hkept : (d', k') ∈ f.waiting.filter (· ≠ (d, k)) ↔ (d', k') ∈ f.waiting := by
      rw [mem_without]
      exact and_iff_left fun h => hne (Prod.mk.inj h).1
    unfold records
    dsimp only
    split_ifs
    · rw [List.mem_append, hkept, List.mem_singleton]
      exact or_iff_left fun h => hne (Prod.mk.inj h).1
    · exact hkept
    · exact hkept
  answers d' hne m := by rw [records_answers, get?_other hne]
  survivors d' hne := by
    unfold records
    dsimp only
    split_ifs
    · rfl
    · rw [List.mem_append, List.mem_singleton]
      exact or_iff_left hne
    · rfl

/-- What is waited for is the last stage asked of an item that has not failed. -/
lemma Sound.live (h : Sound passes q f) (hmem : (d, k) ∈ f.waiting) :
    k < q ∧ d < f.next ∧ f.stages d = List.range (k + 1) ∧ (∀ k', (d, k') ∈ f.waiting ↔ k' = k) ∧
      (∀ j < k, f.Passed passes d j) ∧ (∀ m, m = 0 ∨ k < m → f.answers.get? (d, m) = none) ∧
      d ∉ f.survivors := by
  cases h.items d with
  | unopened hnext hstages hwaiting => exact absurd hmem (hwaiting k)
  | failed k' a hk hnext hstages hwaiting => exact absurd hmem (hwaiting k)
  | passed hnext hstages hwaiting => exact absurd hmem (hwaiting k)
  | live k' hk hnext hstages hwaiting hpassed hnone hout =>
    obtain rfl := (hwaiting k).1 hmem
    exact ⟨hk, hnext, hstages, hwaiting, hpassed, hnone, hout⟩

/-- The earlier stages keep their answers, and the answered one has its own. -/
lemma passed_records (ha : passes a = true) (h : ∀ j < k, f.Passed passes d j) :
    ∀ j < k + 1, (records passes q f d k a).Passed passes d j := by
  intro j hj
  unfold Passed
  rw [records_answers, Dict.get?_set]
  split_ifs with heq
  · exact ⟨a, rfl, ha⟩
  · exact h j (lt_of_le_of_ne (Nat.lt_succ_iff.1 hj) fun h => heq (by rw [h]))

lemma passed_records_lt (h : ∀ j < k, f.Passed passes d j) :
    ∀ j < k, (records passes q f d k a).Passed passes d j := by
  intro j hj
  obtain ⟨b, hb, hpass⟩ := h j hj
  refine ⟨b, ?_, hpass⟩
  rw [records_answers, Dict.get?_set_ne fun heq => absurd (Prod.mk.inj heq).2 (by omega), hb]

lemma none_records (h : ∀ m, m = 0 ∨ k < m → f.answers.get? (d, m) = none) {m : ℕ} (hm : m = 0 ∨ k + 1 < m) :
    (records passes q f d k a).answers.get? (d, m) = none := by
  rw [records_answers, Dict.get?_set_ne fun heq => absurd (Prod.mk.inj heq).2 (by omega)]
  exact h m (by omega)

lemma without_self (hwaiting : ∀ k', (d, k') ∈ f.waiting ↔ k' = k) (k' : ℕ) :
    (d, k') ∉ f.waiting.filter (· ≠ (d, k)) := by
  rw [mem_without]
  rintro ⟨hmem, hne⟩
  exact hne (by rw [(hwaiting k').1 hmem])

/-- An answer that comes for what is waited for keeps the run sound. -/
lemma Sound.records (h : Sound passes q f) (hmem : (d, k) ∈ f.waiting) :
    Sound passes q (records passes q f d k a) := by
  obtain ⟨hk, hnext, hstages, hwaiting, hpassed, hnone, hout⟩ := h.live hmem
  have hwithout : ((f.waiting.filter (· ≠ (d, k))).map Prod.fst).Nodup :=
    h.waiting.sublist (List.filter_sublist.map _)
  have hrest : ∀ d', d' ≠ d → At passes q (Flow.records passes q f d k a) d' := fun d' hne =>
    (h.items d').elsewhere records_elsewhere hne
  have hnext' : d < (Flow.records passes q f d k a).next := records_next.symm ▸ hnext
  have hanswer : (Flow.records passes q f d k a).answers.get? (d, k + 1) = some a := by
    rw [records_answers, Dict.get?_set_self]
  have hnone' := fun m hm => @none_records _ passes q f d k a hnone m hm
  have hitems : ∀ (_ : At passes q (Flow.records passes q f d k a) d) d',
      At passes q (Flow.records passes q f d k a) d' := by
    intro hself d'
    obtain rfl | hne := eq_or_ne d' d
    · exact hself
    · exact hrest d' hne
  cases hpass : passes a with
  | false =>
    have heq := @records_failed _ passes q f d k a hpass
    refine ⟨hitems (.failed k a hk hnext' ?_ ?_ (passed_records_lt hpassed) hanswer hpass hnone' ?_), ?_, ?_⟩
    · rw [heq]
      exact hstages
    · rw [heq]
      exact without_self hwaiting
    · rw [heq]
      exact hout
    · rw [heq]
      exact hwithout
    · rw [heq]
      exact h.survivors
  | true =>
    have hpassed' := @passed_records _ passes q f d k a hpass hpassed
    by_cases hlast : k + 1 < q
    · have heq : Flow.records passes q f d k a = { f with
          waiting := f.waiting.filter (· ≠ (d, k)) ++ [(d, k + 1)]
          asked := f.asked ++ [(d, k + 1)]
          answers := f.answers.set (d, k + 1) a } := by
        unfold Flow.records
        rw [hpass, if_pos rfl, if_pos hlast]
      refine ⟨hitems (.live (k + 1) hlast hnext' ?_ (fun k' => ?_) hpassed' hnone' ?_), ?_, ?_⟩
      · rw [stages_asked (congrArg Flow.asked heq), if_pos rfl, List.range_succ]
        show f.stages d ++ _ = _
        rw [hstages]
      · rw [heq]
        show (d, k') ∈ f.waiting.filter (· ≠ (d, k)) ++ [(d, k + 1)] ↔ _
        rw [List.mem_append, List.mem_singleton, Prod.mk.injEq]
        exact ⟨fun hin => (hin.resolve_left (without_self hwaiting k')).2, fun hk' => .inr ⟨rfl, hk'⟩⟩
      · rw [heq]
        exact hout
      · rw [heq]
        show ((f.waiting.filter (· ≠ (d, k)) ++ [(d, k + 1)]).map Prod.fst).Nodup
        rw [List.map_append]
        refine nodup_append_singleton hwithout fun hin => ?_
        obtain ⟨⟨d', k'⟩, hdk, hd⟩ := List.mem_map.1 hin
        obtain rfl : d' = d := hd
        exact without_self hwaiting k' hdk
      · rw [heq]
        exact h.survivors
    · have heq : Flow.records passes q f d k a = { f with
          waiting := f.waiting.filter (· ≠ (d, k))
          answers := f.answers.set (d, k + 1) a
          survivors := f.survivors ++ [d] } := by
        unfold Flow.records
        rw [hpass, if_pos rfl, if_neg hlast]
      obtain rfl : q = k + 1 := by omega
      refine ⟨hitems (.passed hnext' ?_ ?_ hpassed' hnone' ?_), ?_, ?_⟩
      · rw [heq]
        exact hstages
      · rw [heq]
        exact without_self hwaiting
      · rw [heq]
        exact List.mem_append_right _ (List.mem_singleton_self d)
      · rw [heq]
        exact hwithout
      · rw [heq]
        exact nodup_append_singleton h.survivors hout

/-! ## What a run has done -/

/-- The stages asked of an item are the first ones, and it passed all but the last. -/
def Orderly (passes : α → Bool) (q : ℕ) (f : Flow α) : Prop :=
  ∀ d, ∃ m ≤ q, f.stages d = List.range m ∧ ∀ k, k + 1 < m → f.Passed passes d k

/-- That is a matter of what was asked and answered. -/
lemma Orderly.congr (h : Orderly passes q f) (hasked : g.asked = f.asked) (hanswers : g.answers = f.answers) :
    Orderly passes q g := by
  intro d
  obtain ⟨m, hm, hstages, hpassed⟩ := h d
  refine ⟨m, hm, ?_, fun k hk => ?_⟩
  · unfold stages
    rw [hasked]
    exact hstages
  · unfold Passed
    rw [hanswers]
    exact hpassed k hk

/-- A sound run is orderly wherever it stands. -/
lemma Sound.orderly (h : Sound passes q f) : Orderly passes q f := by
  intro d
  cases h.items d with
  | unopened hnext hstages => exact ⟨0, Nat.zero_le _, hstages, fun k hk => absurd hk (Nat.not_lt_zero _)⟩
  | live k hk hnext hstages hwaiting hpassed => exact ⟨k + 1, hk, hstages, fun j hj => hpassed j (by omega)⟩
  | failed k a hk hnext hstages hwaiting hpassed =>
    exact ⟨k + 1, hk, hstages, fun j hj => hpassed j (by omega)⟩
  | passed hnext hstages hwaiting hpassed => exact ⟨q, le_rfl, hstages, fun j hj => hpassed j (by omega)⟩

/-- Only stages there are were asked, of items that were opened. -/
lemma Sound.lt_of_asked (h : Sound passes q f) (hasked : (d, k) ∈ f.asked) : d < f.next ∧ k < q := by
  have hstage := mem_stages.2 hasked
  constructor
  · cases h.items d with
    | unopened hnext hstages =>
      rw [hstages] at hstage
      cases hstage
    | live k hk hnext => exact hnext
    | failed k a hk hnext => exact hnext
    | passed hnext => exact hnext
  · obtain ⟨m, hm, hstages, _⟩ := h.orderly d
    rw [hstages, List.mem_range] at hstage
    omega

/-- What is waited for was asked. -/
lemma Sound.asked_of_waiting (h : Sound passes q f) (hmem : (d, k) ∈ f.waiting) : (d, k) ∈ f.asked := by
  obtain ⟨_, _, hstages, _⟩ := h.live hmem
  rw [← mem_stages, hstages]
  exact List.mem_range.2 (Nat.lt_succ_self k)

/-- The next item was asked nothing. -/
lemma Sound.next_new (h : Sound passes q f) : (f.next, k) ∉ f.asked := fun hasked =>
  absurd (h.lt_of_asked hasked).1 (lt_irrefl _)

/-- The next stage of an item that is waited for was not asked. -/
lemma Sound.stage_new (h : Sound passes q f) (hmem : (d, k) ∈ f.waiting) : (d, k + 1) ∉ f.asked := by
  obtain ⟨_, _, hstages, _⟩ := h.live hmem
  rw [← mem_stages, hstages, List.mem_range]
  omega

/-- The stages an item of the run was found to pass. -/
def passedOf (passes : α → Bool) (q : ℕ) (f : Flow α) (d : ℕ) : List Bool :=
  passing (fun a => a.any passes) q fun k => f.answers.get? (d, k + 1)

/-- The run has opened `n` items and waits for none. -/
structure Done (n : ℕ) (f : Flow α) : Prop where
  next : f.next = n
  waiting : f.waiting = []

lemma any_of_passed (h : f.Passed passes d k) : (f.answers.get? (d, k + 1)).any passes = true := by
  obtain ⟨a, ha, hpass⟩ := h
  rw [ha, Option.any_some, hpass]

variable {n : ℕ}

/-- A run that is done asked each item the stages up to the first answer that does not pass. -/
lemma Sound.stages_eq (h : Sound passes q f) (hdone : Done n f) (d : ℕ) :
    f.stages d = if d < n then List.range (asks (passedOf passes q f d)) else [] := by
  unfold passedOf
  cases h.items d with
  | unopened hnext hstages =>
    rw [if_neg (not_lt.2 (hdone.next ▸ hnext)), hstages]
  | live k hk hnext hstages hwaiting =>
    have hmem := (hwaiting k).2 rfl
    rw [hdone.waiting] at hmem
    cases hmem
  | failed k a hk hnext hstages hwaiting hpassed ha hfails =>
    rw [if_pos (hdone.next ▸ hnext), hstages, asks_passing_failed hk fun j hj => any_of_passed (hpassed j hj)]
    rw [ha, Option.any_some, hfails]
  | passed hnext hstages hwaiting hpassed =>
    rw [if_pos (hdone.next ▸ hnext), hstages, asks_passing_all fun j hj => any_of_passed (hpassed j hj)]

/-- It has an answer for each stage it asked. -/
lemma Sound.answered_iff (h : Sound passes q f) (hdone : Done n f) (d m : ℕ) :
    (f.answers.get? (d, m)).isSome ↔ ∃ k ∈ f.stages d, m = k + 1 := by
  have hnot : ∀ {m}, f.answers.get? (d, m) = none → ¬(f.answers.get? (d, m)).isSome := fun hnone => by
    rw [hnone]
    exact Bool.false_ne_true
  have hhas : ∀ {k}, f.Passed passes d k → (f.answers.get? (d, k + 1)).isSome := by
    rintro k ⟨a, ha, -⟩
    rw [ha]
    rfl
  cases h.items d with
  | unopened hnext hstages hwaiting hnone =>
    rw [hstages]
    refine ⟨fun hsome => absurd hsome (hnot (hnone m)), ?_⟩
    rintro ⟨k, hk, -⟩
    exact absurd hk List.not_mem_nil
  | live k hk hnext hstages hwaiting =>
    have hmem := (hwaiting k).2 rfl
    rw [hdone.waiting] at hmem
    cases hmem
  | failed k a hk hnext hstages hwaiting hpassed ha hfails hnone =>
    rw [hstages]
    constructor
    · intro hsome
      by_cases hm : m = 0 ∨ k + 1 < m
      · exact absurd hsome (hnot (hnone m hm))
      · exact ⟨m - 1, List.mem_range.2 (by omega), by omega⟩
    · rintro ⟨j, hj, rfl⟩
      obtain hlt | rfl := Nat.lt_or_eq_of_le (Nat.lt_succ_iff.1 (List.mem_range.1 hj))
      · exact hhas (hpassed j hlt)
      · rw [ha]
        rfl
  | passed hnext hstages hwaiting hpassed hnone =>
    rw [hstages]
    constructor
    · intro hsome
      by_cases hm : m = 0 ∨ q < m
      · exact absurd hsome (hnot (hnone m hm))
      · exact ⟨m - 1, List.mem_range.2 (by omega), by omega⟩
    · rintro ⟨j, hj, rfl⟩
      exact hhas (hpassed j (List.mem_range.1 hj))

/-- An item survives when it passed every stage. -/
lemma Sound.mem_survivors (h : Sound passes q f) (hdone : Done n f) :
    d ∈ f.survivors ↔ d < n ∧ ∀ k < q, f.Passed passes d k := by
  cases h.items d with
  | unopened hnext hstages hwaiting hnone hout =>
    exact ⟨fun hin => absurd hin hout, fun hlt => absurd hlt.1 (not_lt.2 (hdone.next ▸ hnext))⟩
  | live k hk hnext hstages hwaiting =>
    have hmem := (hwaiting k).2 rfl
    rw [hdone.waiting] at hmem
    cases hmem
  | failed k a hk hnext hstages hwaiting hpassed ha hfails hnone hout =>
    refine ⟨fun hin => absurd hin hout, ?_⟩
    rintro ⟨-, hall⟩
    obtain ⟨b, hb, hpass⟩ := hall k hk
    obtain rfl := Option.some.inj (hb.symm.trans ha)
    exact absurd hpass (by rw [hfails]; exact Bool.false_ne_true)
  | passed hnext hstages hwaiting hpassed hnone hin =>
    exact ⟨fun _ => ⟨hdone.next ▸ hnext, hpassed⟩, fun _ => hin⟩

lemma passed_iff : f.Passed passes d k ↔ (f.answers.get? (d, k + 1)).any passes = true := by
  refine ⟨any_of_passed, fun hany => ?_⟩
  cases ha : f.answers.get? (d, k + 1) with
  | none =>
    rw [ha] at hany
    cases hany
  | some a =>
    rw [ha] at hany
    exact ⟨a, ha, hany⟩

/-- In order, the survivors are the items that passed every stage. -/
lemma Sound.survivors_eq (h : Sound passes q f) (hdone : Done n f) : f.survivors.insertionSort (· ≤ ·) =
    (List.range n).filter fun d => (passedOf passes q f d).all id := by
  refine List.Perm.eq_of_pairwise' (List.pairwise_insertionSort _ _) ?_ ?_
  · exact (List.pairwise_le_range).sublist List.filter_sublist
  · refine (List.perm_insertionSort _ _).trans ?_
    refine (List.perm_ext_iff_of_nodup h.survivors (List.nodup_range.sublist List.filter_sublist)).2 fun d => ?_
    rw [h.mem_survivors hdone, List.mem_filter, List.mem_range, passedOf, passing, List.all_eq_true]
    refine and_congr_right fun _ => ⟨?_, ?_⟩
    · rintro hall b hb
      obtain ⟨k, hk, rfl⟩ := List.mem_map.1 hb
      exact passed_iff.1 (hall k (List.mem_range.1 hk))
    · exact fun hall k hk => passed_iff.2 (hall _ (List.mem_map.2 ⟨k, List.mem_range.2 hk, rfl⟩))

/-! ## Two runs -/

/-- Two runs heard the same answer wherever both asked. -/
def Agree (f g : Flow α) : Prop :=
  ∀ key a b, f.answers.get? key = some a → g.answers.get? key = some b → a = b

lemma Agree.symm (h : Agree f g) : Agree g f := fun key a b ha hb => (h key b a hb ha).symm

lemma Agree.passed (h : Agree f g) (hf : f.Passed passes d k) {a : α} (ha : g.answers.get? (d, k + 1) = some a) :
    passes a = true := by
  obtain ⟨b, hb, hpass⟩ := hf
  obtain rfl := h _ _ _ hb ha
  exact hpass

/-- A run that is done passed each item on as far as another run did that heard the same answers. -/
lemma Sound.passed_of_agree (hf : Sound passes q f) (hg : Sound passes q g) (hdone : Done n f)
    (hdone' : Done n g) (h : Agree f g) (hk : k < q) (hbefore : ∀ j < k, g.Passed passes d j)
    (hsome : (f.answers.get? (d, k + 1)).isSome) : g.answers.get? (d, k + 1) = f.answers.get? (d, k + 1) := by
  obtain ⟨j, hj, hjk⟩ := (hf.answered_iff hdone d (k + 1)).1 hsome
  obtain rfl : k = j := Nat.succ.inj hjk
  have hd : d < n := by
    by_contra hd
    rw [hf.stages_eq hdone, if_neg hd] at hj
    cases hj
  obtain ⟨a, ha⟩ := Option.isSome_iff_exists.1 hsome
  have hasked : (g.answers.get? (d, k + 1)).isSome := by
    -- the other run did not stop before this stage
    cases hg.items d with
    | unopened hnext => exact absurd hd (not_lt.2 (hdone'.next ▸ hnext))
    | live k' hk' hnext hstages hwaiting =>
      have hmem := (hwaiting k').2 rfl
      rw [hdone'.waiting] at hmem
      cases hmem
    | failed k' b hk' hnext hstages hwaiting hpassed hb hfails =>
      have hle : k ≤ k' := by
        by_contra hlt
        obtain ⟨b', hb', hpass⟩ := hbefore k' (not_le.1 hlt)
        obtain rfl := Option.some.inj (hb'.symm.trans hb)
        rw [hpass] at hfails
        cases hfails
      exact (hg.answered_iff hdone' d (k + 1)).2 ⟨k, hstages ▸ List.mem_range.2 (by omega), rfl⟩
    | passed hnext hstages =>
      exact (hg.answered_iff hdone' d (k + 1)).2 ⟨k, hstages ▸ List.mem_range.2 hk, rfl⟩
  obtain ⟨b, hb⟩ := Option.isSome_iff_exists.1 hasked
  rw [ha, hb, h _ _ _ ha hb]

/-- What a run that is done answered, another run did that heard the same answers. -/
lemma Sound.answers_of_agree (hf : Sound passes q f) (hg : Sound passes q g) (hdone : Done n f)
    (hdone' : Done n g) (h : Agree f g) {m : ℕ} (hsome : (f.answers.get? (d, m)).isSome) :
    g.answers.get? (d, m) = f.answers.get? (d, m) := by
  obtain ⟨k, hk, rfl⟩ := (hf.answered_iff hdone d m).1 hsome
  obtain ⟨l, hl, hstages, hpassed⟩ := hf.orderly d
  rw [hstages, List.mem_range] at hk
  -- the stages before it were passed in this run, so by induction in the other
  have hbefore : ∀ j ≤ k, ∀ i < j, g.Passed passes d i := by
    intro j
    induction j with
    | zero => exact fun _ i hi => absurd hi (Nat.not_lt_zero i)
    | succ j ih =>
      intro hj i hi
      obtain hlt | rfl := Nat.lt_or_eq_of_le (Nat.lt_succ_iff.1 hi)
      · exact ih (by omega) i hlt
      · obtain ⟨a, ha, hpass⟩ := hpassed i (by omega)
        refine ⟨a, ?_, hpass⟩
        rw [hf.passed_of_agree hg hdone hdone' h (by omega) (ih (by omega)) (by rw [ha]; rfl), ha]
  exact hf.passed_of_agree hg hdone hdone' h (by omega) (hbefore k le_rfl) hsome

/-- Two runs that heard the same answers have the same answers. -/
lemma Sound.answers_eq (hf : Sound passes q f) (hg : Sound passes q g) (hdone : Done n f)
    (hdone' : Done n g) (h : Agree f g) (key : ℕ × ℕ) : f.answers.get? key = g.answers.get? key := by
  obtain ⟨d, m⟩ := key
  cases ha : f.answers.get? (d, m) with
  | some a => rw [← ha, hf.answers_of_agree hg hdone hdone' h (by rw [ha]; rfl)]
  | none =>
    cases hb : g.answers.get? (d, m) with
    | none => rfl
    | some b =>
      have hsome : (g.answers.get? (d, m)).isSome := by rw [hb]; rfl
      have heq := hg.answers_of_agree hf hdone' hdone h.symm hsome
      rw [ha, hb] at heq
      cases heq

/-- And the same survivors. -/
lemma Sound.survivors_of_agree (hf : Sound passes q f) (hg : Sound passes q g) (hdone : Done n f)
    (hdone' : Done n g) (h : Agree f g) :
    f.survivors.insertionSort (· ≤ ·) = g.survivors.insertionSort (· ≤ ·) := by
  rw [hf.survivors_eq hdone, hg.survivors_eq hdone']
  refine List.filter_congr fun d _ => ?_
  unfold passedOf
  rw [funext fun k => hf.answers_eq hg hdone hdone' h (d, k + 1)]

/-! ## How many wait -/

lemma length_without {l : List (ℕ × ℕ)} {x : ℕ × ℕ} (hnodup : l.Nodup) (hmem : x ∈ l) :
    (l.filter (· ≠ x)).length + 1 = l.length := by
  rw [← List.length_erase_add_one hmem, hnodup.erase_eq_filter]
  congr 2
  refine List.filter_congr fun y _ => ?_
  rw [Bool.eq_iff_iff, decide_eq_true_iff, bne_iff_ne]

end Flow

end Stages
