import Quail.Planner.LeftDeep
import Mathlib.Data.Finset.Lattice.Basic

/-!
# What the frontiers hold

Every record of a state is the work of a sequence that reaches it, and every sequence that reaches a
state is dominated by a record there: a level only replaces records by dominating ones, and a step
after dominated work is dominated.
-/

namespace Quail.Planner

variable {K ι ρ σ : Type} [LinearOrder ι] [DecidableEq ρ]
variable [LinearOrder K]

/-- The records of a state. -/
def States.frontier (S : States K ι ρ σ) (key : Key ι ρ) : List (Candidate K ι ρ σ) :=
  (S.get? key).getD []

/-- Each record of the first is dominated by one in the second. -/
def Grows (S S' : States K ι ρ σ × ℕ) : Prop :=
  ∀ key, ∀ x ∈ States.frontier S.1 key, ∃ y ∈ States.frontier S'.1 key, y.work ≤ x.work

lemma Grows.refl (S : States K ι ρ σ × ℕ) : Grows S S := fun _ x hx => ⟨x, hx, le_rfl⟩

lemma Grows.trans {S S' S'' : States K ι ρ σ × ℕ} (h : Grows S S') (h' : Grows S' S'') :
    Grows S S'' := by
  intro key x hx
  obtain ⟨y, hy, hle⟩ := h key x hx
  obtain ⟨z, hz, hle'⟩ := h' key y hy
  exact ⟨z, hz, hle'.trans hle⟩

/-- A run of growing operations grows. -/
lemma Grows.foldl {α : Type} {f : States K ι ρ σ × ℕ → α → States K ι ρ σ × ℕ}
    (hf : ∀ S a, Grows S (f S a)) (l : List α) (S : States K ι ρ σ × ℕ) : Grows S (l.foldl f S) := by
  induction l generalizing S with
  | nil => exact .refl S
  | cons a l ih => exact (hf S a).trans (ih (f S a))

/-- A state has a record no larger than this work. -/
def Reaches (key : Key ι ρ) (w : Work K) (S : States K ι ρ σ × ℕ) : Prop :=
  ∃ y ∈ States.frontier S.1 key, y.work ≤ w

lemma Reaches.grows {key : Key ι ρ} {w : Work K} {S S' : States K ι ρ σ × ℕ} (h : Reaches key w S)
    (hg : Grows S S') : Reaches key w S' := by
  obtain ⟨y, hy, hle⟩ := h
  obtain ⟨z, hz, hle'⟩ := hg key y hy
  exact ⟨z, hz, hle'.trans hle⟩

/-- What one of the operations reaches, the run reaches. -/
lemma Reaches.foldl {α : Type} {f : States K ι ρ σ × ℕ → α → States K ι ρ σ × ℕ}
    {key : Key ι ρ} {w : Work K} (hf : ∀ S a, Grows S (f S a)) {l : List α} {a : α} (ha : a ∈ l)
    (h : ∀ S, Reaches key w (f S a)) (S : States K ι ρ σ × ℕ) : Reaches key w (l.foldl f S) := by
  induction l generalizing S with
  | nil => cases ha
  | cons b l ih =>
    obtain rfl | ha := List.mem_cons.1 ha
    · exact (h S).grows (.foldl hf l _)
    · exact ih ha (f S b)

/-! ## One step into a target state -/

section
variable [AddCommMonoid K]
variable {target : Key ι ρ} {added : List ι} {work : Work K} {next : ρ} {step : σ}
  {frontier : List (Candidate K ι ρ σ)} {S : States K ι ρ σ × ℕ}

/-- A record one step longer. -/
def Candidate.after (old : Candidate K ι ρ σ) (added : List ι) (work : Work K) (next : ρ) (step : σ) :
    Candidate K ι ρ σ :=
  ⟨old.work + work, next, old.relationOrder ++ added, old.steps ++ [step]⟩

lemma frontier_extend {key : Key ι ρ} :
    States.frontier (extend target added work next step frontier S).1 key =
      if target = key then (frontier.map (·.after added work next step)).foldl
        (Pareto.insert Candidate.work) (States.frontier S.1 target)
      else States.frontier S.1 key := by
  unfold extend States.frontier
  dsimp only
  rw [Dict.get?_set]
  split_ifs
  · rw [List.foldl_map]
    rfl
  · rfl

lemma extend_grows : Grows S (extend target added work next step frontier S) := by
  intro key x hx
  rw [frontier_extend]
  split_ifs with h
  · subst h
    exact Pareto.foldl_covers (.inl hx)
  · exact ⟨x, hx, le_rfl⟩

/-- Each record extended reaches the target. -/
lemma extend_reaches {old : Candidate K ι ρ σ} (hold : old ∈ frontier) :
    Reaches target (old.work + work) (extend target added work next step frontier S) := by
  have hmem := List.mem_map_of_mem (f := fun c => c.after added work next step) hold
  rw [Reaches, frontier_extend, if_pos rfl]
  exact Pareto.foldl_covers (.inr hmem)

/-- A record of the result was there or extends one of the frontier. -/
lemma mem_extend {key : Key ι ρ} {x : Candidate K ι ρ σ}
    (h : x ∈ States.frontier (extend target added work next step frontier S).1 key) :
    x ∈ States.frontier S.1 key ∨
      key = target ∧ ∃ old ∈ frontier, x = old.after added work next step := by
  rw [frontier_extend] at h
  split_ifs at h with htarget
  · subst htarget
    obtain h | h := Pareto.mem_of_foldl h
    · exact .inl h
    · obtain ⟨old, hold, rfl⟩ := List.mem_map.1 h
      exact .inr ⟨rfl, old, hold, rfl⟩
  · exact .inl h

end

/-! ## A level -/

section
variable [AddCommMonoid K] {edges : List (Finset ι)} {priceStep : PriceStep K ι ρ σ}

lemma expand_grows (S : States K ι ρ σ × ℕ) (current : Key ι ρ × List (Candidate K ι ρ σ)) :
    Grows S (expand edges priceStep S current) :=
  .foldl (fun S _ => .foldl (fun _ _ => extend_grows) _ S) _ S

lemma level_grows (S : States K ι ρ σ × ℕ) (numApplied : ℕ) :
    Grows S (level edges priceStep S numApplied) :=
  .foldl expand_grows _ S

lemma mem_available {relations : Finset ι} {applied : Finset ℕ} {index : ℕ} :
    index ∈ available edges relations applied ↔ ∃ ends, edges[index]? = some ends ∧ index ∉ applied ∧
      (ends ⊆ relations ∨ (ends ∩ relations).Nonempty ∧ (ends \ relations).card = 1) := by
  simp only [available, connected, List.mem_filter, List.mem_range, Bool.and_eq_true,
    decide_eq_true_eq, Bool.or_eq_true, beq_iff_eq]
  constructor
  · rintro ⟨hlt, hnew, hc⟩
    rw [List.getD_eq_getElem?_getD, List.getElem?_eq_getElem hlt, Option.getD_some] at hc
    exact ⟨edges[index], List.getElem?_eq_getElem hlt, hnew, hc⟩
  · rintro ⟨ends, hends, hnew, hc⟩
    obtain ⟨hlt, rfl⟩ := List.getElem?_eq_some_iff.1 hends
    rw [List.getD_eq_getElem?_getD, List.getElem?_eq_getElem hlt, Option.getD_some]
    exact ⟨hlt, hnew, hc⟩

/-- Expanding a state reaches what each way of each available join gives each record. -/
lemma expand_reaches {relations ends : Finset ι} {applied : Finset ℕ} {property next : ρ} {index : ℕ}
    {work : Work K} {record : σ} {frontier : List (Candidate K ι ρ σ)} {old : Candidate K ι ρ σ}
    (hends : edges[index]? = some ends) (hnew : index ∉ applied)
    (hconnected : ends ⊆ relations ∨ (ends ∩ relations).Nonempty ∧ (ends \ relations).card = 1)
    (hway : (work, next, record) ∈ priceStep index relations applied property)
    (hold : old ∈ frontier) (S : States K ι ρ σ × ℕ) :
    Reaches (relations ∪ ends, insert index applied, next) (old.work + work)
      (expand edges priceStep S ((relations, applied, property), frontier)) := by
  have hav := mem_available.2 ⟨ends, hends, hnew, hconnected⟩
  refine .foldl (fun S _ => .foldl (fun _ _ => extend_grows) _ S) hav (fun S => ?_) S
  refine .foldl (fun _ _ => extend_grows) hway (fun S => ?_) S
  have hgetD : edges.getD index ∅ = ends := by rw [List.getD_eq_getElem?_getD, hends]; rfl
  dsimp only
  rw [hgetD]
  exact extend_reaches hold

end

/-! ## The sequences -/

section
variable [AddCommMonoid K]
variable {aliases : List ι} {edges : List (Finset ι)} {initial : ρ} {base : Work K}
  {priceStep : PriceStep K ι ρ σ} {seeds : Finset ι}

/-- Every record of a state is a sequence that reaches it. -/
def Sound (aliases : List ι) (edges : List (Finset ι)) (initial : ρ) (base : Work K)
    (priceStep : PriceStep K ι ρ σ) (seeds : Finset ι) (S : States K ι ρ σ × ℕ) : Prop :=
  ∀ key, ∀ x ∈ States.frontier S.1 key, Sequence aliases edges initial base priceStep seeds key x

/-- Every sequence of at most this many joins is dominated by a record of its state. -/
def Covers (aliases : List ι) (edges : List (Finset ι)) (initial : ρ) (base : Work K)
    (priceStep : PriceStep K ι ρ σ) (seeds : Finset ι) (n : ℕ) (S : States K ι ρ σ × ℕ) : Prop :=
  ∀ key c, Sequence aliases edges initial base priceStep seeds key c → key.2.1.card ≤ n →
    Reaches key c.work S

/-- Expanding a state whose records are sequences gives sequences. -/
lemma expand_sound {S : States K ι ρ σ × ℕ} (hS : Sound aliases edges initial base priceStep seeds S)
    {current : Key ι ρ × List (Candidate K ι ρ σ)}
    (hcurrent : ∀ x ∈ current.2, Sequence aliases edges initial base priceStep seeds current.1 x) :
    Sound aliases edges initial base priceStep seeds (expand edges priceStep S current) := by
  obtain ⟨⟨relations, applied, property⟩, frontier⟩ := current
  refine List.foldlRecOn _ _ (motive := Sound aliases edges initial base priceStep seeds) hS ?_
  intro S hS index hindex
  obtain ⟨ends, hends, hnew, hconnected⟩ := mem_available.1 hindex
  refine List.foldlRecOn _ _ (motive := Sound aliases edges initial base priceStep seeds) hS ?_
  intro S hS way hway key x hx
  obtain hx | ⟨rfl, old, hold, rfl⟩ := mem_extend hx
  · exact hS key x hx
  · have hgetD : edges.getD index ∅ = ends := by
      rw [List.getD_eq_getElem?_getD, hends, Option.getD_some]
    rw [hgetD]
    exact .step (hcurrent old hold) hends hnew hconnected hway

omit [LinearOrder K] [AddCommMonoid K] in
/-- The records of the states a level reads. -/
lemma mem_level {S : States K ι ρ σ × ℕ} {numApplied : ℕ}
    {current : Key ι ρ × List (Candidate K ι ρ σ)} :
    current ∈ S.1.entries.filter (fun e => e.1.2.1.card == numApplied) ↔
      S.1.get? current.1 = some current.2 ∧ current.1.2.1.card = numApplied := by
  rw [List.mem_filter, ← Dict.mem_entries_iff, beq_iff_eq]

lemma level_sound {S : States K ι ρ σ × ℕ} (hS : Sound aliases edges initial base priceStep seeds S)
    (numApplied : ℕ) :
    Sound aliases edges initial base priceStep seeds (level edges priceStep S numApplied) := by
  refine List.foldlRecOn _ _ (motive := Sound aliases edges initial base priceStep seeds) hS ?_
  intro S' hS' current hcurrent
  refine expand_sound hS' fun x hx => hS current.1 x ?_
  rw [States.frontier, (mem_level.1 hcurrent).1, Option.getD_some]
  exact hx

/-- A level covers the sequences one join longer. -/
lemma level_covers [IsOrderedAddMonoid K] {S : States K ι ρ σ × ℕ} {n : ℕ}
    (hS : Covers aliases edges initial base priceStep seeds n S) :
    Covers aliases edges initial base priceStep seeds (n + 1) (level edges priceStep S n) := by
  intro key c hc hcard
  obtain hlt | heq := Nat.le_succ_iff.1 hcard
  · exact (hS key c hc hlt).grows (level_grows S n)
  cases hc with
  | start _ => simp at heq
  | @step relations applied property next old index ends work record hold hends hnew hconnected hway =>
    -- a record of the state before the step dominates the sequence before it
    rw [Finset.card_insert_of_notMem hnew, Nat.add_right_cancel_iff] at heq
    obtain ⟨y, hy, hle⟩ := hS _ old hold heq.le
    obtain ⟨frontier, hget⟩ : ∃ frontier, S.1.get? (relations, applied, property) = some frontier := by
      cases hget : S.1.get? (relations, applied, property) with
      | none => rw [States.frontier, hget] at hy; cases hy
      | some frontier => exact ⟨frontier, rfl⟩
    rw [States.frontier, hget, Option.getD_some] at hy
    have hmem : ((relations, applied, property), frontier) ∈
        S.1.entries.filter (fun e => e.1.2.1.card == n) := mem_level.2 ⟨hget, heq⟩
    obtain ⟨z, hz, hle'⟩ := Reaches.foldl expand_grows hmem
      (expand_reaches hends hnew hconnected hway hy) S
    exact ⟨z, hz, hle'.trans (Work.add_le_add_right hle work)⟩

/-! ## The search -/

omit [LinearOrder K] [AddCommMonoid K] in
lemma get?_startStates {starts : List (Finset ι)} {S : States K ι ρ σ} {key : Key ι ρ} :
    (starts.foldl (fun states relations => states.set (relations, ∅, initial)
      [⟨base, initial, relations.sort (· ≤ ·), []⟩]) S).get? key =
      if key.1 ∈ starts ∧ key.2 = (∅, initial) then
        some [⟨base, initial, key.1.sort (· ≤ ·), []⟩] else S.get? key := by
  induction starts generalizing S with
  | nil => simp
  | cons relations starts ih =>
    rw [List.foldl_cons, ih, Dict.get?_set]
    obtain ⟨joined, rest⟩ := key
    by_cases hrest : rest = (∅, initial)
    · by_cases hjoined : joined = relations
      · simp [hrest, hjoined]
      · simp [hrest, hjoined, Ne.symm hjoined]
    · simp [hrest, Ne.symm hrest]

omit [LinearOrder K] [AddCommMonoid K] in
lemma mem_startStates {starts : List (Finset ι)} {key : Key ι ρ} {x : Candidate K ι ρ σ} :
    x ∈ (startStates starts initial base : States K ι ρ σ).frontier key ↔
      (key.1 ∈ starts ∧ key.2 = (∅, initial)) ∧ x = ⟨base, initial, key.1.sort (· ≤ ·), []⟩ := by
  rw [States.frontier, startStates, get?_startStates]
  split_ifs with h
  · simp [h]
  · simp [h]

omit [LinearOrder K] in
lemma startStates_sound {n : ℕ} : Sound aliases edges initial base priceStep seeds
    (startStates (startSets aliases seeds) initial base, n) := by
  rintro ⟨relations, rest⟩ x hx
  obtain ⟨⟨hstart, rfl⟩, rfl⟩ := mem_startStates.1 hx
  exact .start hstart

lemma startStates_covers {n : ℕ} : Covers aliases edges initial base priceStep seeds 0
    (startStates (startSets aliases seeds) initial base, n) := by
  intro key c hc hcard
  cases hc with
  | start hstart => exact ⟨_, mem_startStates.2 ⟨⟨hstart, rfl⟩, rfl⟩, le_rfl⟩
  | step _ _ hnew => rw [Finset.card_insert_of_notMem hnew] at hcard; omega

variable (aliases edges initial base priceStep seeds)

/-- The states after a number of levels hold sequences, and cover those of that many joins. -/
lemma levels_spec [IsOrderedAddMonoid K] (generated n : ℕ) :
    Sound aliases edges initial base priceStep seeds ((List.range n).foldl (level edges priceStep)
        (startStates (startSets aliases seeds) initial base, generated)) ∧
      Covers aliases edges initial base priceStep seeds n ((List.range n).foldl
        (level edges priceStep) (startStates (startSets aliases seeds) initial base, generated)) := by
  induction n with
  | zero => exact ⟨startStates_sound, startStates_covers⟩
  | succ n ih =>
    rw [List.range_succ, List.foldl_append]
    exact ⟨level_sound ih.1 n, level_covers ih.2⟩

variable {aliases edges initial base priceStep seeds}

omit [DecidableEq ρ] [LinearOrder K] in
/-- A complete sequence has joined every alias. -/
lemma Sequence.joins_all (haliases : ∀ a ∈ aliases, a ∈ seeds ∨ ∃ ends ∈ edges, a ∈ ends)
    {key : Key ι ρ} {c : Candidate K ι ρ σ}
    (h : Sequence aliases edges initial base priceStep seeds key c)
    (hall : key.2.1 = Finset.range edges.length) : aliases.toFinset ∪ seeds ⊆ key.1 := by
  refine Finset.union_subset (fun a ha => ?_) h.joined.1
  obtain ha | ⟨ends, hends, ha⟩ := haliases a (List.mem_toFinset.1 ha)
  · exact h.joined.1 ha
  · obtain ⟨index, hlt, hget⟩ := List.getElem_of_mem hends
    have hmem : index ∈ key.2.1 := hall ▸ Finset.mem_range.2 hlt
    exact h.joined.2 index hmem ends (List.getElem?_eq_some_iff.2 ⟨hlt, hget⟩) ha

variable (aliases edges initial base priceStep seeds)

/-- The candidates are complete sequences, and every complete sequence is dominated by one. -/
lemma searchLeftDeep_spec [IsOrderedAddMonoid K]
    (haliases : ∀ a ∈ aliases, a ∈ seeds ∨ ∃ ends ∈ edges, a ∈ ends) :
    (∀ x ∈ (searchLeftDeep aliases edges initial base priceStep seeds).candidates,
        Complete aliases edges initial base priceStep seeds x) ∧
      ∀ c, Complete aliases edges initial base priceStep seeds c →
        ∃ x ∈ (searchLeftDeep aliases edges initial base priceStep seeds).candidates,
          x.work ≤ c.work := by
  obtain ⟨hsound, hcovers⟩ := levels_spec aliases edges initial base priceStep seeds
    (startSets aliases seeds).length edges.length
  unfold searchLeftDeep
  dsimp only
  generalize hS : (List.range edges.length).foldl (level edges priceStep) _ = S at hsound hcovers ⊢
  simp only [List.mem_flatMap, List.mem_filter, Bool.and_eq_true, beq_iff_eq, decide_eq_true_eq]
  constructor
  · rintro x ⟨⟨key, frontier⟩, ⟨hmem, hcard, -⟩, hx⟩
    have hseq : Sequence aliases edges initial base priceStep seeds key x := by
      refine hsound key x ?_
      rwa [States.frontier, Dict.mem_entries_iff.1 hmem, Option.getD_some]
    refine ⟨key, hseq, Finset.eq_of_subset_of_card_le hseq.applied_subset ?_⟩
    rw [Finset.card_range, hcard]
  · rintro c ⟨key, hseq, hall⟩
    have hcard : key.2.1.card = edges.length := by rw [hall, Finset.card_range]
    obtain ⟨x, hx, hle⟩ := hcovers key c hseq hcard.le
    rw [States.frontier] at hx
    cases hget : S.1.get? key with
    | none => rw [hget] at hx; cases hx
    | some frontier =>
      rw [hget] at hx
      exact ⟨x, ⟨(key, frontier), ⟨Dict.mem_entries_iff.2 hget, hcard,
        hseq.joins_all haliases hall⟩, hx⟩, hle⟩

end

end Quail.Planner
