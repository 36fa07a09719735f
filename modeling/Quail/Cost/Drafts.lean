import Quail.Lib.Threshold
import Mathlib.Algebra.Order.Field.Basic
import Mathlib.Data.List.GetD
import Mathlib.Data.List.MinMax

/-!
# Draft lengths

The draft tokens of an extraction round (`cost/draft_policy.py`): `draft_gains`, what each is expected to
write by the answer survival curve (`cost/answers.py`) and the odds of the position followed, and
`fit_drafts`, the drafts that keep the most expected writes in the rows a pass can hold.
-/

namespace Quail.Cost
open Threshold

variable {K : Type}

section
variable [Field K] [LinearOrder K]

/-! ## The answer survival curve -/

/-- `PRIOR_WEIGHT`. -/
def priorWeight : K := 20

/-- `prior_survival`: geometric lengths with the given mean, cut off at the limit. -/
def priorSurvival (expectedTokens : K) (limit : ℕ) : List K :=
  let keep := 1 - 1 / max 1 expectedTokens
  (List.range (limit + 1)).map fun t => if t = limit then 0 else keep ^ t

/-- One row of `survival_rows`: the Kaplan-Meier curve of the answers seen, from a prior. -/
def survivalRow (counts events : List ℕ) (prior : List K) (limit : ℕ) : List K :=
  let hazard := (List.range (counts.length - 1)).map fun t =>
    let risk := ((counts.drop (t + 1)).sum : K) + priorWeight * prior.getD t 0
    let ended := (events.getD (t + 1) 0 : K) + priorWeight * (prior.getD t 0 - prior.getD (t + 1) 0)
    if 0 < risk then ended / risk else 0
  (hazard.scanl (fun survival h => survival * (1 - h)) 1).zipIdx.map fun e =>
    if limit ≤ e.2 then 0 else e.1

/-- `answer_survival`, of each answer's length, -1 while it is being written, and its tokens so far. -/
def answerSurvival (answers : List (ℤ × ℕ)) (expectedTokens : K) (limit : ℕ) : List K :=
  let observed := answers.map fun answer => if 0 ≤ answer.1 then answer.1 else answer.2
  let ended := (answers.map Prod.fst).filter (0 ≤ ·)
  let bincount (values : List ℤ) := (List.range (limit + 1)).map fun t : ℕ => values.count (t : ℤ)
  survivalRow (bincount observed) (bincount ended) (priorSurvival expectedTokens limit) limit

/-- `DraftPolicy.curve`, of the settled answers by length. -/
def policyCurve (lengths : List ℕ) (expectedTokens : K) (limit : ℕ) : List K :=
  survivalRow lengths lengths (priorSurvival expectedTokens limit) limit

/-! ## The odds of the position followed -/

/-- `SOURCE_PRIOR_WEIGHT`. -/
def sourcePriorWeight : ℕ := 8

/-- `LIVE_BUCKETS`. -/
def liveRanges : List ℕ := [1, 2, 3, 5, 10, 20, 50, 100, 200, 500, 1000]

/-- `live_buckets` of one count: the range nearest on a log scale. -/
def liveBucket (log1p : ℕ → K) (numStreams : ℕ) : ℕ :=
  ((List.range liveRanges.length).argmin fun b =>
    |log1p numStreams - log1p (liveRanges.getD b 0)|).getD 0

/-- `source_odds` of one round. -/
def sourceOdds (log1p : ℕ → K) (trials accepts : List ℕ) (numStreams : ℕ) : K :=
  let bucket := liveBucket log1p numStreams
  if numStreams ≤ 1 then 1
  else ((sourcePriorWeight : K) / liveRanges.getD bucket 0 + accepts.getD bucket 0) /
    (sourcePriorWeight + trials.getD bucket 0)

/-! ## Gains -/

/-- One row of `draft_gains`: the chance the answer goes on past each draft token and the position
followed is its source. -/
def draftGain (cap limit : ℕ) (survival : List K) (odds : K) (written : ℕ) : List K :=
  let tail (j : ℕ) := survival.getD (min (written + j) limit) 0
  (List.range cap).map fun j =>
    if limit ≤ written + (j + 1) then 0
    else odds * if 0 < tail 0 then tail (j + 1) / tail 0 else 1

/-- `draft_gains`, of each answer's tokens so far and live positions. -/
def draftGains (cap limit : ℕ) (survival : List K) (answers : List (ℕ × ℕ)) (log1p : ℕ → K)
    (trials accepts : List ℕ) : List (List K) :=
  answers.map fun answer =>
    draftGain cap limit survival (sourceOdds log1p trials accepts answer.2) answer.1

end

/-! ## The fit -/

section
variable [LinearOrder K]

/-- `np.clip` of an integer between zero and a count. -/
def clip (x : ℤ) (count : ℕ) : ℕ := (min (max x 0) count).toNat

/-- `np.cumsum`. -/
def cumsum (counts : List ℕ) : List ℕ := (counts.scanl (· + ·) 0).tail

/-- A row of gains, with minus infinity past the draft. -/
def keptRow (row : List K) (draft : ℕ) : List (WithBot K) :=
  row.zipIdx.map fun e => if e.2 < draft then (e.1 : WithBot K) else ⊥

/-- `np.partition(kept, -room)[-room]`, the `room`-th largest. -/
def partitionAt (kept : List (WithBot K)) (room : ℕ) : WithBot K :=
  (kept.insertionSort (· ≤ ·)).getD (kept.length - room) ⊥

/-- `fit_drafts`. -/
def fitDrafts (gains : List (List K)) (drafts : List ℕ) (room : ℤ) : List ℕ :=
  if (drafts.sum : ℤ) ≤ room then drafts
  else if room ≤ 0 then drafts.map fun _ => 0
  else
    let kept := List.zipWith keptRow gains drafts
    let threshold := partitionAt kept.flatten room.toNat
    let above := kept.map fun row => row.countP (threshold < ·)
    let ties := kept.map fun row => row.countP (· = threshold)
    let left := room - above.sum
    List.zipWith (· + ·) above
      (List.zipWith (fun (total count : ℕ) => clip (left - ((total : ℤ) - count)) count) (cumsum ties) ties)

end

/-! ## What the fit keeps -/

section
variable [LinearOrder K] {row : List K} {draft room : ℕ} {kept : List (WithBot K)}

omit [LinearOrder K] in
lemma length_keptRow : (keptRow row draft).length = row.length := by
  rw [keptRow, List.length_map, List.length_zipIdx]

omit [LinearOrder K] in
/-- What holds of no padding is counted among the entries of the draft. -/
lemma countP_keptRow {P : WithBot K → Bool} (hbot : P ⊥ = false) :
    (keptRow row draft).countP P = (row.take draft).countP fun x : K => P (x : WithBot K) := by
  have hfrom : ∀ k, ((row.zipIdx k).map fun e => if e.2 < draft then (e.1 : WithBot K) else ⊥).countP P =
      (row.take (draft - k)).countP fun x : K => P (x : WithBot K) := by
    induction row with
    | nil => simp
    | cons x row ih =>
      intro k
      rw [List.zipIdx_cons, List.map_cons, List.countP_cons, ih (k + 1)]
      by_cases hk : k < draft
      · rw [show draft - k = draft - (k + 1) + 1 by omega, List.take_succ_cons, List.countP_cons, if_pos hk]
      · rw [show draft - (k + 1) = 0 by omega, show draft - k = 0 by omega, if_neg hk, hbot]
        simp
  exact hfrom 0

/-- The `room`-th largest has fewer than `room` above it, and `room` that are as large. -/
lemma partitionAt_spec (hpos : 0 < room) (hroom : room ≤ kept.length) :
    kept.countP (fun x => decide (partitionAt kept room < x)) < room ∧
    room ≤ kept.countP (fun x => decide (partitionAt kept room ≤ x)) := by
  have hperm : (kept.insertionSort (· ≤ ·)).Perm kept := List.perm_insertionSort _ _
  have hsorted : (kept.insertionSort (· ≤ ·)).Pairwise (· ≤ ·) :=
    List.pairwise_insertionSort (· ≤ ·) kept
  have hp : kept.length - room < (kept.insertionSort (· ≤ ·)).length := by
    rw [hperm.length_eq]
    omega
  have hat : partitionAt kept room = (kept.insertionSort (· ≤ ·))[kept.length - room] := by
    rw [partitionAt, List.getD_eq_getElem?_getD, List.getElem?_eq_getElem hp, Option.getD_some]
  have hlt := countP_lt_le hsorted hp
  have hle := le_countP_le hsorted hp
  rw [hperm.countP_eq, hperm.length_eq, ← hat] at hlt hle
  omega

/-- The ties kept are given out from the first answer on. -/
lemma clip_eq_fill (left : ℕ) (counts : List ℕ) :
    List.zipWith (fun (total count : ℕ) => clip (left - ((total : ℤ) - count)) count) (cumsum counts)
      counts = fill left counts := by
  have hfrom : ∀ b : ℕ, List.zipWith (fun (total count : ℕ) => clip (left - ((total : ℤ) - count)) count)
      (counts.scanl (· + ·) b).tail counts = fill (left - b) counts := by
    induction counts with
    | nil => intro b; rfl
    | cons count counts ih =>
      intro b
      have htail : (List.scanl (· + ·) b (count :: counts)).tail =
          (b + count) :: (counts.scanl (· + ·) (b + count)).tail := by
        rw [List.scanl_cons, List.tail_cons]
        cases counts <;> simp [List.scanl_cons]
      rw [htail, List.zipWith_cons_cons, ih, fill, Nat.sub_sub]
      refine congrArg (· :: _) ?_
      unfold clip
      omega
  exact hfrom 0

variable {gains : List (List K)} {drafts : List ℕ}

omit [LinearOrder K] in
/-- What holds of no padding is counted in each row among the entries of its draft. -/
lemma map_countP_kept {P : WithBot K → Bool} {Q : K → Bool} (hbot : P ⊥ = false) (hP : ∀ x : K, P x = Q x) :
    (List.zipWith keptRow gains drafts).map (List.countP P) =
      (List.zipWith (fun row draft => row.take draft) gains drafts).map (List.countP Q) := by
  rw [List.map_zipWith, List.map_zipWith]
  simp only [countP_keptRow hbot, hP]

omit [LinearOrder K] in
lemma map_length_take (h : List.Forall₂ (fun row draft => draft ≤ row.length) gains drafts) :
    (List.zipWith (fun row draft => row.take draft) gains drafts).map List.length = drafts := by
  induction h with
  | nil => rfl
  | cons hd _ ih => rw [List.zipWith_cons_cons, List.map_cons, ih, List.length_take, min_eq_left hd]

/-- The entries that are not padding are those of the drafts. -/
lemma countP_bot_lt (h : List.Forall₂ (fun row draft => draft ≤ row.length) gains drafts) :
    (List.zipWith keptRow gains drafts).flatten.countP (fun x => decide (⊥ < x)) = drafts.sum := by
  rw [List.countP_flatten, map_countP_kept (Q := fun _ => true) (by simp) (by simp)]
  refine Eq.trans ?_ (congrArg List.sum (map_length_take h))
  simp

lemma sum_le_length (h : List.Forall₂ (fun row draft => draft ≤ row.length) gains drafts) :
    drafts.sum ≤ (List.zipWith keptRow gains drafts).flatten.length :=
  countP_bot_lt h ▸ List.countP_le_length

/-- With fewer rows than draft tokens, the threshold is the gain of a draft token. -/
lemma partitionAt_ne_bot (h : List.Forall₂ (fun row draft => draft ≤ row.length) gains drafts)
    (hpos : 0 < room) (hroom : room < drafts.sum) :
    ∃ t : K, partitionAt (List.zipWith keptRow gains drafts).flatten room = t := by
  refine WithBot.ne_bot_iff_exists.1 (fun hbot => ?_) |>.imp fun _ => Eq.symm
  obtain ⟨hspec, -⟩ := partitionAt_spec hpos (hroom.le.trans (sum_le_length h))
  rw [hbot, countP_bot_lt h] at hspec
  omega

omit [LinearOrder K] in
/-- A choice within the drafts is a prefix of each draft's entries. -/
lemma prefixSum_take [AddCommGroup K] {ns : List ℕ} (h : List.Forall₂ (· ≤ ·) ns drafts) :
    prefixSum (List.zipWith (fun row draft => row.take draft) gains drafts) ns = prefixSum gains ns := by
  induction h generalizing gains with
  | nil => cases gains <;> rfl
  | @cons n draft ns drafts hn _ ih =>
    cases gains with
    | nil => rfl
    | cons row gains =>
      have hrest : prefixSum _ _ = prefixSum gains _ := ih
      unfold prefixSum at hrest ⊢
      rw [List.zipWith_cons_cons, List.zipWith_cons_cons, List.sum_cons, hrest, List.take_take,
        min_eq_left hn, List.zipWith_cons_cons, List.sum_cons]

lemma eq_of_sum_eq {xs ys : List ℕ} (h : List.Forall₂ (· ≤ ·) xs ys) (hsum : xs.sum = ys.sum) : xs = ys := by
  induction h with
  | nil => rfl
  | @cons x y xs ys hxy h ih =>
    have hle := h.sum_le_sum
    rw [List.sum_cons, List.sum_cons] at hsum
    rw [ih (by omega), show x = y by omega]

end

section
variable [AddCommGroup K] [LinearOrder K] [IsOrderedAddMonoid K] {gains : List (List K)} {drafts : List ℕ}

/-- The fit keeps a prefix of each draft, as many draft tokens as the room and the drafts have, and of all
such prefixes those with the largest gains. -/
lemma fitDrafts_spec (hlen : List.Forall₂ (fun row draft => draft ≤ row.length) gains drafts)
    (hrows : ∀ row ∈ gains, row.Pairwise (· ≥ ·)) (room : ℤ) :
    List.Forall₂ (· ≤ ·) (fitDrafts gains drafts room) drafts ∧
    ((fitDrafts gains drafts room).sum : ℤ) = min (max room 0) drafts.sum ∧
    ∀ choice, List.Forall₂ (· ≤ ·) choice drafts → choice.sum = (fitDrafts gains drafts room).sum →
      prefixSum gains choice ≤ prefixSum gains (fitDrafts gains drafts room) := by
  unfold fitDrafts
  dsimp only
  split_ifs with hall hnone
  · refine ⟨List.forall₂_same.2 fun _ _ => le_rfl, by omega, ?_⟩
    intro choice hchoice hsum
    rw [eq_of_sum_eq hchoice hsum]
  · have hzero : (drafts.map fun _ => 0).sum = 0 := by simp
    refine ⟨?_, by omega, ?_⟩
    · exact List.forall₂_map_left_iff.2 (List.forall₂_same.2 fun _ _ => Nat.zero_le _)
    · intro choice hchoice hsum
      have hle : List.Forall₂ (· ≤ ·) (drafts.map fun _ => 0) choice :=
        List.forall₂_map_left_iff.2 (hchoice.flip.imp fun _ _ _ => Nat.zero_le _)
      rw [eq_of_sum_eq hle hsum.symm]
  · lift room to ℕ using by omega
    have hpos : 0 < room := by omega
    have hroom : room < drafts.sum := by omega
    set cut := List.zipWith (fun row draft => row.take draft) gains drafts
    have hlengths : cut.map List.length = drafts := map_length_take hlen
    obtain ⟨t, ht⟩ := partitionAt_ne_bot hlen hpos hroom
    rw [Int.toNat_natCast, ht]
    have habove : (List.zipWith keptRow gains drafts).map (List.countP fun x => decide ((t : WithBot K) < x)) =
        cut.map (List.countP fun x => decide (t < x)) := map_countP_kept (by simp) (by simp)
    have hties : (List.zipWith keptRow gains drafts).map (List.countP fun x => decide (x = (t : WithBot K))) =
        cut.map (List.countP fun x => decide (x = t)) := map_countP_kept (by simp) (by simp)
    have hatleast : (List.zipWith keptRow gains drafts).map (List.countP fun x => decide ((t : WithBot K) ≤ x)) =
        cut.map (List.countP fun x => decide (t ≤ x)) := map_countP_kept (by simp) (by simp)
    obtain ⟨hlt, hle⟩ := partitionAt_spec hpos (hroom.le.trans (sum_le_length hlen))
    rw [ht, List.countP_flatten, habove] at hlt
    rw [ht, List.countP_flatten, hatleast] at hle
    have hsplit : (cut.map (List.countP fun x => decide (t ≤ x))).sum =
        (cut.map (List.countP fun x => decide (t < x))).sum +
          (cut.map (List.countP fun x => decide (x = t))).sum := by
      rw [← List.sum_map_add]
      exact congrArg List.sum (List.map_congr_left fun row _ => countP_le_eq row t)
    rw [habove, hties, ← Nat.cast_sub hlt.le, clip_eq_fill]
    set ns := List.zipWith (· + ·) (cut.map (List.countP fun x => decide (t < x)))
      (fill (room - (cut.map (List.countP fun x => decide (t < x))).sum)
        (cut.map (List.countP fun x => decide (x = t)))) with hns
    have hsum : ns.sum = room := by
      rw [hns, sum_add_fill]
      omega
    have hbetween : List.Forall₂ (fun row n => row.countP (fun x => decide (t < x)) ≤ n ∧
        n ≤ row.countP (fun x => decide (t ≤ x))) cut ns := by
      simp only [countP_le_eq]
      exact fill_between _ _ _ _
    have hwithin : List.Forall₂ (· ≤ ·) ns drafts := by
      rw [← hlengths]
      refine List.forall₂_map_right_iff.2 (hbetween.flip.imp fun n row h => ?_)
      exact h.2.trans List.countP_le_length
    refine ⟨hwithin, by omega, ?_⟩
    intro choice hchoice hsame
    rw [← prefixSum_take hchoice, ← prefixSum_take hwithin]
    refine prefixSum_le ?_ hbetween ?_ hsame
    · intro row hrow
      rw [← List.map_uncurry_zip_eq_zipWith] at hrow
      obtain ⟨e, he, rfl⟩ := List.mem_map.1 hrow
      exact (hrows e.1 (List.of_mem_zip he).1).sublist (List.take_sublist _ _)
    · rw [← hlengths] at hchoice
      exact (List.forall₂_map_right_iff.1 hchoice).flip

end

/-! ## The rows of the gains -/

/-- A curve that never rises and never falls below zero. -/
def Falling [Zero K] [LinearOrder K] (curve : List K) : Prop := curve.Pairwise (· ≥ ·) ∧ ∀ x ∈ curve, 0 ≤ x

section
variable [Zero K] [LinearOrder K] {curve : List K}

lemma Falling.getD_nonneg (h : Falling curve) (t : ℕ) : 0 ≤ curve.getD t 0 := by
  rw [List.getD_eq_getElem?_getD]
  cases ht : curve[t]? with
  | none => exact le_rfl
  | some x => exact h.2 x (List.mem_of_getElem? ht)

lemma Falling.getD_le (h : Falling curve) {s t : ℕ} (hst : s ≤ t) : curve.getD t 0 ≤ curve.getD s 0 := by
  obtain rfl | hst := Nat.eq_or_lt_of_le hst
  · exact le_rfl
  by_cases ht : t < curve.length
  · rw [List.getD_eq_getElem _ _ ht, List.getD_eq_getElem _ _ (hst.trans ht)]
    exact List.pairwise_iff_getElem.1 h.1 s t (hst.trans ht) ht hst
  · rw [List.getD_eq_default _ _ (not_lt.1 ht)]
    exact h.getD_nonneg s

/-- A map over positions that never rises is a falling row. -/
lemma falling_range {f : ℕ → K} {n : ℕ} (hf : ∀ s t, s ≤ t → t < n → f t ≤ f s) (hpos : ∀ t < n, 0 ≤ f t) :
    Falling ((List.range n).map f) := by
  refine ⟨List.pairwise_map.2 ?_, ?_⟩
  · refine List.pairwise_lt_range.imp_of_mem fun {s t} _ ht hst => ?_
    exact hf s t hst.le (List.mem_range.1 ht)
  · intro x hx
    obtain ⟨t, ht, rfl⟩ := List.mem_map.1 hx
    exact hpos t (List.mem_range.1 ht)

/-- Cutting a falling row off at a limit keeps it falling. -/
lemma Falling.cut (h : Falling curve) (limit : ℕ) :
    Falling (curve.zipIdx.map fun e => if limit ≤ e.2 then 0 else e.1) := by
  refine ⟨List.pairwise_iff_getElem.2 fun i j hi hj hij => ?_, fun x hx => ?_⟩
  · simp only [List.length_map, List.length_zipIdx] at hi hj
    simp only [List.getElem_map, List.getElem_zipIdx, Nat.zero_add, ge_iff_le]
    split_ifs with hlj hli
    · exact le_rfl
    · exact h.2 _ (List.getElem_mem _)
    · omega
    · exact List.pairwise_iff_getElem.1 h.1 i j hi hj hij
  · obtain ⟨e, he, rfl⟩ := List.mem_map.1 hx
    split_ifs
    · exact le_rfl
    · exact h.2 _ (List.fst_mem_of_mem_zipIdx he)

end

section
variable [Field K] [LinearOrder K] [IsStrictOrderedRing K]

lemma priorSurvival_falling (expectedTokens : K) (limit : ℕ) : Falling (priorSurvival expectedTokens limit) := by
  have hone : (1 : K) ≤ max 1 expectedTokens := le_max_left _ _
  have hkeep : 0 ≤ 1 - 1 / max 1 expectedTokens := by
    rw [sub_nonneg, div_le_one (by linarith)]
    exact hone
  have hkeep' : 1 - 1 / max 1 expectedTokens ≤ 1 := by
    have := one_div_nonneg.2 (zero_le_one.trans hone)
    linarith
  refine falling_range ?_ ?_
  · intro s t hst ht
    split_ifs with h h' h'
    · exact le_rfl
    · exact pow_nonneg hkeep _
    · omega
    · exact pow_le_pow_of_le_one hkeep hkeep' hst
  · intro t _
    split_ifs
    · exact le_rfl
    · exact pow_nonneg hkeep _

/-- The product of chances to go on never rises. -/
lemma scanl_falling {hazard : List K} (h : ∀ x ∈ hazard, 0 ≤ x ∧ x ≤ 1) {b : K} (hb : 0 ≤ b) :
    Falling (hazard.scanl (fun survival h => survival * (1 - h)) b) ∧
      ∀ x ∈ hazard.scanl (fun survival h => survival * (1 - h)) b, x ≤ b := by
  induction hazard generalizing b with
  | nil => simp [Falling, hb]
  | cons y hazard ih =>
    obtain ⟨⟨hy, hy'⟩, h⟩ := List.forall_mem_cons.1 h
    have hnext : 0 ≤ b * (1 - y) := mul_nonneg hb (sub_nonneg.2 hy')
    have hle : b * (1 - y) ≤ b := mul_le_of_le_one_right hb (by linarith)
    obtain ⟨⟨hpairwise, hpos⟩, hbelow⟩ := ih h hnext
    have hbelow' : ∀ x ∈ hazard.scanl (fun survival h => survival * (1 - h)) (b * (1 - y)), x ≤ b :=
      fun x hx => (hbelow x hx).trans hle
    rw [List.scanl_cons]
    refine ⟨⟨List.pairwise_cons.2 ⟨hbelow', hpairwise⟩, List.forall_mem_cons.2 ⟨hb, hpos⟩⟩, ?_⟩
    exact List.forall_mem_cons.2 ⟨le_rfl, hbelow'⟩

/-- The curve of answers of which no more have ended than were seen falls, from a prior that falls. -/
lemma survivalRow_falling {counts events : List ℕ} {prior : List K} (limit : ℕ)
    (hevents : ∀ t, events.getD t 0 ≤ counts.getD t 0) (hprior : Falling prior) :
    Falling (survivalRow counts events prior limit) := by
  refine (scanl_falling ?_ zero_le_one).1.cut limit
  intro x hx
  obtain ⟨t, ht, rfl⟩ := List.mem_map.1 hx
  have ht' : t + 1 < counts.length := by
    have := List.mem_range.1 ht
    omega
  have hcount : events.getD (t + 1) 0 ≤ (counts.drop (t + 1)).sum := by
    refine (hevents (t + 1)).trans ?_
    rw [List.drop_eq_getElem_cons ht', List.getD_eq_getElem _ _ ht', List.sum_cons]
    exact Nat.le_add_right _ _
  have hcast : (events.getD (t + 1) 0 : K) ≤ ((counts.drop (t + 1)).sum : K) := Nat.cast_le.2 hcount
  have hfall := hprior.getD_le (Nat.le_add_right t 1)
  have hnext := hprior.getD_nonneg (t + 1)
  have hweight : (0 : K) ≤ priorWeight := by norm_num [priorWeight]
  have hended : (0 : K) ≤ events.getD (t + 1) 0 + priorWeight * (prior.getD t 0 - prior.getD (t + 1) 0) :=
    add_nonneg (Nat.cast_nonneg _) (mul_nonneg hweight (sub_nonneg.2 hfall))
  dsimp only
  split_ifs with hrisk
  · refine ⟨div_nonneg hended hrisk.le, (div_le_one hrisk).2 ?_⟩
    have := mul_nonneg hweight hnext
    linarith
  · exact ⟨le_rfl, zero_le_one⟩

/-- An ended answer was seen at its length. -/
lemma count_ended_le (answers : List (ℤ × ℕ)) (t : ℤ) :
    ((answers.map Prod.fst).filter (0 ≤ ·)).count t ≤
      (answers.map fun answer => if 0 ≤ answer.1 then answer.1 else (answer.2 : ℤ)).count t := by
  induction answers with
  | nil => exact le_rfl
  | cons answer answers ih =>
    simp only [List.map_cons, List.filter_cons, List.count_cons]
    by_cases h : 0 ≤ answer.1
    · simp only [decide_eq_true h, if_true, if_pos h, List.count_cons]
      omega
    · simp only [decide_eq_false h, if_neg h]
      exact ih.trans (Nat.le_add_right _ _)

lemma answerSurvival_falling (answers : List (ℤ × ℕ)) (expectedTokens : K) (limit : ℕ) :
    Falling (answerSurvival answers expectedTokens limit) := by
  refine survivalRow_falling limit (fun t => ?_) (priorSurvival_falling _ _)
  by_cases ht : t < limit + 1
  · rw [List.getD_eq_getElem _ _ (by simpa using ht), List.getD_eq_getElem _ _ (by simpa using ht)]
    simpa using count_ended_le answers t
  · rw [List.getD_eq_default _ _ (by simpa using ht)]
    exact Nat.zero_le _

lemma sourceOdds_nonneg (log1p : ℕ → K) (trials accepts : List ℕ) (numStreams : ℕ) :
    0 ≤ sourceOdds log1p trials accepts numStreams := by
  unfold sourceOdds
  dsimp only
  split_ifs
  · exact zero_le_one
  · positivity

/-- What draft tokens are expected to write never rises along a draft. -/
lemma draftGain_falling {survival : List K} (h : Falling survival) {odds : K} (hodds : 0 ≤ odds)
    (cap limit written : ℕ) : Falling (draftGain cap limit survival odds written) := by
  -- the chance the answer goes on past a draft token
  set ratio : ℕ → K := fun j =>
    if 0 < survival.getD (min (written + 0) limit) 0 then
      survival.getD (min (written + (j + 1)) limit) 0 / survival.getD (min (written + 0) limit) 0
    else 1 with hratio
  have hgain : draftGain cap limit survival odds written =
      (List.range cap).map fun j => if limit ≤ written + (j + 1) then 0 else odds * ratio j := rfl
  have hpos : ∀ j, 0 ≤ ratio j := by
    intro j
    simp only [hratio]
    split_ifs with hbase
    · exact div_nonneg (h.getD_nonneg _) hbase.le
    · exact zero_le_one
  have hfall : ∀ s t, s ≤ t → ratio t ≤ ratio s := by
    intro s t hst
    simp only [hratio]
    split_ifs with hbase
    · exact div_le_div_of_nonneg_right (h.getD_le (min_le_min_right _ (by omega))) hbase.le
    · exact le_rfl
  rw [hgain]
  refine falling_range ?_ ?_
  · intro s t hst _
    split_ifs with ht hs hs
    · exact le_rfl
    · exact mul_nonneg hodds (hpos s)
    · omega
    · exact mul_le_mul_of_nonneg_left (hfall s t hst) hodds
  · intro t _
    split_ifs
    · exact le_rfl
    · exact mul_nonneg hodds (hpos t)

/-- For every matrix of gains whose rows never rise, drafts within it and any room, the fit keeps a prefix of
each draft, in all the least of the room and the drafts, and of all prefixes with as many draft tokens those
with the largest gains; and the rows `draft_gains` makes never rise, from every curve that falls, as the
curves of all answers and of every draft policy do. -/
theorem fitDrafts_best :
    (∀ (gains : List (List K)) (drafts : List ℕ) (room : ℤ),
      List.Forall₂ (fun row draft => draft ≤ row.length) gains drafts →
      (∀ row ∈ gains, row.Pairwise (· ≥ ·)) →
        List.Forall₂ (· ≤ ·) (fitDrafts gains drafts room) drafts ∧
        ((fitDrafts gains drafts room).sum : ℤ) = min (max room 0) drafts.sum ∧
        ∀ choice, List.Forall₂ (· ≤ ·) choice drafts → choice.sum = (fitDrafts gains drafts room).sum →
          prefixSum gains choice ≤ prefixSum gains (fitDrafts gains drafts room)) ∧
    (∀ cap limit (survival : List K) answers log1p trials accepts, Falling survival →
      ∀ row ∈ draftGains cap limit survival answers log1p trials accepts, row.Pairwise (· ≥ ·)) ∧
    (∀ answers (expectedTokens : K) limit, Falling (answerSurvival answers expectedTokens limit)) ∧
    ∀ lengths (expectedTokens : K) limit, Falling (policyCurve lengths expectedTokens limit) := by
  refine ⟨?_, ?_, answerSurvival_falling, ?_⟩
  · intro gains drafts room hlen hrows
    exact fitDrafts_spec hlen hrows room
  · intro cap limit survival answers log1p trials accepts h row hrow
    obtain ⟨answer, -, rfl⟩ := List.mem_map.1 hrow
    exact (draftGain_falling h (sourceOdds_nonneg _ _ _ _) _ _ _).1
  · intro lengths expectedTokens limit
    exact survivalRow_falling limit (fun _ => le_rfl) (priorSurvival_falling _ _)

/-- Two answers with one draft token too many: of the equal gains the earlier answer keeps its own. -/
theorem fitDrafts_best_tie :
    prefixSum [[(3 : ℚ), 1], [2, 1]] [1, 2] ≤ prefixSum [[(3 : ℚ), 1], [2, 1]] [2, 1] := by
  have hfit : fitDrafts [[(3 : ℚ), 1], [2, 1]] [2, 2] 3 = [2, 1] := by decide +kernel
  have hbest := (fitDrafts_best.1 [[(3 : ℚ), 1], [2, 1]] [2, 2] 3 (by simp) (by simp)).2.2 [1, 2]
    (by simp) (by rw [hfit]; rfl)
  rwa [hfit] at hbest

end

end Quail.Cost
