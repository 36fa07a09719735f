import Quail.Lib.Cumulative
import Quail.Lib.NearestCut
import Mathlib.Algebra.Order.Field.Basic
import Mathlib.Algebra.Order.Ring.Rat
import Mathlib.Algebra.Field.Rat
import Mathlib.Data.List.Range
import Mathlib.Tactic.Ring
import Mathlib.Tactic.Linarith

/-!
# Shards of ordered documents

`contiguous_shards` of `planner/graph/shards.py`: consecutive ranges of a table's documents, one for each
GPU, each with about an equal share of the tokens left. Divisions are exact.
-/

namespace Quail.Planner
open Bisect

/-! ## The source -/

/-- `np.searchsorted(zeros, position)`, as an element of `zeros`: the first empty document from there on. -/
def nextZero (lengths : List ℕ) (position : ℕ) : Option ℕ :=
  let zeros := (List.range lengths.length).filter fun i => lengths.getD i 0 = 0
  zeros[cut (· < position) zeros]?

/-- The cumulative sums of the tokens, as integers. -/
def tokenSums (lengths : List ℕ) : List ℤ := (cumulative lengths).map Nat.cast

/-- An equal share of the tokens left for each of the `remaining` workers. -/
def shardTarget (lengths : List ℕ) (consumed : ℤ) (remaining : ℕ) : ℚ :=
  (((tokenSums lengths).getLastD 0 - consumed : ℤ) : ℚ) / remaining

/-- Where the load of a range that starts at `start` is nearest to a target. -/
def nearStop (lengths : List ℕ) (start : ℕ) (consumed : ℤ) (target : ℚ) : ℕ :=
  let sums := tokenSums lengths
  let stop := min lengths.length (max (start + 1) (cut (fun sum : ℤ => decide ((sum : ℚ) < consumed + target)) sums))
  let before := sums.getD (max start (stop - 1)) 0 - consumed
  let after := sums.getD stop 0 - consumed
  if 0 < before ∧ |target - before| ≤ |target - after| then stop - 1 else stop

/-- Where the next range stops. -/
def shardStop (lengths : List ℕ) (start : ℕ) (consumed : ℤ) (remaining : ℕ) : ℕ :=
  let stop := nearStop lengths start consumed (shardTarget lengths consumed remaining)
  -- The greedy rule stops before a zero-length document once load is positive.
  match nextZero lengths (cut (· ≤ consumed) (tokenSums lengths)) with
  | some document => min stop document
  | none => stop

/-- The workers that remain, from `start` on: each one's range and load. -/
def shardTurns (lengths : List ℕ) : ℕ → ℕ → ℤ → List ((ℕ × ℕ) × ℤ)
  | 0, _, _ => []
  | 1, start, consumed => [((start, lengths.length), (tokenSums lengths).getLastD 0 - consumed)]
  | left + 2, start, consumed =>
    let stop := shardStop lengths start consumed (left + 2)
    let load := (tokenSums lengths).getD stop 0 - consumed
    ((start, stop), load) :: shardTurns lengths (left + 1) stop (consumed + load)

def contiguousShards (lengths : List ℕ) (gpus : ℕ) (total : Option ℤ) : List (ℕ × ℕ) × List ℤ :=
  match total with
  | some total =>
    if gpus = 1 then ([(0, lengths.length)], [total]) else ((shardTurns lengths gpus 0 0).unzip)
  | none => (shardTurns lengths gpus 0 0).unzip

/-! ## Sums -/

variable {lengths : List ℕ} {start stop i j e remaining left : ℕ}

/-- The tokens of a range. -/
def tokensOf (lengths : List ℕ) (range : ℕ × ℕ) : ℕ := ((lengths.take range.2).drop range.1).sum

lemma getElem?_tokenSums (h : i ≤ lengths.length) : (tokenSums lengths)[i]? = some ((lengths.take i).sum : ℤ) := by
  rw [tokenSums, List.getElem?_map, Cumulative.getElem?_eq h]
  rfl

lemma getD_tokenSums (h : i ≤ lengths.length) : (tokenSums lengths).getD i 0 = ((lengths.take i).sum : ℤ) := by
  rw [List.getD_eq_getElem?_getD, getElem?_tokenSums h, Option.getD_some]

lemma length_tokenSums : (tokenSums lengths).length = lengths.length + 1 := by
  rw [tokenSums, List.length_map, cumulative, List.length_scanl]

lemma getLastD_tokenSums : (tokenSums lengths).getLastD 0 = (lengths.sum : ℤ) := by
  have hlast := getElem?_tokenSums (le_refl lengths.length)
  rw [List.take_length] at hlast
  rw [List.getLastD_eq_getLast?, List.getLast?_eq_getElem?, length_tokenSums, Nat.add_sub_cancel, hlast]
  rfl

lemma tokensOf_eq (h : start ≤ stop) : (tokensOf lengths (start, stop) : ℤ)
    = (lengths.take stop).sum - (lengths.take start).sum := by
  have hle := Cumulative.sum_take_mono (l := lengths) h
  rw [tokensOf, Cumulative.sum_slice h]
  omega

/-! ## Where a range stops -/

/-- The sums past what was consumed come after the start. -/
lemma lt_cut_consumed (h : start ≤ lengths.length) :
    start < cut (· ≤ ((lengths.take start).sum : ℤ)) (tokenSums lengths) := by
  by_contra hle
  have hle := Nat.not_lt.1 hle
  have hnot := not_of_cut (getElem?_tokenSums (hle.trans h))
  have hmono := Cumulative.sum_take_mono (l := lengths) hle
  simp only [decide_eq_false_iff_not] at hnot
  omega

lemma le_nextZero {position document : ℕ} (h : nextZero lengths position = some document) :
    position ≤ document := by
  have hnot := not_of_cut h
  simpa using hnot

section Turn

variable {consumed : ℤ} {target : ℚ}

lemma lt_nearStop (target : ℚ) (h : start < lengths.length) (hconsumed : consumed = (lengths.take start).sum) :
    start < nearStop lengths start consumed target ∧ nearStop lengths start consumed target ≤ lengths.length := by
  rw [nearStop]
  generalize cut _ (tokenSums lengths) = found
  set stop := min lengths.length (max (start + 1) found) with hstop
  have hlt : start < stop := lt_min h (lt_of_lt_of_le (Nat.lt_succ_self start) (le_max_left _ _))
  have hle : stop ≤ lengths.length := min_le_left _ _
  split
  · rename_i hback
    -- the step back is over a document with tokens, which is not the first of the range
    refine ⟨?_, (Nat.sub_le _ _).trans hle⟩
    by_contra hnot
    have hmax : max start (stop - 1) = start := max_eq_left (Nat.not_lt.1 hnot)
    rw [hmax, getD_tokenSums h.le, hconsumed, sub_self] at hback
    exact lt_irrefl 0 hback.1
  · exact ⟨hlt, hle⟩

lemma nearStop_of_le (h : lengths.length ≤ start) (hs : start ≤ lengths.length)
    (hconsumed : consumed = (lengths.take start).sum) : nearStop lengths start consumed target = start := by
  obtain rfl := le_antisymm h hs
  rw [nearStop]
  generalize cut _ (tokenSums lengths) = found
  have hstop : min lengths.length (max (lengths.length + 1) found) = lengths.length := by omega
  rw [hstop, max_eq_left (Nat.sub_le _ _), getD_tokenSums le_rfl, hconsumed, sub_self]
  exact if_neg fun hback => lt_irrefl 0 hback.1

/-- A range ends where documents are left, with at least one if there are any. -/
lemma shardStop_spec (remaining : ℕ) (h : start ≤ lengths.length) (hconsumed : consumed = (lengths.take start).sum) :
    start ≤ shardStop lengths start consumed remaining ∧
      shardStop lengths start consumed remaining ≤ lengths.length ∧
      (start < lengths.length → start < shardStop lengths start consumed remaining) := by
  have hnear : start ≤ nearStop lengths start consumed (shardTarget lengths consumed remaining) ∧
      nearStop lengths start consumed (shardTarget lengths consumed remaining) ≤ lengths.length ∧
      (start < lengths.length → start < nearStop lengths start consumed (shardTarget lengths consumed remaining)) := by
    rcases Nat.lt_or_ge start lengths.length with hlt | hge
    · obtain ⟨hstart, hstop⟩ := lt_nearStop (shardTarget lengths consumed remaining) hlt hconsumed
      exact ⟨hstart.le, hstop, fun _ => hstart⟩
    · rw [nearStop_of_le hge h hconsumed]
      exact ⟨le_rfl, h, fun hlt => absurd hlt (Nat.not_lt.2 hge)⟩
  rw [shardStop]
  obtain ⟨hstart, hstop, hlt⟩ := hnear
  cases hdocument : nextZero lengths (cut (· ≤ consumed) (tokenSums lengths)) with
  | none => exact ⟨hstart, hstop, hlt⟩
  | some document =>
    have hpositive : start < document := by
      refine lt_of_lt_of_le ?_ (le_nextZero hdocument)
      rw [hconsumed]
      exact lt_cut_consumed h
    exact ⟨le_min hstart hpositive.le, (min_le_left _ _).trans hstop, fun hs => lt_min (hlt hs) hpositive⟩

/-- The bisection ends past the start, at the first sum that reaches the target. -/
lemma lt_cut_target (htarget : 0 < target)
    (hleft : ((lengths.take start).sum : ℚ) + target ≤ lengths.sum) (found : ℕ)
    (hfound : found = cut (fun sum : ℤ => decide ((sum : ℚ) < ((lengths.take start).sum : ℤ) + target))
      (tokenSums lengths)) :
    start < found ∧ found ≤ lengths.length ∧ (∀ i < found, ((lengths.take i).sum : ℚ) < (lengths.take start).sum + target) ∧
      ((lengths.take start).sum : ℚ) + target ≤ (lengths.take found).sum := by
  have hle : found ≤ lengths.length := by
    by_contra hgt
    have hlast := of_lt_cut (hfound ▸ Nat.not_le.1 hgt) (getElem?_tokenSums (le_refl lengths.length))
    rw [List.take_length, decide_eq_true_eq, Int.cast_natCast, Int.cast_natCast] at hlast
    exact absurd hleft (not_le.2 hlast)
  have hbelow : ∀ i < found, ((lengths.take i).sum : ℚ) < (lengths.take start).sum + target := by
    intro i hi
    have hsum := of_lt_cut (hfound ▸ hi) (getElem?_tokenSums (hi.le.trans hle))
    rwa [decide_eq_true_eq, Int.cast_natCast, Int.cast_natCast] at hsum
  have hreach : ((lengths.take start).sum : ℚ) + target ≤ (lengths.take found).sum := by
    have hsum := getElem?_tokenSums hle
    rw [hfound] at hsum
    have hsum := not_of_cut hsum
    rwa [← hfound, decide_eq_false_iff_not, not_lt, Int.cast_natCast, Int.cast_natCast] at hsum
  refine ⟨?_, hle, hbelow, hreach⟩
  by_contra hge
  have hmono : ((lengths.take found).sum : ℚ) ≤ (lengths.take start).sum :=
    Nat.cast_le.2 (Cumulative.sum_take_mono (Nat.not_lt.1 hge))
  linarith

end Turn

/-! ## The ranges -/

/-- The ranges follow one another from one document to the end, and each has its load. -/
def ShardsCover (lengths : List ℕ) : ℕ → List ((ℕ × ℕ) × ℤ) → Prop
  | start, [] => start = lengths.length
  | start, turn :: turns => turn.1.1 = start ∧ start ≤ turn.1.2 ∧ turn.2 = tokensOf lengths turn.1 ∧
      ShardsCover lengths turn.1.2 turns

/-- Every run of the loop covers the documents that are left. -/
theorem shardTurns_covers (left : ℕ) (h : start ≤ lengths.length) :
    ShardsCover lengths start (shardTurns lengths (left + 1) start (lengths.take start).sum) ∧
      (shardTurns lengths (left + 1) start (lengths.take start).sum).length = left + 1 := by
  induction left generalizing start with
  | zero =>
    refine ⟨⟨rfl, h, ?_, rfl⟩, rfl⟩
    rw [tokensOf_eq h, List.take_length]
    exact congrArg (· - _) getLastD_tokenSums
  | succ left ih =>
    obtain ⟨hstart, hstop, -⟩ := shardStop_spec (left + 2) h rfl
    rw [shardTurns]
    have hload : (tokenSums lengths).getD (shardStop lengths start (lengths.take start).sum (left + 2)) 0
        - ((lengths.take start).sum : ℤ)
        = tokensOf lengths (start, shardStop lengths start (lengths.take start).sum (left + 2)) := by
      rw [getD_tokenSums hstop, tokensOf_eq hstart]
    have hconsumed : ((lengths.take start).sum : ℤ)
        + ((tokenSums lengths).getD (shardStop lengths start (lengths.take start).sum (left + 2)) 0
          - ((lengths.take start).sum : ℤ))
        = (lengths.take (shardStop lengths start (lengths.take start).sum (left + 2))).sum := by
      rw [add_sub_cancel, getD_tokenSums hstop]
    rw [hconsumed]
    obtain ⟨hcovers, hlength⟩ := ih hstop
    exact ⟨⟨rfl, hstart, hload, hcovers⟩, by rw [List.length_cons, hlength]⟩

/-- The ranges' documents, one range after the other, are the documents from the first range's start on. -/
lemma ShardsCover.documents {turns : List ((ℕ × ℕ) × ℤ)} (h : ShardsCover lengths start turns) :
    start ≤ lengths.length ∧
      (turns.map Prod.fst).flatMap (fun range => List.range' range.1 (range.2 - range.1))
        = List.range' start (lengths.length - start) := by
  induction turns generalizing start with
  | nil =>
    obtain rfl : start = lengths.length := h
    simp
  | cons turn turns ih =>
    obtain ⟨rfl, hle, -, hrest⟩ := h
    obtain ⟨hstop, hdocuments⟩ := ih hrest
    refine ⟨hle.trans hstop, ?_⟩
    rw [List.map_cons, List.flatMap_cons, hdocuments]
    have hsplit := List.range'_append_1 (s := turn.1.1) (m := turn.1.2 - turn.1.1) (n := lengths.length - turn.1.2)
    rw [Nat.add_sub_cancel' hle] at hsplit
    rw [hsplit]
    congr 1
    omega

lemma ShardsCover.loads {turns : List ((ℕ × ℕ) × ℤ)} (h : ShardsCover lengths start turns) :
    turns.map Prod.snd = (turns.map Prod.fst).map fun range => (tokensOf lengths range : ℤ) := by
  induction turns generalizing start with
  | nil => rfl
  | cons turn turns ih =>
    obtain ⟨-, -, hload, hrest⟩ := h
    rw [List.map_cons, List.map_cons, List.map_cons, hload, ih hrest]

/-- Each range starts where the one before stops. -/
lemma ShardsCover.consecutive {turns : List ((ℕ × ℕ) × ℤ)} (h : ShardsCover lengths start turns) :
    (∀ range ∈ (turns.map Prod.fst).head?, range.1 = start) ∧
      (turns.map Prod.fst).IsChain (fun range next => range.2 = next.1) ∧
      ∀ range ∈ turns.map Prod.fst, range.1 ≤ range.2 ∧ range.2 ≤ lengths.length := by
  induction turns generalizing start with
  | nil => exact ⟨by simp, List.IsChain.nil, by simp⟩
  | cons turn turns ih =>
    obtain ⟨rfl, hle, -, hrest⟩ := h
    obtain ⟨hhead, hchain, hall⟩ := ih hrest
    refine ⟨by simp, List.isChain_cons.2 ⟨fun next hnext => (hhead next hnext).symm, hchain⟩, fun range hrange => ?_⟩
    rcases List.mem_cons.1 hrange with rfl | hrange
    · exact ⟨hle, hrest.documents.1⟩
    · exact hall range hrange

/-! ## Equal shares -/

section Balance

variable (hpos : ∀ tokens ∈ lengths, 0 < tokens)

include hpos

lemma nextZero_eq_none (position : ℕ) : nextZero lengths position = none := by
  have hnil : ((List.range lengths.length).filter fun i => lengths.getD i 0 = 0) = [] := by
    refine List.filter_eq_nil_iff.2 fun i hi => ?_
    have hlt := List.mem_range.1 hi
    have htokens := hpos lengths[i] (List.getElem_mem hlt)
    simp only [List.getD_eq_getElem?_getD, List.getElem?_eq_getElem hlt, Option.getD_some, decide_eq_true_eq]
    omega
  rw [nextZero, hnil]
  rfl

/-- No nonempty range from the same start has a load nearer to the target. -/
lemma nearStop_nearest {target : ℚ} (htarget : 0 < target)
    (hleft : ((lengths.take start).sum : ℚ) + target ≤ lengths.sum) (he : start < e) (hlt : e ≤ lengths.length) :
    |target - tokensOf lengths (start, nearStop lengths start (lengths.take start).sum target)|
      ≤ |target - tokensOf lengths (start, e)| := by
  have hload : ∀ i, start ≤ i → target - (tokensOf lengths (start, i) : ℚ)
      = ((lengths.take start).sum + target) - (lengths.take i).sum := by
    intro i hi
    have hsum : (tokensOf lengths (start, i) : ℚ) = (lengths.take i).sum - (lengths.take start).sum := by
      have hcast := congrArg (Int.cast : ℤ → ℚ) (@tokensOf_eq lengths start i hi)
      rwa [Int.cast_sub, Int.cast_natCast, Int.cast_natCast, Int.cast_natCast] at hcast
    rw [hsum]
    ring
  rw [nearStop]
  generalize hfound : cut (fun sum : ℤ => decide ((sum : ℚ) < ((lengths.take start).sum : ℤ) + target))
    (tokenSums lengths) = found
  obtain ⟨hstart, hstop, hbelow, hreach⟩ := lt_cut_target htarget hleft found hfound.symm
  have hmin : min lengths.length (max (start + 1) found) = found := by omega
  have hmax : max start (found - 1) = found - 1 := by omega
  rw [hmin, hmax, getD_tokenSums hstop, getD_tokenSums ((Nat.sub_le _ _).trans hstop)]
  have hnearest := nearest (c := fun i => ((lengths.take i).sum : ℚ)) ((lengths.take start).sum + target)
    (fun i j hij _ => Nat.cast_le.2 (Cumulative.sum_take_mono hij)) hstop hbelow hreach hlt
  have hafter := hload found hstart.le
  have hbefore := hload (found - 1) (by omega)
  have hsums : ∀ i, start ≤ i → target - (((lengths.take i).sum - (lengths.take start).sum : ℤ) : ℚ)
      = ((lengths.take start).sum + target) - (lengths.take i).sum := by
    intro i _
    rw [Int.cast_sub, Int.cast_natCast, Int.cast_natCast]
    ring
  simp only [hsums found hstart.le, hsums (found - 1) (Nat.le_sub_one_of_lt hstart)]
  split
  · rename_i hback
    obtain ⟨hpositive, hcloser⟩ := hback
    rw [hbefore, hload e he.le]
    rcases hnearest with hnear | ⟨-, hnear⟩
    · exact hcloser.trans hnear
    · exact hnear
  · rename_i hstay
    rw [hafter, hload e he.le]
    rcases hnearest with hnear | ⟨hless, hnear⟩
    · exact hnear
    · -- the shorter range is not empty, so its load is positive and it is not as near
      have hpositive := Cumulative.sum_take_lt hpos (i := start) (j := found - 1) (by omega) (by omega)
      have hfar := not_le.1 fun hcloser => hstay ⟨sub_pos.2 (Nat.cast_lt.2 hpositive), hcloser⟩
      exact hfar.le.trans hnear

end Balance

/-- An equal share of the tokens from a document on. -/
def equalShare (lengths : List ℕ) (start workers : ℕ) : ℚ := ((lengths.drop start).sum : ℚ) / workers

lemma shardTarget_eq : shardTarget lengths (lengths.take start).sum remaining = equalShare lengths start remaining := by
  have hsplit := List.sum_take_add_sum_drop lengths start
  have hleft : (lengths.sum : ℤ) - (lengths.take start).sum = ((lengths.drop start).sum : ℤ) := by omega
  rw [shardTarget, equalShare, getLastD_tokenSums, hleft, Int.cast_natCast]

/-- With only positive token counts, a range with work left is not empty, and its load is nearest to the share. -/
lemma shardStop_nearest (remaining : ℕ) (hpos : ∀ tokens ∈ lengths, 0 < tokens) (h : start < lengths.length) (hremaining : 0 < remaining) :
    start < shardStop lengths start (lengths.take start).sum remaining ∧ ∀ e, start < e → e ≤ lengths.length →
      |equalShare lengths start remaining
          - tokensOf lengths (start, shardStop lengths start (lengths.take start).sum remaining)|
        ≤ |equalShare lengths start remaining - tokensOf lengths (start, e)| := by
  refine ⟨(shardStop_spec remaining h.le rfl).2.2 h, fun e he hlt => ?_⟩
  rw [shardStop, nextZero_eq_none hpos, shardTarget_eq]
  have hsplit := List.sum_take_add_sum_drop lengths start
  have hleft := Cumulative.sum_take_lt hpos h le_rfl
  rw [List.take_length] at hleft
  have hdrop : (0 : ℚ) < (lengths.drop start).sum := Nat.cast_pos.2 (by omega)
  have hworkers : (1 : ℚ) ≤ remaining := Nat.one_le_cast.2 hremaining
  have hshare : equalShare lengths start remaining ≤ (lengths.drop start).sum := div_le_self hdrop.le hworkers
  refine nearStop_nearest hpos (div_pos hdrop (zero_lt_one.trans_le hworkers)) ?_ he hlt
  calc ((lengths.take start).sum : ℚ) + equalShare lengths start remaining
    _ ≤ (lengths.take start).sum + (lengths.drop start).sum := by linarith
    _ = lengths.sum := by rw [← Nat.cast_add, hsplit]

/-- Every range but the last stops where the search from its own start says. -/
lemma shardTurns_stop {worker : ℕ} {turn : (ℕ × ℕ) × ℤ} (h : start ≤ lengths.length) (hworker : worker < left)
    (hturn : (shardTurns lengths (left + 1) start (lengths.take start).sum)[worker]? = some turn) :
    turn.1.2 = shardStop lengths turn.1.1 (lengths.take turn.1.1).sum (left + 1 - worker) := by
  induction left generalizing start worker with
  | zero => cases hworker
  | succ left ih =>
    rw [shardTurns] at hturn
    cases worker with
    | zero =>
      cases hturn
      rfl
    | succ worker =>
      have hstop := (shardStop_spec (left + 2) h rfl).2.1
      rw [add_sub_cancel, getD_tokenSums hstop] at hturn
      rw [ih hstop (Nat.lt_of_succ_lt_succ hworker) hturn]
      congr 1
      omega

/-- What the loop returns is what `contiguous_shards` returns. -/
lemma contiguousShards_eq {gpus : ℕ} {total : Option ℤ} (htotal : ∀ tokens ∈ total, tokens = lengths.sum) :
    contiguousShards lengths gpus total = (shardTurns lengths gpus 0 0).unzip := by
  cases total with
  | none => rfl
  | some tokens =>
    obtain rfl := htotal tokens rfl
    rw [contiguousShards]
    split
    · rename_i hone
      rw [hone, shardTurns, getLastD_tokenSums, sub_zero]
      rfl
    · rfl

/-- One range for each GPU: the ranges follow one another over all documents, each load is its range's tokens,
and where every document has tokens, no nonempty range from the same start is nearer to an equal share. -/
theorem contiguousShards_balanced {gpus : ℕ} {total : Option ℤ} (hgpus : 0 < gpus)
    (htotal : ∀ tokens ∈ total, tokens = lengths.sum) :
    (contiguousShards lengths gpus total).1.length = gpus ∧
      (∀ range ∈ (contiguousShards lengths gpus total).1.head?, range.1 = 0) ∧
      (contiguousShards lengths gpus total).1.IsChain (fun range next => range.2 = next.1) ∧
      (∀ range ∈ (contiguousShards lengths gpus total).1, range.1 ≤ range.2 ∧ range.2 ≤ lengths.length) ∧
      (contiguousShards lengths gpus total).1.flatMap (fun range => List.range' range.1 (range.2 - range.1))
        = List.range lengths.length ∧
      (contiguousShards lengths gpus total).2
        = (contiguousShards lengths gpus total).1.map (fun range => (tokensOf lengths range : ℤ)) ∧
      ((∀ tokens ∈ lengths, 0 < tokens) → ∀ worker start stop, worker + 1 < gpus → start < lengths.length →
        (contiguousShards lengths gpus total).1[worker]? = some (start, stop) →
        start < stop ∧ ∀ e, start < e → e ≤ lengths.length →
          |equalShare lengths start (gpus - worker) - tokensOf lengths (start, stop)|
            ≤ |equalShare lengths start (gpus - worker) - tokensOf lengths (start, e)|) := by
  obtain ⟨left, rfl⟩ := Nat.exists_eq_add_of_le' hgpus
  obtain ⟨hcovers, hlength⟩ := shardTurns_covers left (Nat.zero_le lengths.length)
  rw [contiguousShards_eq htotal, List.unzip_eq_map]
  rw [List.take_zero, List.sum_nil, Nat.cast_zero] at hcovers hlength
  obtain ⟨hhead, hchain, hranges⟩ := hcovers.consecutive
  refine ⟨by rw [List.length_map, hlength], hhead, hchain, hranges, ?_, hcovers.loads, ?_⟩
  · rw [hcovers.documents.2, Nat.sub_zero, List.range_eq_range']
  · intro hpos worker start stop hworker hstart hrange
    obtain ⟨turn, hturn, hfst⟩ := Option.map_eq_some_iff.1 (List.getElem?_map.symm.trans hrange)
    have hstop := shardTurns_stop (Nat.zero_le lengths.length) (Nat.lt_of_succ_lt_succ hworker) hturn
    rw [hfst] at hstop
    have hnearest := shardStop_nearest (left + 1 - worker) hpos hstart (by omega)
    rw [← hstop] at hnearest
    exact hnearest

lemma contiguousShards_balanced_two : (contiguousShards [3, 1, 2] 2 (some 6)).1.length = 2 ∧
    (contiguousShards [3, 1, 2] 2 (some 6)).1 = [(0, 1), (1, 3)] :=
  ⟨(@contiguousShards_balanced [3, 1, 2] 2 (some 6) (by decide) (by decide)).1,
    by decide +kernel⟩

end Quail.Planner
