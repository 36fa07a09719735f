import Quail.Admission.Chunk

/-!
# The run of partners that fits

`take` cuts an anchor's partner list by tokens and by temporary pages: the run it returns starts at
the cursor, stays within the list, costs no more than the room it was given, and is not empty when
the first request fits.
-/

set_option linter.unusedSectionVars false

namespace Quail.Admission

variable {β γ : Type} [DecidableEq γ] [ToString γ] {c : Config β γ}
variable {s : State β γ} {a : Anchor} {j i room pageRoom : ℕ}

lemma State.length_lengths : (s.lengths c a j).length = s.numPartners c a j := by
  unfold State.lengths State.numPartners
  cases s.lists a j with
  | none => rfl
  | some row => exact row.size

/-- The frame rows of a request at a position. -/
def Config.frameAt (c : Config β γ) (j i : ℕ) : ℕ := if i = 0 then c.frameRows j else 0

/-- The rows of the requests from one position to another. -/
def State.rowsBetween (c : Config β γ) (s : State β γ) (a : Anchor) (j i e : ℕ) : ℕ :=
  ((s.lengths c a j).take e).sum - ((s.lengths c a j).take i).sum

/-- The temporary pages of the requests from one position to another. -/
def State.pagesBetween (c : Config β γ) (s : State β γ) (a : Anchor) (j i e : ℕ) : ℕ :=
  (((List.range (s.numPartners c a j)).map (s.suffixPageCost c a j)).take e).sum -
    (((List.range (s.numPartners c a j)).map (s.suffixPageCost c a j)).take i).sum

lemma State.cum_getD {e : ℕ} (he : e ≤ s.numPartners c a j) :
    (s.cum c a j).getD e 0 = ((s.lengths c a j).take e).sum :=
  Cumulative.getD_eq (by rw [State.length_lengths]; exact he)

lemma State.pageCum_getD {e : ℕ} (he : e ≤ s.numPartners c a j) : (s.pageCum c a j).getD e 0 =
    (((List.range (s.numPartners c a j)).map (s.suffixPageCost c a j)).take e).sum :=
  Cumulative.getD_eq (by simpa using he)

lemma State.take_stop_eq : (s.take c a j i room pageRoom).stop =
    let fit := Cumulative.fit (s.lengths c a j)
      ((s.cum c a j).getD i 0 + room - c.frameAt j i)
    let pageFit := Cumulative.fit ((List.range (s.numPartners c a j)).map (s.suffixPageCost c a j))
      ((s.pageCum c a j).getD i 0 + pageRoom)
    if c.temporarySuffixPages then min fit pageFit else fit := rfl

/-- A run stays within the list. -/
lemma State.take_stop_le : (s.take c a j i room pageRoom).stop ≤ s.numPartners c a j := by
  rw [take_stop_eq, ← length_lengths]
  dsimp only
  split_ifs
  · exact (min_le_left _ _).trans Cumulative.fit_le
  · exact Cumulative.fit_le

/-- A run starts at the cursor. -/
lemma State.le_take_stop (hi : i ≤ s.numPartners c a j) (hframe : c.frameAt j i ≤ room) :
    i ≤ (s.take c a j i room pageRoom).stop := by
  have hfit : i ≤ Cumulative.fit (s.lengths c a j)
      ((s.cum c a j).getD i 0 + room - c.frameAt j i) := by
    refine Cumulative.le_fit (by rw [length_lengths]; exact hi) ?_
    rw [cum_getD hi]
    omega
  have hpage : i ≤ Cumulative.fit ((List.range (s.numPartners c a j)).map (s.suffixPageCost c a j))
      ((s.pageCum c a j).getD i 0 + pageRoom) := by
    refine Cumulative.le_fit (by simpa using hi) ?_
    rw [pageCum_getD hi]
    exact Nat.le_add_right _ _
  rw [take_stop_eq]
  dsimp only
  split_ifs
  · exact le_min hfit hpage
  · exact hfit

lemma State.take_sum_le (hi : i ≤ s.numPartners c a j) :
    ((s.lengths c a j).take (s.take c a j i room pageRoom).stop).sum ≤
      ((s.lengths c a j).take i).sum + room - c.frameAt j i := by
  have hfit : ((s.lengths c a j).take (Cumulative.fit (s.lengths c a j)
      ((s.cum c a j).getD i 0 + room - c.frameAt j i))).sum ≤ _ := Cumulative.sum_fit
  rw [cum_getD hi] at hfit
  refine le_trans (Cumulative.sum_take_mono ?_) hfit
  rw [take_stop_eq, cum_getD hi]
  dsimp only
  split_ifs
  · exact min_le_left _ _
  · exact le_rfl

/-- The rows of a run are its frame and its requests, and fit the room. -/
lemma State.take_tokens (hi : i ≤ s.numPartners c a j) (hframe : c.frameAt j i ≤ room) :
    (s.take c a j i room pageRoom).tokens =
      c.frameAt j i + s.rowsBetween c a j i (s.take c a j i room pageRoom).stop ∧
    (s.take c a j i room pageRoom).tokens ≤ room := by
  have hle : (s.take c a j i room pageRoom).stop ≤ s.numPartners c a j := take_stop_le
  have hmono : ((s.lengths c a j).take i).sum ≤
      ((s.lengths c a j).take (s.take c a j i room pageRoom).stop).sum :=
    Cumulative.sum_take_mono (le_take_stop hi hframe)
  have hsum : ((s.lengths c a j).take (s.take c a j i room pageRoom).stop).sum ≤ _ :=
    take_sum_le hi
  have htokens : (s.take c a j i room pageRoom).tokens = c.frameAt j i +
      (s.cum c a j).getD (s.take c a j i room pageRoom).stop 0 - (s.cum c a j).getD i 0 := rfl
  rw [cum_getD hle, cum_getD hi] at htokens
  unfold rowsBetween
  omega

/-- Without a page budget a run takes no pages; with one, the pages of its requests. -/
lemma State.take_pages (hi : i ≤ s.numPartners c a j) :
    (s.take c a j i room pageRoom).pages =
      (if c.temporarySuffixPages then s.pagesBetween c a j i (s.take c a j i room pageRoom).stop
        else 0) ∧
    (s.take c a j i room pageRoom).pages ≤ pageRoom := by
  have hle : (s.take c a j i room pageRoom).stop ≤ s.numPartners c a j := take_stop_le
  have hpages : (s.take c a j i room pageRoom).pages = if c.temporarySuffixPages then
      (s.pageCum c a j).getD (s.take c a j i room pageRoom).stop 0 - (s.pageCum c a j).getD i 0
      else 0 := rfl
  rw [pageCum_getD hle, pageCum_getD hi] at hpages
  refine ⟨hpages, ?_⟩
  rw [hpages]
  split_ifs with ht
  · have hfit : (((List.range (s.numPartners c a j)).map (s.suffixPageCost c a j)).take
        (Cumulative.fit ((List.range (s.numPartners c a j)).map (s.suffixPageCost c a j))
          ((s.pageCum c a j).getD i 0 + pageRoom))).sum ≤ _ := Cumulative.sum_fit
    rw [pageCum_getD hi] at hfit
    have hstop : (s.take c a j i room pageRoom).stop ≤
        Cumulative.fit ((List.range (s.numPartners c a j)).map (s.suffixPageCost c a j))
          ((((List.range (s.numPartners c a j)).map (s.suffixPageCost c a j)).take i).sum +
            pageRoom) := by
      rw [take_stop_eq, if_pos ht, pageCum_getD hi]
      exact min_le_right _ _
    have hmono := Cumulative.sum_take_mono
      (l := (List.range (s.numPartners c a j)).map (s.suffixPageCost c a j)) hstop
    omega
  · exact Nat.zero_le _

end Quail.Admission
