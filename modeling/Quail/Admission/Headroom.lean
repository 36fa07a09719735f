import Mathlib.Algebra.Order.BigOperators.Group.List
import Mathlib.Algebra.Order.Field.Basic
import Mathlib.Algebra.Order.Monoid.WithTop
import Mathlib.Data.List.GetD
import Mathlib.Data.List.MinMax
import Mathlib.Analysis.Real.Sqrt

/-!
# Headroom

`allocate_headroom` of `executor/answer_admission.py`: each row's headroom pages, chosen from its risk curve
at the lowest page price whose pages fit the budget, and the pages left over given, a whole step at a time,
to the row whose step saves the most.
-/

namespace Quail.Admission

variable {K : Type} [Field K] [LinearOrder K]

/-- The risk of a row at a number of headroom pages, infinite past the row. -/
def cell {L : Type} (row : List (WithTop L)) (pages : ℕ) : WithTop L := row.getD pages ⊤

/-- `np.argmin` of a row: the first position of a least value. -/
def argminTo {L : Type} [LinearOrder L] (width : ℕ) (f : ℕ → WithTop L) : ℕ := ((List.range width).argmin f).getD 0

/-- The choices that minimize each row's risk at a page price. -/
def choose (risk : List (List (WithTop K))) (price : K) : List ℕ :=
  risk.map fun row => argminTo row.length fun j => cell row j + ((price * j : K) : WithTop K)

/-- The price at which no page saves more than it costs: the most a row saves over no headroom. -/
def highestPrice (risk : List (List (WithTop K))) : K :=
  ((risk.map fun row => (cell row 0).untopD 0 - (cell row (argminTo row.length (cell row))).untopD 0).max?).getD 0

section
variable (sqrt : K → K) (risk : List (List (WithTop K))) (budget : ℕ)

/-- Halve the prices on a log scale, keeping the higher one's pages within the budget. -/
def bisectPrice : ℕ → K → K → K
  | 0, _, high => high
  | steps + 1, low, high =>
    let middle := sqrt (low * high)
    let used := (choose risk middle).sum
    if budget < used then bisectPrice steps middle high
    else if used = budget then middle
    else bisectPrice steps low middle

/-- `PRICE_STEPS`. -/
def priceSteps : ℕ := 24

/-- The choices at the lowest page price found whose pages fit the budget. -/
def lagrangian : List ℕ :=
  let high := highestPrice risk
  let low := high / 10 ^ 12
  if budget < (choose risk low).sum then choose risk (bisectPrice sqrt risk budget priceSteps low high)
  else choose risk low

end

section
variable (risk : List (List (WithTop K)))

/-- The risk of a row at pages within the step the pages left allow, infinite elsewhere. -/
def reachable (row : List (WithTop K)) (chosen left j : ℕ) : WithTop K :=
  if chosen < j ∧ j ≤ chosen + left then cell row j else ⊤

/-- The best step of a row, and what it saves: minus infinity where there is none. -/
def bestStep (left : ℕ) (row : List (WithTop K)) (chosen : ℕ) : ℕ × WithBot K :=
  let target := argminTo row.length (reachable row chosen left)
  (target, if reachable row chosen left target = ⊤ then ⊥
    else ((cell row chosen).untopD 0 - (reachable row chosen left target).untopD 0 : K))

/-- Give the pages left, a whole step at a time, to the row whose step saves the most. -/
def giveLeft : ℕ → List ℕ → ℕ → List ℕ
  | 0, chosen, _ => chosen
  | fuel + 1, chosen, left =>
    let steps := List.zipWith (bestStep left) risk chosen
    -- the first row that saves the most
    match (List.range steps.length).argmax fun row => (steps.getD row (0, ⊥)).2 with
    | none => chosen
    | some row =>
      let step := steps.getD row (0, ⊥)
      if 0 < left ∧ 0 < step.2 then
        giveLeft fuel (chosen.set row step.1) (left - (step.1 - chosen.getD row 0))
      else chosen

end

/-- `allocate_headroom`. -/
def allocateHeadroom (sqrt : K → K) (risk : List (List (WithTop K))) (budget : ℤ) : List ℕ :=
  let budget := (max 0 budget).toNat
  let chosen := risk.map fun row => argminTo row.length (cell row)
  if chosen.sum ≤ budget then chosen
  else
    let chosen := lagrangian sqrt risk budget
    let left := budget - chosen.sum
    giveLeft risk left chosen left

/-- The summed risk of a choice of headroom. -/
def totalRisk (risk : List (List (WithTop K))) (chosen : List ℕ) : WithTop K :=
  (List.zipWith cell risk chosen).sum

/-! ## Least positions -/

section
variable {L : Type} [LinearOrder L] {width : ℕ} {f : ℕ → WithTop L}

lemma argminTo_le {j : ℕ} (hj : j < width) : f (argminTo width f) ≤ f j := by
  unfold argminTo
  cases hmin : (List.range width).argmin f with
  | none =>
    have hnil := List.argmin_eq_none.1 hmin
    exact absurd (hnil ▸ List.mem_range.2 hj) List.not_mem_nil
  | some m => exact not_lt.1 (List.not_lt_of_mem_argmin (List.mem_range.2 hj) hmin)

omit [LinearOrder L] in
lemma cell_eq_top {row : List (WithTop L)} {j : ℕ} (hj : row.length ≤ j) : cell row j = ⊤ :=
  List.getD_eq_default _ _ hj

/-- The least risk of a row is that of all numbers of pages. -/
lemma cell_argminTo_le (row : List (WithTop L)) (j : ℕ) :
    cell row (argminTo row.length (cell row)) ≤ cell row j := by
  obtain hj | hj := Nat.lt_or_ge j row.length
  · exact argminTo_le hj
  · rw [cell_eq_top hj]
    exact le_top

/-- The first position is taken where no other is less. -/
lemma argminTo_eq_zero (h : ∀ j < width, f 0 ≤ f j) : argminTo width f = 0 := by
  unfold argminTo
  cases hmin : (List.range width).argmin f with
  | none => rfl
  | some m =>
    have hm := List.mem_range.1 (List.argmin_mem hmin)
    have hindex := List.index_of_argmin hmin (List.mem_range.2 (Nat.zero_lt_of_lt hm)) (h m hm)
    obtain ⟨w, rfl⟩ := Nat.exists_eq_add_of_lt (Nat.zero_lt_of_lt hm)
    rw [Nat.zero_add, List.range_succ_eq_map, List.idxOf_cons_self] at hindex
    by_contra hne
    have hne' : m ≠ 0 := hne
    rw [List.idxOf_cons_ne _ hne'.symm] at hindex
    omega

end

/-! ## Prices -/

section
variable {risk : List (List (WithTop K))} {price : K}

lemma length_choose : (choose risk price).length = risk.length := List.length_map _

variable [IsStrictOrderedRing K]

/-- No choice costs a row less at a price. -/
lemma choose_le {choice : List ℕ} (h : choice.length = risk.length) :
    totalRisk risk (choose risk price) + ((price * (choose risk price).sum : K) : WithTop K) ≤
      totalRisk risk choice + ((price * choice.sum : K) : WithTop K) := by
  induction risk generalizing choice with
  | nil =>
    obtain rfl := List.length_eq_zero_iff.1 h
    exact le_rfl
  | cons row risk ih =>
    cases choice with
    | nil => cases h
    | cons j choice =>
      have hrest := ih (Nat.succ_injective h)
      have hrow : cell row (argminTo row.length fun j => cell row j + ((price * j : K) : WithTop K)) +
          ((price * (argminTo row.length fun j => cell row j + ((price * j : K) : WithTop K)) : K) : WithTop K) ≤
          cell row j + ((price * j : K) : WithTop K) := by
        obtain hj | hj := Nat.lt_or_ge j row.length
        · exact argminTo_le (f := fun j => cell row j + ((price * j : K) : WithTop K)) hj
        · rw [cell_eq_top hj, top_add]
          exact le_top
      simp only [choose, totalRisk, List.map_cons, List.zipWith_cons_cons, List.sum_cons, Nat.cast_add,
        mul_add, WithTop.coe_add] at hrest ⊢
      calc _ = _ := add_add_add_comm _ _ _ _
        _ ≤ _ := add_le_add hrow hrest
        _ = _ := add_add_add_comm _ _ _ _

/-- The choice at a price has the least risk of all choices with no more pages. -/
lemma choose_optimal (hprice : 0 ≤ price) {choice : List ℕ} (h : choice.length = risk.length)
    (hpages : choice.sum ≤ (choose risk price).sum) :
    totalRisk risk (choose risk price) ≤ totalRisk risk choice := by
  have hle : totalRisk risk (choose risk price) + ((price * (choose risk price).sum : K) : WithTop K) ≤
      totalRisk risk choice + ((price * choice.sum : K) : WithTop K) := choose_le h
  have hcost : ((price * choice.sum : K) : WithTop K) ≤ ((price * (choose risk price).sum : K) : WithTop K) :=
    WithTop.coe_le_coe.2 (mul_le_mul_of_nonneg_left (Nat.cast_le.2 hpages) hprice)
  exact (WithTop.add_le_add_iff_right WithTop.coe_ne_top).1 (hle.trans (add_le_add_right hcost _))

omit [IsStrictOrderedRing K] in
/-- What a row saves over no headroom is no more than the highest price. -/
lemma saved_le_highestPrice {row : List (WithTop K)} (hrow : row ∈ risk) :
    (cell row 0).untopD 0 - (cell row (argminTo row.length (cell row))).untopD 0 ≤ highestPrice risk := by
  unfold highestPrice
  cases hmax : (risk.map fun row =>
      (cell row 0).untopD 0 - (cell row (argminTo row.length (cell row))).untopD 0).max? with
  | none =>
    rw [List.max?_eq_none_iff, List.map_eq_nil_iff] at hmax
    rw [hmax] at hrow
    cases hrow
  | some high => exact (List.max?_eq_some_iff.1 hmax).2 _ (List.mem_map_of_mem hrow)

/-- A row saves nothing below no headroom. -/
lemma saved_nonneg {row : List (WithTop K)} (h : cell row 0 ≠ ⊤) :
    0 ≤ (cell row 0).untopD 0 - (cell row (argminTo row.length (cell row))).untopD 0 := by
  have hle := cell_argminTo_le row 0
  lift cell row 0 to K using h with zero hzero
  lift cell row (argminTo row.length (cell row)) to K using (hle.trans_lt (WithTop.coe_lt_top _)).ne with least
  rw [WithTop.coe_le_coe] at hle
  exact sub_nonneg.2 hle

lemma highestPrice_nonneg (h : ∀ row ∈ risk, cell row 0 ≠ ⊤) : 0 ≤ highestPrice risk := by
  cases risk with
  | nil => exact le_rfl
  | cons row risk =>
    exact (saved_nonneg (h row List.mem_cons_self)).trans (saved_le_highestPrice List.mem_cons_self)

/-- At the highest price every row takes no headroom. -/
lemma choose_highestPrice (h : ∀ row ∈ risk, cell row 0 ≠ ⊤) :
    (choose risk (highestPrice risk)).sum = 0 := by
  refine List.sum_eq_zero fun pages hpages => ?_
  obtain ⟨row, hrow, rfl⟩ := List.mem_map.1 hpages
  refine argminTo_eq_zero fun j hj => ?_
  rw [Nat.cast_zero, mul_zero, WithTop.coe_zero, add_zero]
  obtain rfl | hpos := Nat.eq_zero_or_pos j
  · rw [Nat.cast_zero, mul_zero, WithTop.coe_zero, add_zero]
  · have hsaved := saved_le_highestPrice hrow
    have hnonneg := highestPrice_nonneg h
    have hleast := cell_argminTo_le row j
    have hle := cell_argminTo_le row 0
    have hzero := h row hrow
    generalize cell row (argminTo row.length (cell row)) = least at hsaved hleast hle
    generalize cell row 0 = zero at hsaved hle hzero
    lift zero to K using hzero
    lift least to K using (hle.trans_lt (WithTop.coe_lt_top _)).ne
    -- the price of the first page already covers all a row can save
    have hprice : highestPrice risk ≤ highestPrice risk * j :=
      le_mul_of_one_le_right hnonneg (Nat.one_le_cast.2 hpos)
    calc (zero : WithTop K) ≤ ((least + highestPrice risk * j : K) : WithTop K) := by
          rw [WithTop.coe_le_coe]
          simp only [WithTop.untopD_coe] at hsaved
          linarith
      _ = (least : WithTop K) + ((highestPrice risk * j : K) : WithTop K) := WithTop.coe_add _ _
      _ ≤ cell row j + ((highestPrice risk * j : K) : WithTop K) := add_le_add_left hleast _

omit [IsStrictOrderedRing K] in
/-- The price found has pages within the budget, where the highest has, and is no negative one. -/
lemma bisectPrice_spec {sqrt : K → K} (hsqrt : ∀ x, 0 ≤ sqrt x) {budget : ℕ} (steps : ℕ) (low : K) {high : K}
    (hhigh : 0 ≤ high) (hfits : (choose risk high).sum ≤ budget) :
    0 ≤ bisectPrice sqrt risk budget steps low high ∧
      (choose risk (bisectPrice sqrt risk budget steps low high)).sum ≤ budget := by
  induction steps generalizing low high with
  | zero => exact ⟨hhigh, hfits⟩
  | succ steps ih =>
    unfold bisectPrice
    dsimp only
    split_ifs with hover hequal
    · exact ih _ hhigh hfits
    · exact ⟨hsqrt _, hequal.le⟩
    · exact ih _ (hsqrt _) (not_lt.1 hover)

/-- The Lagrangian part is a choice at a price that is not negative, within the budget. -/
lemma lagrangian_spec {sqrt : K → K} (hsqrt : ∀ x, 0 ≤ sqrt x) (budget : ℕ)
    (h : ∀ row ∈ risk, cell row 0 ≠ ⊤) :
    ∃ price : K, 0 ≤ price ∧ lagrangian sqrt risk budget = choose risk price ∧
      (choose risk price).sum ≤ budget := by
  have hhigh := highestPrice_nonneg h
  unfold lagrangian
  dsimp only
  split_ifs with hover
  · obtain ⟨hprice, hfits⟩ := bisectPrice_spec hsqrt priceSteps (highestPrice risk / 10 ^ 12) hhigh
      ((choose_highestPrice h).le.trans (Nat.zero_le budget))
    exact ⟨_, hprice, rfl, hfits⟩
  · exact ⟨_, div_nonneg hhigh (by positivity), rfl, not_lt.1 hover⟩

/-! ## The pages left over -/

omit [IsStrictOrderedRing K] in
lemma sum_set {chosen : List ℕ} {i : ℕ} (pages : ℕ) (hi : i < chosen.length) :
    (chosen.set i pages).sum + chosen.getD i 0 = chosen.sum + pages := by
  induction chosen generalizing i with
  | nil => cases hi
  | cons c chosen ih =>
    cases i with
    | zero =>
      rw [List.set_cons_zero, List.sum_cons, List.sum_cons, List.getD_cons_zero]
      omega
    | succ i =>
      have hrest := ih (Nat.lt_of_succ_lt_succ hi)
      rw [List.set_cons_succ, List.sum_cons, List.sum_cons, List.getD_cons_succ]
      omega

/-- A row's lower risk lowers the sum. -/
lemma totalRisk_set_le {chosen : List ℕ} {i pages : ℕ}
    (h : cell (risk.getD i []) pages ≤ cell (risk.getD i []) (chosen.getD i 0)) :
    totalRisk risk (chosen.set i pages) ≤ totalRisk risk chosen := by
  induction risk generalizing chosen i with
  | nil => exact le_rfl
  | cons row risk ih =>
    cases chosen with
    | nil => exact le_rfl
    | cons c chosen =>
      simp only [totalRisk] at ih ⊢
      cases i with
      | zero =>
        rw [List.set_cons_zero, List.zipWith_cons_cons, List.zipWith_cons_cons, List.sum_cons, List.sum_cons]
        exact add_le_add_left h _
      | succ i =>
        rw [List.set_cons_succ, List.zipWith_cons_cons, List.zipWith_cons_cons, List.sum_cons, List.sum_cons]
        exact add_le_add_right (ih h) _

/-- A step that saves goes some pages up, as far as the pages left, to a lower risk. -/
lemma bestStep_spec {left chosen : ℕ} {row : List (WithTop K)}
    (h : 0 < (bestStep left row chosen).2) :
    chosen < (bestStep left row chosen).1 ∧ (bestStep left row chosen).1 ≤ chosen + left ∧
      cell row (bestStep left row chosen).1 ≤ cell row chosen := by
  unfold bestStep at h ⊢
  dsimp only at h ⊢
  generalize argminTo row.length (reachable row chosen left) = target at h ⊢
  split_ifs at h with htop
  · exact absurd h not_lt_bot
  · unfold reachable at htop h
    split_ifs at htop h with hstep
    · refine ⟨hstep.1, hstep.2, ?_⟩
      by_cases hchosen : cell row chosen = ⊤
      · rw [hchosen]
        exact le_top
      · lift cell row chosen to K using hchosen with c
        lift cell row target to K using htop with t
        rw [WithTop.untopD_coe, WithTop.untopD_coe] at h
        exact WithTop.coe_le_coe.2 (sub_pos.1 (WithBot.coe_pos.1 h)).le
    · exact absurd rfl htop

omit [IsStrictOrderedRing K] in
lemma getD_steps {chosen : List ℕ} {left i : ℕ} (hi : i < (List.zipWith (bestStep left) risk chosen).length) :
    (List.zipWith (bestStep left) risk chosen).getD i (0, ⊥) =
      bestStep left (risk.getD i []) (chosen.getD i 0) := by
  have hi' := hi
  rw [List.length_zipWith, lt_min_iff] at hi'
  rw [List.getD_eq_getElem _ _ hi, List.getElem_zipWith, List.getD_eq_getElem _ _ hi'.1,
    List.getD_eq_getElem _ _ hi'.2]

/-- What is given stays within the pages left and never raises the risk. -/
lemma giveLeft_spec (fuel left : ℕ) {chosen : List ℕ} (hlen : chosen.length = risk.length) :
    (giveLeft risk fuel chosen left).length = risk.length ∧
    (giveLeft risk fuel chosen left).sum ≤ chosen.sum + left ∧
    totalRisk risk (giveLeft risk fuel chosen left) ≤ totalRisk risk chosen := by
  induction fuel generalizing chosen left with
  | zero => exact ⟨hlen, Nat.le_add_right _ _, le_rfl⟩
  | succ fuel ih =>
    unfold giveLeft
    dsimp only
    split
    · exact ⟨hlen, Nat.le_add_right _ _, le_rfl⟩
    · rename_i row hrow
      have hlt := List.mem_range.1 (List.argmax_mem hrow)
      rw [getD_steps hlt]
      split_ifs with hsaves
      · -- the pages given and the pages left keep their sum
        obtain ⟨hup, hleft, hlower⟩ := bestStep_spec hsaves.2
        have hset := sum_set (bestStep left (risk.getD row []) (chosen.getD row 0)).1
          (i := row) (lt_min_iff.1 (List.length_zipWith ▸ hlt)).2
        obtain ⟨hlength, hsum, hrisk⟩ := @ih
          (left - ((bestStep left (risk.getD row []) (chosen.getD row 0)).1 - chosen.getD row 0))
          (chosen.set row (bestStep left (risk.getD row []) (chosen.getD row 0)).1)
          (by rw [List.length_set, hlen])
        refine ⟨hlength, by omega, hrisk.trans (totalRisk_set_le hlower)⟩
      · exact ⟨hlen, Nat.le_add_right _ _, le_rfl⟩

/-- The loop has ended once as many steps were taken as pages were left. -/
lemma giveLeft_fuel (fuel : ℕ) {chosen : List ℕ} {left : ℕ} (h : left ≤ fuel) :
    giveLeft risk (fuel + 1) chosen left = giveLeft risk fuel chosen left := by
  induction fuel generalizing chosen left with
  | zero =>
    obtain rfl := Nat.le_zero.1 h
    unfold giveLeft
    dsimp only
    split
    · rfl
    · rw [if_neg fun hsaves => absurd hsaves.1 (Nat.lt_irrefl 0)]
  | succ fuel ih =>
    unfold giveLeft
    dsimp only
    split
    · rfl
    · rename_i row hrow
      rw [getD_steps (List.mem_range.1 (List.argmax_mem hrow))]
      split_ifs with hsaves
      · obtain ⟨hup, -, -⟩ := bestStep_spec hsaves.2
        exact ih (by omega)
      · rfl

/-! ## What is allocated -/

omit [IsStrictOrderedRing K] in
/-- The unconstrained choice is that at no price. -/
lemma choose_zero : choose risk 0 = risk.map fun row => argminTo row.length (cell row) := by
  unfold choose
  simp only [zero_mul, WithTop.coe_zero, add_zero]

/-- The headroom of every list of risk curves within every budget has at most the budget's pages and no more
risk than none; it is the unconstrained choice, which has the least risk of all, where that fits; and else it
has no more risk than any choice with at most as many pages as its Lagrangian part, which is within the
budget. -/
theorem allocateHeadroom_least (sqrt : K → K) (hsqrt : ∀ x, 0 ≤ sqrt x) (risk : List (List (WithTop K)))
    (h : ∀ row ∈ risk, cell row 0 ≠ ⊤) (budget : ℤ) :
    ((allocateHeadroom sqrt risk budget).sum : ℤ) ≤ max 0 budget ∧
    totalRisk risk (allocateHeadroom sqrt risk budget) ≤ totalRisk risk (risk.map fun _ => 0) ∧
    (((risk.map fun row => argminTo row.length (cell row)).sum : ℤ) ≤ max 0 budget →
      allocateHeadroom sqrt risk budget = (risk.map fun row => argminTo row.length (cell row)) ∧
      ∀ choice, choice.length = risk.length →
        totalRisk risk (allocateHeadroom sqrt risk budget) ≤ totalRisk risk choice) ∧
    (max 0 budget < ((risk.map fun row => argminTo row.length (cell row)).sum : ℤ) →
      ((lagrangian sqrt risk (max 0 budget).toNat).sum : ℤ) ≤ max 0 budget ∧
      ∀ choice, choice.length = risk.length → choice.sum ≤ (lagrangian sqrt risk (max 0 budget).toNat).sum →
        totalRisk risk (allocateHeadroom sqrt risk budget) ≤ totalRisk risk choice) := by
  have hzero : (risk.map fun _ => 0).sum = 0 := by simp
  have hcast : (((max 0 budget).toNat : ℕ) : ℤ) = max 0 budget := Int.toNat_of_nonneg (le_max_left _ _)
  by_cases hfits : (risk.map fun row => argminTo row.length (cell row)).sum ≤ (max 0 budget).toNat
  · have hresult : allocateHeadroom sqrt risk budget = risk.map fun row => argminTo row.length (cell row) :=
      if_pos hfits
    have hleast : ∀ choice, choice.length = risk.length →
        totalRisk risk (risk.map fun row => argminTo row.length (cell row)) ≤ totalRisk risk choice := by
      intro choice hchoice
      have hle : totalRisk risk (choose risk 0) + ((0 * (choose risk 0).sum : K) : WithTop K) ≤
          totalRisk risk choice + ((0 * choice.sum : K) : WithTop K) := choose_le hchoice
      simpa only [zero_mul, WithTop.coe_zero, add_zero, choose_zero] using hle
    rw [hresult]
    refine ⟨by omega, hleast _ (List.length_map _), fun _ => ⟨rfl, hleast⟩, fun hover => ?_⟩
    omega
  · obtain ⟨price, hprice, hpart, hpages⟩ := lagrangian_spec hsqrt (max 0 budget).toNat h
    have hlength : (choose risk price).length = risk.length := length_choose
    have hresult : allocateHeadroom sqrt risk budget =
        giveLeft risk ((max 0 budget).toNat - (choose risk price).sum) (choose risk price)
          ((max 0 budget).toNat - (choose risk price).sum) := by
      rw [← hpart]
      exact if_neg hfits
    obtain ⟨-, hsum, hrisk⟩ := giveLeft_spec ((max 0 budget).toNat - (choose risk price).sum)
      ((max 0 budget).toNat - (choose risk price).sum) hlength
    rw [hresult, hpart]
    refine ⟨by omega, ?_, fun hfits' => by omega, fun _ => ⟨by omega, fun choice hchoice hle => ?_⟩⟩
    · exact hrisk.trans (choose_optimal hprice (List.length_map _) (hzero.le.trans (Nat.zero_le _)))
    · exact hrisk.trans (choose_optimal hprice hchoice hle)

end

/-- Two rows of which one alone can be given its two pages. -/
theorem allocateHeadroom_least_pair :
    ((allocateHeadroom Real.sqrt [[((3 : ℝ) : WithTop ℝ), (3 : ℝ), (0 : ℝ)], [((2 : ℝ) : WithTop ℝ), (0 : ℝ), ⊤]]
      2).sum : ℤ) ≤ 2 := by
  have hleast := (allocateHeadroom_least Real.sqrt Real.sqrt_nonneg
    [[((3 : ℝ) : WithTop ℝ), (3 : ℝ), (0 : ℝ)], [((2 : ℝ) : WithTop ℝ), (0 : ℝ), ⊤]] (by simp [cell]) 2).1
  exact hleast

end Quail.Admission
