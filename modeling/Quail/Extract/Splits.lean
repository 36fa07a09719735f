import Quail.Extract.Agree

/-!
# Every split of a batch

However a batch is split into blocks, and the positions of its drafts into ranges, its answers get the
values, the live streams and the source that verifying one position of one answer at a time gives
(`constrain_each`). The answers of a batch are `Ready`: at its first token an answer has all positions of its
document, and past it the decoder knows how many streams are alive. A pass keeps this (`Ready.next`).
-/

set_option linter.unusedSectionVars false

namespace Quail.Extract

/-- The streams of an answer that are alive, in document order. -/
def Columns.live (columns : Columns) : List (Option Stream) :=
  ((List.range columns.width).filter columns.alive).map columns.streams

namespace CopyConstraint

variable {α : Type} [LinearOrder α] {c : CopyConstraint}

/-! ## Columns gathered and scattered -/

/-- Columns past the width are dead, so that a wider row has the same live streams. -/
lemma live_wide (streams : ℕ → Option Stream) {alive : ℕ → Bool} {w v : ℕ} (hle : w ≤ v)
    (hdead : ∀ col, w ≤ col → alive col = false) :
    ((List.range v).filter alive).map streams = ((List.range w).filter alive).map streams := by
  obtain ⟨k, rfl⟩ := Nat.exists_eq_add_of_le hle
  have hnone : ((List.range k).map (w + ·)).filter alive = [] := by
    apply List.filter_eq_nil_iff.mpr
    intro col hcol
    obtain ⟨i, -, rfl⟩ := List.mem_map.mp hcol
    rw [hdead (w + i) (Nat.le_add_right w i)]
    exact Bool.false_ne_true
  rw [List.range_add, List.filter_append, hnone, List.append_nil]

lemma map_getD_range {l : List ℕ} {n : ℕ} (h : n ≤ l.length) : (List.range n).map (l.getD · 0) = l.take n := by
  apply List.ext_getElem
  · rw [List.length_map, List.length_range, List.length_take, Nat.min_eq_left h]
  · intro i hi hi'
    rw [List.length_map, List.length_range] at hi
    rw [List.getElem_map, List.getElem_range, List.getElem_take, List.getD_eq_getElem?_getD,
      List.getElem?_eq_getElem (by omega), Option.getD_some]

/-- Compacted columns are all live ones, where there is room for them. -/
lemma compact_live {row : Row} {n : ℕ} (hlive : row.live.length ≤ n) (hn : n ≤ row.width) :
    (compact row n).live = row.live := by
  let alive := (List.range row.width).filter row.alive
  let dead := (List.range row.width).filter fun col => !row.alive col
  have hlength : (alive ++ dead).length = row.width :=
    (List.filter_append_perm row.alive (List.range row.width)).length_eq.trans List.length_range
  have halive : alive.length ≤ n := by
    rw [Row.live, List.length_map] at hlive
    exact hlive
  have htake : (alive ++ dead).take n = alive ++ dead.take (n - alive.length) := by
    rw [List.take_append, List.take_of_length_le halive]
  have hdead : (dead.take (n - alive.length)).filter row.alive = [] := by
    apply List.filter_eq_nil_iff.mpr
    intro col hcol halive
    have hmem := (List.mem_filter.mp (List.mem_of_mem_take hcol)).2
    rw [halive] at hmem
    exact Bool.false_ne_true hmem
  calc (compact row n).live
      = ((((List.range n).map ((alive ++ dead).getD · 0)).filter row.alive).map row.streams) := by
        rw [List.filter_map, List.map_map]
        rfl
    _ = row.live := by
        rw [map_getD_range (hn.trans_eq hlength.symm), htake, List.filter_append, hdead, List.append_nil,
          List.filter_filter]
        simp only [Bool.and_self]
        rfl

/-- The columns gathered of an answer have its live streams, where they are as wide as the answer and as
many as its live streams. -/
lemma gather_live {columns : Columns} {w n : ℕ} (hdead : ∀ col, columns.width ≤ col → columns.alive col = false)
    (hw : columns.width ≤ w) (hn : columns.live.length ≤ n) : (gather columns w n).live = columns.live := by
  have hwide := live_wide columns.streams hw hdead
  dsimp only [gather]
  split
  · rename_i hlt
    rw [compact_live _ hlt.le]
    · exact hwide
    · refine le_of_eq_of_le (congrArg List.length ?_) hn
      exact hwide
  · exact hwide

lemma gather_width {columns : Columns} {w n : ℕ} (hn : n ≤ w) : (gather columns w n).width = n := by
  dsimp only [gather]
  split
  · rfl
  · exact (Nat.le_antisymm hn (by omega)).symm

lemma gather_source {columns : Columns} {w n : ℕ} : (gather columns w n).source = columns.source := by
  dsimp only [gather]
  split
  · rfl
  · rfl

lemma gather_active {columns : Columns} {w n : ℕ} : (gather columns w n).active = true := by
  dsimp only [gather]
  split
  · rfl
  · rfl

/-- Scattered columns have the live streams of the row. -/
lemma scatter_live {columns : Columns} {w n : ℕ} {row : Row} (hwidth : row.width = n) :
    (scatter columns w n row).live = row.live := by
  rw [Columns.live, Row.live, hwidth]
  have hrange : ∀ col ∈ List.range n, col < n := fun col hcol => List.mem_range.mp hcol
  have hfilter : (List.range n).filter (scatter columns w n row).alive = (List.range n).filter row.alive := by
    apply List.filter_congr
    intro col hcol
    exact if_pos (hrange col hcol)
  change ((List.range n).filter (scatter columns w n row).alive).map _ = _
  rw [hfilter]
  apply List.map_congr_left
  intro col hcol
  exact if_pos (hrange col (List.mem_filter.mp hcol).1)

lemma scatter_dead {columns : Columns} {w n : ℕ} {row : Row} (hw : columns.width ≤ w)
    (hdead : ∀ col, columns.width ≤ col → columns.alive col = false) :
    ∀ col, n ≤ col → (scatter columns w n row).alive col = false := by
  intro col hcol
  dsimp only [scatter]
  rw [if_neg (by omega)]
  split
  · rfl
  · exact hdead col (by omega)

/-! ## Positions that are none of a draft's -/

lemma verify_width {row : Row} {steps : ℕ → DraftStep α} {document limit : ℕ} {first : Bool} :
    (c.verify row steps 1 document limit first).2.width = row.width := by
  simp only [verify, if_true]

lemma verifyEach_width {row : Row} {steps : ℕ → DraftStep α} {document limit n : ℕ} :
    (c.verifyEach row steps document limit n).2.width = row.width := by
  induction n with
  | zero => rfl
  | succ n ih =>
    simp only [verifyEach]
    rw [verify_width, ih]

lemma verifyEach_length {row : Row} {steps : ℕ → DraftStep α} {document limit n : ℕ} :
    (c.verifyEach row steps document limit n).1.length = n := by
  induction n with
  | zero => rfl
  | succ n ih =>
    simp only [verifyEach, List.length_append, ih]
    simp only [verify, if_true, List.length_singleton]

/-- A verified row's source is its earliest stream. -/
lemma verifyEach_source (row : Row) (steps : ℕ → DraftStep α) (document limit : ℕ) {n : ℕ} (hn : 0 < n) :
    (c.verifyEach row steps document limit n).2.source =
      c.earliest (c.verifyEach row steps document limit n).2 := by
  obtain ⟨k, rfl⟩ := Nat.exists_eq_succ_of_ne_zero hn.ne'
  simp only [verifyEach, verify, if_true]
  rfl

/-- Positions past the end of a draft record nothing, and leave the row but that it is no longer active. -/
lemma verifyEach_past (row : Row) (steps : ℕ → DraftStep α) (document limit extra : ℕ) {n : ℕ} (hn : 0 < n)
    (hpast : ∀ j, n ≤ j → (steps j).valid = false ∧ 0 < (steps j).at') :
    (∃ active, (c.verifyEach row steps document limit (n + extra)).2 =
      { (c.verifyEach row steps document limit n).2 with active := active }) ∧
      (c.verifyEach row steps document limit (n + extra)).1.take n =
        (c.verifyEach row steps document limit n).1 := by
  induction extra with
  | zero =>
    refine ⟨⟨_, rfl⟩, ?_⟩
    rw [Nat.add_zero, List.take_of_length_le (verifyEach_length (c := c)).le]
  | succ k ih =>
    obtain ⟨⟨active, hrow⟩, hvalues⟩ := ih
    obtain ⟨hvalid, hat⟩ := hpast (n + k) (by omega)
    rw [show n + (k + 1) = n + k + 1 from rfl]
    constructor
    · refine ⟨false, ?_⟩
      simp only [verifyEach]
      rw [verify_past (by exact hat), hrow]
      simp only [left, Nat.add_zero, hvalid, Bool.and_false, Bool.false_and, Bool.false_eq_true, if_false]
      have hsource := verifyEach_source (c := c) row steps document limit hn
      rw [hsource]
      rfl
    · simp only [verifyEach]
      rw [List.take_append_of_le_length, hvalues]
      rw [verifyEach_length]
      exact Nat.le_add_right n k

/-! ## Ranges of positions -/

/-- A range that begins before the count begins a whole number of steps before it. -/
lemma range_lt {count numSteps i : ℕ} (hsteps : 0 < numSteps) (hi : i + 1 ≤ (count + numSteps - 1) / numSteps) :
    i * numSteps < count := by
  have hmul := (Nat.le_div_iff_mul_le hsteps).mp hi
  rw [Nat.succ_mul] at hmul
  omega

/-- The ranges reach the count. -/
lemma ranges_reach {count numSteps : ℕ} (hsteps : 0 < numSteps) :
    count ≤ (count + numSteps - 1) / numSteps * numSteps := by
  have hlt := Nat.lt_mul_div_succ (count + numSteps - 1) hsteps
  rw [Nat.mul_add, Nat.mul_one, Nat.mul_comm] at hlt
  omega

/-- The ranges have every position once, in order. -/
lemma ranges_cover {count numSteps : ℕ} (hsteps : 0 < numSteps) :
    (ranges count numSteps).flatMap (fun r => List.range' r.1 (r.2 - r.1)) = List.range count := by
  have hupto : ∀ i, i ≤ (count + numSteps - 1) / numSteps →
      ((List.range i).map fun i => (i * numSteps, min (i * numSteps + numSteps) count)).flatMap
        (fun r => List.range' r.1 (r.2 - r.1)) = List.range (min (i * numSteps) count) := by
    intro i hi
    induction i with
    | zero =>
      rw [Nat.zero_mul, Nat.zero_min]
      rfl
    | succ i ih =>
      have hlt := range_lt hsteps hi
      have hsplit : min ((i + 1) * numSteps) count =
          i * numSteps + (min (i * numSteps + numSteps) count - i * numSteps) := by
        rw [Nat.succ_mul]
        omega
      rw [List.range_succ, List.map_append, List.flatMap_append, ih (by omega), Nat.min_eq_left hlt.le, hsplit,
        List.range_add]
      simp only [List.map_singleton, List.flatMap_cons, List.flatMap_nil, List.append_nil,
        List.range'_eq_map_range]
  rw [ranges, hupto _ le_rfl, Nat.min_eq_right (ranges_reach hsteps)]

lemma draftStep_at {batch : Batch α} {slot j : ℕ} (h : 0 < j ∨ 0 < batch.indices slot) :
    0 < (draftStep batch slot j).at' := by
  dsimp only [draftStep]
  split
  · omega
  · exact Nat.one_pos

lemma draftStep_begins {batch : Batch α} {slot j : ℕ} (h : (draftStep batch slot j).at' = 0) :
    (draftStep batch slot j).valid = true := by
  dsimp only [draftStep] at h ⊢
  split at h
  · rename_i hlt
    exact decide_eq_true hlt
  · exact absurd h Nat.one_ne_zero

/-- The ranges so far end at the count or at a whole number of steps. -/
lemma verifyRanges_upto {batch : Batch α} {slots : List ℕ} {slot count numSteps : ℕ} {row : Row}
    (hslot : slot ∈ slots) (hsteps : 0 < numSteps) {i : ℕ} (hi : i ≤ (count + numSteps - 1) / numSteps) :
    c.verifyRanges batch slots slot row
        ((List.range i).map fun i => (i * numSteps, min (i * numSteps + numSteps) count)) =
      c.verifyEach row (draftStep batch slot) (batch.copyDocument slot) (batch.limits slot)
        (min (i * numSteps) count) := by
  induction i with
  | zero =>
    rw [Nat.zero_mul, Nat.zero_min]
    rfl
  | succ i ih =>
    have hlt := range_lt hsteps hi
    have hbefore : min (i * numSteps) count = i * numSteps := Nat.min_eq_left hlt.le
    rw [List.range_succ, List.map_append, List.map_singleton]
    have ih := ih (by omega)
    rw [verifyRanges] at ih ⊢
    rw [List.foldl_append, ih, List.foldl_cons, List.foldl_nil, hbefore]
    -- The range is verified as its positions are, and the positions so far and these are all up to its end.
    have hsplit : min ((i + 1) * numSteps) count =
        i * numSteps + (min (i * numSteps + numSteps) count - i * numSteps) := by
      rw [Nat.succ_mul]
      omega
    have hrange := verify_eq_each (c := c)
      (c.verifyEach row (draftStep batch slot) (batch.copyDocument slot) (batch.limits slot) (i * numSteps)).2
      (fun j => draftStep batch slot (i * numSteps + j)) (batch.copyDocument slot) (batch.limits slot)
      (slots.any fun s => (draftStep batch s (i * numSteps)).valid &&
        decide ((draftStep batch s (i * numSteps)).at' = 0))
      (n := min (i * numSteps + numSteps) count - i * numSteps)
      (by omega)
      (fun hat => ⟨List.any_eq_true.mpr ⟨slot, hslot, by
        rw [Nat.add_zero] at hat
        rw [draftStep_begins hat, hat]
        rfl⟩, draftStep_begins hat⟩)
      fun j => draftStep_at (Or.inl (Nat.succ_pos _))
    rw [hsplit, verifyEach_add]
    simp only [hrange]

/-- Verifying an answer range after range is verifying its positions one after another. -/
lemma verifyRanges_eq {batch : Batch α} {slots : List ℕ} {slot count numSteps : ℕ} {row : Row} (hslot : slot ∈ slots)
    (hsteps : 0 < numSteps) :
    c.verifyRanges batch slots slot row (ranges count numSteps) =
      c.verifyEach row (draftStep batch slot) (batch.copyDocument slot) (batch.limits slot) count := by
  rw [ranges, verifyRanges_upto hslot hsteps le_rfl, Nat.min_eq_right (ranges_reach hsteps)]

/-! ## An answer in a block -/

/-- The answers of a batch: columns past the width are dead, an answer at its first token has all positions
of its document, and past it a stream is alive and the decoder knows how many are. -/
structure Ready (c : CopyConstraint) (batch : Batch α) (group : Group) (slot : ℕ) : Prop where
  width_pos : 0 < (group slot).width
  width_le : (group slot).width ≤ c.maxPositions
  dead : ∀ col, (group slot).width ≤ col → (group slot).alive col = false
  begun : batch.indices slot = 0 → (group slot).width = c.maxPositions ∧
    (group slot).streams = c.streamIds (batch.copyDocument slot) ∧
    (group slot).alive = fun col => (c.streamIds (batch.copyDocument slot) col).isSome
  going : 0 < batch.indices slot →
    (group slot).live ≠ [] ∧ (group slot).live.length = batch.numStreams slot

lemma Columns.live_length_le {columns : Columns} : columns.live.length ≤ columns.width := by
  rw [Columns.live, List.length_map]
  exact (List.length_filter_le _ _).trans_eq List.length_range

lemma Ready.numStreams_le {batch : Batch α} {group : Group} {slot : ℕ} (h : Ready c batch group slot) :
    numStreams group batch slot ≤ (group slot).width := by
  rw [numStreams]
  split
  · exact max_le h.width_pos le_rfl
  · rename_i hat
    rw [← (h.going (Nat.pos_of_ne_zero hat)).2]
    exact max_le h.width_pos Columns.live_length_le

lemma Ready.live_le {batch : Batch α} {group : Group} {slot : ℕ} (h : Ready c batch group slot) :
    (group slot).live.length ≤ numStreams group batch slot := by
  rw [numStreams]
  split
  · exact Columns.live_length_le.trans (le_max_right _ _)
  · rename_i hat
    rw [(h.going (Nat.pos_of_ne_zero hat)).2]
    exact le_max_right _ _

/-- One position of one answer after another, in the columns the answer itself needs. -/
def each (c : CopyConstraint) (group : Group) (batch : Batch α) (slot : ℕ) : List (Option Value) × Row :=
  c.verifyEach (gather (group slot) (group slot).width (numStreams group batch slot)) (draftStep batch slot)
    (batch.copyDocument slot) (batch.limits slot) (batch.counts slot)

/-- The columns a block gathers of an answer verify as those it needs itself. -/
lemma Ready.gather {batch : Batch α} {group : Group} {slot w n : ℕ} (h : Ready c batch group slot)
    (hw : (group slot).width ≤ w) (hmax : w ≤ c.maxPositions) (hn : numStreams group batch slot ≤ n) (hle : n ≤ w) :
    let r := c.verifyEach (gather (group slot) w n) (draftStep batch slot) (batch.copyDocument slot)
      (batch.limits slot) (batch.counts slot)
    r.1 = (c.each group batch slot).1 ∧ Agree r.2 (c.each group batch slot).2 := by
  rcases Nat.eq_zero_or_pos (batch.indices slot) with hat | hat
  · -- Before its first token an answer needs all columns there are.
    obtain ⟨hwidth, -, -⟩ := h.begun hat
    have hstreams : numStreams group batch slot = c.maxPositions := by
      rw [numStreams, if_pos hat, hwidth]
      exact max_eq_right c.max_positions_pos
    have hsame : CopyConstraint.gather (group slot) w n =
        CopyConstraint.gather (group slot) (group slot).width (numStreams group batch slot) := by
      congr 1
      · omega
      · omega
    rw [hsame]
    exact ⟨rfl, Agree.refl _⟩
  · obtain ⟨hsome, -⟩ := h.going hat
    have hlive := gather_live h.dead hw (h.live_le.trans hn)
    have hown := gather_live h.dead le_rfl h.live_le
    have hagree : Agree (CopyConstraint.gather (group slot) w n)
        (CopyConstraint.gather (group slot) (group slot).width (numStreams group batch slot)) := by
      refine ⟨hlive.trans hown.symm, fun hnone => absurd (hlive.symm.trans hnone) hsome, ?_, ?_⟩
      · rw [gather_source, gather_source]
      · rw [gather_active, gather_active]
    exact hagree.verifyEach fun j => draftStep_at (Or.inr hat)

/-- What verifying one position of one answer at a time leaves of an answer. -/
structure Verified (c : CopyConstraint) (group : Group) (batch : Batch α) (slot : ℕ) (r : Constrained) : Prop where
  out : r.out slot = (c.each group batch slot).1
  live : (r.group slot).live = (c.each group batch slot).2.live
  source : (r.group slot).source = (c.each group batch slot).2.source
  width_pos : 0 < (r.group slot).width
  width_le : (r.group slot).width ≤ c.maxPositions
  dead : ∀ col, (r.group slot).width ≤ col → (r.group slot).alive col = false

/-- An answer of a block is verified as on its own. -/
lemma constrainBlock_verified {batch : Batch α} {group : Group} {slots : List ℕ} {numSteps slot : ℕ}
    {r : Constrained} (hready : ∀ s ∈ slots, Ready c batch group s) (hslot : slot ∈ slots) (hsteps : 0 < numSteps)
    (hgroup : r.group slot = group slot) :
    Verified c group batch slot (c.constrainBlock batch slots (largest (fun s => (group s).width) slots)
      (largest (numStreams group batch) slots) numSteps r) := by
  have h := hready slot hslot
  have hw : (group slot).width ≤ largest (fun s => (group s).width) slots :=
    le_largest (f := fun s => (group s).width) hslot
  have hmax : largest (fun s => (group s).width) slots ≤ c.maxPositions :=
    largest_le fun s hs => (hready s hs).width_le
  have hn : numStreams group batch slot ≤ largest (numStreams group batch) slots := le_largest hslot
  have hle : largest (numStreams group batch) slots ≤ largest (fun s => (group s).width) slots :=
    largest_le fun s hs => (hready s hs).numStreams_le.trans (le_largest (f := fun s => (group s).width) hs)
  have hcount : batch.counts slot ≤ largest batch.counts slots := le_largest hslot
  obtain ⟨hout, hagree⟩ := h.gather hw hmax hn hle
  obtain ⟨extra, hextra⟩ := Nat.exists_eq_add_of_le hcount
  -- Positions past the end of the answer's own draft change nothing.
  have hpast := verifyEach_past (c := c)
    (gather (group slot) (largest (fun s => (group s).width) slots) (largest (numStreams group batch) slots))
    (draftStep batch slot) (batch.copyDocument slot) (batch.limits slot) extra (batch.counts_pos slot)
    fun j hj => by
      dsimp only [draftStep]
      rw [decide_eq_false (by omega), if_neg (by omega)]
      exact ⟨rfl, Nat.one_pos⟩
  obtain ⟨⟨active, hrow⟩, hvalues⟩ := hpast
  rw [← hextra] at hrow hvalues
  have hpos : 0 < numStreams group batch slot := Nat.lt_of_lt_of_le Nat.one_pos (le_max_left 1 _)
  have hwidth : (c.verifyEach (gather (group slot) (largest (fun s => (group s).width) slots)
      (largest (numStreams group batch) slots)) (draftStep batch slot) (batch.copyDocument slot)
        (batch.limits slot) (largest batch.counts slots)).2.width = largest (numStreams group batch) slots := by
    rw [verifyEach_width, gather_width hle]
  constructor
  · simp only [constrainBlock, if_pos hslot, hgroup, verifyRanges_eq hslot hsteps]
    rw [hvalues, hout]
  · simp only [constrainBlock, if_pos hslot, hgroup, verifyRanges_eq hslot hsteps]
    rw [scatter_live hwidth, hrow]
    exact hagree.live
  · simp only [constrainBlock, if_pos hslot, hgroup, verifyRanges_eq hslot hsteps, scatter]
    rw [hrow]
    exact hagree.source
  · simp only [constrainBlock, if_pos hslot, scatter]
    omega
  · simp only [constrainBlock, if_pos hslot, scatter]
    omega
  · simp only [constrainBlock, if_pos hslot, hgroup]
    exact scatter_dead hw h.dead

/-- A block changes no other answer. -/
lemma constrainBlock_other {batch : Batch α} {slots : List ℕ} {streamWidth numStreams numSteps slot : ℕ}
    {r : Constrained} (hslot : slot ∉ slots) :
    (c.constrainBlock batch slots streamWidth numStreams numSteps r).out slot = r.out slot ∧
      (c.constrainBlock batch slots streamWidth numStreams numSteps r).group slot = r.group slot := by
  simp only [constrainBlock, if_neg hslot, and_self]

/-- The blocks have every answer of the batch once, and verify some position at a time. -/
structure Splits (batch : Batch α) (blocks : List (List ℕ × ℕ)) : Prop where
  slots : (blocks.flatMap Prod.fst).Perm batch.slots
  steps_pos : ∀ block ∈ blocks, 0 < block.2

/-- Blocks one after another, each of answers that are not in another. -/
lemma blocks_verified {batch : Batch α} {group : Group} {blocks : List (List ℕ × ℕ)} {r : Constrained}
    (hready : ∀ s ∈ blocks.flatMap Prod.fst, Ready c batch group s) (hsteps : ∀ block ∈ blocks, 0 < block.2)
    (hnodup : (blocks.flatMap Prod.fst).Nodup) (hgroup : ∀ s ∈ blocks.flatMap Prod.fst, r.group s = group s) :
    let r' := blocks.foldl (fun r block => c.constrainBlock batch block.1
      (largest (fun slot => (group slot).width) block.1) (largest (numStreams group batch) block.1) block.2 r) r
    (∀ s ∈ blocks.flatMap Prod.fst, Verified c group batch s r') ∧
      ∀ s, s ∉ blocks.flatMap Prod.fst → r'.out s = r.out s ∧ r'.group s = r.group s := by
  induction blocks generalizing r with
  | nil => exact ⟨fun s hs => absurd hs List.not_mem_nil, fun s _ => ⟨rfl, rfl⟩⟩
  | cons block blocks ih =>
    rw [List.flatMap_cons] at hready hnodup hgroup
    rw [List.flatMap_cons]
    obtain ⟨-, hrest, hdisjoint⟩ := List.nodup_append.mp hnodup
    let next := c.constrainBlock batch block.1 (largest (fun slot => (group slot).width) block.1)
      (largest (numStreams group batch) block.1) block.2 r
    have hother : ∀ s, s ∉ block.1 → next.out s = r.out s ∧ next.group s = r.group s :=
      fun s hs => constrainBlock_other hs
    obtain ⟨hverified, hsame⟩ := ih (r := next) (fun s hs => hready s (List.mem_append_right _ hs))
      (fun b hb => hsteps b (List.mem_cons_of_mem _ hb)) hrest
      fun s hs => (hother s fun hmem => hdisjoint s hmem s hs rfl).2.trans
        (hgroup s (List.mem_append_right _ hs))
    constructor
    · intro s hs
      rcases List.mem_append.mp hs with hs | hs
      · have hblock := constrainBlock_verified (r := r) (fun s hs => hready s (List.mem_append_left _ hs)) hs
          (hsteps block List.mem_cons_self) (hgroup s (List.mem_append_left _ hs))
        obtain ⟨hout, hcolumns⟩ := hsame s fun hmem => hdisjoint s hs s hmem rfl
        exact ⟨hout.trans hblock.out, (congrArg Columns.live hcolumns).trans hblock.live,
          (congrArg Columns.source hcolumns).trans hblock.source, by rw [List.foldl_cons, hcolumns]; exact hblock.width_pos,
          by rw [List.foldl_cons, hcolumns]; exact hblock.width_le, by rw [List.foldl_cons, hcolumns]; exact hblock.dead⟩
      · exact hverified s hs
    · intro s hs
      obtain ⟨hblock, hlater⟩ := not_or.mp fun h => hs (List.mem_append.mpr h)
      obtain ⟨hout, hcolumns⟩ := hsame s hlater
      exact ⟨hout.trans (hother s hblock).1, hcolumns.trans (hother s hblock).2⟩

/-! ## A batch -/

/-- However a batch is split, each answer is verified as on its own, position after position. -/
theorem constrain_verified {batch : Batch α} {group : Group} {blocks : List (List ℕ × ℕ)}
    (hready : ∀ s ∈ batch.slots, Ready c batch group s) (h : Splits batch blocks) :
    (∀ s ∈ batch.slots, Verified c group batch s (c.constrain group batch blocks)) ∧
      ∀ s, s ∉ batch.slots → (c.constrain group batch blocks).group s = group s := by
  have hmem : ∀ s, s ∈ blocks.flatMap Prod.fst ↔ s ∈ batch.slots := fun s => h.slots.mem_iff
  obtain ⟨hverified, hother⟩ := blocks_verified (r := ⟨fun _ => [], group⟩)
    (fun s hs => hready s ((hmem s).mp hs)) h.steps_pos (h.slots.nodup_iff.mpr batch.nodup) fun s _ => rfl
  exact ⟨fun s hs => hverified s ((hmem s).mpr hs), fun s hs => (hother s fun hin => hs ((hmem s).mp hin)).2⟩

/-- One answer and one position at a time is a split. -/
lemma splits_single {batch : Batch α} : Splits batch (batch.slots.map fun s => ([s], 1)) where
  slots := by
    rw [List.flatMap_map]
    simp only [List.flatMap_singleton', List.Perm.refl]
  steps_pos block hblock := by
    obtain ⟨s, -, rfl⟩ := List.mem_map.mp hblock
    exact Nat.one_pos

/-- The blocks within the workspace are a split. -/
lemma constrainBatch_splits {w : Workspace} {batch : Batch α} {group : Group} {r : Constrained}
    (h : c.constrainBatch w group batch = .ok r) :
    ∃ blocks, Splits batch blocks ∧ r = c.constrain group batch blocks := by
  obtain ⟨bs, hbs, rfl⟩ := Workspace.map_ok h
  obtain ⟨hrows, hfits⟩ := w.verificationBlocks_ok hbs
  refine ⟨_, ⟨?_, ?_⟩, rfl⟩
  · have hslots : batch.slots = (List.range batch.slots.length).map fun row => batch.slots.getD row 0 := by
      rw [map_getD_range le_rfl, List.take_length]
    rw [List.flatMap_map]
    conv_rhs => rw [hslots]
    refine List.Perm.trans (List.Perm.of_eq ?_) (hrows.map fun row => batch.slots.getD row 0)
    rw [List.map_flatMap]
  · intro block hblock
    obtain ⟨b, hb, rfl⟩ := List.mem_map.mp hblock
    exact (hfits b hb).steps_pos

/-- Drafts are verified as one token of one answer at a time is, in every row and split into blocks; the
blocks have every answer and position once, each is within the workspace, and they fail exactly where one
position does not fit. -/
theorem drafts_verified_alike (c : CopyConstraint) :
    (∀ (row : Row) (steps : ℕ → DraftStep α) (document limit : ℕ) (first : Bool) (n : ℕ), 0 < n →
      ((steps 0).at' = 0 → first = true ∧ (steps 0).valid = true) → (∀ j, 0 < (steps (j + 1)).at') →
      c.verify row steps n document limit first = c.verifyEach row steps document limit n) ∧
    (∀ (batch : Batch α) (group : Group), (∀ s ∈ batch.slots, Ready c batch group s) →
      let alone := c.constrain group batch (batch.slots.map fun s => ([s], 1))
      let alike := fun r : Constrained =>
        (∀ s ∈ batch.slots, r.out s = alone.out s ∧ (r.group s).live = (alone.group s).live ∧
          (r.group s).source = (alone.group s).source) ∧ ∀ s, s ∉ batch.slots → r.group s = group s
      (∀ blocks, Splits batch blocks → alike (c.constrain group batch blocks)) ∧
      ∀ w r, c.constrainBatch w group batch = .ok r → alike r) ∧
    (∀ (w : Workspace) (size : ℕ → Size) (numRows : ℕ),
      (∀ bs, w.verificationBlocks size numRows = .ok bs →
        (bs.flatMap Block.rows).Perm (List.range numRows) ∧
        ∀ b ∈ bs, b.peak = w.blockBytes size b.rows b.steps ∧ b.peak ≤ w.workspaceBytes ∧
          (ranges (largest (fun row => (size row).count) b.rows) b.steps).flatMap
            (fun r => List.range' r.1 (r.2 - r.1)) = List.range (largest (fun row => (size row).count) b.rows)) ∧
      ∀ m, w.verificationBlocks size numRows = .error m ↔
        m = "one copy verification position exceeds its workspace" ∧
          ∃ row < numRows, w.workspaceBytes < w.blockBytes size [row] 1) := by
  refine ⟨?_, ?_, ?_⟩
  · intro row steps document limit first n hn hfirst hat
    exact verify_eq_each row steps document limit first hn hfirst hat
  · intro batch group hready
    obtain ⟨halone, -⟩ := constrain_verified hready splits_single
    have hsplit : ∀ blocks, Splits batch blocks →
        (∀ s ∈ batch.slots, (c.constrain group batch blocks).out s =
            (c.constrain group batch (batch.slots.map fun s => ([s], 1))).out s ∧
          ((c.constrain group batch blocks).group s).live =
            ((c.constrain group batch (batch.slots.map fun s => ([s], 1))).group s).live ∧
          ((c.constrain group batch blocks).group s).source =
            ((c.constrain group batch (batch.slots.map fun s => ([s], 1))).group s).source) ∧
          ∀ s, s ∉ batch.slots → (c.constrain group batch blocks).group s = group s := by
      intro blocks h
      obtain ⟨hverified, hother⟩ := constrain_verified hready h
      refine ⟨fun s hs => ⟨?_, ?_, ?_⟩, hother⟩
      · exact (hverified s hs).out.trans (halone s hs).out.symm
      · exact (hverified s hs).live.trans (halone s hs).live.symm
      · exact (hverified s hs).source.trans (halone s hs).source.symm
    refine ⟨hsplit, fun w r hr => ?_⟩
    obtain ⟨blocks, h, rfl⟩ := constrainBatch_splits hr
    exact hsplit blocks h
  · intro w size numRows
    refine ⟨fun bs h => ?_, fun m => w.verificationBlocks_error_iff⟩
    obtain ⟨hrows, hfits⟩ := w.verificationBlocks_ok h
    exact ⟨hrows, fun b hb => ⟨(hfits b hb).peak_eq, (hfits b hb).peak_le, ranges_cover (hfits b hb).steps_pos⟩⟩

/-- A document of two words that both begin with token 7, of which one goes on with token 8. -/
def twoWords : CopyConstraint where
  numKeys := 1
  numOptions := 1
  maxPositions := 2
  positionOffsets document := if document = 0 then 0 else 2
  characters p := p
  keyIds _ := 0
  documentKeyStarts _ := 0
  documentKeyEnds document := if document = 0 then 1 else 0
  keyOptionStarts _ := 0
  keyOptionCounts _ := 1
  firstTokens _ := 5
  fillerRows _ := none
  fillers _ := []
  positionRows p := some p
  continuations p := if p = 0 then [7, 8] else [7]
  isStop _ := false
  max_positions_pos := by decide
  positions_le document := by cases document <;> simp
  keyIds_lt _ := by decide
  keys_used document key hkey := by
    cases document with
    | zero => exact ⟨0, le_rfl, by decide, (Nat.lt_one_iff.mp hkey).symm⟩
    | succ document => exact absurd hkey (Nat.not_lt_zero key)

/-- An answer with its first token and a draft of two more. -/
def twoWordsBatch : Batch ℕ where
  slots := [0]
  counts _ := 3
  indices _ := 1
  projected _ j := ⟨0, (7 + j, 5), []⟩
  copyDocument _ := 0
  limits _ := 10
  numStreams _ := 2
  nodup := by decide
  counts_pos _ := by decide

def twoWordsGroup : Group := fun _ =>
  { streams := fun col => some ⟨col, 0⟩, alive := fun col => decide (col < 2), width := 2, source := some ⟨0, 0⟩ }

theorem drafts_verified_alike_two :
    let whole := twoWords.constrain twoWordsGroup twoWordsBatch [([0], 2)]
    whole.out 0 = (twoWords.constrain twoWordsGroup twoWordsBatch [([0], 1)]).out 0 ∧
      whole.out 0 = [some ⟨some 7, some ⟨0, 0⟩, 2, true⟩, some ⟨some 8, some ⟨0, 0⟩, 1, true⟩,
        some ⟨none, some ⟨0, 0⟩, 1, true⟩] := by
  have hready : ∀ s ∈ twoWordsBatch.slots, Ready twoWords twoWordsBatch twoWordsGroup s := by
    intro s hs
    obtain rfl := List.mem_singleton.mp hs
    exact ⟨by decide, by decide, fun col hcol => decide_eq_false (not_lt.mpr hcol), fun h => absurd h Nat.one_ne_zero,
      fun _ => ⟨by decide, rfl⟩⟩
  have hsplits : Splits twoWordsBatch [([0], 2)] :=
    ⟨List.Perm.refl _, fun block hblock => by rw [List.mem_singleton.mp hblock]; exact Nat.two_pos⟩
  exact ⟨((((drafts_verified_alike twoWords).2.1 twoWordsBatch twoWordsGroup hready).1 _ hsplits).1 0
    List.mem_cons_self).1, by decide⟩

end CopyConstraint
end Quail.Extract
