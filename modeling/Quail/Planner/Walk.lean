import Quail.Planner.JoinOrder
import Quail.Planner.Frontier
import Mathlib.Algebra.Order.Field.Basic
import Mathlib.Algebra.Order.Ring.Rat
import Mathlib.Algebra.Field.Rat

/-!
# The search's price is the walk's

The search prices a join after a set of joins and the walk after a list of them. Both thin in written
order, so a sequence of the search, walked, meets the same survivors at every join.
-/

namespace Quail.Planner

variable {K ι R : Type} [Field K] [LinearOrder K] [LinearOrder ι] [LinearOrder R]
variable {q : Query K ι R} {specs : List (PricedJoin K ι)} {live : ι → K}

/-- The joins a sequence of written positions and anchors names. -/
def sequenceOf (specs : List (PricedJoin K ι)) (seq : List (ℕ × ι)) : List (PricedJoin K ι × ι) :=
  seq.filterMap fun join =>
    (specs.find? fun s => s.writtenPosition == join.1).map fun spec => (spec, join.2)

/-- The joins are listed in written order. -/
def InWrittenOrder (specs : List (PricedJoin K ι)) : Prop :=
  specs.Pairwise fun s t => s.writtenPosition < t.writtenPosition

omit [Field K] [LinearOrder K] [LinearOrder ι] in
/-- A written position names its join. -/
lemma InWrittenOrder.find (h : InWrittenOrder specs) {spec : PricedJoin K ι} (hspec : spec ∈ specs) :
    specs.find? (fun s => s.writtenPosition == spec.writtenPosition) = some spec := by
  induction specs with
  | nil => cases hspec
  | cons s specs ih =>
    obtain ⟨hs, h⟩ := List.pairwise_cons.1 h
    obtain rfl | hspec := List.mem_cons.1 hspec
    · exact List.find?_cons_of_pos (beq_self_eq_true _)
    · rw [List.find?_cons_of_neg (by simpa using (hs spec hspec).ne)]
      exact ih h hspec

omit [Field K] [LinearOrder K] [LinearOrder ι] in
/-- Joins named by their own positions are themselves. -/
lemma sequenceOf_keys (h : InWrittenOrder specs) {joins : List (PricedJoin K ι × ι)}
    (hjoins : ∀ join ∈ joins, join.1 ∈ specs) :
    sequenceOf specs (joins.map fun join => (join.1.writtenPosition, join.2)) = joins := by
  induction joins with
  | nil => rfl
  | cons join joins ih =>
    obtain ⟨hjoin, hjoins⟩ := List.forall_mem_cons.1 hjoins
    have hrest := ih hjoins
    unfold sequenceOf at hrest ⊢
    rw [List.map_cons, List.filterMap_cons_some (b := join), hrest]
    rw [h.find hjoin]
    rfl

omit [Field K] [LinearOrder K] [LinearOrder ι] in
/-- Joins applied in any order, sorted as written, are those of the sorted indices. -/
lemma InWrittenOrder.mergeSort (h : InWrittenOrder specs) {indices : List ℕ} (hnodup : indices.Nodup) :
    ((indices.filterMap (specs[·]?)).mergeSort fun s t =>
      decide (s.writtenPosition ≤ t.writtenPosition)) =
      (indices.toFinset.sort (· ≤ ·)).filterMap (specs[·]?) := by
  have hperm : (indices.toFinset.sort (· ≤ ·)).Perm indices := by
    rw [List.perm_ext_iff_of_nodup (Finset.sort_nodup ..) hnodup]
    simp
  -- a strictly increasing list of indices gives strictly increasing positions
  have hsorted : ((indices.toFinset.sort (· ≤ ·)).filterMap (specs[·]?)).Pairwise fun s t =>
      s.writtenPosition < t.writtenPosition := by
    refine List.pairwise_filterMap.2 ((Finset.sortedLT_sort _).pairwise.imp ?_)
    intro i j hij s hs t ht
    obtain ⟨hi, rfl⟩ := List.getElem?_eq_some_iff.1 hs
    obtain ⟨hj, rfl⟩ := List.getElem?_eq_some_iff.1 ht
    exact List.pairwise_iff_getElem.1 h i j hi hj hij
  have hmem : ∀ s ∈ indices.filterMap (specs[·]?), s ∈ specs := by
    intro s hs
    obtain ⟨i, -, hi⟩ := List.mem_filterMap.1 hs
    exact List.mem_of_getElem? hi
  have hmerged : ((indices.filterMap (specs[·]?)).mergeSort fun s t =>
      decide (s.writtenPosition ≤ t.writtenPosition)).Pairwise fun s t =>
        s.writtenPosition ≤ t.writtenPosition := by
    refine (List.pairwise_mergeSort ?_ ?_ _).imp of_decide_eq_true
    · intro s t u hst htu
      exact decide_eq_true ((of_decide_eq_true hst).trans (of_decide_eq_true htu))
    · intro s t
      simpa using le_total s.writtenPosition t.writtenPosition
  refine List.Perm.eq_of_pairwise ?_ hmerged (hsorted.imp le_of_lt)
    ((List.mergeSort_perm _ _).trans (hperm.symm.filterMap _))
  intro s t hs ht hle hge
  have hs' := h.find (hmem s (List.mem_mergeSort.1 hs))
  rw [le_antisymm hle hge, h.find (hmem t ((hperm.filterMap _).mem_iff.1 ht))] at hs'
  exact (Option.some.inj hs').symm

/-! ## A searched sequence, walked -/

/-- A list of joins whose walk ends in these steps and this state, with these joins applied. -/
def WalksTo (q : Query K ι R) (specs : List (PricedJoin K ι)) (live : ι → K) (applied : Finset ℕ)
    (state : KVState ι) (steps : List (JoinStep K ι)) : Prop :=
  ∃ (indices : List ℕ) (joins : List (PricedJoin K ι × ι)),
    indices.Nodup ∧ indices.toFinset = applied ∧
    indices.filterMap (specs[·]?) = joins.map Prod.fst ∧
    stepKeys steps = (joins.map fun join => (join.1.writtenPosition, join.2)) ∧
    joins.foldl (walkStep q live) ⟨.empty, 0, [], []⟩ =
      ⟨state, (steps.map JoinStep.work).foldl (· + ·) 0, steps, joins.map Prod.fst⟩

omit [LinearOrder K] [LinearOrder R] in
/-- The survivors the search prices a join at are the walk's. -/
lemma thinAll_eq (h : InWrittenOrder specs) {indices : List ℕ} (hnodup : indices.Nodup) :
    thinAll q live (indices.filterMap (specs[·]?)) =
      expectedRowsFor q specs live indices.toFinset := by
  rw [thinAll, h.mergeSort hnodup, expectedRowsFor]

omit [LinearOrder K] [LinearOrder R] in
/-- One more join of the search is one more join of the walk. -/
lemma WalksTo.step (h : InWrittenOrder specs) {applied : Finset ℕ} {state : KVState ι}
    {steps : List (JoinStep K ι)} (hwalk : WalksTo q specs live applied state steps) {index : ℕ}
    (hnew : index ∉ applied) {spec : PricedJoin K ι} (hspec : specs[index]? = some spec) {anchor : ι}
    {work : Work K} {step : JoinStep K ι} {next : KVState ι}
    (hstep : joinStep q spec anchor (expectedRowsFor q specs live applied) state =
      (work, step, next)) :
    WalksTo q specs live (insert index applied) next (steps ++ [step]) := by
  obtain ⟨indices, joins, hnodup, rfl, hspecs, hkeys, hfold⟩ := hwalk
  have hwork : step.work = work ∧ (step.writtenPosition, step.anchor) = (spec.writtenPosition, anchor) := by
    cases hstep
    exact ⟨rfl, rfl⟩
  refine ⟨indices ++ [index], joins ++ [(spec, anchor)], ?_, ?_, ?_, ?_, ?_⟩
  · have hnew' : index ∉ indices := fun hmem => hnew (List.mem_toFinset.2 hmem)
    exact List.nodup_append.2 ⟨hnodup, List.nodup_singleton _, by
      rintro i hi j hj rfl
      exact hnew' (List.mem_singleton.1 hj ▸ hi)⟩
  · ext i
    simp
  · rw [List.filterMap_append, hspecs, List.map_append, List.filterMap_cons_some hspec]
    rfl
  · rw [stepKeys, List.map_append, List.map_append, ← hkeys]
    exact congrArg (stepKeys steps ++ [·]) hwork.2
  · rw [List.foldl_append, hfold, List.foldl_cons, List.foldl_nil, walkStep]
    dsimp only
    rw [← hspecs, thinAll_eq h hnodup, hstep]
    dsimp only
    rw [List.map_append, List.map_append, List.foldl_append, hspecs]
    simp [hwork.1]

omit [LinearOrder R] in
/-- Every sequence of the search walks to its own steps. -/
lemma Sequence.walks (h : InWrittenOrder specs) {honorForced : Bool} {gpus : ℕ} {aliases : List ι}
    {seeds : Finset ι} {key : Key ι (KVState ι)} {c : Candidate K ι (KVState ι) (JoinStep K ι)}
    (hc : Sequence aliases (specs.map fun s => s.aliases.toFinset) .empty 0
      (priceStep q specs live honorForced gpus) seeds key c) :
    WalksTo q specs live key.2.1 key.2.2 c.steps := by
  induction hc with
  | start _ => exact ⟨[], [], List.nodup_nil, rfl, rfl, rfl, rfl⟩
  | @step relations applied property next old index ends work record _ _ hnew _ hway ih =>
    unfold priceStep at hway
    cases hspec : specs[index]? with
    | none => rw [hspec] at hway; cases hway
    | some spec =>
      rw [hspec] at hway
      obtain ⟨anchor, -, hway⟩ := List.mem_map.1 hway
      have hstep : joinStep q spec anchor (expectedRowsFor q specs live applied) property =
          (record.work, record, next) := by
        cases hway
        rfl
      exact ih.step h hnew hspec hstep

/-! ## The search's answer -/

omit [Field K] [LinearOrder K] in
lemma mem_searchAliases {seeds : Finset ι} {a : ι} (ha : a ∈ searchAliases specs seeds) :
    a ∈ seeds ∨ ∃ ends ∈ specs.map fun s => s.aliases.toFinset, a ∈ ends := by
  unfold searchAliases at ha
  obtain ha | ha := List.mem_append.1 ha
  · obtain ⟨spec, hspec, ha⟩ := List.mem_flatMap.1 (List.mem_eraseDups.1 ha)
    exact .inr ⟨_, List.mem_map_of_mem hspec, List.mem_toFinset.2 ha⟩
  · exact .inl (Finset.mem_sdiff.1 ((Finset.mem_sort _).1 ha)).1

/-- The sequence returned, walked, does the work and the steps the search says. -/
lemma searchJoins_walk [IsStrictOrderedRing K] (h : InWrittenOrder specs) {fixed honor : Bool}
    {joined : Finset ι} {gpus : ℕ} {js : JoinSearch K ι}
    (hjs : searchJoins q specs live fixed honor joined gpus = some js) :
    walk q (sequenceOf specs js.seq) live = (js.work, js.steps) := by
  unfold searchJoins at hjs
  split_ifs at hjs
  · cases hjs
    rfl
  · obtain ⟨assign, -, rfl⟩ := Option.map_eq_some_iff.1 hjs
    dsimp only
    rw [sequenceOf_keys h fun join hjoin => (List.of_mem_zip hjoin).1]
  · obtain ⟨best, hbest, rfl⟩ := Option.map_eq_some_iff.1 hjs
    obtain ⟨key, hseq, -⟩ := (searchLeftDeep_spec _ _ _ _ _ _ fun _ => mem_searchAliases).1 best
      (List.argmin_mem hbest)
    obtain ⟨indices, joins, -, -, hspecs, hkeys, hfold⟩ := hseq.walks h
    have hjoins : ∀ join ∈ joins, join.1 ∈ specs := by
      intro join hjoin
      have hmem : join.1 ∈ indices.filterMap (specs[·]?) := hspecs ▸ List.mem_map_of_mem hjoin
      obtain ⟨i, -, hi⟩ := List.mem_filterMap.1 hmem
      exact List.mem_of_getElem? hi
    dsimp only
    rw [hkeys, sequenceOf_keys h hjoins, walk, hfold]

end Quail.Planner
