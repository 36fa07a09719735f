import Quail.Lib.Pareto
import Quail.Lib.Dict
import Mathlib.Algebra.Order.Field.Basic
import Mathlib.Data.Finset.Sort
import Mathlib.Data.Finset.Card
import Mathlib.Algebra.Order.Monoid.Defs

/-!
# Left deep join search

`search_left_deep` of `planner/search/leftdeep.py` and the `Work` of `cost/work.py` it compares, over an
ordered field. A state of the search is the aliases joined, the joins applied and a property; it keeps
the nondominated works of the join sequences that reach it.
-/

namespace Quail.Planner

section Aliases

variable {ι : Type} [LinearOrder ι]

lemma isTrans_le : IsTrans ι (· ≤ ·) := inferInstance

lemma antisymm_le : Std.Antisymm fun a b : ι => a ≤ b := inferInstance

lemma total_le : Std.Total fun a b : ι => a ≤ b := inferInstance

lemma lawfulBEq_alias : LawfulBEq ι := inferInstance

lemma atLeastTwo_two : Nat.AtLeastTwo 2 := inferInstance

end Aliases

attribute [local instance] isTrans_le antisymm_le total_le

variable {K : Type}

/-! ## Work -/

/-- Tokens, attention pairs, and KV and state movement. -/
@[ext] structure Work (K : Type) where
  tokens : K
  pairs : K
  kvWritten : K
  kvRead : K
  slidingPairs : K
  slidingKvRead : K
  stateWritten : K
  stateRead : K
  saeEncoded : K

namespace Work

instance [Zero K] : Zero (Work K) := ⟨⟨0, 0, 0, 0, 0, 0, 0, 0, 0⟩⟩

instance [Add K] : Add (Work K) where
  add w w' := ⟨w.tokens + w'.tokens, w.pairs + w'.pairs, w.kvWritten + w'.kvWritten,
    w.kvRead + w'.kvRead, w.slidingPairs + w'.slidingPairs, w.slidingKvRead + w'.slidingKvRead,
    w.stateWritten + w'.stateWritten, w.stateRead + w'.stateRead, w.saeEncoded + w'.saeEncoded⟩

/-- `Work.__mul__`. -/
def scale [Mul K] (w : Work K) (count : K) : Work K :=
  ⟨w.tokens * count, w.pairs * count, w.kvWritten * count, w.kvRead * count, w.slidingPairs * count,
    w.slidingKvRead * count, w.stateWritten * count, w.stateRead * count, w.saeEncoded * count⟩

/-- Every count is no larger (`dominates`). -/
instance [LE K] : LE (Work K) where
  le w w' := w.tokens ≤ w'.tokens ∧ w.pairs ≤ w'.pairs ∧ w.kvWritten ≤ w'.kvWritten ∧
    w.kvRead ≤ w'.kvRead ∧ w.slidingPairs ≤ w'.slidingPairs ∧ w.slidingKvRead ≤ w'.slidingKvRead ∧
    w.stateWritten ≤ w'.stateWritten ∧ w.stateRead ≤ w'.stateRead ∧ w.saeEncoded ≤ w'.saeEncoded

instance [LE K] [DecidableLE K] : DecidableLE (Work K) := fun _ _ =>
  inferInstanceAs (Decidable (_ ∧ _))

instance [Preorder K] : Preorder (Work K) where
  le_refl _ := ⟨le_rfl, le_rfl, le_rfl, le_rfl, le_rfl, le_rfl, le_rfl, le_rfl, le_rfl⟩
  le_trans := by
    rintro a b c ⟨h₁, h₂, h₃, h₄, h₅, h₆, h₇, h₈, h₉⟩ ⟨g₁, g₂, g₃, g₄, g₅, g₆, g₇, g₈, g₉⟩
    exact ⟨h₁.trans g₁, h₂.trans g₂, h₃.trans g₃, h₄.trans g₄, h₅.trans g₅, h₆.trans g₆, h₇.trans g₇,
      h₈.trans g₈, h₉.trans g₉⟩

/-- The same step after dominated work. -/
lemma add_le_add_right [AddCommMonoid K] [PartialOrder K] [IsOrderedAddMonoid K] {w w' : Work K}
    (h : w ≤ w') (step : Work K) : w + step ≤ w' + step := by
  obtain ⟨h₁, h₂, h₃, h₄, h₅, h₆, h₇, h₈, h₉⟩ := h
  exact ⟨add_le_add_left h₁ _, add_le_add_left h₂ _, add_le_add_left h₃ _, add_le_add_left h₄ _,
    add_le_add_left h₅ _, add_le_add_left h₆ _, add_le_add_left h₇ _, add_le_add_left h₈ _,
    add_le_add_left h₉ _⟩

end Work

/-! ## The search -/

/-- One nondominated work record and the choices that produced it. -/
structure Candidate (K ι ρ σ : Type) where
  work : Work K
  stateProperty : ρ
  relationOrder : List ι
  steps : List σ

/-- All final nondominated records and search accounting. -/
structure SearchResult (K ι ρ σ : Type) where
  candidates : List (Candidate K ι ρ σ)
  numStates : ℕ
  numGenerated : ℕ

variable {ι ρ σ : Type} [LinearOrder ι] [DecidableEq ρ]

/-- A state of the search: the aliases joined, the joins applied, and the property. -/
abbrev Key (ι ρ : Type) := Finset ι × Finset ℕ × ρ

/-- The ways to apply a join: its work, the next property and a record of the step. -/
abbrev PriceStep (K ι ρ σ : Type) := ℕ → Finset ι → Finset ℕ → ρ → List (Work K × ρ × σ)

/-- The states and their records. -/
abbrev States (K ι ρ σ : Type) := Dict (Key ι ρ) (List (Candidate K ι ρ σ))

section
variable [Preorder K] [DecidableLE K] [Add K]

/-- The join reads joined aliases, and at most one more. -/
def connected (ends relations : Finset ι) : Bool :=
  decide (ends ⊆ relations) || (decide ((ends ∩ relations).Nonempty) && (ends \ relations).card == 1)

/-- The joins that can be applied next. -/
def available (edges : List (Finset ι)) (relations : Finset ι) (applied : Finset ℕ) : List ℕ :=
  (List.range edges.length).filter fun index =>
    decide (index ∉ applied) && connected (edges.getD index ∅) relations

/-- Extend each record of a state by one step into the target state. -/
def extend (target : Key ι ρ) (added : List ι) (work : Work K) (next : ρ) (step : σ)
    (frontier : List (Candidate K ι ρ σ)) (states : States K ι ρ σ × ℕ) : States K ι ρ σ × ℕ :=
  let before := (states.1.get? target).getD []
  (states.1.set target (frontier.foldl (fun kept old => Pareto.insert Candidate.work kept
      ⟨old.work + work, next, old.relationOrder ++ added, old.steps ++ [step]⟩) before),
    states.2 + frontier.length)

/-- Extend a state by each join that can be applied next. -/
def expand (edges : List (Finset ι)) (priceStep : PriceStep K ι ρ σ)
    (states : States K ι ρ σ × ℕ) (current : Key ι ρ × List (Candidate K ι ρ σ)) :
    States K ι ρ σ × ℕ :=
  let ((relations, applied, property), frontier) := current
  (available edges relations applied).foldl (fun states index =>
    let ends := edges.getD index ∅
    (priceStep index relations applied property).foldl (fun states way =>
      extend (relations ∪ ends, insert index applied, way.2.1) ((ends \ relations).sort (· ≤ ·)) way.1
        way.2.1 way.2.2 frontier states) states) states

/-- Extend the states with this many joins applied. -/
def level (edges : List (Finset ι)) (priceStep : PriceStep K ι ρ σ) (states : States K ι ρ σ × ℕ)
    (numApplied : ℕ) : States K ι ρ σ × ℕ :=
  (states.1.entries.filter fun e => e.1.2.1.card == numApplied).foldl (expand edges priceStep) states

/-- The aliases a search starts from: those already joined, or each one. -/
def startSets (aliases : List ι) (seeds : Finset ι) : List (Finset ι) :=
  if seeds.Nonempty then [seeds] else aliases.map ({·})

/-- The states a search starts with. -/
def startStates (starts : List (Finset ι)) (initial : ρ) (base : Work K) : States K ι ρ σ :=
  starts.foldl (fun states relations => states.set (relations, ∅, initial)
    [⟨base, initial, relations.sort (· ≤ ·), []⟩]) .empty

/-- Run the subset search over joined aliases, applied joins, and a property. -/
def searchLeftDeep (aliases : List ι) (edges : List (Finset ι)) (initial : ρ) (base : Work K)
    (priceStep : PriceStep K ι ρ σ) (seeds : Finset ι) : SearchResult K ι ρ σ :=
  let allAliases := aliases.toFinset ∪ seeds
  let starts := startSets aliases seeds
  let (states, generated) := (List.range edges.length).foldl (level edges priceStep)
    (startStates starts initial base, starts.length)
  { candidates := (states.entries.filter fun e =>
      e.1.2.1.card == edges.length && decide (allAliases ⊆ e.1.1)).flatMap Prod.snd
    numStates := states.entries.length
    numGenerated := generated }

end

/-! ## The sequences searched -/

section
variable (aliases : List ι) (edges : List (Finset ι)) (initial : ρ) (base : Work K)
  (priceStep : PriceStep K ι ρ σ) (seeds : Finset ι) [Add K]

/-- A join sequence: it starts at the seeds or at one alias, and each step applies a join not applied
before, connected to the aliases joined, in one of its ways. -/
inductive Sequence : Key ι ρ → Candidate K ι ρ σ → Prop
  | start {relations : Finset ι} (h : relations ∈ startSets aliases seeds) :
    Sequence (relations, ∅, initial) ⟨base, initial, relations.sort (· ≤ ·), []⟩
  | step {relations : Finset ι} {applied : Finset ℕ} {property next : ρ} {old : Candidate K ι ρ σ}
      {index : ℕ} {ends : Finset ι} {work : Work K} {record : σ}
      (hold : Sequence (relations, applied, property) old)
      (hends : edges[index]? = some ends)
      (hnew : index ∉ applied)
      (hconnected : ends ⊆ relations ∨ (ends ∩ relations).Nonempty ∧ (ends \ relations).card = 1)
      (hway : (work, next, record) ∈ priceStep index relations applied property) :
    Sequence (relations ∪ ends, insert index applied, next)
      ⟨old.work + work, next, old.relationOrder ++ (ends \ relations).sort (· ≤ ·),
        old.steps ++ [record]⟩

omit [DecidableEq ρ] in
/-- The joins a sequence applied are joins of the search. -/
lemma Sequence.applied_subset {key : Key ι ρ} {c : Candidate K ι ρ σ}
    (h : Sequence aliases edges initial base priceStep seeds key c) :
    key.2.1 ⊆ Finset.range edges.length := by
  induction h with
  | start _ => exact Finset.empty_subset _
  | step _ hends _ _ _ ih =>
    exact Finset.insert_subset (Finset.mem_range.2 (List.getElem?_eq_some_iff.1 hends).1) ih

omit [DecidableEq ρ] in
/-- The seeds, and the aliases of the joins a sequence applied, are joined. -/
lemma Sequence.joined {key : Key ι ρ} {c : Candidate K ι ρ σ}
    (h : Sequence aliases edges initial base priceStep seeds key c) :
    seeds ⊆ key.1 ∧ ∀ index ∈ key.2.1, ∀ ends, edges[index]? = some ends → ends ⊆ key.1 := by
  induction h with
  | @start relations h =>
    refine ⟨?_, fun _ h => absurd h (Finset.notMem_empty _)⟩
    unfold startSets at h
    split_ifs at h with hs
    · rw [List.mem_singleton.1 h]
    · rw [Finset.not_nonempty_iff_eq_empty.1 hs]
      exact Finset.empty_subset _
  | @step relations applied property next old index ends work record _ hends _ _ _ ih =>
    refine ⟨ih.1.trans Finset.subset_union_left, fun other hother e he => ?_⟩
    obtain rfl | hother := Finset.mem_insert.1 hother
    · rw [hends] at he
      cases he
      exact Finset.subset_union_right
    · exact (ih.2 other hother e he).trans Finset.subset_union_left

/-- A sequence that applies every join. -/
def Complete (c : Candidate K ι ρ σ) : Prop :=
  ∃ key, Sequence aliases edges initial base priceStep seeds key c ∧
    key.2.1 = Finset.range edges.length

end

end Quail.Planner
