import Quail.Planner.LeftDeep
import Mathlib.Data.List.MinMax
import Mathlib.Data.List.Lex
import Mathlib.Data.Prod.Lex

/-!
# Join order and anchors

`planner/search/join_order.py` with the `thin` and `cross_tuples` of `planner/statistics/tables.py`:
one join priced in its place, a fixed sequence walked, and the sequence the search returns. What a join
costs at the current survivors, the expected survivors of a match, and the rank of a work are
parameters.
-/

namespace Quail.Planner

lemma atLeastTwo_ten : Nat.AtLeastTwo 10 := inferInstance

attribute [local instance] isTrans_le antisymm_le total_le lawfulBEq_alias atLeastTwo_two atLeastTwo_ten

variable {K ι R : Type} [Field K] [LinearOrder K] [LinearOrder ι] [LinearOrder R]

/-- The kind of a join. -/
inductive Semantics
  | full
  | exists
  | anti
  deriving DecidableEq

/-- One join with the token counts the cost model prices it by. -/
structure PricedJoin (K ι : Type) where
  writtenPosition : ℕ
  aliases : List ι
  anchor : Option ι
  anchorFree : Bool
  semantics : Semantics
  selectivity : Option K
  frameTokens : ι → ℕ
  labelTokens : ι → ℕ
  tailTokens : ℕ
  pairFraction : K

/-- The number of an alias's live documents and the longest one's tokens. -/
structure AliasStats where
  count : ℕ
  maximum : ℕ

/-- The small physical state needed for guaranteed group reuse. -/
structure KVState (ι : Type) where
  pendingAnchor : Option ι
  groupOpen : Bool
  usedAnchors : Finset ι
  deriving DecidableEq

/-- Where an anchor's KV comes from. -/
inductive Residency
  | filter
  | kept
  | none
  deriving DecidableEq

/-- One join as the search priced it in its place in the sequence. -/
structure JoinStep (K ι : Type) where
  writtenPosition : ℕ
  anchor : ι
  resident : Residency
  residentDocuments : ℕ
  anchorDocuments : K
  tuples : K
  tokens : K
  work : Work K

/-- The cheapest join sequence the search found. -/
structure JoinSearch (K ι : Type) where
  seq : List (ℕ × ι)
  steps : List (JoinStep K ι)
  work : Work K
  states : ℕ
  generated : ℕ

/-- The query a search is about: its documents, its preamble and chunk, and the cost model's prices.
`stageWork` is given the join, its anchor, the live documents of each alias, the anchors with a
partner, the pairs and whether the anchors' KV is resident. -/
structure Query (K ι R : Type) where
  lengths : ι → AliasStats
  resident : Finset ι
  pre : ℕ
  chunkTokens : ℕ
  reusesKv : Bool
  stageWork : PricedJoin K ι → ι → (ι → K) → K → K → Bool → Work K
  survivingDocuments : K → K → K → K
  rank : Work K → R

/-- The selectivity of a join that gives none. -/
def defaultSelectivity : K := 2 / 10

/-- The selectivity the planner uses: the given one or the default. -/
def effectiveSelectivity (selectivity : Option K) : K := selectivity.getD defaultSelectivity

/-- The model copies that share work spread evenly over documents. -/
def parallelCopies (gpus : ℕ) (numDocuments : K) : K := max 1 (min (gpus : K) numDocuments)

namespace JoinStep

/-- One model copy's share when the anchors are spread evenly. -/
def copyWork (step : JoinStep K ι) (gpus : ℕ) : Work K :=
  step.work.scale (1 / parallelCopies gpus step.anchorDocuments)

end JoinStep

namespace KVState

/-- No anchor is used yet. -/
def empty : KVState ι := ⟨none, false, ∅⟩

end KVState

/-! ## Anchors -/

omit [Field K] [LinearOrder K] in
/-- Candidate anchors for one join. -/
def anchorCandidates (spec : PricedJoin K ι) (honorForced : Bool) : List ι :=
  if spec.semantics ≠ .full then spec.anchor.toList
  else if honorForced && !spec.anchorFree then spec.anchor.toList
  else spec.aliases

/-- Tokens of the longest input under one join orientation. -/
def joinInputTokens (spec : PricedJoin K ι) (anchor : ι) (maximum : ι → ℕ) (pre : ℕ) : ℕ :=
  pre + maximum anchor + spec.frameTokens anchor + spec.tailTokens +
    ((spec.aliases.filter (· ≠ anchor)).map fun partner =>
      spec.labelTokens partner + maximum partner).sum

/-- Whether the worst live tuple anchored here fits one chunk. -/
def anchorFits (spec : PricedJoin K ι) (anchor : ι) (lengths : ι → AliasStats)
    (pre chunkTokens : ℕ) : Bool :=
  if spec.aliases.any fun a => (lengths a).count == 0 then true
  else decide (joinInputTokens spec anchor (fun a => (lengths a).maximum) pre ≤ chunkTokens)

/-- Fitting candidates, or every candidate when none fits. -/
def feasibleAnchors (spec : PricedJoin K ι) (honorForced : Bool) (lengths : ι → AliasStats)
    (pre chunk : ℕ) : List ι :=
  let cands := anchorCandidates spec honorForced
  let fits := cands.filter fun a => anchorFits spec a lengths pre chunk
  if fits.isEmpty then cands else fits

/-- The source of the KV credit recorded for one stage. -/
def residency (anchor : ι) (state : KVState ι) (residentAliases : Finset ι) (sameGroup : Bool) :
    Residency :=
  if sameGroup || decide (anchor ∈ state.usedAnchors) then .kept
  else if anchor ∈ residentAliases then .filter
  else .none

/-! ## Survivors -/

/-- The product of the live documents of the other aliases. -/
def others (spec : PricedJoin K ι) (expectedRows : ι → K) (x : ι) : K :=
  ((spec.aliases.filter (· ≠ x)).map expectedRows).foldl (· * ·) 1

/-- Live document counts after one join's selectivity. -/
def thin (q : Query K ι R) (expectedRows : ι → K) (spec : PricedJoin K ι) : ι → K :=
  let sel := effectiveSelectivity spec.selectivity * spec.pairFraction
  let matched := fun a => q.survivingDocuments (expectedRows a) (others spec expectedRows a) sel
  match spec.semantics, spec.anchor with
  | .full, _ => fun a => if a ∈ spec.aliases then matched a else expectedRows a
  | .exists, some anchor => Function.update expectedRows anchor (matched anchor)
  | .anti, some anchor =>
    Function.update expectedRows anchor (expectedRows anchor - matched anchor)
  -- a gate always names its outer table
  | _, none => expectedRows

/-- Expected tuples of one join. -/
def crossTuples (spec : PricedJoin K ι) (expectedRows : ι → K) : K :=
  (spec.aliases.map expectedRows).foldl (· * ·) 1 * spec.pairFraction

/-- Expected anchors the join reads: those with a candidate partner. -/
def anchorDocuments (q : Query K ι R) (spec : PricedJoin K ι) (anchor : ι) (expectedRows : ι → K) :
    K :=
  q.survivingDocuments (expectedRows anchor) (others spec expectedRows anchor) spec.pairFraction

/-! ## Pricing -/

/-- Price one join: its work, recorded inputs, and next KV state. -/
def joinStep (q : Query K ι R) (spec : PricedJoin K ι) (anchor : ι) (expectedRows : ι → K)
    (state : KVState ι) : Work K × JoinStep K ι × KVState ι :=
  let sameGroup := state.groupOpen && decide (state.pendingAnchor = some anchor) &&
    decide (spec.semantics = .full)
  let kind := if q.reusesKv then residency anchor state q.resident sameGroup else .none
  let documents := anchorDocuments q spec anchor expectedRows
  let tuples := crossTuples spec expectedRows
  let work := q.stageWork spec anchor expectedRows documents tuples (decide (kind ≠ .none))
  (work,
    { writtenPosition := spec.writtenPosition
      anchor := anchor
      resident := kind
      residentDocuments := if kind ≠ .none then (q.lengths anchor).count else 0
      anchorDocuments := documents
      tuples := tuples
      tokens := work.tokens
      work := work },
    ⟨some anchor, decide (spec.semantics = .full), insert anchor state.usedAnchors⟩)

/-- What a walk has done so far. -/
structure Walk (K ι : Type) where
  state : KVState ι
  total : Work K
  records : List (JoinStep K ι)
  applied : List (PricedJoin K ι)

/-- Live document counts after joins, thinned in written order. -/
def thinAll (q : Query K ι R) (live : ι → K) (applied : List (PricedJoin K ι)) : ι → K :=
  (applied.mergeSort fun s t => decide (s.writtenPosition ≤ t.writtenPosition)).foldl (thin q) live

/-- One join of a walk. -/
def walkStep (q : Query K ι R) (live : ι → K) (w : Walk K ι) (join : PricedJoin K ι × ι) :
    Walk K ι :=
  let (work, step, state) := joinStep q join.1 join.2 (thinAll q live w.applied) w.state
  ⟨state, w.total + work, w.records ++ [step], w.applied ++ [join.1]⟩

/-- Cost one sequence: its total work and one step per join. -/
def walk (q : Query K ι R) (seq : List (PricedJoin K ι × ι)) (live : ι → K) :
    Work K × List (JoinStep K ι) :=
  let w := seq.foldl (walkStep q live) ⟨.empty, 0, [], []⟩
  (w.total, w.records)

/-! ## The search -/

/-- Every choice of one element of each list, the last varying fastest. -/
def product {α : Type} : List (List α) → List (List α)
  | [] => [[]]
  | l :: ls => l.flatMap fun a => (product ls).map (a :: ·)

/-- Live document counts after a set of joins. -/
def expectedRowsFor (q : Query K ι R) (specs : List (PricedJoin K ι)) (live : ι → K)
    (applied : Finset ℕ) : ι → K :=
  ((applied.sort (· ≤ ·)).filterMap (specs[·]?)).foldl (thin q) live

/-- Price a join with each of its anchors after a set of joins. -/
def priceStep (q : Query K ι R) (specs : List (PricedJoin K ι)) (live : ι → K) (honorForced : Bool)
    (gpus : ℕ) : PriceStep K ι (KVState ι) (JoinStep K ι) := fun index _ applied state =>
  match specs[index]? with
  | none => []
  | some spec =>
    (feasibleAnchors spec honorForced q.lengths q.pre q.chunkTokens).map fun anchor =>
      let (_, step, next) := joinStep q spec anchor (expectedRowsFor q specs live applied) state
      (step.copyWork gpus, next, step)

/-- The joins' aliases as first named, and then the aliases already joined. -/
def searchAliases (specs : List (PricedJoin K ι)) (seeds : Finset ι) : List ι :=
  let named := (specs.flatMap PricedJoin.aliases).eraseDups
  named ++ (seeds \ named.toFinset).sort (· ≤ ·)

/-- The written position and the anchor of each step. -/
def stepKeys (steps : List (JoinStep K ι)) : List (ℕ × ι) :=
  steps.map fun s => (s.writtenPosition, s.anchor)

/-- What the candidates are compared by: rank, then the relation order, then the sequence. -/
def candidateKey (q : Query K ι R) (c : Candidate K ι (KVState ι) (JoinStep K ι)) :
    R ×ₗ List ι ×ₗ List (ℕ ×ₗ ι) :=
  toLex (q.rank c.work, toLex (c.relationOrder, (stepKeys c.steps).map toLex))

/-- The written order, with the anchors whose walk ranks best. -/
def searchFixed (q : Query K ι R) (specs : List (PricedJoin K ι)) (live : ι → K)
    (honorForced : Bool) (gpus : ℕ) : Option (JoinSearch K ι) :=
  let choices := product (specs.map fun s =>
    feasibleAnchors s honorForced q.lengths q.pre q.chunkTokens)
  let rankOf := fun assign => q.rank
    (((walk q (specs.zip assign) live).2.map fun s => s.copyWork gpus).foldl (· + ·) 0)
  (choices.argmin rankOf).map fun assign =>
    let (work, records) := walk q (specs.zip assign) live
    { seq := (specs.zip assign).map fun join => (join.1.writtenPosition, join.2)
      steps := records
      work := work
      states := 0
      generated := 0 }

/-- Search stage order and anchor choice; the cheapest, if the joins have a connected order. -/
def searchJoins (q : Query K ι R) (specs : List (PricedJoin K ι)) (live : ι → K)
    (fixedOrder honorForced : Bool) (alreadyJoined : Finset ι) (gpus : ℕ) :
    Option (JoinSearch K ι) :=
  if specs.isEmpty then some ⟨[], [], 0, 0, 0⟩
  else if fixedOrder || (specs.length == 1 && decide (alreadyJoined = ∅)) then
    searchFixed q specs live honorForced gpus
  else
    let search := searchLeftDeep (searchAliases specs alreadyJoined)
      (specs.map fun s => s.aliases.toFinset) KVState.empty 0
      (priceStep q specs live honorForced gpus) alreadyJoined
    (search.candidates.argmin (candidateKey q)).map fun best =>
      { seq := stepKeys best.steps
        steps := best.steps
        work := (best.steps.map JoinStep.work).foldl (· + ·) 0
        states := search.numStates
        generated := search.numGenerated }

end Quail.Planner
