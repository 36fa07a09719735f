import Quail.Readout.Groups

/-!
# The answers reported to each group

`StageExecutor._build` and `_report` of `executor/stage_executor.py`, as far as the rows that are read go:
`build` packs a chunk and notes for each entry its stage and how many rows its answers take, the readouts
are called with the chunk's rows (`ReadoutGroups.submit`), and `report` hands each group as many of its
readout's values as it has partners.

With one readout for every stage each group is handed the values of its own rows. With several it is, if
and only if no group of a stage that reads one row a suffix has a partner with another number of rows, and
every partner without rows is followed by an answer of the same readout group (`report_exact_iff`).
-/

namespace Quail.Readout

/-- `StageRequests`: suffixes of a document's own, with the rows to read of each. -/
structure Request where
  suffixes : List ℕ
  readRows : Option (List ℕ) := none
deriving DecidableEq, Repr

/-- `frame_writes`: whether a stage writes a frame that the stage before did not leave. -/
def frameWrites : Option (List ℕ) → List Stage → List Bool
  | _, [] => []
  | previous, stage :: stages =>
    (stage.frame ≠ [] && some stage.frame ≠ previous) :: frameWrites (some stage.frame) stages

/-- `question_ends`. A negative position counts from the end, as numpy has it. -/
def questionEnds (questions : List ℕ) (slots : Slots) : List Bool :=
  let total := questions.sum
  let ends := (cumsum questions).map fun e => (e : ℤ) - 1
  let marked : List ℤ := match slots with
    | .same slots => slots.flatMap fun slot => ends.map (· + slot)
    | .own slots => (ends.zip slots).flatMap fun e => e.2.map (e.1 + ·)
  (List.range total).map fun row => marked.any fun m => m = (row : ℤ) ∨ m + total = row

/-- A stage list with what the rows read depend on. `canvas` is the width of the pipeline's canvas and
`prefixLengths` the tokens of each document's prefix. -/
structure Executor where
  stages : List Stage
  canvas : ℕ := 0
  answerRow : ℕ := 0
  stateSlots : Bool := false
  prefixLengths : ℕ → ℕ := fun _ => 0

namespace Executor

def readouts (E : Executor) : ReadoutGroups := .new E.stages

def writes (E : Executor) : List Bool :=
  if E.stateSlots then
    List.zipWith (fun write stage => write || (stage.rewind && stage.frame ≠ []))
      (frameWrites none E.stages) E.stages
  else frameWrites none E.stages

/-- A scheduled group, `(a, j, start, end, carried)`, with the partners' indices, the tokens of the prefix
that it packs, and the document's request if the stage's suffixes are each document's own. The scheduler
takes at least one partner. -/
structure Group (E : Executor) where
  anchor : ℕ
  stage : Fin E.stages.length
  start : ℕ
  stop : ℕ
  indices : List ℕ
  prefixTokens : Option ℕ := none
  request : Option Request := none
  length_indices : indices.length = stop - start
  start_lt : start < stop

/-- An evicted answer's tokens `start` to `stop`, recomputed. -/
structure Replay (E : Executor) where
  anchor : ℕ
  stage : Fin E.stages.length
  start : ℕ
  stop : ℕ

variable {E : Executor}

namespace Group

variable (g : E.Group)

def stageOf : Stage := E.stages[g.stage]

/-- Tokens of the partners' suffixes. -/
def sufs : List ℕ :=
  let lengths := match g.request with
    | some request => request.suffixes
    | none => g.stageOf.suffixes
  g.indices.map fun index => lengths.getD index 0

/-- Whether the frame and the one suffix are one entry. -/
def merged : Bool := g.stageOf.single && g.stop - g.start == 1

def writesFrame : Bool := E.writes.getD g.stage false && g.start == 0

/-- Whether the frame is an entry of its own. -/
def separateFrame : Bool := g.writesFrame && !g.merged

/-- The stage's or the request's `read_rows`, at the partners. -/
def readRows : Option (List ℕ) :=
  let readRows := match g.request with
    | some request => request.readRows
    | none => g.stageOf.readRows
  readRows.map fun rows => g.indices.map fun index => rows.getD index 0

/-- The rows to read of the suffixes, and how many they are. -/
def suffixReads : Spec × ℕ :=
  let stage := g.stageOf
  let spec : Spec := { suffixes := g.sufs, readAllRows := stage.readAllRows }
  match g.readRows with
  | some rows => ({ spec with readRows := some rows }, rows.sum)
  | none => (spec, if stage.readAllRows then g.sufs.sum else g.sufs.length)

/-- A stage's mask of the rows to read comes before these. -/
def maskReads : Spec × ℕ :=
  match g.stageOf.readMask with
  | some mask => ({ g.suffixReads.1 with readMask := some mask }, mask.count true)
  | none => g.suffixReads

/-- Rows of each question, and of the prefix before them. -/
def questionReads : Spec × ℕ :=
  let stage := g.stageOf
  if stage.questions = [] then g.maskReads
  else
    let mask := questionEnds (stage.questions.getD (g.indices.headD 0) []) stage.questionSlots
    let rows := stage.stateReads.map fun rows => rows g.anchor
    ({ g.maskReads.1 with readMask := some mask, stateReads := rows },
      mask.count true + (rows.getD []).length)

/-- What `pack_chunk` is told to read of the partners, and how many rows that takes. -/
def reads : Spec × ℕ :=
  let stage := g.stageOf
  match stage.canvas with
  | some canvas =>
    let ids := canvas g.anchor
    -- A two-dimensional canvas is indexed by the partners.
    ({ suffixes := g.sufs, readAllRows := stage.readAllRows
       canvas := some { ids with count := ids.count.map fun _ => g.indices.length } },
      if stage.readAllRows then stage.canvasRows * g.sufs.length else g.questionReads.2)
  | none => g.questionReads

def frameSpec : Spec := { prefixTokens := g.prefixTokens, suffixes := [g.stageOf.frame.length] }

/-- The entry with the partners' suffixes. -/
def spec : Spec :=
  if g.writesFrame then
    if g.merged then
      { g.reads.1 with
        prefixTokens := g.prefixTokens
        suffixes := [g.stageOf.frame.length + g.sufs.headD 0] }
    else g.reads.1
  else { g.reads.1 with prefixTokens := g.prefixTokens }

def specs : List Spec := if g.separateFrame then [g.frameSpec, g.spec] else [g.spec]

/-- The entries, each a stage with its answer rows. The frame's own answer means nothing. -/
def entries : List (ℕ × ℕ) :=
  if g.separateFrame then [(g.stage.1, 1), (g.stage.1, g.reads.2)] else [(g.stage.1, g.reads.2)]

end Group

namespace Replay

variable (r : E.Replay)

/-- Prompt rows, recomputed as a prefix where the document's state is. -/
def spec : Spec :=
  if E.stateSlots ∧ r.start < E.prefixLengths r.anchor then
    let f := min r.stop (E.prefixLengths r.anchor)
    { prefixTokens := some (f - r.start), suffixes := if r.stop - f = 0 then [] else [r.stop - f] }
  else { suffixes := if r.stop - r.start = 0 then [] else [r.stop - r.start] }

def entry : ℕ × ℕ := (r.stage.1, if r.spec.suffixes = [] then 0 else 1)

end Replay

/-- Tokens replayed for an accepted answer's state; no row of them is read. -/
def answerReplaySpec (span : ℕ × ℕ) : Spec := { suffixes := [span.2 - span.1], readRows := some [0] }

/-- `_build`: the chunk, and its entries as stages with their answer rows. -/
def build (groups : List E.Group) (replays : List E.Replay) (answerReplays : List (ℕ × ℕ)) (decode : ℕ) :
    Except PackError (Chunk × List (ℕ × ℕ)) :=
  if groups.any fun g => g.stageOf.questions ≠ [] && g.indices.length ≠ 1 then .error .questions
  else (packChunk E.canvas E.answerRow
    (groups.flatMap Group.specs ++ replays.map Replay.spec ++ answerReplays.map answerReplaySpec) decode).map
      fun chunk => (chunk, groups.flatMap Group.entries ++ replays.map Replay.entry)

section Report

variable {Row Value : Type}

/-- One group of `_report`: its values, and where its readout group's next values are. -/
def reportGroup (values : ℕ → List Value) (position : ℕ → ℕ) (g : E.Group) : List Value × (ℕ → ℕ) :=
  let key := E.readouts.keyOf g.stage
  let position := if g.separateFrame then Function.update position key (position key + 1) else position
  let count := g.stop - g.start
  (((values key).drop (position key)).take count, Function.update position key (position key + count))

def reportGroups (values : ℕ → List Value) : (ℕ → ℕ) → List E.Group → List (List Value) × (ℕ → ℕ)
  | position, [] => ([], position)
  | position, g :: groups =>
    let r := reportGroup values position g
    let rest := reportGroups values r.2 groups
    (r.1 :: rest.1, rest.2)

/-- A launched chunk's values and progress through its groups. -/
structure PendingAnswers (E : Executor) (Value : Type) where
  groups : List E.Group
  values : ℕ → List Value
  positions : ℕ → ℕ := fun _ => 0
  done : ℕ := 0

/-- `_report`, of the next `step` groups. -/
def report (entry : PendingAnswers E Value) (step : ℕ) : List (List Value) × PendingAnswers E Value :=
  let groups := (entry.groups.drop entry.done).take step
  let r := reportGroups entry.values entry.positions groups
  (r.1, { entry with positions := r.2, done := entry.done + groups.length })

def reports (entry : PendingAnswers E Value) : List ℕ → List (List Value)
  | [] => []
  | step :: steps => (report entry step).1 ++ reports (report entry step).2 steps

/-- What the groups of a chunk are handed, when the forward pass makes `hidden` of its rows and the groups
are reported in steps. -/
def handed (hidden : ℤ → Row) (readouts : ℕ → List Row → Value) (groups : List E.Group)
    (built : Chunk × List (ℕ × ℕ)) (steps : List ℕ) : Option (List (List Value)) :=
  (E.readouts.submit (built.1.finalIndices.map hidden) built.2 built.1.rowsPerAnswer).map fun handles =>
    reports { groups, values := E.readouts.results readouts handles } steps

end Report

/-! ## What the groups should be handed -/

/-- How many rows each partner of a group has read. -/
def Group.counts (g : E.Group) : List ℕ := g.spec.counts E.canvas

/-- The rows read for each partner of each group of a chunk, from some row on. -/
def ownAnswers : ℕ → List E.Group → List (List (List ℤ))
  | _, [] => []
  | row, g :: groups =>
    let frame := if g.separateFrame then g.frameSpec.tokens E.canvas else 0
    g.spec.answers E.canvas E.answerRow (row + frame)
      :: ownAnswers (row + frame + g.spec.tokens E.canvas) groups

/-- The stage's readout's values of them. -/
def ownValues {Row Value : Type} (hidden : ℤ → Row) (readouts : ℕ → List Row → Value) (groups : List E.Group) :
    List (List Value) :=
  List.zipWith (fun (g : E.Group) answers => answers.map fun rows => readouts g.stageOf.readout (rows.map hidden))
    groups (ownAnswers 0 groups)

/-- Each group is handed its own values, whatever the forward pass and the readouts make of the rows and
in whatever steps the groups are reported. -/
def Exact (groups : List E.Group) (built : Chunk × List (ℕ × ℕ)) : Prop :=
  ∀ (Row Value : Type) (hidden : ℤ → Row) (readouts : ℕ → List Row → Value) (steps : List ℕ),
    handed hidden readouts groups built steps = some ((ownValues hidden readouts groups).take steps.sum)

/-- The rows noted for a group are as many as its partners have read. -/
def Group.Counted (g : E.Group) : Prop := g.reads.2 = g.counts.sum

/-- What a group packs, with its stage. -/
def Group.staged (g : E.Group) : List (ℕ × Spec) := g.specs.map fun spec => (g.stage.1, spec)

variable (E) in
/-- The entries of a chunk that stand for answers of a stage, in order. -/
def staged (groups : List E.Group) (replays : List E.Replay) : List (ℕ × Spec) :=
  groups.flatMap Group.staged ++ replays.map fun r => (r.stage.1, r.spec)

variable (E) in
/-- The answers of a chunk in order, each its readout group and the rows that it takes. -/
def answerCounts (groups : List E.Group) (replays : List E.Replay) : List (ℕ × ℕ) :=
  (E.staged groups replays).flatMap fun e => (e.2.counts E.canvas).map fun c => (E.readouts.keyOf e.1, c)

/-- Every answer without rows, the first one apart, is followed by an answer of the same readout group. -/
def RowlessFollowed (answers : List (ℕ × ℕ)) : Prop :=
  ∀ (i : ℕ) key, 0 < i → answers[i]? = some (key, 0) → ∃ c, answers[i + 1]? = some (key, c)

/-- Every partner has one row read. -/
def Group.Single (g : E.Group) : Prop := ∀ c ∈ g.counts, c = 1

/-! ## Packed entries -/

section Packed

variable {g : E.Group} {r : E.Replay}

lemma frameSpec_counts : g.frameSpec.counts E.canvas = [1] := by
  simp [Spec.counts, Group.frameSpec]

lemma replay_counts : r.spec.counts E.canvas = if r.spec.suffixes = [] then [] else [1] := by
  simp only [Replay.spec]
  split
  · split <;> simp [Spec.counts, *]
  · split <;> simp [Spec.counts, *]

lemma length_sufs : g.sufs.length = g.stop - g.start := by
  rw [Group.sufs, List.length_map, g.length_indices]

lemma merged_iff : g.merged = true ↔ g.stageOf.single = true ∧ g.stop - g.start = 1 := by
  simp [Group.merged]

lemma reads_suffixes : g.reads.1.suffixes = g.sufs := by
  have hsuffix : g.suffixReads.1.suffixes = g.sufs := by
    rw [Group.suffixReads]
    cases g.readRows <;> rfl
  have hmask : g.maskReads.1.suffixes = g.sufs := by
    rw [Group.maskReads]
    cases g.stageOf.readMask <;> exact hsuffix
  have hquestion : g.questionReads.1.suffixes = g.sufs := by
    rw [Group.questionReads]
    split <;> exact hmask
  rw [Group.reads]
  cases g.stageOf.canvas with
  | some canvas => rfl
  | none => exact hquestion

lemma reads_readRows {rows : List ℕ} (h : g.reads.1.readRows = some rows) : rows.length = g.stop - g.start := by
  have hrows : g.readRows = some rows := by
    have hsuffix : g.suffixReads.1.readRows = g.readRows := by
      rw [Group.suffixReads]
      cases g.readRows <;> rfl
    have hmask : g.maskReads.1.readRows = g.readRows := by
      rw [Group.maskReads]
      cases g.stageOf.readMask <;> exact hsuffix
    have hquestion : g.questionReads.1.readRows = g.readRows := by
      rw [Group.questionReads]
      split <;> exact hmask
    rw [Group.reads] at h
    cases hcanvas : g.stageOf.canvas with
    | some canvas =>
      rw [hcanvas] at h
      cases h
    | none =>
      rw [hcanvas] at h
      exact hquestion.symm.trans h
  obtain ⟨rows', -, rfl⟩ := Option.map_eq_some_iff.1 hrows
  rw [List.length_map, g.length_indices]

lemma length_spec_suffixes : g.spec.suffixes.length = g.stop - g.start := by
  rw [Group.spec]
  split
  · split
    · rename_i hmerged
      exact (merged_iff.1 hmerged).2.symm
    · rw [reads_suffixes, length_sufs]
  · rw [reads_suffixes, length_sufs]

/-- A group has an answer for each partner. -/
lemma length_counts : g.counts.length = g.stop - g.start := by
  have hsuffixes := length_spec_suffixes (g := g)
  have hrows : ∀ rows, g.spec.readRows = some rows → rows.length = g.stop - g.start := by
    intro rows h
    refine reads_readRows (g := g) ?_
    rw [Group.spec] at h
    split at h
    · split at h <;> exact h
    · exact h
  rw [Group.counts, Spec.counts]
  split
  · rw [List.length_map, hsuffixes]
  · cases hmask : g.spec.readMask with
    | some mask => rw [List.length_map, hsuffixes]
    | none =>
      cases hread : g.spec.readRows with
      | some rows => rw [List.length_zipWith, hsuffixes, hrows rows hread, Nat.min_self]
      | none => rw [List.length_map, hsuffixes]

lemma length_flatnonzero (mask : List Bool) : (flatnonzero mask).length = mask.count true := by
  have hfrom : ∀ k, ((mask.zipIdx k).filter (·.1)).length = mask.count true := by
    induction mask with
    | nil => exact fun _ => rfl
    | cons marked mask ih =>
      intro k
      rw [List.zipIdx_cons, List.filter_cons, List.count_cons, ← ih (k + 1)]
      cases marked <;> rfl
  rw [flatnonzero, List.length_map]
  exact hfrom 0

/-- The rows that `_build` notes without a canvas, by what `pack_chunk` is told. -/
lemma noted_eq (h : g.stageOf.canvas = none) : g.reads.2 = match g.reads.1.readMask, g.reads.1.readRows with
    | some mask, _ => mask.count true + (g.reads.1.stateReads.getD []).length
    | none, some rows => rows.sum
    | none, none => if g.reads.1.readAllRows then g.sufs.sum else g.sufs.length := by
  have hsuffix : g.suffixReads.1.readMask = none ∧ g.suffixReads.1.stateReads = none ∧ g.suffixReads.2
      = match g.suffixReads.1.readRows with
        | some rows => rows.sum
        | none => if g.suffixReads.1.readAllRows then g.sufs.sum else g.sufs.length := by
    rw [Group.suffixReads]
    cases g.readRows <;> exact ⟨rfl, rfl, rfl⟩
  obtain ⟨hmask, hstate, hnoted⟩ := hsuffix
  rw [Group.reads, h]
  dsimp only
  rw [Group.questionReads]
  split
  · rw [Group.maskReads]
    cases g.stageOf.readMask with
    | some mask =>
      dsimp only
      rw [hstate]
      rfl
    | none =>
      dsimp only
      rw [hmask, hnoted]
      cases g.suffixReads.1.readRows <;> rfl
  · rfl

/-- Without canvases, and without a frame whose rows are read with its suffix's, `_build` notes as many rows
as the partners have read. A mask marks the rows of one suffix, as `pack_chunk` checks. -/
lemma counted_of_plain (hdefault : E.canvas = 0) (hcanvas : g.stageOf.canvas = none)
    (hmask : g.reads.1.readMask ≠ none → g.stop - g.start = 1)
    (hframe : (g.writesFrame && g.merged) = false ∨ g.reads.1.readAllRows = false ∨
      g.reads.1.readMask ≠ none ∨ g.reads.1.readRows ≠ none) : g.Counted := by
  have hspec : g.spec.readMask = g.reads.1.readMask ∧ g.spec.stateReads = g.reads.1.stateReads ∧
      g.spec.readRows = g.reads.1.readRows ∧ g.spec.readAllRows = g.reads.1.readAllRows ∧
      g.spec.canvas = g.reads.1.canvas := by
    rw [Group.spec]
    split
    · split <;> exact ⟨rfl, rfl, rfl, rfl, rfl⟩
    · exact ⟨rfl, rfl, rfl, rfl, rfl⟩
  obtain ⟨hspecMask, hspecState, hspecRows, hspecAll, hspecCanvas⟩ := hspec
  have hwidth : g.spec.width E.canvas = 0 := by
    have hown : g.reads.1.canvas = none := by
      rw [Group.reads, hcanvas]
      dsimp only
      rw [Group.questionReads, Group.maskReads, Group.suffixReads]
      split <;> cases g.stageOf.readMask <;> cases g.readRows <;> rfl
    rw [Spec.width, Spec.groupCanvas, hspecCanvas, hown, hdefault]
    rfl
  have hlen := length_spec_suffixes (g := g)
  rw [Group.Counted, Group.counts, noted_eq hcanvas, Spec.counts, if_neg (not_not.2 hwidth), hspecMask,
    hspecRows, hspecState, hspecAll]
  cases hm : g.reads.1.readMask with
  | some mask =>
    have hone : g.spec.suffixes.length = 1 := hlen.trans (hmask (by rw [hm]; exact Option.some_ne_none _))
    dsimp only
    rw [length_flatnonzero, List.map_const', hone, List.replicate_one, List.sum_singleton, Nat.add_comm]
  | none =>
    cases hr : g.reads.1.readRows with
    | some rows =>
      dsimp only
      rw [zipWith_snd (by rw [reads_readRows hr, hlen])]
    | none =>
      dsimp only
      cases hall : g.reads.1.readAllRows with
      | false =>
        rw [if_neg Bool.false_ne_true, length_sufs, ← hlen]
        simp
      | true =>
        have hmerged : (g.writesFrame && g.merged) = false := by
          rcases hframe with h | h | h | h
          · exact h
          · exact absurd (hall.symm.trans h) Bool.noConfusion
          · exact absurd hm h
          · exact absurd hr h
        have hsame : g.spec.suffixes = g.sufs := by
          rw [Group.spec]
          split
          · rename_i hw
            rw [hw, Bool.true_and] at hmerged
            rw [hmerged]
            exact reads_suffixes
          · exact reads_suffixes
        rw [hsame]
        simp

end Packed

/-! ## The chunk -/

section Chunks

variable {Row Value : Type} {hidden : ℤ → Row} {groups : List E.Group} {replays : List E.Replay}
  {answerReplays : List (ℕ × ℕ)} {decode : ℕ} {built : Chunk × List (ℕ × ℕ)}

variable (E) in
/-- The answers of entries packed from some row on, as the forward pass makes them. -/
def lotsFrom (hidden : ℤ → Row) : ℕ → List (ℕ × Spec) → List (ℕ × List (List Row))
  | _, [] => []
  | row, e :: rest => (e.1, (e.2.answers E.canvas E.answerRow row).map (List.map hidden))
      :: lotsFrom hidden (row + e.2.tokens E.canvas) rest

lemma lotsFrom_append (row : ℕ) (l l' : List (ℕ × Spec)) : E.lotsFrom hidden row (l ++ l')
    = E.lotsFrom hidden row l ++ E.lotsFrom hidden (row + (l.map fun e => e.2.tokens E.canvas).sum) l' := by
  induction l generalizing row with
  | nil => simp [lotsFrom]
  | cons e l ih => simp [lotsFrom, ih, Nat.add_assoc]

lemma lotsFrom_snd (row : ℕ) (l : List (ℕ × Spec)) : (E.lotsFrom hidden row l).flatMap Prod.snd
    = (answersFrom E.canvas E.answerRow row (l.map Prod.snd)).flatten.map (List.map hidden) := by
  induction l generalizing row with
  | nil => rfl
  | cons e l ih => simp [lotsFrom, answersFrom, ih]

/-- Entries whose answers take the rows that they should. -/
def Laid (E : Executor) (row : ℕ) (l : List (ℕ × Spec)) : Prop :=
  (answersFrom E.canvas E.answerRow row (l.map Prod.snd)).map (List.map List.length)
    = l.map fun e => e.2.counts E.canvas

lemma laid_cons {row : ℕ} {e : ℕ × Spec} {l : List (ℕ × Spec)} : Laid E row (e :: l) ↔
    (e.2.answers E.canvas E.answerRow row).map List.length = e.2.counts E.canvas ∧
      Laid E (row + e.2.tokens E.canvas) l := by
  simp [Laid, answersFrom]

lemma laid_append {row : ℕ} {l l' : List (ℕ × Spec)} : Laid E row (l ++ l') ↔
    Laid E row l ∧ Laid E (row + (l.map fun e => e.2.tokens E.canvas).sum) l' := by
  induction l generalizing row with
  | nil => simp [Laid, answersFrom]
  | cons e l ih => rw [List.cons_append, laid_cons, ih, laid_cons, and_assoc, List.map_cons, List.sum_cons, Nat.add_assoc]

lemma length_hidden (hidden : ℤ → Row) (answers : List (List ℤ)) :
    (answers.map (List.map hidden)).map List.length = answers.map List.length := by
  simp [Function.comp_def]

lemma keyedCounts_lots {row : ℕ} {l : List (ℕ × Spec)} (h : Laid E row l) :
    E.readouts.keyedCounts (E.lotsFrom hidden row l)
      = l.flatMap fun e => (e.2.counts E.canvas).map fun c => (E.readouts.keyOf e.1, c) := by
  induction l generalizing row with
  | nil => rfl
  | cons e l ih =>
    obtain ⟨he, hl⟩ := laid_cons.1 h
    rw [lotsFrom, ReadoutGroups.keyedCounts_cons, ih hl, List.flatMap_cons, length_hidden, he]

lemma entriesOf_lots {row : ℕ} {l : List (ℕ × Spec)} (h : Laid E row l) :
    ReadoutGroups.entriesOf (E.lotsFrom hidden row l) = l.map fun e => (e.1, (e.2.counts E.canvas).sum) := by
  induction l generalizing row with
  | nil => rfl
  | cons e l ih =>
    obtain ⟨he, hl⟩ := laid_cons.1 h
    have hrest := ih hl
    rw [ReadoutGroups.entriesOf] at hrest ⊢
    rw [lotsFrom, List.map_cons, List.map_cons, hrest, length_hidden, he]

lemma counts_staged (g : E.Group) : g.staged.map (fun e => (e.1, (e.2.counts E.canvas).sum))
    = if g.separateFrame then [(g.stage.1, 1), (g.stage.1, g.counts.sum)] else [(g.stage.1, g.counts.sum)] := by
  rw [Group.staged, Group.specs]
  split
  · simp [frameSpec_counts, Group.counts]
  · simp [Group.counts]

/-- The entries that `_build` notes are the chunk's, if it counts the groups' rows right. -/
lemma entries_eq (h : ∀ g ∈ groups, g.Counted) :
    groups.flatMap Group.entries ++ replays.map Replay.entry
      = (E.staged groups replays).map fun e => (e.1, (e.2.counts E.canvas).sum) := by
  rw [staged, List.map_append, List.map_flatMap, List.map_map]
  congr 1
  · refine List.flatMap_congr fun g hg => ?_
    rw [counts_staged, Group.entries, h g hg]
  · refine List.map_congr_left fun r _ => ?_
    rw [Function.comp_apply, replay_counts, Replay.entry]
    split <;> rfl

/-- A chunk that was built: its rows are those of the staged entries' answers, then others, and the row
counts are theirs. -/
structure BuildOk (groups : List E.Group) (replays : List E.Replay) (built : Chunk × List (ℕ × ℕ)) : Prop where
  laid : Laid E 0 (E.staged groups replays)
  finals : ∃ after : List ℤ, built.1.finalIndices
    = (answersFrom E.canvas E.answerRow 0 ((E.staged groups replays).map Prod.snd)).flatten.flatten ++ after
  entries : built.2 = groups.flatMap Group.entries ++ replays.map Replay.entry
  counts : (∃ more, built.1.rowsPerAnswer
      = some (((E.staged groups replays).flatMap fun e => e.2.counts E.canvas) ++ more)) ∨
    built.1.rowsPerAnswer = none ∧ ∀ c ∈ (E.staged groups replays).flatMap fun e => e.2.counts E.canvas, c = 1

theorem build_ok (h : build groups replays answerReplays decode = .ok built) : BuildOk groups replays built := by
  rw [build] at h
  split at h
  · cases h
  have hspecs : groups.flatMap Group.specs ++ replays.map Replay.spec
      = (E.staged groups replays).map Prod.snd := by
    rw [staged, List.map_append, List.map_flatMap, List.map_map]
    congr 1
    refine List.flatMap_congr fun g _ => ?_
    simp [Group.staged, Function.comp_def]
  rw [hspecs] at h
  generalize hpack : packChunk E.canvas E.answerRow ((E.staged groups replays).map Prod.snd
    ++ answerReplays.map answerReplaySpec) decode = result at h
  cases result with
  | error e => cases h
  | ok chunk =>
    obtain rfl := Except.ok.inj h
    obtain ⟨⟨tail, hfinals⟩, hlaid, hcounts⟩ := packChunk_ok hpack
    rw [answersFrom_append] at hfinals hlaid
    generalize answersFrom E.canvas E.answerRow _ (answerReplays.map answerReplaySpec) = others at hfinals hlaid
    rw [List.map_append, List.map_append] at hlaid
    have hlaid' := (List.append_inj hlaid (by simp [length_answersFrom])).1
    refine ⟨by rw [Laid, hlaid', List.map_map]; rfl, ⟨others.flatten.flatten ++ tail, ?_⟩, rfl, ?_⟩
    · rw [hfinals, List.flatten_append, List.flatten_append, List.append_assoc]
    · rw [List.flatMap_append, List.flatMap_map] at hcounts
      rcases hcounts with hcounts | ⟨hnone, hone⟩
      · rw [List.append_assoc] at hcounts
        exact Or.inl ⟨_, hcounts⟩
      · exact Or.inr ⟨hnone, fun c hc => hone c (List.mem_append_left _ hc)⟩

/-! ## Reporting -/

variable {values : ℕ → List Value}

lemma reportGroups_append (position : ℕ → ℕ) (l l' : List E.Group) :
    reportGroups values position (l ++ l')
      = ((reportGroups values position l).1 ++ (reportGroups values (reportGroups values position l).2 l').1,
        (reportGroups values (reportGroups values position l).2 l').2) := by
  induction l generalizing position with
  | nil => rfl
  | cons g l ih => simp [reportGroups, ih]

lemma length_reportGroups (values : ℕ → List Value) (position : ℕ → ℕ) (l : List E.Group) :
    (reportGroups values position l).1.length = l.length := by
  induction l generalizing position with
  | nil => rfl
  | cons g l ih => simp [reportGroups, ih]

/-- The steps in which a chunk is reported make no difference. -/
lemma reports_eq_take (entry : PendingAnswers E Value) (steps : List ℕ) : reports entry steps
    = (reportGroups entry.values entry.positions (entry.groups.drop entry.done)).1.take steps.sum := by
  induction steps generalizing entry with
  | nil => simp [reports]
  | cons step steps ih =>
    obtain ⟨rest, hrest⟩ : ∃ rest, rest = entry.groups.drop entry.done := ⟨_, rfl⟩
    have hdrop : entry.groups.drop (entry.done + (rest.take step).length) = rest.drop step := by
      rw [← List.drop_drop, ← hrest, List.length_take]
      rcases Nat.le_total step rest.length with hle | hle
      · rw [Nat.min_eq_left hle]
      · rw [Nat.min_eq_right hle, List.drop_length, List.drop_eq_nil_of_le hle]
    have hlen := length_reportGroups entry.values entry.positions (rest.take step)
    rw [reports, ih, report]
    dsimp only
    rw [← hrest, hdrop, List.sum_cons]
    conv_rhs => rw [← List.take_append_drop step rest, reportGroups_append]
    dsimp only
    rcases Nat.le_total step rest.length with hle | hle
    · rw [List.length_take, Nat.min_eq_left hle] at hlen
      generalize (reportGroups entry.values entry.positions (rest.take step)).1 = reported at hlen ⊢
      generalize (reportGroups entry.values _ (rest.drop step)).1 = others
      rw [← hlen, List.take_length_add_append]
    · rw [List.drop_eq_nil_of_le hle, List.take_of_length_le (l := _ ++ _)]
      · simp [reportGroups]
      · rw [List.length_append, hlen, List.length_take]
        simp [reportGroups]

/-- The frame's answer is skipped. -/
lemma reportGroup_eq (position : ℕ → ℕ) (g : E.Group) : reportGroup values position g =
    (((values (E.readouts.keyOf g.stage)).drop
        (position (E.readouts.keyOf g.stage) + if g.separateFrame then 1 else 0)).take (g.stop - g.start),
      Function.update position (E.readouts.keyOf g.stage)
        (position (E.readouts.keyOf g.stage) + (if g.separateFrame then 1 else 0) + (g.stop - g.start))) := by
  rw [reportGroup]
  cases g.separateFrame <;> simp

/-- The answers of a group, the frame's first. -/
lemma answersOf_group (g : E.Group) (row : ℕ) (rest : List (ℕ × Spec)) (key : ℕ) :
    E.readouts.answersOf (E.lotsFrom hidden row (g.staged ++ rest)) key
      = (if key = E.readouts.keyOf g.stage then
          (if g.separateFrame then (g.frameSpec.answers E.canvas E.answerRow row).map (List.map hidden) else [])
            ++ (g.spec.answers E.canvas E.answerRow
                (row + if g.separateFrame then g.frameSpec.tokens E.canvas else 0)).map (List.map hidden)
        else [])
        ++ E.readouts.answersOf (E.lotsFrom hidden
            (row + (if g.separateFrame then g.frameSpec.tokens E.canvas else 0) + g.spec.tokens E.canvas) rest)
          key := by
  rw [Group.staged, Group.specs]
  cases g.separateFrame with
  | true =>
    simp only [if_true, List.map_cons, List.map_nil, List.cons_append, List.nil_append, lotsFrom,
      ReadoutGroups.answersOf_cons]
    by_cases hk : key = E.readouts.keyOf g.stage <;> simp [hk]
  | false =>
    simp only [Bool.false_eq_true, if_false, List.map_cons, List.map_nil, List.cons_append, List.nil_append,
      lotsFrom, ReadoutGroups.answersOf_cons, Nat.add_zero]

lemma length_spec_answers (g : E.Group) (row : ℕ) :
    (g.spec.answers E.canvas E.answerRow row).length = g.stop - g.start := by
  rw [Spec.length_answers, ← length_counts, Group.counts]

lemma length_frame_answers (g : E.Group) (row : ℕ) :
    (g.frameSpec.answers E.canvas E.answerRow row).length = 1 := by
  rw [Spec.length_answers, frameSpec_counts]
  rfl

variable (hidden) in
/-- Groups are handed the values of their own rows if their readouts have these, in order, from where the
next values are. -/
theorem reportGroups_exact (value : ℕ → List Row → Value) (groups : List E.Group) (row : ℕ) (position : ℕ → ℕ)
    (h : ∀ g ∈ groups, ∃ before after, values (E.readouts.keyOf g.stage) = before
      ++ (E.readouts.answersOf (E.lotsFrom hidden row (groups.flatMap Group.staged))
          (E.readouts.keyOf g.stage)).map (value (E.readouts.keyOf g.stage)) ++ after ∧
      position (E.readouts.keyOf g.stage) = before.length) :
    (reportGroups values position groups).1 = List.zipWith (fun (g : E.Group) answers =>
      answers.map fun rows => value (E.readouts.keyOf g.stage) (rows.map hidden)) groups (ownAnswers row groups) := by
  induction groups generalizing row position with
  | nil => rfl
  | cons g groups ih =>
    simp only [List.flatMap_cons, answersOf_group] at h
    rw [reportGroups, ownAnswers, List.zipWith_cons_cons, reportGroup_eq]
    refine congrArg₂ List.cons ?_ ?_
    · obtain ⟨before, after, hvalues, hposition⟩ := h g (List.mem_cons_self ..)
      rw [if_pos rfl] at hvalues
      generalize hframe : (if g.separateFrame then
        (g.frameSpec.answers E.canvas E.answerRow row).map (List.map hidden) else []) = frame at hvalues
      have hlen : frame.length = if g.separateFrame then 1 else 0 := by
        rw [← hframe]
        split
        · rw [List.length_map, length_frame_answers]
        · rfl
      have hbefore : before.length + (if g.separateFrame then 1 else 0)
          = (before ++ frame.map (value (E.readouts.keyOf g.stage))).length := by
        rw [List.length_append, List.length_map, hlen]
      rw [hvalues, hposition, hbefore, List.map_append, List.map_append]
      simp only [List.append_assoc]
      rw [← List.append_assoc, List.drop_left, List.map_map]
      exact List.take_left' ((List.length_map _).trans (length_spec_answers g _))
    · refine ih _ _ fun g' hg' => ?_
      obtain ⟨before, after, hvalues, hposition⟩ := h g' (List.mem_cons_of_mem _ hg')
      rw [List.map_append, ← List.append_assoc] at hvalues
      refine ⟨_, after, hvalues, ?_⟩
      rw [List.length_append, List.length_map]
      dsimp only
      by_cases hk : E.readouts.keyOf g'.stage = E.readouts.keyOf g.stage
      · rw [hk] at hposition ⊢
        rw [Function.update_self, if_pos rfl, List.length_append, List.length_map, length_spec_answers,
          hposition, Nat.add_assoc]
        split
        · rw [List.length_map, length_frame_answers]
        · rfl
      · rw [Function.update_of_ne hk, if_neg hk, hposition]
        rfl

/-! ## Sharing one readout -/

lemma staged_keyOf {P : ℕ → Prop} (h : ∀ (j : Fin E.stages.length), P (E.readouts.keyOf j))
    {e : ℕ × Spec} (he : e ∈ E.staged groups replays) : P (E.readouts.keyOf e.1) := by
  rw [staged, List.mem_append] at he
  rcases he with he | he
  · obtain ⟨g, -, he⟩ := List.mem_flatMap.1 he
    obtain ⟨spec, -, rfl⟩ := List.mem_map.1 he
    exact h g.stage
  · obtain ⟨r, -, rfl⟩ := List.mem_map.1 he
    exact h r.stage

lemma mem_lotsFrom {row : ℕ} {l : List (ℕ × Spec)} {lot : ℕ × List (List Row)}
    (h : lot ∈ E.lotsFrom hidden row l) : ∃ e ∈ l, e.1 = lot.1 := by
  induction l generalizing row with
  | nil => cases h
  | cons e l ih =>
    rcases List.mem_cons.1 h with rfl | h
    · exact ⟨e, List.mem_cons_self .., rfl⟩
    · obtain ⟨e', he', heq⟩ := ih h
      exact ⟨e', List.mem_cons_of_mem _ he', heq⟩

lemma keyOf_stage (g : E.Group) : E.readouts.readoutOf.getD (E.readouts.keyOf g.stage) 0 = g.stageOf.readout := by
  have hstage : E.stages[g.stage.1]? = some g.stageOf := List.getElem?_eq_getElem g.stage.2
  rw [List.getD_eq_getElem?_getD]
  rw [readouts, (ReadoutGroups.keyOf_new hstage).1]
  rfl

/-- The chunk's rows as the forward pass makes them, entry by entry. -/
lemma BuildOk.normed (hb : BuildOk groups replays built) (hidden : ℤ → Row) : ∃ after,
    built.1.finalIndices.map hidden
      = ((E.lotsFrom hidden 0 (E.staged groups replays)).flatMap Prod.snd).flatten ++ after := by
  obtain ⟨after, hafter⟩ := hb.finals
  refine ⟨after.map hidden, ?_⟩
  rw [hafter, lotsFrom_snd, List.map_append, List.map_flatten]

lemma BuildOk.keyedCounts (hb : BuildOk groups replays built) (hidden : ℤ → Row) :
    E.readouts.keyedCounts (E.lotsFrom hidden 0 (E.staged groups replays)) = E.answerCounts groups replays :=
  keyedCounts_lots hb.laid

lemma BuildOk.lengths (hb : BuildOk groups replays built) (hidden : ℤ → Row) :
    ((E.lotsFrom hidden 0 (E.staged groups replays)).flatMap Prod.snd).map List.length
      = (E.staged groups replays).flatMap fun e => e.2.counts E.canvas := by
  have hsnd := congrArg (List.map Prod.snd) (hb.keyedCounts hidden)
  rw [ReadoutGroups.keyedCounts_snd, answerCounts, List.map_flatMap] at hsnd
  rw [List.map_flatMap, hsnd]
  simp [Function.comp_def]

variable (hidden groups replays) in
/-- The groups' answers come first. -/
lemma answersOf_staged (key : ℕ) : ∃ others,
    E.readouts.answersOf (E.lotsFrom hidden 0 (E.staged groups replays)) key
      = E.readouts.answersOf (E.lotsFrom hidden 0 (groups.flatMap Group.staged)) key ++ others := by
  rw [staged, lotsFrom_append, ReadoutGroups.answersOf_append]
  exact ⟨_, rfl⟩

variable (replays) in
/-- It is enough that each readout has the values of its own answers, with others after them. -/
lemma handed_exact {readouts : ℕ → List Row → Value} {handles : List (ℕ × ReadoutGroups.Submission Row)}
    (hsubmit : E.readouts.submit (built.1.finalIndices.map hidden) built.2 built.1.rowsPerAnswer = some handles)
    (hvalues : ∀ g ∈ groups, ∃ extra, E.readouts.results readouts handles (E.readouts.keyOf g.stage)
      = (E.readouts.answersOf (E.lotsFrom hidden 0 (E.staged groups replays)) (E.readouts.keyOf g.stage)).map
          (readouts g.stageOf.readout) ++ extra) (steps : List ℕ) :
    handed hidden readouts groups built steps = some ((ownValues hidden readouts groups).take steps.sum) := by
  rw [handed, hsubmit, Option.map_some, reports_eq_take]
  dsimp only
  rw [List.drop_zero, reportGroups_exact hidden
    (fun key => readouts (E.readouts.readoutOf.getD key 0)) groups 0]
  · simp only [keyOf_stage]
    rfl
  · intro g hg
    obtain ⟨extra, hextra⟩ := hvalues g hg
    obtain ⟨others, hothers⟩ := answersOf_staged hidden groups replays
      (E.readouts.keyOf g.stage)
    refine ⟨[], others.map (readouts g.stageOf.readout) ++ extra, ?_, rfl⟩
    rw [hextra, hothers, keyOf_stage, List.map_append, List.nil_append, List.append_assoc]

theorem exact_of_shared (hb : BuildOk groups replays built) (hs : ReadoutGroups.shared E.stages = true) :
    Exact groups built := by
  intro Row Value hidden readouts steps
  have hsubmit : E.readouts.submit (built.1.finalIndices.map hidden) built.2 built.1.rowsPerAnswer
      = some [(0, ⟨built.1.finalIndices.map hidden, built.1.rowsPerAnswer⟩)] :=
    if_pos (ReadoutGroups.sharedReadout_new.trans hs)
  have hkey (j : Fin E.stages.length) : E.readouts.keyOf j = 0 :=
    ReadoutGroups.keyOf_shared hs (List.getElem?_eq_getElem j.2)
  refine handed_exact replays hsubmit (fun g hg => ?_) steps
  obtain ⟨after, hafter⟩ := hb.normed hidden
  have hall : E.readouts.answersOf (E.lotsFrom hidden 0 (E.staged groups replays)) 0
      = (E.lotsFrom hidden 0 (E.staged groups replays)).flatMap Prod.snd := by
    refine ReadoutGroups.answersOf_all fun lot hlot => ?_
    obtain ⟨e, he, heq⟩ := mem_lotsFrom hlot
    rw [← heq]
    exact staged_keyOf (P := (· = 0)) hkey he
  have hcounts : (∃ more, built.1.rowsPerAnswer
        = some (((E.lotsFrom hidden 0 (E.staged groups replays)).flatMap Prod.snd).map List.length ++ more)) ∨
      built.1.rowsPerAnswer = none ∧
        ∀ answer ∈ (E.lotsFrom hidden 0 (E.staged groups replays)).flatMap Prod.snd, answer.length = 1 := by
    have hcounts := hb.counts
    rw [← hb.lengths hidden] at hcounts
    rcases hcounts with hcounts | ⟨hnone, hone⟩
    · exact Or.inl hcounts
    · exact Or.inr ⟨hnone, fun answer hanswer => hone _ (List.mem_map_of_mem hanswer)⟩
  obtain ⟨extra, hextra⟩ := ReadoutGroups.splitRows_append hcounts after
  refine ⟨extra.map (readouts g.stageOf.readout), ?_⟩
  have hreadout := keyOf_stage g
  rw [hkey] at hreadout ⊢
  rw [ReadoutGroups.results, List.lookup_cons_self]
  dsimp only
  rw [hreadout, hafter, hextra, hall, List.map_append]

/-! ## Several readouts -/

lemma rowlessFollowed_iff {items : List (ℕ × ℕ)} : RowlessFollowed items ↔
    Waiting.Together (0 < ·) items.tail ∧ ∀ last ∈ items.tail.getLast?, 0 < last.2 := by
  have hfrom : ∀ l : List (ℕ × ℕ), (∀ (i : ℕ) key, l[i]? = some (key, 0) → ∃ c, l[i + 1]? = some (key, c)) ↔
      Waiting.Together (0 < ·) l ∧ ∀ last ∈ l.getLast?, 0 < last.2 := by
    intro l
    induction l with
    | nil => simp [Waiting.Together]
    | cons item l ih =>
      have hsplit : (∀ (i : ℕ) key, (item :: l)[i]? = some (key, 0) → ∃ c, (item :: l)[i + 1]? = some (key, c)) ↔
          (item.2 = 0 → ∃ c, l[0]? = some (item.1, c)) ∧
          ∀ (i : ℕ) key, l[i]? = some (key, 0) → ∃ c, l[i + 1]? = some (key, c) := by
        constructor
        · intro h
          refine ⟨fun hzero => ?_, fun i key hi => ?_⟩
          · have hitem : item = (item.1, 0) := Prod.ext rfl hzero
            simpa using h 0 item.1 (congrArg some hitem)
          · simpa using h (i + 1) key (by simpa using hi)
        · rintro ⟨hhead, htail⟩ i key hi
          cases i with
          | zero =>
            obtain rfl : item = (key, 0) := by simpa using hi
            simpa using hhead rfl
          | succ i => simpa using htail i key (by simpa using hi)
      rw [hsplit, ih]
      cases l with
      | nil => simp [Waiting.Together, Nat.pos_iff_ne_zero]
      | cons next l =>
        simp only [Waiting.Together, List.isChain_cons_cons, List.getElem?_cons_zero, Option.some.injEq,
          List.getLast?_cons_cons, Nat.pos_iff_ne_zero]
        constructor
        · rintro ⟨hhead, hchain, hlast⟩
          refine ⟨⟨?_, hchain⟩, hlast⟩
          by_cases hzero : item.2 = 0
          · obtain ⟨c, hc⟩ := hhead hzero
            exact Or.inr (by rw [hc])
          · exact Or.inl hzero
        · rintro ⟨⟨hhead, hchain⟩, hlast⟩
          refine ⟨fun hzero => ⟨next.2, ?_⟩, hchain, hlast⟩
          rw [hhead.resolve_left (not_not.2 hzero)]
  rw [← hfrom]
  constructor
  · intro h i key hi
    cases items with
    | nil => cases hi
    | cons item items => simpa using h (i + 1) key (Nat.succ_pos i) (by simpa using hi)
  · intro h i key hi hkey
    cases items with
    | nil => cases hkey
    | cons item items =>
      cases i with
      | zero => cases hi
      | succ i => simpa using h i key (by simpa using hkey)

lemma exists_lot (hidden : ℤ → Row) (row : ℕ) {l : List (ℕ × Spec)} {e : ℕ × Spec} (h : e ∈ l) :
    ∃ lot ∈ E.lotsFrom hidden row l, lot.1 = e.1 := by
  induction l generalizing row with
  | nil => cases h
  | cons e' l ih =>
    rcases List.mem_cons.1 h with rfl | h
    · exact ⟨_, List.mem_cons_self .., rfl⟩
    · obtain ⟨lot, hlot, heq⟩ := ih (row + e'.2.tokens E.canvas) h
      exact ⟨lot, List.mem_cons_of_mem _ hlot, heq⟩

lemma mem_staged (replays : List E.Replay) {g : E.Group} (hg : g ∈ groups) : (g.stage.1, g.spec) ∈ E.staged groups replays := by
  refine List.mem_append_left _ (List.mem_flatMap.2 ⟨g, hg, List.mem_map.2 ⟨g.spec, ?_, rfl⟩⟩)
  rw [Group.specs]
  split <;> simp

variable (replays) in
/-- A chunk with groups starts with an answer. -/
lemma lots_cons {g : E.Group} (hg : g ∈ groups) (hidden : ℤ → Row) :
    ∃ e lots, E.lotsFrom hidden 0 (E.staged groups replays) = e :: lots ∧ e.2 ≠ [] := by
  obtain ⟨first, rest, rfl⟩ := List.exists_cons_of_ne_nil (List.ne_nil_of_mem hg)
  have hne (spec : Spec) (hspec : (spec.answers E.canvas E.answerRow 0).length ≠ 0) :
      (spec.answers E.canvas E.answerRow 0).map (List.map hidden) ≠ [] := by
    intro h
    rw [List.map_eq_nil_iff] at h
    exact hspec (by rw [h]; rfl)
  have hlt := first.start_lt
  cases hf : first.separateFrame with
  | true =>
    simp only [staged, List.flatMap_cons, Group.staged, Group.specs, hf, if_true, List.map_cons, List.cons_append,
      lotsFrom]
    refine ⟨_, _, rfl, hne _ ?_⟩
    rw [length_frame_answers]
    exact one_ne_zero
  | false =>
    simp only [staged, List.flatMap_cons, Group.staged, Group.specs, hf, Bool.false_eq_true, if_false,
      List.map_cons, List.cons_append, lotsFrom]
    refine ⟨_, _, rfl, hne _ ?_⟩
    rw [length_spec_answers]
    omega

lemma keyOf_readAll (hs : ReadoutGroups.shared E.stages = false) (g : E.Group) :
    E.readouts.readAllOf.getD (E.readouts.keyOf g.stage) false = g.stageOf.readAllRows := by
  have hstage : E.stages[g.stage.1]? = some g.stageOf := List.getElem?_eq_getElem g.stage.2
  rw [List.getD_eq_getElem?_getD]
  rw [readouts, (ReadoutGroups.keyOf_new hstage).2 hs]
  rfl

variable (Value) in
/-- What a readout among several is called with. -/
lemma submit_separate (hb : BuildOk groups replays built) (hs : ReadoutGroups.shared E.stages = false)
    (hcounted : ∀ g ∈ groups, g.Counted) (hidden : ℤ → Row) : ∃ handles,
    E.readouts.submit (built.1.finalIndices.map hidden) built.2 built.1.rowsPerAnswer = some handles ∧
      ∀ (readouts : ℕ → List Row → Value), ∀ g ∈ groups,
        E.readouts.results readouts handles (E.readouts.keyOf g.stage)
          = (ReadoutGroups.splitRows (E.readouts.answersOf (E.lotsFrom hidden 0 (E.staged groups replays))
              (E.readouts.keyOf g.stage)).flatten
            (E.readouts.takes built.1.rowsPerAnswer
              (ReadoutGroups.entriesOf (E.lotsFrom hidden 0 (E.staged groups replays)))
              (E.readouts.keyOf g.stage))).map (readouts g.stageOf.readout) := by
  obtain ⟨after, hafter⟩ := hb.normed hidden
  have hentries : built.2 = ReadoutGroups.entriesOf (E.lotsFrom hidden 0 (E.staged groups replays)) := by
    rw [hb.entries, entries_eq hcounted, entriesOf_lots hb.laid]
  have hkeys : ∀ lot ∈ E.lotsFrom hidden 0 (E.staged groups replays),
      E.readouts.keyOf lot.1 < E.readouts.readoutOf.length := by
    intro lot hlot
    obtain ⟨e, he, heq⟩ := mem_lotsFrom hlot
    rw [← heq]
    refine staged_keyOf (P := (· < E.readouts.readoutOf.length)) (fun j => ?_) he
    exact (List.getElem?_eq_some_iff.1 (ReadoutGroups.keyOf_new (List.getElem?_eq_getElem j.2)).1).1
  have hshared : E.readouts.sharedReadout = false := ReadoutGroups.sharedReadout_new.trans hs
  obtain ⟨handles, hsubmit, hresults⟩ : ∃ handles, _ ∧ _ := ReadoutGroups.submit_ok hshared hkeys after
  refine ⟨handles, by rw [hafter, hentries]; exact hsubmit, fun readouts g hg => ?_⟩
  obtain ⟨lot, hlot, heq⟩ := exists_lot hidden 0 (mem_staged replays hg)
  have hstage : lot.1 = g.stage.1 := heq
  have hresult := hresults readouts lot hlot
  rw [hstage, keyOf_stage] at hresult
  exact hresult

/-- A stage that reads one row a suffix calls its readout without row counts. -/
lemma takes_single (hs : ReadoutGroups.shared E.stages = false) {g : E.Group}
    (hall : g.stageOf.readAllRows = false) (rowsPerAnswer : Option (List ℕ)) (entries : List (ℕ × ℕ)) :
    E.readouts.takes rowsPerAnswer entries (E.readouts.keyOf g.stage) = none :=
  ReadoutGroups.takes_none (Or.inr ((keyOf_readAll hs g).trans hall))

lemma answerCounts_snd : (E.answerCounts groups replays).map Prod.snd
    = (E.staged groups replays).flatMap fun e => e.2.counts E.canvas := by
  rw [answerCounts, List.map_flatMap]
  simp [Function.comp_def]

/-- The row counts of a stage that reads every row: those that are handed over to its readout group. -/
lemma takes_all (hb : BuildOk groups replays built) (hs : ReadoutGroups.shared E.stages = false)
    {g : E.Group} (hg : g ∈ groups) (hall : g.stageOf.readAllRows = true) {more : List ℕ}
    (hrows : built.1.rowsPerAnswer
      = some (((E.staged groups replays).flatMap fun e => e.2.counts E.canvas) ++ more)) (hidden : ℤ → Row) :
    E.readouts.takes built.1.rowsPerAnswer
        (ReadoutGroups.entriesOf (E.lotsFrom hidden 0 (E.staged groups replays))) (E.readouts.keyOf g.stage)
      = some (Waiting.own ((E.answerCounts groups replays).take 1) (E.readouts.keyOf g.stage)
        ++ (Waiting.run (0 < ·) (E.answerCounts groups replays).tail).handed (E.readouts.keyOf g.stage)) := by
  obtain ⟨e, lots, hlots, he⟩ := lots_cons replays hg hidden
  obtain ⟨lot, hlot, heq⟩ := exists_lot hidden 0 (mem_staged replays hg)
  have hstage : lot.1 = g.stage.1 := heq
  have hcounts := hb.keyedCounts hidden
  rw [hlots] at hlot hcounts
  rw [hrows, ← answerCounts_snd, hlots, ← hcounts, ← hstage]
  refine ReadoutGroups.takes_eq he more hlot ?_
  rw [hstage, keyOf_readAll hs g, hall]

variable (replays) in
/-- The answers of a group with one row a suffix each, if its stages read no more. -/
lemma counts_single (hs : ReadoutGroups.shared E.stages = false)
    (hsingle : ∀ g ∈ groups, g.stageOf.readAllRows = false → g.Single) {g : E.Group}
    (hall : g.stageOf.readAllRows = false) :
    ∀ c ∈ Waiting.own (E.answerCounts groups replays) (E.readouts.keyOf g.stage), c = 1 := by
  intro c hc
  obtain ⟨item, hitem, rfl⟩ := List.mem_map.1 hc
  obtain ⟨hitem, hkey⟩ := List.mem_filter.1 hitem
  obtain ⟨e, he, hcount⟩ := List.mem_flatMap.1 hitem
  obtain ⟨c, hc, rfl⟩ := List.mem_map.1 hcount
  have hkey := of_decide_eq_true hkey
  dsimp only at hkey hc ⊢
  rw [staged, List.mem_append] at he
  rcases he with he | he
  · obtain ⟨g', hg', he⟩ := List.mem_flatMap.1 he
    obtain ⟨spec, hspec, rfl⟩ := List.mem_map.1 he
    dsimp only at hkey hc
    have hall' : g'.stageOf.readAllRows = false := by
      rw [← keyOf_readAll hs g', hkey, keyOf_readAll hs g, hall]
    have hown : ∀ c ∈ g'.spec.counts E.canvas, c = 1 := hsingle g' hg' hall'
    rw [Group.specs] at hspec
    split at hspec
    · rcases List.mem_pair.1 hspec with rfl | rfl
      · rw [frameSpec_counts] at hc
        exact List.mem_singleton.1 hc
      · exact hown c hc
    · obtain rfl := List.mem_singleton.1 hspec
      exact hown c hc
  · obtain ⟨r, -, rfl⟩ := List.mem_map.1 he
    dsimp only at hc
    rw [replay_counts] at hc
    split at hc
    · cases hc
    · exact List.mem_singleton.1 hc

theorem exact_of_separate (hb : BuildOk groups replays built) (hs : ReadoutGroups.shared E.stages = false)
    (hcounted : ∀ g ∈ groups, g.Counted)
    (hsingle : ∀ g ∈ groups, g.stageOf.readAllRows = false → g.Single)
    (hrowless : RowlessFollowed (E.answerCounts groups replays)) : Exact groups built := by
  intro Row Value hidden readouts steps
  obtain ⟨handles, hsubmit, hresults⟩ := submit_separate Value hb hs hcounted hidden
  refine handed_exact replays hsubmit (fun g hg => ?_) steps
  rw [hresults readouts g hg]
  have hown : Waiting.own (E.answerCounts groups replays) (E.readouts.keyOf g.stage)
      = (E.readouts.answersOf (E.lotsFrom hidden 0 (E.staged groups replays)) (E.readouts.keyOf g.stage)).map
        List.length := by
    rw [← hb.keyedCounts hidden, ReadoutGroups.own_keyedCounts]
  have htakes : (∃ more, E.readouts.takes built.1.rowsPerAnswer
        (ReadoutGroups.entriesOf (E.lotsFrom hidden 0 (E.staged groups replays))) (E.readouts.keyOf g.stage)
      = some ((E.readouts.answersOf (E.lotsFrom hidden 0 (E.staged groups replays))
          (E.readouts.keyOf g.stage)).map List.length ++ more)) ∨
      E.readouts.takes built.1.rowsPerAnswer
        (ReadoutGroups.entriesOf (E.lotsFrom hidden 0 (E.staged groups replays))) (E.readouts.keyOf g.stage) = none ∧
      ∀ answer ∈ E.readouts.answersOf (E.lotsFrom hidden 0 (E.staged groups replays)) (E.readouts.keyOf g.stage),
        answer.length = 1 := by
    cases hall : g.stageOf.readAllRows with
    | false =>
      refine Or.inr ⟨takes_single hs hall _ _, fun answer hanswer => ?_⟩
      refine counts_single replays hs hsingle hall _ ?_
      rw [hown]
      exact List.mem_map_of_mem hanswer
    | true =>
      rcases hb.counts with ⟨more, hrows⟩ | ⟨hnone, hone⟩
      · refine Or.inl ⟨[], ?_⟩
        obtain ⟨htogether, hlast⟩ := rowlessFollowed_iff.1 hrowless
        rw [takes_all hb hs hg hall hrows hidden, Waiting.handed_eq_own htogether hlast, ← Waiting.own_append,
          ← hown, List.append_nil]
        cases E.answerCounts groups replays <;> rfl
      · refine Or.inr ⟨by rw [hnone]; exact ReadoutGroups.takes_none (Or.inl rfl), fun answer hanswer => ?_⟩
        refine hone _ ?_
        rw [← answerCounts_snd]
        refine Waiting.mem_of_mem_own (k := E.readouts.keyOf g.stage) ?_
        rw [hown]
        exact List.mem_map_of_mem hanswer
  obtain ⟨extra, hextra⟩ := ReadoutGroups.splitRows_append htakes []
  rw [List.append_nil] at hextra
  exact ⟨extra.map (readouts g.stageOf.readout), by rw [hextra, List.map_append]⟩

/-! ### What the answers need -/

/-- The rows of each partner, counted. -/
lemma length_ownAnswers {row : ℕ} (h : Laid E row (groups.flatMap Group.staged)) :
    (ownAnswers row groups).map (List.map List.length) = groups.map Group.counts := by
  induction groups generalizing row with
  | nil => rfl
  | cons g groups ih =>
    rw [List.flatMap_cons, Group.staged, Group.specs] at h
    rw [ownAnswers, List.map_cons, List.map_cons]
    cases hf : g.separateFrame with
    | true =>
      rw [hf] at h
      obtain ⟨hown, hrest⟩ := laid_cons.1 (laid_cons.1 h).2
      exact congrArg₂ List.cons hown (ih hrest)
    | false =>
      rw [hf] at h
      obtain ⟨hown, hrest⟩ := laid_cons.1 h
      exact congrArg₂ List.cons hown (ih hrest)

lemma answerCounts_cons (g : E.Group) (groups : List E.Group) (key : ℕ) :
    Waiting.own (E.answerCounts (g :: groups) []) key
      = (if key = E.readouts.keyOf g.stage then (if g.separateFrame then [1] else []) ++ g.counts else [])
        ++ Waiting.own (E.answerCounts groups []) key := by
  have hcounts : E.answerCounts (g :: groups) [] = (g.staged.flatMap fun e => (e.2.counts E.canvas).map fun c =>
      (E.readouts.keyOf e.1, c)) ++ E.answerCounts groups [] := by
    simp [answerCounts, staged]
  have hmap (counts : List ℕ) : Waiting.own (counts.map fun c => (E.readouts.keyOf g.stage, c)) key
      = if key = E.readouts.keyOf g.stage then counts else [] := by
    by_cases hk : E.readouts.keyOf g.stage = key
    · simp [Waiting.own, hk, List.filter_map, Function.comp_def]
    · simp [Waiting.own, hk, Ne.symm hk, List.filter_map, Function.comp_def]
  have hone := hmap [1]
  rw [List.map_singleton] at hone
  rw [hcounts, Waiting.own_append, Group.staged, Group.specs]
  congr 1
  cases g.separateFrame with
  | true =>
    simp only [if_true, List.map_cons, List.map_nil, List.flatMap_cons, List.flatMap_nil, List.append_nil,
      Waiting.own_append, hmap, frameSpec_counts, hone]
    split <;> rfl
  | false =>
    simp only [Bool.false_eq_true, if_false, List.map_cons, List.map_nil, List.flatMap_cons, List.flatMap_nil,
      List.append_nil, hmap, List.nil_append]
    rfl

/-- Groups that are handed as many rows for each partner as it has are handed what their readouts have at
the place of the partner. -/
lemma reported_counts {values : ℕ → List ℕ} {position : ℕ → ℕ}
    (h : (reportGroups values position groups).1 = groups.map Group.counts) {key p : ℕ}
    (hp : (Waiting.own (E.answerCounts groups []) key)[p]? = some 0) :
    (values key)[position key + p]? = some 0 := by
  induction groups generalizing position p with
  | nil => simp [answerCounts, staged, Waiting.own] at hp
  | cons g groups ih =>
    rw [reportGroups, reportGroup_eq, List.map_cons] at h
    obtain ⟨hhead, htail⟩ := List.cons.inj h
    rw [answerCounts_cons] at hp
    by_cases hk : key = E.readouts.keyOf g.stage
    · rw [if_pos hk, List.append_assoc] at hp
      subst hk
      have hlen := length_counts (g := g)
      have hframe : (if g.separateFrame then [1] else []).length = if g.separateFrame then 1 else 0 := by
        split <;> rfl
      generalize hfr : (if g.separateFrame then 1 else 0) = frame at hframe hhead htail
      rcases Nat.lt_or_ge p frame with hlt | hge
      · -- The frame's answer takes one row.
        rw [List.getElem?_append_left (by omega)] at hp
        split at hp
        · simp [List.getElem?_singleton] at hp
        · simp at hp
      · rw [List.getElem?_append_right (by omega), hframe] at hp
        rcases Nat.lt_or_ge (p - frame) (g.stop - g.start) with hlt | hge'
        · rw [List.getElem?_append_left (by omega), ← hhead, List.getElem?_take_of_lt hlt,
            List.getElem?_drop] at hp
          rwa [Nat.add_assoc, Nat.add_sub_cancel' hge] at hp
        · rw [List.getElem?_append_right (by omega), hlen] at hp
          have hrest := ih htail hp
          dsimp only at hrest
          rw [Function.update_self] at hrest
          have hsum : position (E.readouts.keyOf g.stage) + frame + (g.stop - g.start)
              + (p - frame - (g.stop - g.start)) = position (E.readouts.keyOf g.stage) + p := by omega
          rwa [hsum] at hrest
    · rw [if_neg hk, List.nil_append] at hp
      have hrest := ih htail hp
      dsimp only at hrest
      rwa [Function.update_of_ne hk] at hrest

/-- What a group is handed is among its readout's values. -/
lemma mem_reported {values : ℕ → List ℕ} {position : ℕ → ℕ}
    (h : (reportGroups values position groups).1 = groups.map Group.counts) {g : E.Group} (hg : g ∈ groups)
    {c : ℕ} (hc : c ∈ g.counts) : c ∈ values (E.readouts.keyOf g.stage) := by
  induction groups generalizing position with
  | nil => cases hg
  | cons first groups ih =>
    rw [reportGroups, reportGroup_eq, List.map_cons] at h
    obtain ⟨hhead, htail⟩ := List.cons.inj h
    rcases List.mem_cons.1 hg with rfl | hg
    · rw [← hhead] at hc
      exact List.mem_of_mem_drop (List.mem_of_mem_take hc)
    · exact ih htail hg

/-- A readout that counts the rows that it is called with for each answer counts those of a group's
partners, if the groups are handed their own values. -/
lemma reported_lengths (hb : BuildOk groups replays built) (hs : ReadoutGroups.shared E.stages = false)
    (hcounted : ∀ g ∈ groups, g.Counted) (hexact : Exact groups built) : ∃ values : ℕ → List ℕ,
    (reportGroups values (fun _ => 0) groups).1 = groups.map Group.counts ∧
      ∀ g ∈ groups, values (E.readouts.keyOf g.stage)
        = (ReadoutGroups.splitRows
            (E.readouts.answersOf (E.lotsFrom (fun _ => ()) 0 (E.staged groups replays))
              (E.readouts.keyOf g.stage)).flatten
            (E.readouts.takes built.1.rowsPerAnswer
              (ReadoutGroups.entriesOf (E.lotsFrom (fun _ => ()) 0 (E.staged groups replays)))
              (E.readouts.keyOf g.stage))).map List.length := by
  obtain ⟨handles, hsubmit, hresults⟩ := submit_separate ℕ hb hs hcounted fun _ => ()
  refine ⟨E.readouts.results (fun _ => List.length) handles, ?_, fun g hg => hresults _ g hg⟩
  have hlaid : Laid E 0 (groups.flatMap Group.staged) := (laid_append.1 hb.laid).1
  have hown : ownValues (fun _ => ()) (fun _ => List.length) groups = groups.map Group.counts := by
    rw [← length_ownAnswers hlaid, ownValues]
    have hlen : (ownAnswers 0 groups).length = groups.length := by
      have h := congrArg List.length (length_ownAnswers hlaid)
      rwa [List.length_map, List.length_map] at h
    have hzip : List.zipWith (fun _ lengths => lengths) groups
        ((ownAnswers 0 groups).map (List.map List.length)) = _ := zipWith_snd (by rw [List.length_map, hlen])
    rw [List.zipWith_map_right] at hzip
    simp only [List.length_map]
    exact hzip
  have hhanded := hexact Unit ℕ (fun _ => ()) (fun _ => List.length) [groups.length]
  rw [handed, hsubmit, Option.map_some, reports_eq_take, hown] at hhanded
  have hall := Option.some.inj hhanded
  dsimp only at hall
  rw [List.drop_zero, List.sum_singleton, List.take_of_length_le (by rw [length_reportGroups]),
    List.take_of_length_le (by rw [List.length_map])] at hall
  exact hall

/-- Rows split one by one. -/
lemma length_splitRows_none (rows : List Row) :
    ∀ c ∈ (ReadoutGroups.splitRows rows none).map List.length, c = 1 := by
  have hsplit : (ReadoutGroups.splitRows rows none).map List.length = List.replicate rows.length 1 := by
    rw [ReadoutGroups.splitRows, Option.getD_none]
    exact List.map_splitLengths_length _ _ (by simp)
  intro c hc
  rw [hsplit] at hc
  exact List.eq_of_mem_replicate hc

lemma single_of_exact (hb : BuildOk groups replays built) (hs : ReadoutGroups.shared E.stages = false)
    (hcounted : ∀ g ∈ groups, g.Counted) (hexact : Exact groups built) {g : E.Group} (hg : g ∈ groups)
    (hall : g.stageOf.readAllRows = false) : g.Single := by
  obtain ⟨values, hreport, hvalues⟩ := reported_lengths hb hs hcounted hexact
  intro c hc
  have hmem := mem_reported hreport hg hc
  rw [hvalues g hg, takes_single hs hall] at hmem
  exact length_splitRows_none _ c hmem

/-- Answers without rows are groups' answers: a replay has one row read, or none. -/
lemma own_replays (p : ℕ) (key : ℕ) (h : (Waiting.own (E.answerCounts groups replays) key)[p]? = some 0) :
    (Waiting.own (E.answerCounts groups []) key)[p]? = some 0 := by
  have hsplit : E.answerCounts groups replays = E.answerCounts groups []
      ++ (replays.map fun r => (r.stage.1, r.spec)).flatMap fun e => (e.2.counts E.canvas).map fun c =>
        (E.readouts.keyOf e.1, c) := by
    simp [answerCounts, staged]
  rw [hsplit, Waiting.own_append] at h
  rcases Nat.lt_or_ge p (Waiting.own (E.answerCounts groups []) key).length with hlt | hge
  · rwa [List.getElem?_append_left hlt] at h
  · rw [List.getElem?_append_right hge] at h
    have hzero := Waiting.mem_of_mem_own (List.mem_of_getElem? h)
    obtain ⟨item, hitem, hsnd⟩ := List.mem_map.1 hzero
    obtain ⟨e, he, hcount⟩ := List.mem_flatMap.1 hitem
    obtain ⟨r, -, rfl⟩ := List.mem_map.1 he
    obtain ⟨c, hc, rfl⟩ := List.mem_map.1 hcount
    dsimp only at hc hsnd
    rw [replay_counts] at hc
    split at hc
    · cases hc
    · rw [List.mem_singleton] at hc
      omega

/-- A key with answers is a group's. -/
lemma own_group {key p c : ℕ} (h : (Waiting.own (E.answerCounts groups []) key)[p]? = some c) :
    ∃ g ∈ groups, E.readouts.keyOf g.stage = key := by
  obtain ⟨item, hitem, -⟩ := List.mem_map.1 (List.mem_of_getElem? h)
  obtain ⟨hitem, hkey⟩ := List.mem_filter.1 hitem
  obtain ⟨e, he, hcount⟩ := List.mem_flatMap.1 hitem
  obtain ⟨c, -, rfl⟩ := List.mem_map.1 hcount
  rw [staged, List.map_nil, List.append_nil] at he
  obtain ⟨g, hg, he⟩ := List.mem_flatMap.1 he
  obtain ⟨spec, -, rfl⟩ := List.mem_map.1 he
  exact ⟨g, hg, of_decide_eq_true hkey⟩

lemma own_first (items : List (ℕ × ℕ)) (key : ℕ) :
    Waiting.own items key = Waiting.own (items.take 1) key ++ Waiting.own items.tail key := by
  rw [← Waiting.own_append]
  cases items <;> rfl

/-- A key is handed row counts that sum to those of its own answers. -/
lemma sum_handed (items : List (ℕ × ℕ)) (key : ℕ) :
    (Waiting.own (items.take 1) key ++ (Waiting.run (0 < ·) items.tail).handed key).sum
      = (Waiting.own items key).sum := by
  have hpos : ∀ l : List ℕ, (l.filter fun x => decide (0 < x)).sum = l.sum := by
    intro l
    induction l with
    | nil => rfl
    | cons x l ih =>
      rcases Nat.eq_zero_or_pos x with rfl | hx
      · simp [ih]
      · simp [hx, ih]
  rw [own_first items key, List.sum_append, List.sum_append, ← hpos (Waiting.own items.tail key),
    ← Waiting.filter_stop, hpos]

lemma rowlessFollowed_of_exact (hb : BuildOk groups replays built)
    (hs : ReadoutGroups.shared E.stages = false) (hcounted : ∀ g ∈ groups, g.Counted)
    (hexact : Exact groups built) : RowlessFollowed (E.answerCounts groups replays) := by
  rcases hb.counts with ⟨more, hrows⟩ | ⟨-, hone⟩
  · obtain ⟨values, hreport, hvalues⟩ := reported_lengths hb hs hcounted hexact
    refine rowlessFollowed_iff.2 (Waiting.together_of_handed fun key p x hx hstop => ?_)
    obtain rfl : x = 0 := Nat.eq_zero_of_not_pos hstop
    -- The answer's place among all of its key's.
    set items := E.answerCounts groups replays with hitems
    have hplace : (Waiting.own items key)[(Waiting.own (items.take 1) key).length + p]? = some 0 := by
      rw [own_first, List.getElem?_append_right (Nat.le_add_right ..), Nat.add_sub_cancel_left, hx]
    have hgroups := own_replays _ key hplace
    obtain ⟨g, hg, rfl⟩ := own_group hgroups
    have hvalue := reported_counts hreport hgroups
    rw [Nat.zero_add, hvalues g hg] at hvalue
    cases hall : g.stageOf.readAllRows with
    | false =>
      rw [takes_single hs hall] at hvalue
      exact absurd (length_splitRows_none _ 0 (List.mem_of_getElem? hvalue)) Nat.zero_ne_one
    | true =>
      have hown := congrArg (fun counts => (Waiting.own counts (E.readouts.keyOf g.stage)).sum)
        (hb.keyedCounts fun _ => ())
      rw [ReadoutGroups.own_keyedCounts, ← List.length_flatten, ← hitems, ← sum_handed] at hown
      rw [takes_all hb hs hg hall hrows fun _ => (), ReadoutGroups.splitRows, Option.getD_some,
        List.map_splitLengths_length _ _ hown.ge, List.getElem?_append_right (Nat.le_add_right ..),
        Nat.add_sub_cancel_left] at hvalue
      exact ⟨0, hvalue, lt_irrefl 0⟩
  · intro i key _ hi
    have hmem := List.mem_map_of_mem (f := Prod.snd) (List.mem_of_getElem? hi)
    rw [answerCounts_snd] at hmem
    exact absurd (hone 0 hmem) Nat.zero_ne_one

/-! ### The answers that are right -/

variable (groups replays) in
/-- What makes the answers right: one readout for every stage, or else row counts as they are packed, one
row for each partner of a stage that does not read every row, and no answer without rows that waits for
another readout's. -/
def Handled : Prop := ReadoutGroups.shared E.stages = true ∨
  (∀ g ∈ groups, g.Counted) ∧ (∀ g ∈ groups, g.stageOf.readAllRows = false → g.Single) ∧
    RowlessFollowed (E.answerCounts groups replays)

/-- Each group of a chunk is handed its own values if the chunk is `Handled`; and only if, where the rows are
noted as they are packed. -/
theorem report_exact_iff (h : build groups replays answerReplays decode = .ok built) :
    (Handled groups replays → Exact groups built) ∧
      ((∀ g ∈ groups, g.Counted) → (Exact groups built ↔ Handled groups replays)) := by
  have hb := build_ok h
  have hright : Handled groups replays → Exact groups built := by
    rintro (hs | ⟨hcounted, hsingle, hrowless⟩)
    · exact exact_of_shared hb hs
    · cases hs : ReadoutGroups.shared E.stages with
      | true => exact exact_of_shared hb hs
      | false => exact exact_of_separate hb hs hcounted hsingle hrowless
  refine ⟨hright, fun hcounted => ⟨fun hexact => ?_, hright⟩⟩
  cases hs : ReadoutGroups.shared E.stages with
  | true => exact Or.inl hs
  | false =>
    refine Or.inr ⟨hcounted, fun g hg hall => ?_, rowlessFollowed_of_exact hb hs hcounted hexact⟩
    exact single_of_exact hb hs hcounted hexact hg hall

end Chunks

/-! ### Two readouts -/

/-- Two stages that read rows of their own, each through its own readout. -/
def twoReadouts : Executor where
  stages := [
    { readout := 0, suffixes := [3, 2], readAllRows := true, readRows := some [1, 0] },
    { readout := 1, suffixes := [1], readAllRows := true }]

/-- The first stage's two partners, the second of which has no rows read. -/
def firstGroup : twoReadouts.Group where
  anchor := 0
  stage := ⟨0, Nat.zero_lt_two⟩
  start := 0
  stop := 2
  indices := [0, 1]
  prefixTokens := some 4
  length_indices := rfl
  start_lt := Nat.zero_lt_two

def secondGroup : twoReadouts.Group where
  anchor := 0
  stage := ⟨1, Nat.one_lt_two⟩
  start := 0
  stop := 1
  indices := [0]
  length_indices := rfl
  start_lt := Nat.zero_lt_one

/-- The chunk reads row 6 for the first partner, none for the second, and row 9 for the other group. -/
def twoBuilt : Chunk × List (ℕ × ℕ) :=
  (⟨10, [6, 9], some [1, 0, 1]⟩, [(0, 1), (1, 1)])

lemma build_two : build [firstGroup, secondGroup] [] [] 0 = .ok twoBuilt := by
  rfl

/-- The first group is handed one value for its two partners, and the second the value of no rows. -/
theorem report_not_exact : build [firstGroup, secondGroup] [] [] 0 = .ok twoBuilt ∧
    handed id (fun _ rows => rows) [firstGroup, secondGroup] twoBuilt [2] = some [[[6]], [[]]] ∧
    ownValues id (fun _ rows => rows) [firstGroup, secondGroup] = [[[6], []], [[9]]] ∧
    ¬Exact [firstGroup, secondGroup] twoBuilt := by
  have hhanded : handed id (fun _ rows => rows) [firstGroup, secondGroup] twoBuilt [2] = some [[[6]], [[]]] := by
    rfl
  have hown : ownValues id (fun _ rows => rows) [firstGroup, secondGroup] = [[[6], []], [[9]]] := by
    rfl
  refine ⟨build_two, hhanded, hown, fun hexact => ?_⟩
  have h := hexact ℤ (List ℤ) id (fun _ rows => rows) [2]
  rw [hhanded, hown] at h
  simp at h

/-- The second group alone is handed its value. -/
theorem report_exact_second : Exact [secondGroup] (⟨1, [0], some [1]⟩, [(1, 1)]) := by
  have hbuild : build [secondGroup] [] [] 0 = .ok (⟨1, [0], some [1]⟩, [(1, 1)]) := rfl
  refine (report_exact_iff hbuild).1 (Or.inr ⟨?_, ?_, ?_⟩)
  · intro g hg
    obtain rfl := List.mem_singleton.1 hg
    rfl
  · intro g hg hall
    obtain rfl := List.mem_singleton.1 hg
    cases hall
  · intro i key hi hkey
    cases i with
    | zero => cases hi
    | succ i => cases hkey

end Executor

end Quail.Readout
