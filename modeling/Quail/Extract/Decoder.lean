import Quail.Extract.Blocks
import Quail.Extract.Constraint

/-!
# A batch of copy drafts

The decoder's part in verification: a block gathers the columns of its answers, as wide as its widest answer
and with the live columns first where fewer are needed, verifies the drafts some positions at a time, and
scatters the columns back. `constrain` does this for each block of a batch.
-/

namespace Quail.Extract

/-- The columns that a group of fields keeps of one answer. -/
structure Columns where
  streams : ℕ → Option Stream
  alive : ℕ → Bool
  width : ℕ
  source : Option Stream

/-- The columns of the answers of a group of fields, by slot. -/
abbrev Group := ℕ → Columns

/-- The rows of a pass: the slots with a draft, how many rows each has, the answer index of the first (the
others follow it), their readouts, and what the decoder keeps of the slots. -/
structure Batch (α : Type) where
  slots : List ℕ
  counts : ℕ → ℕ
  indices : ℕ → ℕ
  projected : ℕ → ℕ → Readout α
  copyDocument : ℕ → ℕ
  limits : ℕ → ℕ
  numStreams : ℕ → ℕ
  nodup : slots.Nodup
  counts_pos : ∀ s, 0 < counts s

/-- What a pass sends to the host, by slot and row, with the columns it leaves. -/
structure Constrained where
  out : ℕ → List (Option Value)
  group : Group

namespace CopyConstraint

variable {α : Type} [LinearOrder α] (c : CopyConstraint)

/-- The columns an answer needs: all it has before its first token, then as many as streams are alive. -/
def numStreams (group : Group) (batch : Batch α) (slot : ℕ) : ℕ :=
  max 1 (if batch.indices slot = 0 then (group slot).width else batch.numStreams slot)

/-- A position of an answer's draft. One past the draft's end has index 1. -/
def draftStep (batch : Batch α) (slot j : ℕ) : DraftStep α :=
  { projected := batch.projected slot j
    at' := if j < batch.counts slot then batch.indices slot + j else 1
    valid := decide (j < batch.counts slot) }

/-- The columns a block gathers of an answer. -/
def gather (columns : Columns) (streamWidth numStreams : ℕ) : Row :=
  let row : Row :=
    { width := streamWidth, streams := columns.streams, alive := columns.alive
      source := columns.source, active := true }
  if numStreams < streamWidth then compact row numStreams else row

/-- The positions a block verifies at a time, each range with its end (`range(0, count, numSteps)`). -/
def ranges (count numSteps : ℕ) : List (ℕ × ℕ) :=
  (List.range ((count + numSteps - 1) / numSteps)).map fun i => (i * numSteps, min (i * numSteps + numSteps) count)

/-- Verify an answer range after range. Its rows past its own draft come back too, as -2. -/
def verifyRanges (batch : Batch α) (slots : List ℕ) (slot : ℕ) (row : Row) (ranges : List (ℕ × ℕ)) :
    List (Option Value) × Row :=
  ranges.foldl (fun r range =>
    -- Whether a row of the block is at its first token.
    let first := slots.any fun s =>
      (draftStep batch s range.1).valid && decide ((draftStep batch s range.1).at' = 0)
    let v := c.verify r.2 (fun j => draftStep batch slot (range.1 + j)) (range.2 - range.1)
      (batch.copyDocument slot) (batch.limits slot) first
    (r.1 ++ v.1, v.2)) ([], row)

/-- Scatter an answer's columns back. -/
def scatter (columns : Columns) (streamWidth numStreams : ℕ) (row : Row) : Columns :=
  { streams := fun column => if column < numStreams then row.streams column else columns.streams column
    alive := fun column =>
      if column < numStreams then row.alive column
      else if column < streamWidth then false else columns.alive column
    width := numStreams
    source := row.source }

/-- Verify the drafts of a block (`_constrain_block`). -/
def constrainBlock (batch : Batch α) (slots : List ℕ) (streamWidth numStreams numSteps : ℕ) (r : Constrained) :
    Constrained :=
  let verified := fun slot => c.verifyRanges batch slots slot (gather (r.group slot) streamWidth numStreams)
    (ranges (largest batch.counts slots) numSteps)
  { out := fun slot => if slot ∈ slots then (verified slot).1.take (batch.counts slot) else r.out slot
    group := fun slot =>
      if slot ∈ slots then scatter (r.group slot) streamWidth numStreams (verified slot).2 else r.group slot }

/-- Verify the drafts of a batch, block after block (`_constrain`); a block is its slots and how many
positions it verifies at a time. -/
def constrain (group : Group) (batch : Batch α) (blocks : List (List ℕ × ℕ)) : Constrained :=
  blocks.foldl (fun r block => c.constrainBlock batch block.1 (largest (fun slot => (group slot).width) block.1)
    (largest (numStreams group batch) block.1) block.2 r) ⟨fun _ => [], group⟩

/-- The sizes of a batch's answers, by their index in the batch. -/
def sizes (group : Group) (batch : Batch α) (row : ℕ) : Size :=
  let slot := batch.slots.getD row 0
  ⟨batch.counts slot, (group slot).width, numStreams group batch slot, batch.counts_pos slot⟩

/-- Verify the drafts of a batch in blocks within the workspace. -/
def constrainBatch (w : Workspace) (group : Group) (batch : Batch α) : Except String Constrained :=
  (w.verificationBlocks (sizes group batch) batch.slots.length).map fun blocks =>
    c.constrain group batch (blocks.map fun b => (b.rows.map fun row => batch.slots.getD row 0, b.steps))

end CopyConstraint
end Quail.Extract
