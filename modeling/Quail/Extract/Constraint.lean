import Mathlib.Order.WithBot
import Mathlib.Data.List.Range
import Mathlib.Algebra.Order.Monoid.Unbundled.WithTop

/-!
# The copy constraint

An answer copied from a document is held as the document positions it may still be a copy of, its streams.
`CopyConstraint` has the tables that give a stream's tokens; `choose` picks the next token of one answer from
a readout, and `verify` checks an answer's draft, position after position. Each tensor operation of the
source works on the rows of a batch separately, so that the functions here are about one row; what a batch
shares between its rows is an argument (`first`, the width of the row).
-/

namespace Quail.Extract

/-- A document position with the option its first token is written as. The source keeps
`position * STREAM_STRIDE + option`, and -1 where a column holds none. -/
structure Stream where
  position : ℕ
  option : ℕ
deriving DecidableEq, Repr

/-- The position of a column's stream, that of stream 0 for none. -/
def position (stream : Option Stream) : ℕ := stream.elim 0 Stream.position

/-- A projected row: the score of stopping, and the tokens with the highest scores, the highest first. -/
structure Readout (α : Type) where
  stop : α
  top : ℕ × α
  others : List (ℕ × α)

/-- A token's score, -inf where the readout does not have it. -/
def Readout.scores {α : Type} (projected : Readout α) (token : ℕ) : WithBot α :=
  ((projected.top :: projected.others).find? fun t => t.1 = token).elim ⊥ fun t => ↑t.2

/-- The columns of one answer, the stream its draft is written from, and whether its draft still stands. -/
structure Row where
  width : ℕ
  streams : ℕ → Option Stream
  alive : ℕ → Bool
  source : Option Stream
  active : Bool

/-- The streams that are alive, in document order. -/
def Row.live (row : Row) : List (Option Stream) := ((List.range row.width).filter row.alive).map row.streams

/-- One position of a draft: its readout, its index in the answer, and whether the draft is that long. -/
structure DraftStep (α : Type) where
  projected : Readout α
  at' : ℕ
  valid : Bool

/-- What is sent to the host for one position that counts: the token, none where the answer ends, the
earliest stream alive, how many are, and whether the draft had the token. -/
structure Value where
  token : Option ℕ
  source : Option Stream
  numStreams : ℕ
  hit : Bool
deriving DecidableEq, Repr

/-- A choice for one row. -/
structure Choice where
  streams : ℕ → Option Stream
  chosen : Option ℕ
  ended : Bool
  keep : ℕ → Bool

/-- The tables of a pipeline's documents. -/
structure CopyConstraint where
  numKeys : ℕ
  numOptions : ℕ
  maxPositions : ℕ
  positionOffsets : ℕ → ℕ
  characters : ℕ → ℕ
  keyIds : ℕ → ℕ
  documentKeyStarts : ℕ → ℕ
  documentKeyEnds : ℕ → ℕ
  keyOptionStarts : ℕ → ℕ
  keyOptionCounts : ℕ → ℕ
  firstTokens : ℕ → ℕ
  fillerRows : ℕ → Option ℕ
  fillers : ℕ → List ℕ
  positionRows : ℕ → Option ℕ
  continuations : ℕ → List ℕ
  isStop : ℕ → Bool
  max_positions_pos : 0 < maxPositions
  positions_le : ∀ document, positionOffsets (document + 1) - positionOffsets document ≤ maxPositions
  keyIds_lt : ∀ p, keyIds p < numKeys
  keys_used : ∀ document key, key < documentKeyEnds document - documentKeyStarts document →
    ∃ p, positionOffsets document ≤ p ∧ p < positionOffsets (document + 1) ∧ keyIds p = key

namespace CopyConstraint

variable {α : Type} [LinearOrder α] (c : CopyConstraint)

/-- The streams of a document before its first token. -/
def streamIds (document column : ℕ) : Option Stream :=
  if column < c.positionOffsets (document + 1) - c.positionOffsets document then
    some ⟨c.positionOffsets document + column, 0⟩
  else none

/-- A stream's token at an answer index, or none past its end. A row that is not prepared is row 0. -/
def tokensAt (stream : Option Stream) (at' : ℕ) : Option ℕ :=
  stream.bind fun s =>
    let filler := c.fillers ((c.fillerRows s.option).getD 0)
    if at' = 0 then some (c.firstTokens s.option)
    else if at' ≤ filler.length then filler[at' - 1]?
    else (c.continuations ((c.positionRows s.position).getD 0))[at' - filler.length - 1]?

/-- A document's options, each with its key's index in the document. -/
def documentOptions (document : ℕ) : List (ℕ × ℕ) :=
  (List.range (c.documentKeyEnds document - c.documentKeyStarts document)).flatMap fun key =>
    (List.range (c.keyOptionCounts (c.documentKeyStarts document + key))).map fun i =>
      (c.keyOptionStarts (c.documentKeyStarts document + key) + i, key)

/-- The options of one key. -/
def keyOptions (document key : ℕ) : List ℕ :=
  ((c.documentOptions document).filter fun o => o.2 = key).map Prod.fst

/-- The highest score of a key's options. -/
def maxima (projected : Readout α) (document key : ℕ) : WithBot α :=
  ((c.keyOptions document key).map fun o => projected.scores (c.firstTokens o)).foldr max ⊥

/-- The first of a key's options with its highest score. -/
def bestOption (projected : Readout α) (document key : ℕ) : ℕ :=
  min (((c.keyOptions document key).filter fun o =>
    projected.scores (c.firstTokens o) = c.maxima projected document key).min?.getD c.numOptions)
    (c.numOptions - 1)

/-- The first key whose highest score is the highest. -/
def firstKey (projected : Readout α) (document : ℕ) : ℕ :=
  ((List.range c.numKeys).find? fun key => (List.range c.numKeys).all fun other =>
    c.maxima projected document other ≤ c.maxima projected document key).getD 0

/-- The token that begins an answer. -/
def firstToken (projected : Readout α) (document : ℕ) : ℕ :=
  c.firstTokens (c.bestOption projected document (c.firstKey projected document))

/-- A stream with the option that its key's first token is written as. -/
def initial (projected : Readout α) (document : ℕ) (stream : Option Stream) : Option Stream :=
  stream.map fun s => ⟨s.position, c.bestOption projected document (c.keyIds s.position)⟩

/-- The highest score of the tokens, -inf for none. -/
def best (projected : Readout α) (allowed : List ℕ) : WithBot α := (allowed.map projected.scores).foldr max ⊥

/-- The first token with the highest score. No finite candidate ends the answer. -/
def following (projected : Readout α) (allowed : List ℕ) : Option ℕ :=
  if best projected allowed = ⊥ then none
  else (allowed.filter fun t => projected.scores t = best projected allowed).min?

/-- Whether the answer ends: a token outside the document is likelier than any allowed one and than a stop,
or the stop is likelier. -/
def ends (projected : Readout α) (allowed : List ℕ) (at' : ℕ) : Bool :=
  (decide (max (best projected allowed) ↑projected.stop < ↑projected.top.2) &&
      !decide (projected.top.1 ∈ allowed) && !c.isStop projected.top.1) ||
    (if at' = 0 then decide (best projected allowed < ↑projected.stop)
      else decide (best projected allowed ≤ ↑projected.stop)) ||
    (decide (0 < at') && allowed.isEmpty)

/-- Choose an allowed token, stopping before a token leaves the document (`_choose`). The streams come back
with the options of a first token. -/
def choose (projected : Readout α) (row : Row) (at' document : ℕ) (first : Bool) : Choice :=
  let begins := first && decide (at' = 0)
  let streams := fun column =>
    if begins then c.initial projected document (row.streams column) else row.streams column
  let possible := fun column =>
    row.alive column && (!begins ||
      decide (c.maxima projected document (c.keyIds (position (row.streams column))) ≠ ⊥))
  -- The tokens of the columns that are allowed; the others have the score -inf.
  let allowed := (List.range row.width).filterMap fun column =>
    if possible column then c.tokensAt (streams column) at' else none
  let chosen := if begins then some (c.firstToken projected document) else following projected allowed
  { streams, chosen
    ended := c.ends projected allowed at'
    keep := fun column => possible column && (c.tokensAt (streams column) at').isSome &&
      decide (c.tokensAt (streams column) at' = chosen) }

/-- The character a column's stream starts at, past all where it is not alive. -/
def chars (row : Row) (column : ℕ) : WithTop ℕ :=
  if row.alive column then ↑(c.characters (position (row.streams column))) else ⊤

/-- The first column whose stream starts first. -/
def firstColumn (row : Row) : ℕ :=
  ((List.range row.width).find? fun column =>
    (List.range row.width).all fun other => c.chars row column ≤ c.chars row other).getD 0

/-- The first surviving position in document order (`source`). -/
def earliest (row : Row) : Option Stream := row.streams (c.firstColumn row)

/-- Live columns first, preserving their order. -/
def compact (row : Row) (numStreams : ℕ) : Row :=
  let order := (List.range row.width).filter row.alive ++ (List.range row.width).filter fun col => !row.alive col
  { row with
    width := numStreams
    streams := fun column => row.streams (order.getD column 0)
    alive := fun column => row.alive (order.getD column 0) }

/-- Check the positions of a draft after the first, all at once against the streams that have the draft's
earlier tokens (`_verify_tail`). -/
def verifyTail (row : Row) (steps : ℕ → DraftStep α) (numSteps document limit : ℕ) :
    List (Option Value) × Row :=
  let drafted := fun j => c.tokensAt row.source (steps j).at'
  let isMatch := fun j column => decide (c.tokensAt (row.streams column) (steps j).at' = drafted j)
  let before := fun j => { row with
    alive := fun column => row.alive column && (List.range j).all fun i => isMatch i column }
  let choice := fun j => c.choose (steps j).projected (before j) (steps j).at' document false
  let hit := fun j => decide ((choice j).chosen = drafted j)
  let continues := fun j =>
    (steps j).valid && !(choice j).ended && hit j && decide ((steps j).at' + 1 < limit)
  let use := fun j => row.active && (List.range j).all continues && (steps j).valid
  let after := fun j => if (choice j).ended then before j else { row with alive := (choice j).keep }
  -- Rejected and terminal choices update the state once; later rows do not.
  let final := if use 0 then after ((List.range numSteps).countP use - 1) else row
  let values := (List.range numSteps).map fun j =>
    if use j then
      some ⟨if (choice j).ended then none else (choice j).chosen, c.earliest (after j),
        (List.range row.width).countP (after j).alive, hit j⟩
    else none
  (values, { final with
    source := c.earliest final
    active := use (numSteps - 1) && continues (numSteps - 1) })

/-- Verify every position of a draft, retaining the first rejected choice. -/
def verify (row : Row) (steps : ℕ → DraftStep α) (numSteps document limit : ℕ) (first : Bool) :
    List (Option Value) × Row :=
  let step := steps 0
  let choice := c.choose step.projected row step.at' document first
  let use := row.active && step.valid
  let next := { row with
    streams := choice.streams
    alive := if use && !choice.ended then choice.keep else row.alive }
  let following := c.earliest next
  let hit := decide (choice.chosen = c.tokensAt row.source step.at')
  let value := if use then
      some ⟨if choice.ended then none else choice.chosen, following,
        (List.range row.width).countP next.alive, hit⟩
    else none
  let next := { next with
    source := following
    active := use && !choice.ended && hit && decide (step.at' + 1 < limit) }
  if numSteps = 1 then ([value], next)
  else
    -- The first choice can change a tied source after stream compaction.
    let tail := c.verifyTail next (fun j => steps (j + 1)) (numSteps - 1) document limit
    (value :: tail.1, tail.2)

end CopyConstraint
end Quail.Extract
