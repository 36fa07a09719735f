import Quail.Lib.Dict
import Quail.Lib.Cumulative
import Mathlib.Order.Basic
import Mathlib.Logic.Function.Basic

/-!
# Per-document feature maxima

`SaeMaxAccumulator` of `executor/sae/max_pooling.py`: the strongest activation of each feature over a
document's rows and over the rows of the question asked of it, kept as rows (slots) of one matrix. A
row of the stream comes with its position and the features the encoder selected for it. The events and
streams of the device are left out: a copy takes the values its source has when it is queued.
-/

namespace Quail.Sae

variable {κ α : Type} {width : ℕ}

/-- A value for every feature. -/
abbrev Vector (width : ℕ) (α : Type) := Fin width → α

/-- A row of the stream: its position in the prompt, and what `top_features` selects for it. -/
structure Row (width : ℕ) (α : Type) where
  position : ℤ
  features : List (Fin width × α)

/-- Rows of one document in a chunk: the arena key, first row, first suffix row, and end row. -/
structure Span (κ : Type) where
  key : κ
  first : ℕ
  suffix : ℕ
  stop : ℕ

/-- The rows of one forward pass, and the spans of its documents. -/
structure Chunk (κ : Type) (width : ℕ) (α : Type) where
  numRows : ℕ
  row : ℕ → Row width α
  rowSpans : List (Span κ)
  bounded : ∀ span ∈ rowSpans, span.stop ≤ numRows

/-! ## Slots -/

/-- Maxima as rows of one matrix. `free` has its end, which `take` pops, first. -/
structure SlotMatrix (width : ℕ) (α : Type) where
  capacity : ℕ
  positive : 0 < capacity
  matrix : ℕ → Vector width α
  free : List ℕ
  /-- Freed slots, zeroed before the next scatter. -/
  dirty : List ℕ

namespace SlotMatrix

/-- Every slot zero and free. -/
def new [Zero α] (capacity : ℕ) (positive : 0 < capacity) : SlotMatrix width α where
  capacity := capacity
  positive := positive
  matrix _ _ := 0
  free := List.range capacity
  dirty := []

/-- Twice the slots: the old values, then zeros. -/
def grown [Zero α] (s : SlotMatrix width α) : SlotMatrix width α where
  capacity := 2 * s.capacity
  positive := Nat.mul_pos Nat.two_pos s.positive
  matrix slot := if slot < s.capacity then s.matrix slot else fun _ => 0
  free := List.range' s.capacity s.capacity ++ s.free
  dirty := s.dirty

/-- The matrix with a free slot. -/
def ready [Zero α] (s : SlotMatrix width α) : SlotMatrix width α :=
  if s.free = [] then s.grown else s

lemma ready_free_ne_nil [Zero α] (s : SlotMatrix width α) : s.ready.free ≠ [] := by
  have hpos := s.positive
  unfold ready
  split_ifs with h
  · intro hnil
    have hlen := congrArg List.length hnil
    simp [grown] at hlen
    omega
  · exact h

/-- A slot for a key. -/
def take [Zero α] (s : SlotMatrix width α) : ℕ × SlotMatrix width α :=
  (s.ready.free.head s.ready_free_ne_nil, { s.ready with free := s.ready.free.tail })

/-- The slot's key has no use for it. -/
def release (s : SlotMatrix width α) (slot : ℕ) : SlotMatrix width α :=
  { s with free := slot :: s.free, dirty := slot :: s.dirty }

end SlotMatrix

/-! ## Pinned rows -/

/-- Host rows handed out from slabs. A new slab's rows are not read before they are written. -/
structure PinnedSlabs (width : ℕ) (α : Type) where
  slabs : ℕ
  next : ℕ
  host : ℕ × ℕ → Vector width α

namespace PinnedSlabs

/-- The rows of a slab. -/
def rowsPerSlab : ℕ := 256

/-- No slab yet. -/
def new [Zero α] : PinnedSlabs width α := ⟨0, rowsPerSlab, fun _ _ => 0⟩

/-- The slab and row of a fresh pinned row. -/
def take (p : PinnedSlabs width α) : (ℕ × ℕ) × PinnedSlabs width α :=
  let p := if p.next = rowsPerSlab then { p with slabs := p.slabs + 1, next := 0 } else p
  ((p.slabs - 1, p.next), { p with next := p.next + 1 })

/-- Write a row. -/
def write (p : PinnedSlabs width α) (handle : ℕ × ℕ) (values : Vector width α) : PinnedSlabs width α :=
  { p with host := Function.update p.host handle values }

end PinnedSlabs

/-! ## The accumulator -/

/-- The slots of the documents and of the questions running on them. -/
structure SaeMaxAccumulator (κ : Type) (width : ℕ) (α : Type) where
  documentSlot : Dict κ ℕ
  tailSlot : Dict κ ℕ
  /-- Calls a document has settled. -/
  settled : Dict κ ℕ
  slots : SlotMatrix width α
  pinned : PinnedSlabs width α

section
variable [DecidableEq κ]

/-- The slot of a key, taken when it has none (`_slot`). -/
def slotOf [Zero α] (key : κ) (dict : Dict κ ℕ) (slots : SlotMatrix width α) :
    ℕ × Dict κ ℕ × SlotMatrix width α :=
  match dict.get? key with
  | some slot => (slot, dict, slots)
  | none => (slots.take.1, dict.set key slots.take.1, slots.take.2)

/-- The slots of keys, in order. -/
def slotsOf [Zero α] : List κ → Dict κ ℕ → SlotMatrix width α →
    List ℕ × Dict κ ℕ × SlotMatrix width α
  | [], dict, slots => ([], dict, slots)
  | key :: keys, dict, slots =>
    let (slot, dict, slots) := slotOf key dict slots
    let (rest, dict, slots) := slotsOf keys dict slots
    (slot :: rest, dict, slots)

end

/-- Each value as often as its count (`np.repeat`). -/
def repeated {β : Type} (values : List β) (counts : List ℕ) : List β :=
  (values.zip counts).flatMap fun e => List.replicate e.2 e.1

/-- The rows of spans that do not cover the chunk in order:
`repeat(row0 - cumsum(lengths) + lengths, lengths) + arange(total)`. -/
def rowIndices (row0 lengths : List ℕ) (total : ℕ) : List ℤ :=
  List.zipWith (· + ·)
    (repeated (List.zipWith (· + ·)
      (List.zipWith (fun first sum : ℕ => (first : ℤ) - sum) row0 (cumulative lengths).tail)
      (lengths.map Nat.cast)) lengths)
    ((List.range total).map Nat.cast)

/-- Zero the slots (`index_fill_`). -/
def zeroed [Zero α] (matrix : ℕ → Vector width α) (slots : List ℕ) : ℕ → Vector width α :=
  fun slot => if slot ∈ slots then fun _ => 0 else matrix slot

/-- One strength into one cell (`scatter_reduce_` with `amax`). -/
def scatterCell [LinearOrder α] (matrix : ℕ → Vector width α) (slot : ℕ) (feature : Fin width × α) :
    ℕ → Vector width α :=
  Function.update matrix slot
    (Function.update (matrix slot) feature.1 (max (matrix slot feature.1) feature.2))

/-- The strengths of a row into its slot. -/
def scatterRow [LinearOrder α] (matrix : ℕ → Vector width α) (slot : ℕ)
    (features : List (Fin width × α)) : ℕ → Vector width α :=
  features.foldl (fun matrix feature => scatterCell matrix slot feature) matrix

/-- Each row's strengths into its slot. -/
def scatter [LinearOrder α] (matrix : ℕ → Vector width α) (rows : List (ℕ × Row width α)) :
    ℕ → Vector width α :=
  rows.foldl (fun matrix row => scatterRow matrix row.1 row.2.features) matrix

namespace SaeMaxAccumulator
variable [DecidableEq κ] [LinearOrder α] [Zero α]

/-- No document seen. -/
def new : SaeMaxAccumulator κ width α := ⟨.empty, .empty, .empty, .new 512 (by decide), .new⟩

/-- Fold one chunk's rows into the document and question maxima. -/
def observe (documentTokens : κ → ℤ) (s : SaeMaxAccumulator κ width α) (chunk : Chunk κ width α) :
    SaeMaxAccumulator κ width α :=
  let spans := chunk.rowSpans.filter fun span => span.stop > span.first
  if spans = [] then s
  else
    let keys := spans.map Span.key
    let row0 := spans.map Span.first
    let row1 := spans.map Span.stop
    let (documents, documentSlot, slots) := slotsOf keys s.documentSlot s.slots
    let (tails, tailSlot, slots) := slotsOf keys s.tailSlot slots
    let perSpan := documents.zip (tails.zip (keys.map documentTokens))
    let lengths := List.zipWith (· - ·) row1 row0
    let total := lengths.sum
    let perRow := repeated perSpan lengths
    let contiguous := total = chunk.numRows ∧ row0.head? = some 0 ∧ row0.tail = row1.dropLast
    let rows := if contiguous then (List.range chunk.numRows).map chunk.row
      else (rowIndices row0 lengths total).map fun row => chunk.row row.toNat
    let matrix := if slots.dirty = [] then slots.matrix else zeroed slots.matrix slots.dirty
    let slot := List.zipWith (fun (per : ℕ × ℕ × ℤ) (row : Row width α) =>
      if row.position < per.2.2 then per.1 else per.2.1) perRow rows
    { s with
      documentSlot, tailSlot
      slots := { slots with matrix := scatter matrix (slot.zip rows), dirty := [] } }

/-- Copy the combined maxima of a question's and a document's slot into a fresh pinned row; its slab
and row. -/
def readMaxima (s : SaeMaxAccumulator κ width α) (tail document : Option ℕ) :
    (ℕ × ℕ) × SaeMaxAccumulator κ width α :=
  let matrix := match tail, document with
    | some tail, some document => Function.update s.slots.matrix tail fun feature =>
        max (s.slots.matrix document feature) (s.slots.matrix tail feature)
    | _, _ => s.slots.matrix
  let values := match tail.or document with
    | none => fun _ => 0
    | some source => matrix source
  (s.pinned.take.1, { s with
    slots := { s.slots with matrix }
    pinned := s.pinned.take.2.write s.pinned.take.1 values })

/-- The question's slot is consumed. -/
def dropTail (s : SaeMaxAccumulator κ width α) (key : κ) : SaeMaxAccumulator κ width α :=
  match s.tailSlot.get? key with
  | none => s
  | some tail => { s with tailSlot := s.tailSlot.erase key, slots := s.slots.release tail }

/-- The document's slot is freed. -/
def dropDocument (s : SaeMaxAccumulator κ width α) (key : κ) : SaeMaxAccumulator κ width α :=
  match s.documentSlot.get? key with
  | none => s
  | some document =>
    { s with documentSlot := s.documentSlot.erase key, slots := s.slots.release document }

/-- The calls a document has settled. -/
def settledCalls (s : SaeMaxAccumulator κ width α) (key : κ) : ℕ := (s.settled.get? key).getD 0

/-- Settle one call of a document (`settle`); the handle of its combined maxima when the call reads
them. -/
def settle (calls : ℕ) (s : SaeMaxAccumulator κ width α) (key : κ) (collect : Bool) :
    Option (ℕ × ℕ) × SaeMaxAccumulator κ width α :=
  let tail := s.tailSlot.get? key
  let document := s.documentSlot.get? key
  let (handle, s) := if collect then
      let (handle, s) := s.readMaxima tail document
      (some handle, s)
    else (none, s)
  let s := s.dropTail key
  let s := { s with settled := s.settled.set key (s.settledCalls key + 1) }
  -- the document's slot stays for the pipeline's later calls
  (handle, if calls ≤ s.settledCalls key then s.dropDocument key else s)

end SaeMaxAccumulator

end Quail.Sae
