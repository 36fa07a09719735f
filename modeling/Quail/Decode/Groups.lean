import Mathlib.Data.List.Basic
import Mathlib.Data.Finset.Lattice.Fold
import Mathlib.Data.Finset.Range
import Mathlib.Order.Lattice.Nat

/-!
# Shared reads of answer rows

`FullAttentionGroup` keeps the page table of every answer slot, the slot it borrows its first pages from and
how many tokens it borrows. `rows` lays out the decode rows of a pass: the rows of a slot and of the slots
that borrow the most from it read the borrowed pages once together, and each row reads its own pages past
them. A row's `reads` are the KV rows that its layout has it read, in order; `plainReads` are those of its
page table.
-/

namespace Quail.Decode

/-- Full-attention page tables and borrowed-prefix reads by answer slot. -/
structure FullAttentionGroup where
  numSlots : ℕ
  pageTokens : ℕ
  pages : ℕ → ℕ → ℕ
  numPages : ℕ → ℕ
  parent : ℕ → ℕ
  borrowed : ℕ → ℕ
  lead : ℕ → ℕ

/-- The layout of the rows of a pass, each group of rows that read shared pages with its table. -/
structure SharedRead where
  rows : List ℕ
  table : List ℕ
  used : ℕ
deriving DecidableEq, Repr

/-- The rows of a pass. A table is given by the row and the column. -/
structure DecodeRows where
  slots : List ℕ
  positions : List ℕ
  writeRows : List ℕ
  pageTable : ℕ → ℕ → ℕ
  ownTable : ℕ → ℕ → ℕ
  ownLengths : ℕ → ℤ
  shared : List SharedRead

namespace FullAttentionGroup

def new (numSlots pageTokens : ℕ) : FullAttentionGroup where
  numSlots := numSlots
  pageTokens := pageTokens
  pages _ _ := 0
  numPages _ := 0
  parent s := s
  borrowed _ := 0
  lead _ := 0

variable (g : FullAttentionGroup)

/-- Update one slot's table after allocation or growth. -/
def setPages (document : ℕ) (pages : List ℕ) : FullAttentionGroup :=
  { g with
    pages := Function.update g.pages document fun column => pages.getD column (g.pages document column)
    numPages := Function.update g.numPages document pages.length }

/-- Bind a branch to its pages and borrowed document prefix. -/
def start (document : ℕ) (pages : List ℕ) (parent : Option ℕ) (sharedTokens : ℕ) : FullAttentionGroup :=
  let g := g.setPages document pages
  let g := { g with
    parent := Function.update g.parent document document
    borrowed := Function.update g.borrowed document 0
    lead := Function.update g.lead document 0 }
  match parent with
  | none => g
  | some p =>
    if sharedTokens = 0 then g
    else { g with
      parent := Function.update g.parent document p
      borrowed := Function.update g.borrowed document sharedTokens
      lead := Function.update g.lead p (max (g.lead p) sharedTokens) }

/-- Append one page to a slot's table. -/
def addPage (document page : ℕ) : FullAttentionGroup :=
  { g with
    pages := Function.update g.pages document
      (Function.update (g.pages document) (g.numPages document) page)
    numPages := Function.update g.numPages document (g.numPages document + 1) }

/-- Append one page to each listed slot's table. -/
def addPages (added : List (ℕ × ℕ)) : FullAttentionGroup :=
  added.foldl (fun g a => g.addPage a.1 a.2) g

/-- Forget sharing identities after a branch is evicted. -/
def detach (document : ℕ) : FullAttentionGroup :=
  let parent := fun s => if g.parent s = document ∨ s = document then s else g.parent s
  let borrowed := fun s => if g.parent s = document ∨ s = document then 0 else g.borrowed s
  { g with
    parent, borrowed
    lead := fun p => ((Finset.range g.numSlots).filter fun s => parent s = p).sup borrowed }

/-- The slots whose sharing identity a `detach` changes. -/
def detached (document s : ℕ) : Bool := decide (g.parent s = document ∨ s = document)

/-! ## The groups of a pass (`decode_groups`) -/

def asChild (s : ℕ) : ℕ := if g.borrowed s = g.lead (g.parent s) then g.borrowed s else 0

/-- The slot whose group a slot's rows are in. -/
def group (s : ℕ) : ℕ := if g.asChild s ≤ g.lead s then s else g.parent s

/-- The tokens that the group of a slot shares. -/
def sharedTokens (s : ℕ) : ℕ := max (g.lead s) (g.asChild s)

/-- Whether the rows are in one group that shares tokens. -/
def grouped (s t : ℕ) : Bool :=
  decide (0 < g.sharedTokens s) && decide (0 < g.sharedTokens t) && decide (g.group s = g.group t)

/-- The tokens that a slot's rows read together with others, where several rows do. -/
def together (running : List ℕ) (s : ℕ) : ℕ :=
  if 1 < running.countP (g.grouped s) then g.sharedTokens s else 0

/-- The rows of a group that read its shared pages. -/
def members (running : List ℕ) (head : ℕ) : List ℕ :=
  (List.range running.length).filter fun i =>
    decide (0 < g.together running (running.getD i 0)) && decide (g.group (running.getD i 0) = head)

/-- The tokens that a row reads together with others. -/
def sharedOf (running : List ℕ) (share : Bool) (i : ℕ) : ℕ :=
  if share then g.together running (running.getD i 0) else 0

/-- The groups that read together, in the order of their slots. -/
def heads (running : List ℕ) (share : Bool) : List ℕ :=
  (List.range g.numSlots).filter fun head => share && !(g.members running head).isEmpty

/-- A group's first row. -/
def first (running : List ℕ) (head : ℕ) : ℕ := (g.members running head).headD 0

/-- The most pages that a group shares. -/
def most (running : List ℕ) (share : Bool) : ℕ :=
  (g.heads running share).foldr (fun head m => max (g.sharedOf running share (g.first running head) / g.pageTokens) m) 0

/-- The rows of a group, and its first row's pages. -/
def sharedRead (running : List ℕ) (share : Bool) (head : ℕ) : SharedRead :=
  { rows := g.members running head
    table := (List.range (g.most running share)).map (g.pages (running.getD (g.first running head) 0))
    used := g.sharedOf running share (g.first running head) }

/-- Build scatter rows and private and shared attention reads. A row past its pages is an error. -/
def rows (running positions : List ℕ) (share : Bool) : Except String DecodeRows :=
  if (List.range running.length).any fun i =>
      decide (g.numPages (running.getD i 0) ≤ positions.getD i 0 / g.pageTokens) then
    .error "an answer's row is past its pages"
  else
    .ok
      { slots := running
        positions
        writeRows := (List.range running.length).map fun i =>
          g.pages (running.getD i 0) (positions.getD i 0 / g.pageTokens) * g.pageTokens +
            positions.getD i 0 % g.pageTokens
        pageTable := fun i => g.pages (running.getD i 0)
        ownTable := fun i column =>
          let skip := g.sharedOf running share i / g.pageTokens
          if skip + column < g.numPages (running.getD i 0) then g.pages (running.getD i 0) (skip + column) else 0
        ownLengths := fun i => positions.getD i 0 + 1 - g.sharedOf running share i
        shared := (g.heads running share).map (g.sharedRead running share) }

end FullAttentionGroup

namespace DecodeRows

/-- The KV rows, by page and offset, of some tokens of a table. -/
def kvRows (pageTokens : ℕ) (table : ℕ → ℕ) (tokens : ℕ) : List (ℕ × ℕ) :=
  (List.range tokens).map fun t => (table (t / pageTokens), t % pageTokens)

/-- What a row reads: the shared tokens of each group it is in, then its own. -/
def reads (r : DecodeRows) (pageTokens i : ℕ) : List (ℕ × ℕ) :=
  (r.shared.filter fun s => decide (i ∈ s.rows)).flatMap
      (fun s => kvRows pageTokens (fun column => s.table.getD column 0) s.used) ++
    kvRows pageTokens (r.ownTable i) (r.ownLengths i).toNat

/-- What a row reads of its page table, with no sharing. -/
def plainReads (r : DecodeRows) (pageTokens i : ℕ) : List (ℕ × ℕ) :=
  kvRows pageTokens (r.pageTable i) (r.positions.getD i 0 + 1)

end DecodeRows
end Quail.Decode
