import Quail.Decode.Reads
import Quail.Lib.Program

/-!
# Branches that start, grow and are evicted

What the stage executor does with the pages of its documents and with the decoder's `FullAttentionGroup`: it
admits a document, borrowing its parent's first pages or not, starts an answer of it some passes later, grows
answers, evicts one when pages run out and gives it new pages, and frees what is settled. `Executor.step` is
one of these; where the executor would not do it, nothing changes.
-/

namespace Quail.Decode
open Imperative

/-- The documents of a run, by slot: their prefix lengths, and the prefix tree, which shares whole pages of
tokens that both a document and its parent have. -/
structure Documents where
  numSlots : ℕ
  pageTokens : ℕ
  prefixLengths : ℕ → ℕ
  treeParent : ℕ → Option ℕ
  treeShared : ℕ → ℕ
  pageTokens_pos : 0 < pageTokens
  aligned : ∀ s, pageTokens ∣ treeShared s
  shared_le : ∀ s, treeShared s ≤ prefixLengths s
  shared_le_parent : ∀ s p, treeParent s = some p → treeShared s ≤ prefixLengths p
  parent_ne : ∀ s p, treeParent s = some p → p ≠ s
  parent_lt : ∀ s p, treeParent s = some p → p < numSlots

/-- The decoder's tables, and what the executor knows of its documents: their pages in the arena, the borrow
each was admitted with, and which have an answer that is being written, which of these are paused, and where
an answer's rows begin. `moved` is not in the source: it says of an admitted document that its parent has
been evicted since. -/
structure Executor where
  kv : FullAttentionGroup
  arena : ℕ → Option (List ℕ)
  chosen : ℕ → Option (ℕ × ℕ)
  admitted : ℕ → Bool
  writing : ℕ → Bool
  paused : ℕ → Bool
  origin : ℕ → ℕ
  moved : ℕ → Bool

/-- What the executor does. -/
inductive Event where
  /-- `_reserve`: admit a document, borrowing from its parent or not, with fresh pages past those. -/
  | admission (document : ℕ) (borrows : Bool) (fresh : List ℕ)
  /-- `decoder.start`: begin an answer at a position. -/
  | start (document position : ℕ)
  /-- `_grow_answers`: append a page to each of some running answers. -/
  | grow (added : List (ℕ × ℕ))
  /-- `_grow_answers`: evict a running answer, and free its pages. -/
  | evict (victim : ℕ)
  /-- `_replays`: give an evicted answer pages again. -/
  | reserve (victim : ℕ) (pages : List ℕ)
  /-- `decoder.resume`: continue an answer whose tokens are recomputed. -/
  | resume (victim : ℕ)
  /-- An answer ends. -/
  | finish (document : ℕ)
  /-- A document that writes no answer is settled, and its pages are freed. -/
  | free (document : ℕ)

namespace Executor

def new (d : Documents) : Executor where
  kv := FullAttentionGroup.new d.numSlots d.pageTokens
  arena _ := none
  chosen _ := none
  admitted _ := false
  writing _ := false
  paused _ := false
  origin _ := 0
  moved _ := false

/-- An answer that is being written and is not paused. -/
def running (x : Executor) (s : ℕ) : Bool := x.writing s && !x.paused s

/-- The parent a document can borrow from: it is in the arena. -/
def lender (d : Documents) (x : Executor) (document : ℕ) : Option (ℕ × List ℕ) :=
  (d.treeParent document).bind fun p => (x.arena p).map fun pages => (p, pages)

/-- Admit a document (`Borrowing.record` and `arena.reserve`). -/
def admission (d : Documents) (x : Executor) (document : ℕ) (borrowed fresh : List ℕ) (choice : Option (ℕ × ℕ)) :
    Executor :=
  if document < d.numSlots ∧ x.admitted document = false ∧
      d.prefixLengths document ≤ (borrowed ++ fresh).length * d.pageTokens then
    { x with
      arena := Function.update x.arena document (some (borrowed ++ fresh))
      chosen := Function.update x.chosen document choice
      admitted := Function.update x.admitted document true
      moved := Function.update x.moved document false }
  else x

/-- Begin an answer with the document's pages and the borrow it was admitted with. -/
def start (d : Documents) (x : Executor) (document position : ℕ) : Executor :=
  match x.arena document with
  | none => x
  | some pages =>
    if x.writing document = false ∧ document < d.numSlots ∧ d.prefixLengths document ≤ position then
      { x with
        kv := x.kv.start document pages ((x.chosen document).map Prod.fst) (((x.chosen document).map Prod.snd).getD 0)
        writing := Function.update x.writing document true
        origin := Function.update x.origin document position }
    else x

/-- One page more for a running answer. -/
def growOne (x : Executor) (added : ℕ × ℕ) : Executor :=
  match x.arena added.1 with
  | none => x
  | some pages =>
    if x.running added.1 then
      { x with
        kv := x.kv.addPage added.1 added.2
        arena := Function.update x.arena added.1 (some (pages ++ [added.2])) }
    else x

/-- Evict an answer: the slots whose sharing changes borrow nothing from here on. -/
def evict (x : Executor) (victim : ℕ) : Executor :=
  if x.running victim then
    let chosen := fun s => if x.kv.detached victim s then none else x.chosen s
    { x with
      kv := x.kv.detach victim
      chosen
      paused := Function.update x.paused victim true
      arena := Function.update x.arena victim none
      moved := fun s => x.moved s || decide ((chosen s).map Prod.fst = some victim) }
  else x

/-- New pages for an evicted answer. -/
def reserve (d : Documents) (x : Executor) (victim : ℕ) (pages : List ℕ) : Executor :=
  if x.writing victim = true ∧ x.paused victim = true ∧ x.arena victim = none ∧
      d.prefixLengths victim ≤ pages.length * d.pageTokens then
    { x with
      kv := x.kv.setPages victim pages
      arena := Function.update x.arena victim (some pages) }
  else x

def resume (x : Executor) (victim : ℕ) : Executor :=
  match x.arena victim with
  | none => x
  | some pages =>
    if x.writing victim = true ∧ x.paused victim = true then
      { x with
        kv := x.kv.setPages victim pages
        paused := Function.update x.paused victim false }
    else x

/-- One thing the executor does. -/
def step (d : Documents) (x : Executor) : Event → Executor
  | .admission document false fresh => x.admission d document [] fresh none
  | .admission document true fresh =>
    match x.lender d document with
    | none => x
    | some (p, pages) =>
      x.admission d document (pages.take (d.treeShared document / d.pageTokens)) fresh (some (p, d.treeShared document))
  | .start document position => x.start d document position
  | .grow added => if (added.map Prod.fst).Nodup then added.foldl growOne x else x
  | .evict victim => x.evict victim
  | .reserve victim pages => x.reserve d victim pages
  | .resume victim => x.resume victim
  | .finish document => { x with writing := Function.update x.writing document false }
  | .free document =>
    if x.writing document then x else { x with arena := Function.update x.arena document none }

/-- An answer starts only where the parent that its document borrows from has not been evicted since the
document was admitted. -/
def Unmoved (x : Executor) : Event → Prop
  | .start document _ => x.moved document = false
  | _ => True

/-- The rows of some running answers: each at or past the position where its answer's rows begin. -/
def Rows (x : Executor) (slots positions : List ℕ) : Prop :=
  ∀ i < slots.length, x.running (slots.getD i 0) = true ∧ x.origin (slots.getD i 0) ≤ positions.getD i 0

/-- The layout of running rows is plain paged attention: each row reads the rows of its page table, each once
and in order, and the rows of a group have the same shared pages. -/
def Plain (x : Executor) : Prop :=
  ∀ slots positions share r, x.Rows slots positions → x.kv.rows slots positions share = .ok r →
    ∀ i < slots.length, r.reads x.kv.pageTokens i = r.plainReads x.kv.pageTokens i ∧
      ∀ s ∈ r.shared, i ∈ s.rows →
        ∀ column < s.used / x.kv.pageTokens, s.table.getD column 0 = r.pageTable i column

end Executor
end Quail.Decode
