import Quail.Lib.CommonPrefix
import Mathlib.Data.List.Sort
import Mathlib.Data.String.Basic
import Mathlib.Logic.Function.Basic

/-!
# The prefix index

`PrefixIndex` and `PrefixTree` of `catalog/tokens.py`: documents in sorted token order, the tokens
each shares with its predecessor, and for a page size the document whose pages it borrows. Token ids
are 32-bit and sort by their big-endian bytes; a test tokenizer's words sort as strings. Python's
`sorted` is a stable insertion sort here.
-/

namespace Quail.Prefix

/-- The documents an index is built over. -/
inductive Documents where
  | ids (docs : List (List Int32))
  | words (docs : List (List String))

/-- The number of documents. -/
def Documents.count : Documents → ℕ
  | .ids docs => docs.length
  | .words docs => docs.length

/-- The tokens of a document. -/
def Documents.len : Documents → ℕ → ℕ
  | .ids docs, i => (docs.getD i []).length
  | .words docs, i => (docs.getD i []).length

/-- `a.astype(">i4").tobytes()` of one token. -/
def bigEndian (t : Int32) : List (Fin 256) :=
  let n := t.toUInt32.toNat
  [.ofNat 256 (n / 2 ^ 24), .ofNat 256 (n / 2 ^ 16), .ofNat 256 (n / 2 ^ 8), .ofNat 256 n]

/-- `longest_common_prefix`, from index `index` on. -/
def longestCommonPrefixFrom {τ : Type} [DecidableEq τ] (left right : List τ) (limit : ℕ) :
    ℕ → ℕ → ℕ
  | 0, _ => limit
  | steps + 1, index =>
    if left[index]? ≠ right[index]? then index
    else longestCommonPrefixFrom left right limit steps (index + 1)

/-- The length of the token prefix two sequences share (`longest_common_prefix`). -/
def longestCommonPrefix {τ : Type} [DecidableEq τ] (left right : List τ) : ℕ :=
  let limit := min left.length right.length
  longestCommonPrefixFrom left right limit limit 0

/-- `argmax` of a boolean array: its first true position, 0 when there is none. -/
def argmax (differ : List Bool) : ℕ := if differ.any id then differ.findIdx id else 0

/-- The first unequal token of two arrays (`_array_common_prefix`). -/
def arrayCommonPrefix {τ : Type} [DecidableEq τ] (left right : List τ) : ℕ :=
  let limit := min left.length right.length
  if limit = 0 then 0
  else
    let differ := List.zipWith (fun x y => decide (x ≠ y)) (left.take limit) (right.take limit)
    let first := argmax differ
    if differ.getD first false then first else limit

/-- The tokens two documents have in common, as the index computes it. -/
def Documents.common : Documents → ℕ → ℕ → ℕ
  | .ids docs, i, j => arrayCommonPrefix (docs.getD i []) (docs.getD j [])
  | .words docs, i, j => longestCommonPrefix (docs.getD i []) (docs.getD j [])

/-- `sorted(range(n), key=keys.__getitem__)`. -/
def sortedBy {β : Type} [LinearOrder β] [Inhabited β] (keys : List β) : List ℕ :=
  (List.range keys.length).insertionSort fun i j => keys.getD i default ≤ keys.getD j default

/-- The document positions in sorted token order. -/
def Documents.order : Documents → List ℕ
  | .ids docs => sortedBy (docs.map (List.flatMap bigEndian))
  | .words docs => sortedBy docs

/-- Each position of the order after the first, with its predecessor. -/
def adjacent (order : List ℕ) : List (ℕ × ℕ) := order.zip order.tail

/-- Sorted positions and the tokens each shares with its predecessor (`PrefixIndex`). -/
structure PrefixIndex where
  order : List ℕ
  shared : ℕ → ℕ

/-- `PrefixIndex.__init__`. Every document computes its final token, so a document shares at most
the tokens before it; the subtraction stops at zero as `max(len - 1, 0)` does. -/
def PrefixIndex.of (docs : Documents) : PrefixIndex where
  order := docs.order
  shared := (adjacent docs.order).foldl
    (fun shared (previous, index) => Function.update shared index
      (min (docs.common previous index) (docs.len index - 1)))
    (fun _ => 0)

/-- Which document each document borrows its prefix from (`PrefixTree`). -/
structure PrefixTree where
  order : List ℕ
  parent : ℕ → Option ℕ
  shared : ℕ → ℕ

/-- `while parent[owner] is not None and shared[owner] >= pages: owner = parent[owner]`. -/
def climb (parent : ℕ → Option ℕ) (shared : ℕ → ℕ) (pages : ℕ) : ℕ → ℕ → ℕ
  | 0, owner => owner
  | fuel + 1, owner =>
    match parent owner with
    | some p => if shared owner ≥ pages then climb parent shared pages fuel p else owner
    | none => owner

/-- One turn of the loop of `tree`: the parent of a document with shared pages. -/
def addParent (shared : ℕ → ℕ) (n : ℕ) (parent : ℕ → Option ℕ) (pair : ℕ × ℕ) : ℕ → Option ℕ :=
  if shared pair.2 ≠ 0 then
    Function.update parent pair.2 (some (climb parent shared (shared pair.2) n pair.1))
  else parent

/-- Borrowed parents and lengths rounded to a page size (`tree`). -/
def PrefixIndex.tree (index : PrefixIndex) (pageTokens : ℕ) : PrefixTree where
  order := index.order
  shared := fun i => index.shared i / pageTokens * pageTokens
  parent := (adjacent index.order).foldl
    (addParent (fun i => index.shared i / pageTokens * pageTokens) index.order.length)
    (fun _ => none)

/-- Build the prefix tree of a document set (`prefix_tree`). -/
def prefixTree (docs : Documents) (pageTokens : ℕ) : PrefixTree :=
  (PrefixIndex.of docs).tree pageTokens

end Quail.Prefix
