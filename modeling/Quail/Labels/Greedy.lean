import Quail.Labels.Trie
import Quail.Lib.Program
import Mathlib.Data.List.MinMax
import Mathlib.Data.Prod.Lex
import Mathlib.Order.Lex

/-!
# The greedy decoder

`GreedyDecoder` of `execution/labels.py`: one allowed token is chosen at each read of a choice node,
and the run to the next choice node is fed, until a choice leads to a label. What the constructor
derives from the labels is `GreedyDecoder`; the lists it keeps for the documents are `Decoding`.

`σ` are the scores a row holds, in a linear order (no score is not a number).
-/

namespace Quail.Labels
open Imperative

/-- What the constructor builds from the labels and the readout's columns. -/
structure GreedyDecoder where
  labelIds : List (List Token)
  trie : Trie
  leaf : Dict Node ℕ
  runs : DecodeRuns
  suffixes : List (List Token)
  order : Dict Token ℕ
  column : Dict Token ℕ

/-- What the decoder keeps for each document, with the tokens requested so far. A label is -1 until
it is chosen. -/
structure Decoding where
  node : List Node
  pending : List ℕ
  label : List ℤ
  tokens : ℕ

/-- The first label with each sequence. -/
def leafLabels (labelIds : List (List Token)) : Dict Node ℕ :=
  labelIds.zipIdx.foldl (fun leaf e => leaf.setDefault e.1 e.2) Dict.empty

/-- The first label that holds each token, anywhere in its sequence. -/
def tokenOrder (labelIds : List (List Token)) : Dict Token ℕ :=
  (labelIds.zipIdx.flatMap fun e => e.1.map fun token => (token, e.2)).foldl
    (fun order e => order.setDefault e.1 e.2) Dict.empty

/-- The readout column of each target token. -/
def columns (targets : List Token) : Dict Token ℕ :=
  targets.zipIdx.foldl (fun column e => column.set e.1 e.2) Dict.empty

/-- `GreedyDecoder.__init__`: the tables. -/
def GreedyDecoder.new (labelIds : List (List Token)) (targets : List Token) (cue : Token) :
    Except PyError GreedyDecoder := do
  let trie ← labelTrie labelIds
  let leaf := leafLabels labelIds
  if trie.keys.any leaf.contains then
    throw (.value "a label is a proper prefix of another label")
  let runs ← decodeRuns labelIds
  match runs.runs with
  | [] => throw (.index "list index out of range")
  | run :: rest =>
    return {
      labelIds, trie, leaf, runs
      suffixes := (cue :: run) :: rest
      order := tokenOrder labelIds
      column := columns targets }

namespace GreedyDecoder

/-- The most rounds a document needs. -/
def rounds (d : GreedyDecoder) : ℕ := d.runs.rounds

/-- `GreedyDecoder.__init__`: the documents, all at the node of the first request. -/
def start (d : GreedyDecoder) (documents : ℕ) : Decoding where
  node := List.replicate documents d.runs.first
  pending := List.replicate documents 0
  label := List.replicate documents (-1)
  tokens := 0

/-- An operation on the documents: it returns or raises. -/
abbrev Op (α : Type) := EStateM PyError Decoding α

/-- `xs[i]`. -/
def item {α : Type} (xs : List α) (i : ℕ) : Op α :=
  match xs[i]? with
  | none => throw (.index "list index out of range")
  | some x => return x

/-- `d[key]`. -/
def lookup {κ β : Type} [DecidableEq κ] (d : Dict κ β) (key : κ) : Op β :=
  match d.get? key with
  | none => throw (.key "key")
  | some v => return v

/-- The suffix of the document's next run, or `none` when it has a label (`requests`). -/
def requests (d : GreedyDecoder) (document : ℕ) : Op (Option ℕ) := do
  let s ← get
  let label ← item s.label document
  if 0 ≤ label then return none
  let index ← item s.pending document
  let suffix ← item d.suffixes index
  set { s with tokens := s.tokens + suffix.length }
  return some index

variable {σ : Type} [LinearOrder σ]

/-- The key the children are compared by: the higher score first, then the token's label. -/
def rank (d : GreedyDecoder) (row : List σ) (token : Token) : Op (σᵒᵈ ×ₗ ℕ) := do
  let column ← lookup d.column token
  let score ← item row column
  let order ← lookup d.order token
  return toLex (OrderDual.toDual score, order)

/-- Advance a document to its highest-scoring allowed token (`update`). -/
def update (d : GreedyDecoder) (document : ℕ) (row : List σ) : Op Unit := do
  let s ← get
  let node ← item s.node document
  match d.leaf.get? node with
  | some label => set { s with label := s.label.set document label }
  | none =>
    let tokens ← lookup d.trie node
    let ranked ← tokens.mapM fun token => do return (token, ← d.rank row token)
    match ranked.argmin Prod.snd with
    | none => throw (.value "min() iterable argument is empty")
    | some (best, _) =>
      match ← lookup d.runs.after (node, best) with
      | (target, none) =>
        let label ← lookup d.leaf target
        set { s with label := s.label.set document label }
      | (target, some run) =>
        set { s with node := s.node.set document target, pending := s.pending.set document run }

/-! ## Rounds -/

/-- One round of a document: its run is fed, and the row read at its node updates it. Returns the
tokens fed, or `none` when the document is skipped. -/
def round (d : GreedyDecoder) (rows : ℕ → Node → List σ) (document : ℕ) :
    Op (Option (List Token)) := do
  match ← d.requests document with
  | none => return none
  | some index =>
    let suffix ← item d.suffixes index
    let node ← item (← get).node document
    d.update document (rows document node)
    return some suffix

/-- Rounds of documents in any order; returns which document was fed what. -/
def decode (d : GreedyDecoder) (rows : ℕ → Node → List σ) : List ℕ → Op (List (ℕ × List Token))
  | [] => return []
  | document :: schedule => do
    let fed ← d.round rows document
    let rest ← d.decode rows schedule
    match fed with
    | none => return rest
    | some suffix => return (document, suffix) :: rest

end GreedyDecoder

end Quail.Labels
