import Quail.Lib.Dict
import Quail.Lib.Python
import Mathlib.Data.List.Sort

/-!
# The label trie

`labels.py`: the trie of the labels' token sequences, and the runs a greedy decode feeds. A node is
the tuple of the tokens that lead to it. A choice node has two or more children; between choice nodes
every token is forced, so a run is a chosen token with the forced tokens after it.

The source's loops over nodes have no bound of their own; here they are given one, the length of the
longest label.
-/

namespace Quail.Labels

abbrev Token := ℕ
abbrev Node := List Token

/-- Each proper label prefix and the tokens that can follow it. -/
abbrev Trie := Dict Node (List Token)

/-- `children.setdefault(prefix, set()).add(token)`; a set lists its elements as they were added. -/
def addChild (children : Trie) (node : Node) (token : Token) : Trie :=
  let tokens := (children.get? node).getD []
  children.set node (if token ∈ tokens then tokens else tokens ++ [token])

/-- The children on the path of one label. -/
def addLabel (children : Trie) (ids : List Token) : Trie :=
  ids.zipIdx.foldl (fun children e => addChild children (ids.take e.2) e.1) children

/-- Each proper label prefix and, sorted, the tokens that can follow it (`label_trie`). -/
def labelTrie (labelIds : List (List Token)) : Except PyError Trie := do
  let children ← labelIds.foldlM (fun children ids =>
    if ids = [] then throw (.value "a label has no tokens") else return addLabel children ids)
    Dict.empty
  return children.mapValues (List.insertionSort (· ≤ ·))

/-- Every trie node with two or more children (`choice_nodes`). -/
def choiceNodes (labelIds : List (List Token)) : Except PyError (List Node) := do
  let trie ← labelTrie labelIds
  return (trie.entries.filter fun e => 1 < e.2.length).map Prod.fst

/-- The length of the longest label. -/
def longest (labelIds : List (List Token)) : ℕ := (labelIds.map List.length).foldr max 0

/-- The runs a greedy decode feeds, one request each (`DecodeRuns`). -/
structure DecodeRuns where
  runs : List (List Token)
  first : Node
  after : Dict (Node × Token) (Node × Option ℕ)
  rounds : ℕ

/-- `follow`: pass the nodes with one child, to a choice node or a leaf. -/
def follow (trie : Trie) (choices : List Node) : ℕ → Node → Node
  | 0, node => node
  | fuel + 1, node =>
    match trie.get? node with
    | some (token :: _) => if node ∈ choices then node else follow trie choices fuel (node ++ [token])
    | _ => node

/-- What the loop of `decode_runs` has built so far. -/
structure Building where
  runs : List (List Token)
  after : Dict (Node × Token) (Node × Option ℕ)
  reads : Dict Node ℕ

/-- One turn of the loop, for a choice node and one of its children. -/
def Building.add (trie : Trie) (target : Node) (node : Node) (token : Token) (b : Building) :
    Except PyError Building := do
  match b.reads.get? node with
  | none => throw (.key "node")
  | some reads =>
    if trie.contains target then
      return {
        runs := b.runs ++ [target.drop node.length]
        after := b.after.set (node, token) (target, some b.runs.length)
        reads := b.reads.set target (reads + 1) }
    else
      return { b with
        after := b.after.set (node, token) (target, none)
        reads := b.reads.set target reads }

/-- Split the label trie into the runs a greedy decode feeds (`decode_runs`). The set of choice nodes
is listed in the trie's order: only the numbers of the runs depend on it. -/
def decodeRuns (labelIds : List (List Token)) : Except PyError DecodeRuns := do
  let trie ← labelTrie labelIds
  let choices ← choiceNodes labelIds
  let follow := follow trie choices (longest labelIds)
  let first := follow []
  let turns := (choices.insertionSort fun a b => a.length ≤ b.length).flatMap fun node =>
    ((trie.get? node).getD []).map fun token => (node, token)
  let start : Building := {
    runs := [if trie.contains first then first else []]
    after := Dict.empty
    reads := Dict.empty.set first 1 }
  let built ← turns.foldlM (fun (b : Building) e => b.add trie (follow (e.1 ++ [e.2])) e.1 e.2) start
  match ((built.reads.entries.filter fun e => !trie.contains e.1).map Prod.snd).max? with
  | none => throw (.value "max() iterable argument is empty")
  | some rounds => return ⟨built.runs, first, built.after, rounds⟩

/-- The loop of `decode_round_tokens` for one label: the lengths of the runs on its path. -/
def roundTokensFrom (runs : DecodeRuns) (trie : Trie) (ids : List Token) :
    ℕ → Node → Except PyError (List ℕ)
  | fuel, node =>
    if trie.contains node then
      match fuel with
      | 0 => throw (.runtime "the loop has not ended")
      | fuel + 1 => do
        match ids[node.length]? with
        | none => throw (.index "tuple index out of range")
        | some token =>
          match runs.after.get? (node, token) with
          | none => throw (.key "(node, token)")
          | some (_, none) => return []
          | some (target, some run) =>
            match runs.runs[run]? with
            | none => throw (.index "list index out of range")
            | some tokens => return tokens.length :: (← roundTokensFrom runs trie ids fuel target)
    else return []

/-- The tokens a greedy decode feeds for each label, per round (`decode_round_tokens`). -/
def decodeRoundTokens (labelIds : List (List Token)) : Except PyError (List (List ℕ)) := do
  let runs ← decodeRuns labelIds
  let trie ← labelTrie labelIds
  labelIds.mapM fun ids =>
    match runs.runs.head? with
    | none => throw (.index "list index out of range")
    | some run =>
      return (1 + run.length) :: (← roundTokensFrom runs trie ids (longest labelIds) runs.first)

end Quail.Labels
