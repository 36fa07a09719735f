import Quail.Labels.Runs

/-!
# Trie paths

`read_nodes` and `fed_nodes` of `labels.py`, and `trie_paths` of `execution/labels.py`: the nodes of the
label trie whose rows one request feeds, split into paths that each are one causal segment. Python's sets
are lists here, in the order their elements were added.
-/

namespace Quail.Labels
open PrefixTree

/-! ## The source -/

lemma lawfulBEq_node : LawfulBEq Node := inferInstance

attribute [local instance] lawfulBEq_node

/-- The flags of one label: which of its tokens begin a new word. -/
def flagsOf (starts : List (List Bool)) (index : ℕ) (ids : List Token) : Except PyError (List Bool) :=
  if starts = [] then .ok (List.replicate ids.length false)
  else match starts[index]? with
    | none => .error (.index "tuple index out of range")
    | some flags => .ok flags

/-- Whether a node of a label is read, where its parent is read and the nodes in `read` are. -/
def isRead (trie : Trie) (labelIds : List (List Token)) (read : List Node) (flags : List Bool)
    (ids : List Token) (depth : ℕ) : Except PyError Bool :=
  match trie.get? (ids.take depth) with
  | none => .error (.key "node")
  | some tokens =>
    if 1 < tokens.length ∨ ids.take depth ∈ labelIds then .ok true
    else if ids.take (depth - 1) ∈ read then
      match flags[depth]? with
      | none => .error (.index "tuple index out of range")
      | some flag => .ok !flag
    else .ok false

/-- Add an element to a set. -/
def addNode (read : List Node) (node : Node) : List Node := if node ∈ read then read else read ++ [node]

/-- The trie nodes whose rows the `trie_tree` rule reads (`read_nodes`). -/
def readNodes (labelIds : List (List Token)) (starts : List (List Bool)) : Except PyError (List Node) := do
  let trie ← labelTrie labelIds
  labelIds.zipIdx.foldlM (fun read e => do
    let flags ← flagsOf starts e.2 e.1
    (List.range' 1 (e.1.length - 1)).foldlM (fun read depth => do
      let reads ← isRead trie labelIds read flags e.1 depth
      return if reads then addNode read (e.1.take depth) else read) read) [[]]

/-- The read nodes and their ancestors (`fed_nodes`). -/
def fedNodes (read : List Node) : List Node :=
  read.flatMap fun node => (List.range (node.length + 1)).map node.take

/-- A path: the nodes whose rows it holds, the depth of its first, and the ancestor rows outside it as
(path, leading rows). -/
structure LabelPath where
  nodes : List Node
  start : ℕ
  gathers : List (ℕ × ℕ)
  deriving DecidableEq

/-- `paths` and `placed`: the paths so far, and where a node is. -/
structure Packing where
  paths : List LabelPath
  placed : Dict Node (ℕ × ℕ)

/-- The node becomes the next row of the path. -/
def Packing.put (pk : Packing) (path row : ℕ) (node : Node) : Packing :=
  ⟨pk.paths.modify path fun p => { p with nodes := p.nodes ++ [node] }, pk.placed.set node (path, row)⟩

/-- A path that starts at this node. -/
def Packing.open (pk : Packing) (node : Node) : Packing := { pk with paths := pk.paths ++ [⟨[], node.length, []⟩] }

/-- `extend`: the node and what is fed under it. `fuel` bounds the depth below the node. -/
def extend (trie : Trie) (fed : List Node) : ℕ → ℕ → Node → Packing → Except PyError Packing
  | 0, _, _, _ => .error (.runtime "maximum recursion depth exceeded")
  | fuel + 1, path, node, pk => do
    match pk.paths[path]? with
    | none => .error (.index "list index out of range")
    | some p =>
      match trie.get? node with
      | none => .error (.key "node")
      | some tokens =>
        let children := (tokens.map fun token => node ++ [token]).filter (· ∈ fed)
        match children with
        | [] => .ok (pk.put path p.nodes.length node)
        | child :: rest => do
          let pk ← extend trie fed fuel path child (pk.put path p.nodes.length node)
          rest.foldlM (fun pk child => extend trie fed fuel pk.paths.length child (pk.open child)) pk

/-- Count the rows of the path that the node at a depth above a path's first node is on. -/
def countRows (placed : Dict Node (ℕ × ℕ)) (parent : Node) (counts : Dict ℕ ℕ) (depth : ℕ) :
    Except PyError (Dict ℕ ℕ) :=
  match placed.get? (parent.take depth) with
  | none => .error (.key "node")
  | some (path, row) => .ok (counts.set path (max ((counts.get? path).getD 0) (row + 1)))

/-- The gathers of a path that starts at this node. -/
def gathersOf (placed : Dict Node (ℕ × ℕ)) (first : Node) : Except PyError (List (ℕ × ℕ)) := do
  let parent := first.dropLast
  let counts ← (List.range (parent.length + 1)).foldlM (countRows placed parent) Dict.empty
  return counts.entries.insertionSort fun a b => a.1 < b.1 ∨ (a.1 = b.1 ∧ a.2 ≤ b.2)

/-- Extend the gathers of a path by its number; the first starts at the root and has none. -/
def gather (placed : Dict Node (ℕ × ℕ)) (e : LabelPath × ℕ) : Except PyError LabelPath :=
  if e.2 = 0 then .ok e.1
  else match e.1.nodes.head? with
    | none => .error (.index "list index out of range")
    | some first => do
      let gathers ← gathersOf placed first
      return { e.1 with gathers := e.1.gathers ++ gathers }

/-- Split the fed trie nodes into paths that together hold each once (`trie_paths`). -/
def triePaths (labelIds : List (List Token)) (read : Option (List Node)) : Except PyError (List LabelPath) := do
  let trie ← labelTrie labelIds
  let fed := fedNodes (read.getD trie.keys)
  let pk ← extend trie fed (longest labelIds + 1) 0 [] ⟨[⟨[], 0, []⟩], Dict.empty⟩
  pk.paths.zipIdx.mapM (gather pk.placed)

/-! ## What the paths promise -/

/-- The node of a row. -/
def nodeAt (paths : List LabelPath) (row : ℕ × ℕ) : Option Node := paths[row.1]?.bind fun p => p.nodes[row.2]?

/-- The rows that a row of a path sees: the leading rows its path gathers, and those of its own path up to
itself. -/
def visible (paths : List LabelPath) (row : ℕ × ℕ) : List (ℕ × ℕ) :=
  ((paths[row.1]?.map LabelPath.gathers).getD []).flatMap (fun g => (List.range g.2).map fun i => (g.1, i)) ++
    (List.range (row.2 + 1)).map fun i => (row.1, i)

/-- Each fed node is on one path, at the position of its depth, and sees the rows of its ancestors and
itself, each once; what a path gathers lies in earlier paths. -/
structure PathsOf (fed : List Node) (paths : List LabelPath) : Prop where
  once : ∀ node ∈ fed, ∃! row, nodeAt paths row = some node
  fed : ∀ row node, nodeAt paths row = some node → node ∈ fed
  position : ∀ (path row : ℕ) (p : LabelPath) (node : Node), paths[path]? = some p → p.nodes[row]? = some node →
    p.start + row = node.length
  earlier : ∀ (path : ℕ) (p : LabelPath), paths[path]? = some p → ∀ g ∈ p.gathers, g.1 < path
  sees : ∀ row node, nodeAt paths row = some node → (visible paths row).Nodup ∧
    ∀ other, other ∈ visible paths row ↔ ∃ above, above <+: node ∧ nodeAt paths other = some above

variable {trie : Trie} {fed : List Node} {paths : List LabelPath} {pk pk' : Packing} {p : LabelPath}
  {path : ℕ} {row : ℕ × ℕ} {node m : Node}

/-! ## Packing -/

/-- The node is a row of some path. -/
def Holds (paths : List LabelPath) (node : Node) : Prop := ∃ row, nodeAt paths row = some node

lemma nodeAt_eq_some : nodeAt paths row = some node ↔
    ∃ p, paths[row.1]? = some p ∧ p.nodes[row.2]? = some node := Option.bind_eq_some_iff

lemma getElem?_concat {α : Type} {l : List α} {a : α} {i : ℕ} :
    (l ++ [a])[i]? = if i = l.length then some a else l[i]? := by
  split_ifs with hi
  · rw [hi, List.getElem?_concat_length]
  · cases Nat.lt_or_gt_of_ne hi with
    | inl h => rw [List.getElem?_append_left h]
    | inr h =>
      rw [List.getElem?_eq_none (l := l) (Nat.le_of_lt h)]
      apply List.getElem?_eq_none
      rw [List.length_append, List.length_singleton]
      exact h

lemma paths_put_self {i : ℕ} (hp : pk.paths[path]? = some p) :
    (pk.put path i node).paths[path]? = some { p with nodes := p.nodes ++ [node] } := by
  change (pk.paths.modify path _)[path]? = _
  rw [List.getElem?_modify_eq, hp]
  rfl

lemma paths_put_ne {i q : ℕ} (h : path ≠ q) : (pk.put path i node).paths[q]? = pk.paths[q]? :=
  List.getElem?_modify_ne _ _ h

lemma paths_open {q : ℕ} : (pk.open node).paths[q]? =
    if q = pk.paths.length then some ⟨[], node.length, []⟩ else pk.paths[q]? := getElem?_concat

lemma nodeAt_put (hp : pk.paths[path]? = some p) :
    nodeAt (pk.put path p.nodes.length node).paths row =
      if row = (path, p.nodes.length) then some node else nodeAt pk.paths row := by
  obtain ⟨q, i⟩ := row
  unfold nodeAt
  by_cases hq : path = q
  · subst hq
    rw [paths_put_self hp, hp, Option.bind_some, Option.bind_some, getElem?_concat]
    simp only [Prod.mk.injEq, true_and]
  · rw [paths_put_ne hq, if_neg fun h => hq (Prod.ext_iff.1 h).1.symm]

lemma nodeAt_open : nodeAt (pk.open node).paths row = nodeAt pk.paths row := by
  unfold nodeAt
  rw [paths_open]
  split_ifs with h
  · rw [h, List.getElem?_eq_none (l := pk.paths) le_rfl]
    rfl
  · rfl

/-- The parent is on the row above, or the row is the first of its path and the parent lies in an earlier
path. -/
def Below (paths : List LabelPath) (path row : ℕ) (node : Node) : Prop :=
  (∃ above, row = above + 1 ∧ nodeAt paths (path, above) = some node.dropLast) ∨
    (row = 0 ∧ ∃ parent : ℕ × ℕ, parent.1 < path ∧ nodeAt paths parent = some node.dropLast)

lemma Below.mono {paths' : List LabelPath} {i : ℕ}
    (hkeeps : ∀ row node, nodeAt paths row = some node → nodeAt paths' row = some node)
    (h : Below paths path i node) : Below paths' path i node := by
  cases h with
  | inl h =>
    obtain ⟨above, hi, hat⟩ := h
    exact .inl ⟨above, hi, hkeeps _ _ hat⟩
  | inr h =>
    obtain ⟨hi, parent, hlt, hat⟩ := h
    exact .inr ⟨hi, parent, hlt, hkeeps _ _ hat⟩

/-- What holds of the paths whenever `extend` is called. -/
structure Packing.Placed (pk : Packing) : Prop where
  at_iff : ∀ node row, pk.placed.get? node = some row ↔ nodeAt pk.paths row = some node
  depth : ∀ (path row : ℕ) (p : LabelPath) (node : Node), pk.paths[path]? = some p → p.nodes[row]? = some node →
    p.start + row = node.length
  below : ∀ path row node, nodeAt pk.paths (path, row) = some node → node ≠ [] → Below pk.paths path row node
  gathers : ∀ (path : ℕ) (p : LabelPath), pk.paths[path]? = some p → p.gathers = []

namespace Packing.Placed

lemma put (h : pk.Placed) (hp : pk.paths[path]? = some p) (hfresh : ¬ Holds pk.paths node)
    (hdepth : p.start + p.nodes.length = node.length)
    (hbelow : node ≠ [] → Below pk.paths path p.nodes.length node) :
    (pk.put path p.nodes.length node).Placed := by
  have hend : nodeAt pk.paths (path, p.nodes.length) = none := by
    unfold nodeAt
    rw [hp]
    exact List.getElem?_eq_none le_rfl
  have hkeeps : ∀ row m, nodeAt pk.paths row = some m →
      nodeAt (pk.put path p.nodes.length node).paths row = some m := by
    intro row m hat
    rw [nodeAt_put hp, if_neg, hat]
    intro hrow
    rw [hrow, hend] at hat
    cases hat
  refine ⟨?_, ?_, ?_, ?_⟩
  · intro m row
    change (pk.placed.set node (path, p.nodes.length)).get? m = some row ↔ _
    rw [Dict.get?_set, nodeAt_put hp]
    split_ifs with hm hrow hrow
    · simp [hm, hrow]
    · refine ⟨fun heq => absurd (Option.some.inj heq).symm hrow, fun hat => ?_⟩
      exact absurd ⟨row, hm ▸ hat⟩ hfresh
    · rw [h.at_iff, hrow, hend]
      exact ⟨fun heq => (Option.some_ne_none _ heq.symm).elim, fun heq => absurd (Option.some.inj heq) hm⟩
    · exact h.at_iff m row
  · intro q i p' m hp' hm
    by_cases hq : path = q
    · subst hq
      rw [paths_put_self hp] at hp'
      obtain rfl := Option.some.inj hp'
      rw [getElem?_concat] at hm
      split_ifs at hm with hi
      · rw [hi, ← Option.some.inj hm]
        exact hdepth
      · exact h.depth path i p m hp hm
    · rw [paths_put_ne hq] at hp'
      exact h.depth q i p' m hp' hm
  · intro q i m hat hne
    rw [nodeAt_put hp] at hat
    split_ifs at hat with hrow
    · rw [Prod.mk.injEq] at hrow
      obtain ⟨rfl, rfl⟩ := hrow
      obtain rfl := Option.some.inj hat
      exact (hbelow hne).mono hkeeps
    · exact (h.below q i m hat hne).mono hkeeps
  · intro q p' hp'
    by_cases hq : path = q
    · subst hq
      rw [paths_put_self hp] at hp'
      obtain rfl := Option.some.inj hp'
      exact h.gathers path p hp
    · rw [paths_put_ne hq] at hp'
      exact h.gathers q p' hp'

lemma opened (h : pk.Placed) : (pk.open node).Placed := by
  refine ⟨?_, ?_, ?_, ?_⟩
  · intro m row
    rw [nodeAt_open]
    exact h.at_iff m row
  · intro q i p' m hp' hm
    rw [paths_open] at hp'
    split_ifs at hp' with hq
    · obtain rfl := Option.some.inj hp'
      cases hm
    · exact h.depth q i p' m hp' hm
  · intro q i m hat hne
    rw [nodeAt_open] at hat
    exact (h.below q i m hat hne).mono fun row m' hat' => nodeAt_open.trans hat'
  · intro q p' hp'
    rw [paths_open] at hp'
    split_ifs at hp' with hq
    · exact Option.some.inj hp' ▸ rfl
    · exact h.gathers q p' hp'

end Packing.Placed

/-! ## The descent -/

/-- What `extend` relies on: the fed nodes are closed under prefixes, and the trie has the children of each. -/
structure Feeds (trie : Trie) (fed : List Node) (bound : ℕ) : Prop where
  root : [] ∈ fed
  closed : ∀ node ∈ fed, ∀ above, above <+: node → above ∈ fed
  tokens : ∀ node ∈ fed, ∃ tokens, trie.get? node = some tokens ∧ tokens.Nodup ∧
    ∀ token, node ++ [token] ∈ fed → token ∈ tokens
  depth : ∀ node ∈ fed, node.length < bound

/-- The node is fed, at or under another. -/
def Under (fed : List Node) (top node : Node) : Prop := node ∈ fed ∧ top <+: node

/-- Every path has a row. -/
def Full (paths : List LabelPath) : Prop := ∀ p ∈ paths, p.nodes ≠ []

/-- What a call adds: the nodes of one kind, each on a row of its own. -/
structure Adds (kind : Node → Prop) (pk pk' : Packing) : Prop where
  placed : pk'.Placed
  full : Full pk'.paths
  keeps : ∀ row node, nodeAt pk.paths row = some node → nodeAt pk'.paths row = some node
  holds : ∀ node, Holds pk'.paths node ↔ Holds pk.paths node ∨ kind node

lemma Adds.trans {kind kind' kind'' : Node → Prop} {pk'' : Packing} (h : Adds kind pk pk') (h' : Adds kind' pk' pk'')
    (hkind : ∀ node, kind'' node ↔ kind node ∨ kind' node) : Adds kind'' pk pk'' where
  placed := h'.placed
  full := h'.full
  keeps row node hat := h'.keeps row node (h.keeps row node hat)
  holds node := by rw [h'.holds, h.holds, hkind, or_assoc]

/-- The children of a node part what is fed under it. -/
lemma under_iff {tokens : List Token} {bound : ℕ} (hf : Feeds trie fed bound) (hnode : node ∈ fed)
    (htokens : ∀ token, node ++ [token] ∈ fed → token ∈ tokens) :
    Under fed node m ↔
      m = node ∨ ∃ child ∈ (tokens.map fun token => node ++ [token]).filter (· ∈ fed), Under fed child m := by
  constructor
  · rintro ⟨hm, hle⟩
    by_cases heq : node = m
    · exact .inl heq.symm
    · obtain ⟨token, htoken⟩ := exists_child hle heq
      have hchild := hf.closed m hm _ htoken
      refine .inr ⟨node ++ [token], ?_, hm, htoken⟩
      rw [List.mem_filter]
      exact ⟨List.mem_map.2 ⟨token, htokens token hchild, rfl⟩, decide_eq_true hchild⟩
  · intro h
    cases h with
    | inl h => exact ⟨h ▸ hnode, h ▸ List.prefix_rfl⟩
    | inr h =>
      obtain ⟨child, hchild, hm, hle⟩ := h
      obtain ⟨token, -, rfl⟩ := List.mem_map.1 (List.mem_of_mem_filter hchild)
      exact ⟨hm, (List.prefix_append node [token]).trans hle⟩

/-- The node is to be the next row of its path, and nothing under it has a row yet. -/
structure Ready (path : ℕ) (p : LabelPath) (node : Node) (pk : Packing) : Prop where
  placed : pk.Placed
  here : pk.paths[path]? = some p
  others : ∀ (q : ℕ) (p : LabelPath), q ≠ path → pk.paths[q]? = some p → p.nodes ≠ []
  depth : p.start + p.nodes.length = node.length
  below : node ≠ [] → Below pk.paths path p.nodes.length node
  fresh : ∀ m, node <+: m → ¬ Holds pk.paths m

namespace Ready

/-- The node on its row, before its children. -/
lemma adds (h : Ready path p node pk) : Adds (· = node) pk (pk.put path p.nodes.length node) := by
  have hfresh := h.fresh node List.prefix_rfl
  have hend : nodeAt pk.paths (path, p.nodes.length) = none := by
    unfold nodeAt
    rw [h.here]
    exact List.getElem?_eq_none le_rfl
  refine ⟨h.placed.put h.here hfresh h.depth h.below, ?_, ?_, ?_⟩
  · intro p' hp'
    obtain ⟨q, hq⟩ := List.mem_iff_getElem?.1 hp'
    by_cases heq : path = q
    · subst heq
      rw [paths_put_self h.here] at hq
      rw [← Option.some.inj hq]
      exact List.append_ne_nil_of_right_ne_nil _ (List.cons_ne_nil _ _)
    · rw [paths_put_ne heq] at hq
      exact h.others q p' (Ne.symm heq) hq
  · intro row m hat
    rw [nodeAt_put h.here, if_neg, hat]
    intro hrow
    rw [hrow, hend] at hat
    cases hat
  · intro m
    constructor
    · rintro ⟨row, hat⟩
      rw [nodeAt_put h.here] at hat
      split_ifs at hat with hrow
      · exact .inr (Option.some.inj hat).symm
      · exact .inl ⟨row, hat⟩
    · intro hm
      cases hm with
      | inl hm =>
        obtain ⟨row, hat⟩ := hm
        refine ⟨row, ?_⟩
        rw [nodeAt_put h.here, if_neg, hat]
        intro hrow
        rw [hrow, hend] at hat
        cases hat
      | inr hm =>
        refine ⟨(path, p.nodes.length), ?_⟩
        rw [nodeAt_put h.here, if_pos rfl, hm]

/-- The first child follows on the same path. -/
lemma first {token : Token} (h : Ready path p node pk) :
    Ready path { p with nodes := p.nodes ++ [node] } (node ++ [token]) (pk.put path p.nodes.length node) := by
  have hadds := h.adds
  refine ⟨hadds.placed, paths_put_self h.here, ?_, ?_, ?_, ?_⟩
  · intro q p' _ hq
    exact hadds.full p' (List.mem_of_getElem? hq)
  · dsimp only
    rw [List.length_append, List.length_append, List.length_singleton, List.length_singleton, ← h.depth, add_assoc]
  · intro _
    refine .inl ⟨p.nodes.length, List.length_append, ?_⟩
    rw [nodeAt_put h.here, if_pos rfl, List.dropLast_concat]
  · intro m hm hheld
    cases (hadds.holds m).1 hheld with
    | inl hheld => exact h.fresh m ((List.prefix_append node [token]).trans hm) hheld
    | inr heq =>
      have hlen := hm.length_le
      rw [heq, List.length_append, List.length_singleton] at hlen
      omega

/-- Another child starts a path of its own, after the paths there are. -/
lemma opened {token : Token} (hplaced : pk.Placed) (hfull : Full pk.paths) (hnode : Holds pk.paths node)
    (hfresh : ∀ m, node ++ [token] <+: m → ¬ Holds pk.paths m) :
    Ready pk.paths.length ⟨[], (node ++ [token]).length, []⟩ (node ++ [token]) (pk.open (node ++ [token])) := by
  refine ⟨hplaced.opened, ?_, ?_, rfl, ?_, ?_⟩
  · rw [paths_open, if_pos rfl]
  · intro q p' hq hp'
    rw [paths_open, if_neg hq] at hp'
    exact hfull p' (List.mem_of_getElem? hp')
  · intro _
    obtain ⟨row, hat⟩ := hnode
    refine .inr ⟨rfl, row, ?_, ?_⟩
    · obtain ⟨p', hp', -⟩ := nodeAt_eq_some.1 hat
      exact (List.getElem?_eq_some_iff.1 hp').1
    · rw [nodeAt_open, List.dropLast_concat]
      exact hat
  · rintro m hm ⟨row, hat⟩
    exact hfresh m hm ⟨row, nodeAt_open.symm.trans hat⟩

end Ready

/-- A child that is opened adds what is fed under it, where nothing under it has a row. -/
def Opens (trie : Trie) (fed : List Node) (fuel : ℕ) (child : Node) : Prop :=
  ∀ pk : Packing, Ready pk.paths.length ⟨[], child.length, []⟩ child (pk.open child) →
    ∃ pk', extend trie fed fuel pk.paths.length child (pk.open child) = .ok pk' ∧
      Adds (Under fed child) (pk.open child) pk'

/-- The other children of a node, one after the other. -/
lemma siblings_adds {fuel : ℕ} {tokens : List Token} (hnodup : tokens.Nodup)
    (hopens : ∀ token ∈ tokens, Opens trie fed fuel (node ++ [token])) (hplaced : pk.Placed) (hfull : Full pk.paths)
    (hnode : Holds pk.paths node)
    (hfresh : ∀ token ∈ tokens, ∀ m, node ++ [token] <+: m → ¬ Holds pk.paths m) :
    ∃ pk', (tokens.map fun token => node ++ [token]).foldlM
        (fun pk child => extend trie fed fuel pk.paths.length child (pk.open child)) pk = .ok pk' ∧
      Adds (fun m => ∃ child ∈ tokens.map fun token => node ++ [token], Under fed child m) pk pk' := by
  induction tokens generalizing pk with
  | nil => exact ⟨pk, rfl, hplaced, hfull, fun _ _ hat => hat, fun m => by simp⟩
  | cons token tokens ih =>
    obtain ⟨hnew, hnodup⟩ := List.nodup_cons.1 hnodup
    obtain ⟨hopen, hopens⟩ := List.forall_mem_cons.1 hopens
    obtain ⟨hfree, hfresh⟩ := List.forall_mem_cons.1 hfresh
    obtain ⟨middle, hrun, hadds⟩ := hopen pk (Ready.opened hplaced hfull hnode hfree)
    have hadds : Adds (Under fed (node ++ [token])) pk middle := {
      placed := hadds.placed
      full := hadds.full
      keeps := fun row m hat => hadds.keeps row m (nodeAt_open.trans hat)
      holds := fun m => by
        rw [hadds.holds]
        simp only [Holds, nodeAt_open] }
    -- what is under another child is not under this one
    have hapart : ∀ other ∈ tokens, ∀ m, node ++ [other] <+: m → ¬ Holds middle.paths m := by
      intro other hother m hm hheld
      cases (hadds.holds m).1 hheld with
      | inl hheld => exact hfresh other hother m hm hheld
      | inr hunder => exact hnew (child_unique hunder.2 hm ▸ hother)
    obtain ⟨row, hat⟩ := hnode
    obtain ⟨pk', hrest, hmore⟩ :=
      ih hnodup hopens hadds.placed hadds.full ⟨row, hadds.keeps row node hat⟩ hapart
    refine ⟨pk', ?_, hadds.trans hmore fun m => by rw [List.map_cons]; simp only [List.mem_cons, exists_eq_or_imp]⟩
    rw [List.map_cons, List.foldlM_cons, hrun]
    exact hrest

/-- A call of `extend` puts the node and what is fed under it on rows. -/
theorem extend_adds {bound fuel : ℕ} (hf : Feeds trie fed bound) (hfuel : bound ≤ fuel + node.length)
    (hnode : node ∈ fed) (h : Ready path p node pk) :
    ∃ pk', extend trie fed fuel path node pk = .ok pk' ∧ Adds (Under fed node) pk pk' := by
  induction fuel generalizing path p node pk with
  | zero =>
    have hdepth := hf.depth node hnode
    omega
  | succ fuel ih =>
    obtain ⟨tokens, hget, hnodup, htokens⟩ := hf.tokens node hnode
    have hunder : ∀ m, _ := fun m => @under_iff trie fed node m tokens bound hf hnode htokens
    have hchild : ∀ token, node ++ [token] ∈ fed → ∀ {path p pk}, Ready path p (node ++ [token]) pk →
        ∃ pk', extend trie fed fuel path (node ++ [token]) pk = .ok pk' ∧ Adds (Under fed (node ++ [token])) pk pk' := by
      intro token hmem path p pk hready
      refine ih ?_ hmem hready
      rw [List.length_append, List.length_singleton]
      omega
    -- the children that are fed, by their tokens
    have hfilter : (tokens.map fun token => node ++ [token]).filter (· ∈ fed) =
        (tokens.filter fun token => node ++ [token] ∈ fed).map fun token => node ++ [token] := by
      rw [List.filter_map]
      rfl
    rw [hfilter] at hunder
    have hkept := hnodup.filter fun token => decide (node ++ [token] ∈ fed)
    have hfed : ∀ token ∈ tokens.filter fun token => node ++ [token] ∈ fed, node ++ [token] ∈ fed :=
      fun token htoken => of_decide_eq_true (List.mem_filter.1 htoken).2
    unfold extend
    dsimp only
    rw [h.here, hget]
    dsimp only
    rw [hfilter]
    have hroot := h.adds
    cases hlist : tokens.filter fun token => node ++ [token] ∈ fed with
    | nil =>
      rw [hlist] at hunder
      refine ⟨_, rfl, hroot.placed, hroot.full, hroot.keeps, fun m => ?_⟩
      rw [hroot.holds, hunder]
      simp
    | cons token rest =>
      rw [hlist] at hunder hkept hfed
      obtain ⟨hnew, hrestNodup⟩ := List.nodup_cons.1 hkept
      obtain ⟨htoken, hrestFed⟩ := List.forall_mem_cons.1 hfed
      obtain ⟨middle, hrun, hadds⟩ := hchild token htoken h.first
      have hboth : Adds (fun m => m = node ∨ Under fed (node ++ [token]) m) pk middle :=
        hroot.trans hadds fun m => Iff.rfl
      have hfresh : ∀ other ∈ rest, ∀ m, node ++ [other] <+: m → ¬ Holds middle.paths m := by
        intro other hother m hm hheld
        have hle := (List.prefix_append node [other]).trans hm
        cases (hboth.holds m).1 hheld with
        | inl hheld => exact h.fresh m hle hheld
        | inr hkind =>
          cases hkind with
          | inl heq =>
            have hlen := hm.length_le
            rw [heq, List.length_append, List.length_singleton] at hlen
            omega
          | inr hunder => exact hnew (child_unique hunder.2 hm ▸ hother)
      obtain ⟨pk', hrest, hmore⟩ := siblings_adds hrestNodup
        (fun other hother pk hready => hchild other (hrestFed other hother) hready) hboth.placed hboth.full
        ((hboth.holds node).2 (.inr (.inl rfl))) hfresh
      refine ⟨pk', ?_, hboth.trans hmore fun m => ?_⟩
      · rw [List.map_cons]
        dsimp only
        rw [hrun]
        exact hrest
      · rw [hunder, List.map_cons]
        simp only [List.mem_cons, exists_eq_or_imp, or_assoc]

end Quail.Labels
