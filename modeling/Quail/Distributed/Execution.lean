import Quail.Distributed.Coordinator
import Quail.Planner.BalancedShards

/-!
# Execution on several GPUs

`DistributedQuailExecution` of `backends/quail/distributed.py`: a document stays on the worker that holds its KV. Each
group of model nodes runs on every worker over that worker's share of the group's documents. The executor of one
worker is a parameter; an answer of it depends on its own document.
-/

namespace Quail.Distributed
open Copies Arrays Planner

variable {γ τ : Type}

/-! ## The source -/

/-- `DistributedQuailExecution`: the tables, the tokens of their documents, and the worker of each document, none
before it is placed. -/
structure Execution where
  gpus : ℕ
  aliases : List Alias
  lengths : Alias → List ℕ
  owners : Alias → ℕ → Option ℕ

namespace Execution

/-- `self.owners[alias][shard] = worker` -/
def own (e : Execution) (a : Alias) (shard : List ℕ) (worker : ℕ) : Execution :=
  { e with owners := fun b document => if b = a ∧ document ∈ shard then some worker else e.owners b document }

/-- Give each shard to its worker. -/
def place (e : Execution) (a : Alias) (shards : List (List ℕ)) : Execution :=
  shards.zipIdx.foldl (fun e shard => e.own a shard.1 shard.2) e

/-- `__init__`: the shards of the scans, then those of the stop keys, of the tables whose filters have one. -/
def start (gpus : ℕ) (aliases : List Alias) (lengths : Alias → List ℕ) (scans : List (Alias × List (List ℕ)))
    (stops : List (Alias × List ℕ)) : Except PyError Execution :=
  let e := scans.foldl (fun e scan => if scan.2.length = gpus then e.place scan.1 scan.2 else e)
    ⟨gpus, aliases, lengths, fun _ _ => none⟩
  stops.foldlM (fun e stop => do return e.place stop.1 (← keyedShards stop.2 (lengths stop.1) gpus)) e

/-- Each worker's documents among ids, placing the unplaced ones (`_shards`). -/
def shards (e : Execution) (a : Alias) (ids : List ℕ) : Except PyError (List (List ℕ) × Execution) := do
  let missing := ids.filter fun document => (e.owners a document).isNone
  let (shards, _) ← balancedShards (missing.map fun document => (e.lengths a).getD document 0) e.gpus
  let e := e.place a (← shards.mapM (pick missing))
  return ((List.range e.gpus).map fun worker => ids.filter fun document => e.owners a document = some worker, e)

end Execution

/-- A group of model nodes, a pipeline or one node, and the alias its documents belong to. -/
structure Group where
  table : Alias
  nodes : List Node
  distinct : (nodes.map Node.nodeId).Nodup
  named : ∀ node ∈ nodes, (node.outputs.map OutputPort.name).Nodup

/-- The inputs of a group's nodes, by port. -/
abbrev Inputs (γ : Type) := Dict NodeId (Dict String (Value γ))

/-- The documents a port of the group's first node names, or `none` when it names none of the alias. -/
def sourceOf (a : Alias) (port : InputPort) (value : Value γ) : Option (Except PyError (List ℕ)) :=
  match value with
  | .rows rows => if port.sourcePort = .rows a ∨ a ∈ rows.aliases then some (rows.column a) else none
  | _ => if port.sourcePort = .rows a then some value.documentIds else none

/-- `ids`: the group's input documents, from the first port that names them. -/
def sourceIds (group : Group) (inputs : Inputs γ) : Except PyError (List ℕ) := do
  match group.nodes with
  | [] => .error (.index "tuple index out of range")
  | first :: _ =>
    let given ← lookup inputs first.nodeId
    match first.inputs.findSome? fun port => (given.get? port.name).bind (sourceOf group.table port) with
    | none => .error (.runtime "StopIteration")
    | some ids => ids

/-- The inputs that one worker's documents need. -/
def shardInputs (group : Group) (inputs : Inputs γ) (shard : List ℕ) : Except PyError (Inputs γ) :=
  group.nodes.foldlM (fun sub node => do
    let given ← lookup inputs node.nodeId
    let cut ← node.inputs.foldlM (fun cut port => do
      match given.get? port.name with
      | none => return cut
      | some value => return cut.set port.name (← shardInput port value group.table shard)) Dict.empty
    return sub.set node.nodeId cut) Dict.empty

/-- What a worker returns of a group: its results, and the documents whose KV it retained, by alias. -/
structure Output (γ : Type) where
  results : Results γ
  retained : List (Alias × ℕ)

/-- `self.owners[retained][document] = worker` -/
def Execution.retain (e : Execution) (worker : ℕ) (key : Alias × ℕ) : Execution :=
  if key.1 ∈ e.aliases then e.own key.1 [key.2] worker else e

/-- `_execute`: shard the group's inputs, run the round, note what the workers retained, and merge. -/
def Execution.execute (e : Execution) (round : List (Inputs γ) → List (Output γ)) (group : Group) (inputs : Inputs γ) :
    Except PyError (Results γ × Execution) := do
  let ids ← sourceIds group inputs
  let (shards, e) ← e.shards group.table ids
  let outputs := round (← shards.mapM (shardInputs group inputs))
  let e := outputs.zipIdx.foldl (fun e output => output.1.retained.foldl (fun e key => e.retain output.2 key) e) e
  return (← mergeResults group.nodes (outputs.map Output.results) group.table ids, e)

/-! ## Placed documents -/

/-- Every placed document is on one of the workers. -/
def Placed (e : Execution) : Prop := ∀ a document worker, e.owners a document = some worker → worker < e.gpus

namespace Execution

variable {e : Execution} {a b : Alias} {document worker : ℕ} {ids : List ℕ}

lemma place_append {parts : List (List ℕ)} {shard : List ℕ} :
    e.place a (parts ++ [shard]) = (e.place a parts).own a shard parts.length := by
  rw [place, List.zipIdx_append, List.foldl_append, List.zipIdx_singleton, Nat.zero_add]
  rfl

lemma place_gpus {parts : List (List ℕ)} : (e.place a parts).gpus = e.gpus ∧ (e.place a parts).aliases = e.aliases ∧
    (e.place a parts).lengths = e.lengths := by
  induction parts using List.reverseRecOn with
  | nil => exact ⟨rfl, rfl, rfl⟩
  | append_singleton parts shard ih => rw [place_append]; exact ih

/-- A document in one of the shards goes to the worker of one that it is in, and any other stays. -/
lemma place_spec {parts : List (List ℕ)} :
    (b = a ∧ ∃ worker shard, parts[worker]? = some shard ∧ document ∈ shard ∧
      (e.place a parts).owners b document = some worker) ∨
    ((b = a → ∀ shard ∈ parts, document ∉ shard) ∧ (e.place a parts).owners b document = e.owners b document) := by
  induction parts using List.reverseRecOn with
  | nil => exact .inr ⟨fun _ shard hshard => (by cases hshard), rfl⟩
  | append_singleton parts shard ih =>
    rw [place_append]
    by_cases hown : b = a ∧ document ∈ shard
    · refine .inl ⟨hown.1, parts.length, shard, List.getElem?_concat_length, hown.2, ?_⟩
      exact if_pos hown
    · have hsame : ((e.place a parts).own a shard parts.length).owners b document = (e.place a parts).owners b document :=
        if_neg hown
      rw [hsame]
      obtain ⟨hb, worker, found, hworker, hmem, howner⟩ | ⟨hnone, howner⟩ := ih
      · refine .inl ⟨hb, worker, found, ?_, hmem, howner⟩
        rw [List.getElem?_append_left (List.getElem?_eq_some_iff.1 hworker).1, hworker]
      · refine .inr ⟨fun hb other hother => ?_, howner⟩
        obtain hother | hother := List.mem_append.1 hother
        · exact hnone hb other hother
        · rw [List.mem_singleton.1 hother]
          exact fun hmem => hown ⟨hb, hmem⟩

lemma placed_place {parts : List (List ℕ)} (h : Placed e) (hparts : parts.length ≤ e.gpus) : Placed (e.place a parts) := by
  intro b document worker howner
  rw [place_gpus.1]
  obtain ⟨-, found, shard, hfound, -, hplaced⟩ | ⟨-, hsame⟩ := @place_spec e a b document parts
  · rw [hplaced] at howner
    rw [← Option.some.inj howner]
    exact lt_of_lt_of_le (List.getElem?_eq_some_iff.1 hfound).1 hparts
  · exact h b document worker (hsame ▸ howner)

/-- `_shards` returns: every document among ids has one worker, that of its KV when it had one. -/
theorem shards_spec (hgpus : 0 < e.gpus) (h : Placed e) : ∃ e', e.shards a ids =
      .ok ((List.range e.gpus).map fun worker => ids.filter fun document => e'.owners a document = some worker, e') ∧
    Placed e' ∧ e'.gpus = e.gpus ∧ e'.aliases = e.aliases ∧
    (∀ document ∈ ids, ∃ worker < e.gpus, e'.owners a document = some worker) ∧
    ∀ b document worker, e.owners b document = some worker → e'.owners b document = some worker := by
  let missing := ids.filter fun document => (e.owners a document).isNone
  obtain ⟨parts, loads, hrun, hbalanced⟩ :=
    exists_balanced (missing.map fun document => (e.lengths a).getD document 0) hgpus
  have hlt : ∀ part ∈ parts, ∀ i ∈ part, i < missing.length := by
    intro part hpart i hi
    have hmem := hbalanced.documents.mem_iff.1 (List.mem_flatten.2 ⟨part, hpart, hi⟩)
    rwa [List.length_map, List.mem_range] at hmem
  have hpick : parts.mapM (pick missing) = .ok (parts.map (Argsort.take missing)) :=
    mapM_returns fun part hpart => pick_eq_take (hlt part hpart)
  have hlength : (parts.map (Argsort.take missing)).length ≤ e.gpus := by
    rw [List.length_map, hbalanced.workers]
  refine ⟨e.place a (parts.map (Argsort.take missing)), ?_, placed_place h hlength, place_gpus.1, place_gpus.2.1, ?_, ?_⟩
  · rw [shards, hrun, ok_bind]
    simp only [missing] at hpick
    simp only [hpick, ok_bind, pure, Except.pure, place_gpus.1, missing]
  · -- a document that had no worker is in one of the shards that were placed
    intro document hdocument
    obtain ⟨-, worker, shard, hworker, -, howner⟩ | ⟨hnone, hsame⟩ :=
      @place_spec e a a document (parts.map (Argsort.take missing))
    · exact ⟨worker, lt_of_lt_of_le (List.getElem?_eq_some_iff.1 hworker).1 hlength, howner⟩
    · cases howner : e.owners a document with
      | some worker => exact ⟨worker, h a document worker howner, hsame.trans howner⟩
      | none =>
        have hmissing : document ∈ missing := List.mem_filter.2 ⟨hdocument, by rw [howner]; rfl⟩
        obtain ⟨i, hi⟩ := List.mem_iff_getElem?.1 hmissing
        have hrange : i ∈ List.range (missing.map fun document => (e.lengths a).getD document 0).length := by
          rw [List.length_map]
          exact List.mem_range.2 (List.getElem?_eq_some_iff.1 hi).1
        obtain ⟨part, hpart, hmem⟩ := List.mem_flatten.1 (hbalanced.documents.mem_iff.2 hrange)
        exact absurd (List.mem_filterMap.2 ⟨i, hmem, hi⟩) (hnone rfl _ (List.mem_map_of_mem hpart))
  · -- one that had a worker is in none of them
    intro b document worker howner
    obtain ⟨hb, found, shard, hshard, hmem, -⟩ | ⟨-, hsame⟩ := @place_spec e a b document (parts.map (Argsort.take missing))
    · obtain ⟨part, -, rfl⟩ := List.mem_map.1 (List.mem_of_getElem? hshard)
      obtain ⟨i, -, hi⟩ := List.mem_filterMap.1 hmem
      have hmissing := (List.mem_filter.1 (List.mem_of_getElem? hi)).2
      rw [← hb, howner] at hmissing
      cases hmissing
    · exact hsame.trans howner

end Execution

/-! ## One group -/

/-- One worker's part of a table of answers: the rows of its own documents, as they are in the whole. -/
structure TablePart (a : Alias) (ids shard : List ℕ) (whole part : Table τ) : Prop where
  column : a ∈ whole.aliases
  aliases : part.aliases = whole.aliases
  columns : part.columns = whole.columns
  documents : ∀ row ∈ whole.rows, row.1 a ∈ ids
  rows : ∀ document, documentRows part a document = if document ∈ shard then documentRows whole a document else []

/-- What one worker gives at a port, of what it would give on all the documents. -/
def PartOf (a : Alias) (ids : List ℕ) (kind : ValueType) (whole : Value γ) (shard : List ℕ) (part : Value γ) : Prop :=
  match kind with
  | .rows => ∃ t t', whole.rowsOf a = .ok t ∧ part.rowsOf a = .ok t' ∧ TablePart a ids shard t t'
  | .pairs => ∃ t t', Value.pairs? whole = .ok t ∧ Value.pairs? part = .ok t' ∧ TablePart a ids shard t t'
  | .filterAnswers =>
    ∃ t t', Value.filterAnswers? whole = .ok t ∧ Value.filterAnswers? part = .ok t' ∧ TablePart a ids shard t t'
  | .joinAnswers => ∃ record record', Value.joinRecord? whole = .ok record ∧ Value.joinRecord? part = .ok record' ∧
    Alike record record' ∧ Bounded record' ∧
    ∃ t t', record.table = .ok t ∧ record'.table = .ok t' ∧ TablePart a ids shard t t'
  | .tuples => False

/-- What several GPUs give at a port, of what one gives: the rows of each document, in the order of the group's input
documents; a join's answers are a record of the same rows. -/
def Merged (a : Alias) (ids : List ℕ) (kind : ValueType) (whole merged : Value γ) : Prop :=
  match kind with
  | .rows => ∃ t, whole.rowsOf a = .ok t ∧ merged = .rows { t with rows := ids.dedup.flatMap (documentRows t a) }
  | .pairs => ∃ t, Value.pairs? whole = .ok t ∧ merged = .pairs { t with rows := ids.dedup.flatMap (documentRows t a) }
  | .filterAnswers => ∃ t, Value.filterAnswers? whole = .ok t ∧
    merged = .filterAnswers { t with rows := ids.dedup.flatMap (documentRows t a) }
  | .joinAnswers => ∃ record record' t t', Value.joinRecord? whole = .ok record ∧ merged = .joinRecord record' ∧
    record.table = .ok t ∧ record'.table = .ok t' ∧ t'.aliases = t.aliases ∧ t'.rows.Perm t.rows ∧
    ∀ document, documentRows t' a document = documentRows t a document
  | .tuples => False

/-- The workers' shares of some documents. -/
def shares (gpus : ℕ) (owner : ℕ → Option ℕ) (ids : List ℕ) : List (List ℕ) :=
  (List.range gpus).map fun worker => ids.filter fun document => owner document = some worker

section

variable {a : Alias} {ids : List ℕ} {gpus : ℕ} {owner : ℕ → Option ℕ}

lemma mem_shares {shard : List ℕ} {document : ℕ} (hshard : shard ∈ shares gpus owner ids) (h : document ∈ shard) :
    document ∈ ids := by
  obtain ⟨worker, -, rfl⟩ := List.mem_map.1 hshard
  exact List.mem_of_mem_filter h

/-- A document that has a worker is in one share. -/
lemma flatMap_shares {β : Type} {document worker : ℕ} {rows : List β} (hmem : document ∈ ids) (hworker : worker < gpus)
    (howner : owner document = some worker) :
    ((shares gpus owner ids).flatMap fun shard => if document ∈ shard then rows else []) = rows := by
  have hshare : ∀ other, document ∈ ids.filter (fun document => owner document = some other) ↔ worker = other := by
    intro other
    rw [List.mem_filter, howner]
    simp [hmem]
  have hrun : ∀ n, ((List.range n).flatMap fun other => if worker = other then rows else []) =
      if worker < n then rows else [] := by
    intro n
    induction n with
    | zero => rfl
    | succ n ih =>
      rw [List.range_succ, List.flatMap_append, ih, List.flatMap_singleton]
      by_cases hlt : worker < n
      · rw [if_pos hlt, if_neg (Nat.ne_of_lt hlt), if_pos (Nat.lt_succ_of_lt hlt), List.append_nil]
      · by_cases heq : worker = n
        · rw [if_neg hlt, if_pos heq, if_pos (heq ▸ Nat.lt_succ_self n), List.nil_append]
        · rw [if_neg hlt, if_neg heq, if_neg (by omega), List.append_nil]
  rw [shares, List.flatMap_map]
  simp only [hshare]
  rw [hrun, if_pos hworker]

lemma exists_pair {α β : Type} {R : α → β → Prop} {xs : List α} {ys : List β} (hne : xs ≠ []) (h : List.Forall₂ R xs ys) :
    ∃ x y, R x y := by
  cases h with
  | nil => exact absurd rfl hne
  | cons h _ => exact ⟨_, _, h⟩

/-- The shares' parts of a table have each document's rows once. -/
lemma flatMap_parts {whole : Table τ} {parts : List (Table τ)}
    (howned : ∀ document ∈ ids, ∃ worker < gpus, owner document = some worker) (hne : shares gpus owner ids ≠ [])
    (hparts : List.Forall₂ (fun shard part => TablePart a ids shard whole part) (shares gpus owner ids) parts) :
    ∀ document, (parts.flatMap fun part => documentRows part a document) = documentRows whole a document := by
  intro document
  have hflat : ∀ {shards : List (List ℕ)} {parts : List (Table τ)},
      List.Forall₂ (fun shard part => TablePart a ids shard whole part) shards parts →
      (parts.flatMap fun part => documentRows part a document) =
        shards.flatMap fun shard => if document ∈ shard then documentRows whole a document else [] := by
    intro shards parts h
    induction h with
    | nil => rfl
    | cons hpart _ ih => rw [List.flatMap_cons, List.flatMap_cons, hpart.rows, ih]
  rw [hflat hparts]
  by_cases hmem : document ∈ ids
  · obtain ⟨worker, hlt, howner⟩ := howned document hmem
    exact flatMap_shares hmem hlt howner
  · -- no row of the whole names a document that is not one of the group's
    obtain ⟨_, part, hpart⟩ := exists_pair hne hparts
    have hnone : documentRows whole a document = [] := List.filter_eq_nil_iff.2 fun row hrow heq =>
      hmem (of_decide_eq_true heq ▸ hpart.documents row hrow)
    rw [hnone]
    simp

/-- The tables of the shares are the parts of the whole. -/
lemma parted {whole : Table τ} {parts : List (Table τ)}
    (howned : ∀ document ∈ ids, ∃ worker < gpus, owner document = some worker) (hne : shares gpus owner ids ≠ [])
    (hparts : List.Forall₂ (fun shard part => TablePart a ids shard whole part) (shares gpus owner ids) parts) :
    Parted a ids whole parts := by
  have hrows := flatMap_parts howned hne hparts
  have halike : ∀ part ∈ parts, ∃ shard ∈ shares gpus owner ids, TablePart a ids shard whole part :=
    fun part hpart => forall₂_exists_left hparts hpart
  refine ⟨fun h => hne ?_, ?_, fun part hpart => ?_, fun part hpart row hrow => ?_, hrows⟩
  · rw [h] at hparts
    exact List.forall₂_nil_right_iff.1 hparts
  · obtain ⟨_, _, hpart⟩ := exists_pair hne hparts
    exact hpart.column
  · obtain ⟨shard, -, h⟩ := halike part hpart
    exact ⟨h.aliases, h.columns⟩
  · obtain ⟨shard, hshard, h⟩ := halike part hpart
    have hmem : row ∈ documentRows part a (row.1 a) := List.mem_filter.2 ⟨hrow, decide_eq_true rfl⟩
    rw [h.rows] at hmem
    split at hmem
    · rename_i hdocument
      exact mem_shares hshard hdocument
    · cases hmem

/-- Values that are related to the shares are read as tables that are. -/
lemma mapM_forall₂ {α β σ : Type} {R : σ → α → Prop} {Q : σ → β → Prop} {f : α → Except PyError β} {ss : List σ} {xs : List α}
    (h : List.Forall₂ R ss xs) (hf : ∀ s x, R s x → ∃ y, f x = .ok y ∧ Q s y) :
    ∃ ys, xs.mapM f = .ok ys ∧ List.Forall₂ Q ss ys := by
  induction h with
  | nil => exact ⟨[], rfl, .nil⟩
  | @cons s x ss xs hx _ ih =>
    obtain ⟨y, hy, hQ⟩ := hf s x hx
    obtain ⟨ys, hys, hrest⟩ := ih
    exact ⟨y :: ys, by rw [List.mapM_cons, hy, hys]; rfl, .cons hQ hrest⟩

/-- The shares' values of a table port, read as tables, are parts of the whole's table. -/
lemma readParts {f : Value γ → Except PyError (Table τ)} {whole : Value γ} {parts : List (Value γ)}
    (howned : ∀ document ∈ ids, ∃ worker < gpus, owner document = some worker) (hne : shares gpus owner ids ≠ [])
    (hparts : List.Forall₂ (fun shard part => ∃ t t', f whole = .ok t ∧ f part = .ok t' ∧ TablePart a ids shard t t')
      (shares gpus owner ids) parts) :
    ∃ t tables, f whole = .ok t ∧ parts.mapM f = .ok tables ∧ Parted a ids t tables := by
  obtain ⟨_, _, t, _, ht, -⟩ := exists_pair hne hparts
  obtain ⟨tables, hread, htables⟩ := mapM_forall₂ (Q := fun shard part => TablePart a ids shard t part) hparts
    fun shard part h => by
      obtain ⟨t₁, t', ht₁, ht', hpart⟩ := h
      rw [Except.ok.inj (ht.symm.trans ht₁)]
      exact ⟨t', ht', hpart⟩
  exact ⟨t, tables, ht, hread, parted howned hne htables⟩

/-- Tables with the same rows of every document have the same rows. -/
lemma perm_of_documentRows {t t' : Table τ} (h : ∀ document, documentRows t a document = documentRows t' a document) :
    t.rows.Perm t'.rows := by
  classical
  refine List.perm_iff_count.2 fun row => ?_
  have hown : ∀ rows : List ((Alias → ℕ) × τ),
      (rows.filter fun other => decide (other.1 a = row.1 a)).count row = rows.count row := fun rows =>
    List.count_filter (p := fun other : (Alias → ℕ) × τ => decide (other.1 a = row.1 a)) (decide_eq_true rfl)
  have hcount := congrArg (List.count row) (h (row.1 a))
  rwa [documentRows, documentRows, hown, hown] at hcount

/-- The workers' values of a port merge to what one worker gives. -/
theorem merge_spec {port : OutputPort} {whole : Value γ} {parts : List (Value γ)}
    (howned : ∀ document ∈ ids, ∃ worker < gpus, owner document = some worker) (hne : shares gpus owner ids ≠ [])
    (hparts : List.Forall₂ (PartOf a ids port.valueType whole) (shares gpus owner ids) parts) :
    ∃ merged, merge a ids port parts = .ok merged ∧ Merged a ids port.valueType whole merged := by
  rw [merge]
  cases hkind : port.valueType with
  | rows =>
    rw [hkind] at hparts
    obtain ⟨t, tables, ht, hread, hparted⟩ := readParts howned hne hparts
    exact ⟨_, by simp only [hread, ok_bind, hparted.concatRows, hparted.inOrder]; rfl, t, ht, rfl⟩
  | pairs =>
    rw [hkind] at hparts
    obtain ⟨t, tables, ht, hread, hparted⟩ := readParts howned hne hparts
    exact ⟨_, by simp only [hread, ok_bind, hparted.concatTables, hparted.inOrder]; rfl, t, ht, rfl⟩
  | filterAnswers =>
    rw [hkind] at hparts
    obtain ⟨t, tables, ht, hread, hparted⟩ := readParts howned hne hparts
    exact ⟨_, by simp only [hread, ok_bind, hparted.concatTables, hparted.inOrder]; rfl, t, ht, rfl⟩
  | joinAnswers =>
    rw [hkind] at hparts
    obtain ⟨_, _, record, _, hrecord, -, -, -, t, _, ht, -⟩ := exists_pair hne hparts
    obtain ⟨records, hread, hrecords⟩ := mapM_forall₂ (f := Value.joinRecord?) (Q := fun shard part =>
      (Alike record part ∧ Bounded part) ∧ ∃ t', part.table = .ok t' ∧ TablePart a ids shard t t') hparts
      fun shard part h => by
        obtain ⟨record₁, record', hrecord₁, hrecord', halike, hbounded, t₁, t', ht₁, ht', hpart⟩ := h
        obtain rfl := Except.ok.inj (hrecord.symm.trans hrecord₁)
        obtain rfl := Except.ok.inj (ht.symm.trans ht₁)
        exact ⟨record', hrecord', ⟨halike, hbounded⟩, t', ht', hpart⟩
    obtain ⟨tables, htables, hdivided⟩ := mapM_forall₂ (f := JoinRecord.table)
      (Q := fun shard table => TablePart a ids shard t table) hrecords fun shard part h => h.2
    have hparted := parted howned hne hdivided
    have halike : ∀ part ∈ records, Alike record part ∧ Bounded part := fun part hpart => by
      obtain ⟨_, _, h⟩ := forall₂_exists_left hrecords hpart
      exact h.1
    have hrecordsNe : records ≠ [] := fun h => hne (List.forall₂_nil_right_iff.1 (h ▸ hrecords))
    obtain ⟨merged, hmerge, -, -, htable⟩ := mergeJoinAnswers_spec hrecordsNe halike (forall₂_of_mapM htables)
    have hrows : ∀ document, documentRows ⟨record.anchor :: record.partners, 1, tables.flatMap Table.rows⟩ a document =
        documentRows t a document := fun document => by
      rw [← hparted.rows document, documentRows, List.filter_flatMap]
      rfl
    obtain ⟨owners, members, hanswered⟩ := exists_answered ht
    refine ⟨_, by simp only [hread, ok_bind, hmerge]; rfl, record, merged, t, _, hrecord, rfl, ht, htable, ?_, ?_, hrows⟩
    · rw [← Except.ok.inj (hanswered.table.symm.trans ht)]
    · exact perm_of_documentRows hrows
  | tuples =>
    rw [hkind] at hparts
    obtain ⟨_, _, h⟩ := exists_pair hne hparts
    exact h.elim

end

/-! ## The results of a group -/

/-- A dictionary filled by a loop, one key for each element. -/
lemma foldlM_set {α β κ : Type} [DecidableEq κ] {key : α → κ} {f : α → Except PyError β} {P : α → β → Prop} {xs : List α}
    (hnodup : (xs.map key).Nodup) (h : ∀ x ∈ xs, ∃ v, f x = .ok v ∧ P x v) : ∀ d : Dict κ β,
    ∃ d', xs.foldlM (fun d x => do return d.set (key x) (← f x)) d = .ok d' ∧
      (∀ x ∈ xs, ∃ v, d'.get? (key x) = some v ∧ P x v) ∧ ∀ k ∉ xs.map key, d'.get? k = d.get? k := by
  induction xs with
  | nil => exact fun d => ⟨d, rfl, fun x hx => (by cases hx), fun _ _ => rfl⟩
  | cons x xs ih =>
    intro d
    obtain ⟨hkey, hnodup⟩ := List.nodup_cons.1 hnodup
    obtain ⟨⟨v, hv, hP⟩, h⟩ := List.forall_mem_cons.1 h
    obtain ⟨d', hrun, hfilled, hkept⟩ := ih hnodup h (d.set (key x) v)
    refine ⟨d', ?_, List.forall_mem_cons.2 ⟨⟨v, ?_, hP⟩, hfilled⟩, fun k hk => ?_⟩
    · rw [List.foldlM_cons, hv]
      exact hrun
    · rw [hkept _ hkey, Dict.get?_set_self]
    · rw [List.map_cons, List.mem_cons, not_or] at hk
      rw [hkept k hk.2, Dict.get?_set_ne fun heq => hk.1 heq.symm]

/-- `merge_results` returns when every port's values merge, with what they merge to. -/
lemma mergeResults_spec {group : Group} {outputs : List (Results γ)} {ids : List ℕ} {P : Node → OutputPort → Value γ → Prop}
    (h : ∀ node ∈ group.nodes, ∀ port ∈ node.outputs, ∃ values merged,
      (outputs.mapM fun output : Results γ => output.output node.nodeId port.name) = .ok values ∧
        merge group.table ids port values = .ok merged ∧ P node port merged) :
    ∃ results, mergeResults group.nodes outputs group.table ids = .ok results ∧
      ∀ node ∈ group.nodes, ∀ port ∈ node.outputs, ∃ merged, results.output node.nodeId port.name = .ok merged ∧
        P node port merged := by
  have hnode : ∀ node ∈ group.nodes, ∃ merged : Dict PortName (Value γ),
      (node.outputs.foldlM (fun merged port => do
        let values ← outputs.mapM fun output : Results γ => output.output node.nodeId port.name
        return merged.set port.name (← merge group.table ids port values)) Dict.empty) = .ok merged ∧
      ∀ port ∈ node.outputs, ∃ v, merged.get? port.name = some v ∧ P node port v := by
    intro node hmem
    have hports : ∀ port ∈ node.outputs, ∃ v, (do
        let values ← outputs.mapM fun output : Results γ => output.output node.nodeId port.name
        merge group.table ids port values) = .ok v ∧ P node port v := fun port hport => by
      obtain ⟨values, merged, hvalues, hmerge, hP⟩ := h node hmem port hport
      exact ⟨merged, by rw [hvalues]; exact hmerge, hP⟩
    obtain ⟨merged, hrun, hfilled, -⟩ := foldlM_set (group.named node hmem) hports Dict.empty
    refine ⟨merged, ?_, hfilled⟩
    rw [← hrun]
    refine congrArg (fun f => node.outputs.foldlM f Dict.empty) (funext fun d => funext fun port => ?_)
    cases outputs.mapM fun output : Results γ => output.output node.nodeId port.name with
    | error e => rfl
    | ok values => rfl
  obtain ⟨results, hrun, hfilled, -⟩ := foldlM_set group.distinct hnode Dict.empty
  refine ⟨results, hrun, fun node hmem port hport => ?_⟩
  obtain ⟨merged, hmerged, hports⟩ := hfilled node hmem
  obtain ⟨v, hv, hP⟩ := hports port hport
  exact ⟨v, by rw [Results.output, lookup, hmerged]; simp only [ok_bind, hv], hP⟩

/-! ## Runs -/

/-- An executor's answers depend on their own documents: the inputs can be cut for any documents, and what it then
gives at each port are those documents' rows of what it gives on all of them. -/
structure Local (run : Inputs γ → Results γ) (group : Group) (inputs : Inputs γ) (ids : List ℕ) : Prop where
  cut : ∀ shard, ∃ sub, shardInputs group inputs shard = .ok sub
  parts : ∀ shard sub, shardInputs group inputs shard = .ok sub → ∀ node ∈ group.nodes, ∀ port ∈ node.outputs,
    ∃ whole part, (run inputs).output node.nodeId port.name = .ok whole ∧
      (run sub).output node.nodeId port.name = .ok part ∧ PartOf group.table ids port.valueType whole shard part

/-- A round runs the executor on every worker's inputs; what the workers retain is up to them. -/
def Runs (run : Inputs γ → Results γ) (round : List (Inputs γ) → List (Output γ)) : Prop :=
  ∀ subs, (round subs).map Output.results = subs.map run

/-- The states of a query on several GPUs, after any groups and any retention. -/
inductive Reached (γ : Type) (gpus : ℕ) : Execution → Prop
  | start {aliases : List Alias} {lengths : Alias → List ℕ} {scans : List (Alias × List (List ℕ))}
    {stops : List (Alias × List ℕ)} {e : Execution} : Execution.start gpus aliases lengths scans stops = .ok e →
    Reached γ gpus e
  | execute {e e' : Execution} {run : Inputs γ → Results γ} {round : List (Inputs γ) → List (Output γ)} {group : Group}
    {inputs : Inputs γ} {results : Results γ} : Reached γ gpus e → Runs run round →
    e.execute round group inputs = .ok (results, e') → Reached γ gpus e'

namespace Execution

variable {e e' : Execution} {gpus : ℕ}

lemma own_placed {a : Alias} {shard : List ℕ} {worker : ℕ} (h : Placed e) (hworker : worker < e.gpus) :
    Placed (e.own a shard worker) := by
  intro b document other howner
  by_cases hown : b = a ∧ document ∈ shard
  · have hsame : (e.own a shard worker).owners b document = some worker := if_pos hown
    rw [hsame] at howner
    exact Option.some.inj howner ▸ hworker
  · have hsame : (e.own a shard worker).owners b document = e.owners b document := if_neg hown
    exact h b document other (hsame ▸ howner)

/-- Documents that workers retained are on workers. -/
lemma retain_placed {outputs : List (Output γ × ℕ)} : ∀ {e : Execution}, Placed e → (∀ output ∈ outputs, output.2 < e.gpus) →
    Placed (outputs.foldl (fun e output => output.1.retained.foldl (fun e key => e.retain output.2 key) e) e) ∧
    (outputs.foldl (fun e output => output.1.retained.foldl (fun e key => e.retain output.2 key) e) e).gpus = e.gpus := by
  have hkeys : ∀ (worker : ℕ) (keys : List (Alias × ℕ)) (e : Execution), Placed e → worker < e.gpus →
      Placed (keys.foldl (fun e key => e.retain worker key) e) ∧
        (keys.foldl (fun e key => e.retain worker key) e).gpus = e.gpus := by
    intro worker keys
    induction keys with
    | nil => exact fun e h _ => ⟨h, rfl⟩
    | cons key keys ih =>
      intro e h hworker
      have hnext : Placed (e.retain worker key) ∧ (e.retain worker key).gpus = e.gpus := by
        rw [retain]
        split
        · exact ⟨own_placed h hworker, rfl⟩
        · exact ⟨h, rfl⟩
      obtain ⟨hplaced, hgpus⟩ := ih _ hnext.1 (hnext.2.symm ▸ hworker)
      exact ⟨hplaced, hgpus.trans hnext.2⟩
  induction outputs with
  | nil => exact fun h _ => ⟨h, rfl⟩
  | cons output outputs ih =>
    intro e h hworkers
    obtain ⟨hworker, hworkers⟩ := List.forall_mem_cons.1 hworkers
    obtain ⟨hplaced, hgpus⟩ := hkeys output.2 output.1.retained e h hworker
    obtain ⟨hlast, hlastGpus⟩ := ih hplaced fun output hmem => hgpus.symm ▸ hworkers output hmem
    exact ⟨hlast, hlastGpus.trans hgpus⟩

lemma start_placed {aliases : List Alias} {lengths : Alias → List ℕ} {scans : List (Alias × List (List ℕ))}
    {stops : List (Alias × List ℕ)} (h : start gpus aliases lengths scans stops = .ok e) : Placed e ∧ e.gpus = gpus := by
  rw [start] at h
  have hscans : ∀ {scans : List (Alias × List (List ℕ))} {e : Execution}, Placed e → e.gpus = gpus →
      Placed (scans.foldl (fun e scan => if scan.2.length = gpus then e.place scan.1 scan.2 else e) e) ∧
        (scans.foldl (fun e scan => if scan.2.length = gpus then e.place scan.1 scan.2 else e) e).gpus = gpus := by
    intro scans
    induction scans with
    | nil => exact fun h hgpus => ⟨h, hgpus⟩
    | cons scan scans ih =>
      intro e h hgpus
      rw [List.foldl_cons]
      split
      · rename_i hlength
        exact ih (placed_place h (hgpus ▸ hlength.le)) (place_gpus.1.trans hgpus)
      · exact ih h hgpus
  have hfirst : Placed ⟨gpus, aliases, lengths, fun _ _ => none⟩ := fun a document worker h => by cases h
  refine foldlM_ok (fun _ (e : Execution) => Placed e ∧ e.gpus = gpus) (hscans hfirst rfl) ?_ h
  rintro _ e e' stop - ⟨hplaced, hgpus⟩ hstep
  obtain ⟨shards, hshards, hstep⟩ := bind_eq_ok hstep
  obtain rfl := Except.ok.inj hstep
  exact ⟨placed_place hplaced (hgpus ▸ (keyedShards_length hshards).le), place_gpus.1.trans hgpus⟩

end Execution

lemma Runs.length {run : Inputs γ → Results γ} {round : List (Inputs γ) → List (Output γ)} (h : Runs run round)
    (subs : List (Inputs γ)) : (round subs).length = subs.length := by
  have hlength := congrArg List.length (h subs)
  rwa [List.length_map, List.length_map] at hlength

/-- In every state reached, a placed document is on one of the workers. -/
theorem Reached.placed {gpus : ℕ} {e : Execution} (hgpus : 0 < gpus) (h : Reached γ gpus e) : Placed e ∧ e.gpus = gpus := by
  induction h with
  | start h => exact Execution.start_placed h
  | @execute e e' run round group inputs results _ hruns h ih =>
    obtain ⟨hplaced, hcount⟩ := ih
    rw [Execution.execute] at h
    obtain ⟨ids, -, h⟩ := bind_eq_ok h
    obtain ⟨e₁, hshards, hplaced₁, hgpus₁, -⟩ := @Execution.shards_spec e group.table ids (hcount ▸ hgpus) hplaced
    rw [hshards, ok_bind] at h
    obtain ⟨subs, hsubs, h⟩ := bind_eq_ok h
    obtain ⟨merged, -, h⟩ := bind_eq_ok h
    obtain ⟨-, rfl⟩ := Prod.mk.inj (Except.ok.inj h)
    have hlength : subs.length = e₁.gpus := by
      rw [← (forall₂_of_mapM hsubs).length_eq, List.length_map, List.length_range, hgpus₁]
    obtain ⟨hlast, hlastGpus⟩ := @Execution.retain_placed γ (round subs).zipIdx e₁ hplaced₁ fun output hmem => by
      have hlt := (List.getElem?_eq_some_iff.1 (List.mem_zipIdx_iff_getElem?.1 hmem)).1
      rwa [hruns.length, hlength] at hlt
    exact ⟨hlast, hlastGpus.trans (hgpus₁.trans hcount)⟩

section

/-- A filter over one table, that reads rows and gives answers. -/
def filterGroup : Group :=
  ⟨"r", [⟨"filter", .aiFilter "r", [⟨"rows", .rows, "scan", .rows "r"⟩], [⟨.filterAnswers "r", .filterAnswers⟩]⟩], by decide, by decide⟩

/-- The documents that come to the filter. -/
def filterInputs (documents : List ℕ) : Inputs ℕ :=
  Dict.empty.set "filter" (Dict.empty.set "rows" (.ids documents))

/-- Answers of the filter: whether a document's number is even. -/
def evenAnswers (documents : List ℕ) : Table (ℕ × Bool) :=
  ⟨["r"], 2, documents.map fun document => (fun _ => document, 0, document % 2 = 0)⟩

/-- The filter on one worker. -/
def runFilter (inputs : Inputs ℕ) : Results ℕ :=
  match inputs.get? "filter" with
  | some given =>
    match given.get? "rows" with
    | some (.ids documents) =>
      Dict.empty.set "filter" (Dict.empty.set (.filterAnswers "r") (.filterAnswers (evenAnswers documents)))
    | _ => Dict.empty
  | none => Dict.empty

lemma evenAnswers_part {documents shard : List ℕ} : TablePart "r" documents shard (evenAnswers documents)
    (evenAnswers (documents.filter (· ∈ shard))) := by
  refine ⟨List.mem_singleton_self _, rfl, rfl, fun row hrow => ?_, fun document => ?_⟩
  · obtain ⟨document, hdocument, rfl⟩ := List.mem_map.1 hrow
    exact hdocument
  · rw [documentRows, documentRows, evenAnswers, evenAnswers, List.filter_map, List.filter_map, List.filter_filter]
    by_cases hmem : document ∈ shard
    · rw [if_pos hmem]
      refine congrArg (List.map _) (List.filter_congr fun other _ => ?_)
      by_cases heq : other = document <;> simp [heq, hmem]
    · rw [if_neg hmem, List.map_eq_nil_iff, List.filter_eq_nil_iff]
      intro other _ h
      simp only [Function.comp_apply, Bool.and_eq_true, decide_eq_true_eq] at h
      exact hmem (h.1 ▸ h.2)

lemma shardInputs_filter {documents shard : List ℕ} :
    shardInputs filterGroup (filterInputs documents) shard = .ok (filterInputs (documents.filter (· ∈ shard))) := rfl

end

end Quail.Distributed
