import Quail.Copies.Deduplicate
import Quail.Lib.Fallible
import Quail.Lib.GroupedSort

/-!
# The coordinator

`backends/quail/coordinator.py`: a group's inputs are cut for the workers, and the workers' outputs are merged, each
by its port type. What the workers give for each document of the group, the merged output has once, in the order of
the group's input documents; a join's answers stay attached to their anchors and partner tuples.
-/

namespace Quail.Distributed
open Copies Arrays Argsort GroupedSort

variable {γ τ : Type}

/-! ## The source -/

/-- The rows of some documents of an alias. -/
def keepRows (t : Table τ) (a : Alias) (ids : List ℕ) : Table τ := { t with rows := t.rows.filter fun row => row.1 a ∈ ids }

/-- An input whose documents are the alias's own, by its port. -/
def shardDocuments (port : InputPort) (value : Value γ) (a : Alias) (ids : List ℕ) : Except PyError (Value γ) :=
  if port.valueType = .rows ∧ port.sourcePort = .rows a then do
    return .ids ((← value.documentIds).filter (· ∈ ids))
  else
    match port.valueType, value with
    | .pairs, .pairs table => .ok (.pairs (if a ∈ table.aliases then keepRows table a ids else table))
    | _, _ => .ok value

/-- The part of one input a worker's documents of the alias need (`shard_input`). -/
def shardInput (port : InputPort) (value : Value γ) (a : Alias) (ids : List ℕ) : Except PyError (Value γ) :=
  match value with
  | .rows rows => if a ∈ rows.aliases then .ok (.rows (keepRows rows a ids)) else shardDocuments port value a ids
  | _ => shardDocuments port value a ids

/-- `position`: the index of each of the group's input documents. -/
def positions (ids : List ℕ) : Dict ℕ ℕ :=
  ids.zipIdx.foldl (fun position e => position.set e.1 e.2) Dict.empty

/-- `order`: a stable sort of rows by their documents' positions. -/
def order (ids documents : List ℕ) : Except PyError (List ℕ) := do
  return sortIndices (· ≤ ·) (← documents.mapM fun document => lookup (positions ids) document)

/-- `Rows.concat`: rows of the aliases of the first part. -/
def concatRows (parts : List (Table τ)) : Except PyError (Table τ) :=
  match parts with
  | [] => .error (.value "no rows to concatenate")
  | first :: _ =>
    match first.aliases.find? fun a => parts.any fun part => a ∉ part.aliases with
    | some a => .error (.key a)
    | none =>
      if parts.all fun part => part.columns = first.columns then .ok { first with rows := parts.flatMap Table.rows }
      else .error (.value "the schemas of the tables differ")

/-- `pa.concat_tables`. -/
def concatTables (parts : List (Table τ)) : Except PyError (Table τ) :=
  match parts with
  | [] => .error (.value "must pass at least one table")
  | first :: _ =>
    if parts.all fun part => part.aliases = first.aliases ∧ part.columns = first.columns then
      .ok { first with rows := parts.flatMap Table.rows }
    else .error (.value "the schemas of the tables differ")

/-- `joined.take(order(joined[alias]))` -/
def inOrder (a : Alias) (ids : List ℕ) (joined : Table τ) : Except PyError (Table τ) := do
  joined.take (← order ids (← joined.column a))

/-- One part of `merge_join_answers`: its anchors follow those before it, and its rows are renamed to match. -/
def mergePart (merged part : JoinRecord) : JoinRecord :=
  let base := merged.anchorIndex.length
  { merged with
    anchorIndex := merged.anchorIndex ++ part.anchorIndex
    rows := part.rows.entries.foldl (fun rows e => rows.set (base + e.1) e.2) merged.rows
    anchorPartners := part.anchorPartners.entries.foldl (fun members e => members.set (base + e.1) e.2) merged.anchorPartners }

/-- Merge answer rows while translating each worker's local anchor indices. -/
def mergeJoinAnswers (parts : List JoinRecord) : Except PyError JoinRecord :=
  match parts with
  | [] => .error (.index "list index out of range")
  | first :: _ =>
    .ok (parts.foldl mergePart { first with anchorIndex := [], rows := Dict.empty, anchorPartners := Dict.empty })

/-- The value of a table port, when it is one. -/
def Value.pairs? : Value γ → Except PyError (Table (List γ))
  | .pairs table => .ok table
  | _ => .error (.type "not a pair table")

@[inherit_doc Value.pairs?]
def Value.filterAnswers? : Value γ → Except PyError (Table (ℕ × Bool))
  | .filterAnswers table => .ok table
  | _ => .error (.type "not a table of filter answers")

@[inherit_doc Value.pairs?]
def Value.joinRecord? : Value γ → Except PyError JoinRecord
  | .joinRecord record => .ok record
  | _ => .error (.type "not a record of join answers")

/-- `merge`: the workers' values of one output port, by its type. -/
def merge (a : Alias) (ids : List ℕ) (port : OutputPort) (values : List (Value γ)) : Except PyError (Value γ) :=
  match port.valueType with
  | .rows => do return .rows (← inOrder a ids (← concatRows (← values.mapM (Value.rowsOf a))))
  | .pairs => do return .pairs (← inOrder a ids (← concatTables (← values.mapM Value.pairs?)))
  | .filterAnswers => do return .filterAnswers (← inOrder a ids (← concatTables (← values.mapM Value.filterAnswers?)))
  | .joinAnswers => do return .joinRecord (← mergeJoinAnswers (← values.mapM Value.joinRecord?))
  | .tuples => .error (.type "cannot merge worker output")

/-- The outputs of a group's nodes. -/
abbrev Results (γ : Type) := Dict NodeId (Dict PortName (Value γ))

/-- `output["results"][node.node_id].outputs[port.name]` -/
def Results.output (results : Results γ) (node : NodeId) (port : PortName) : Except PyError (Value γ) := do
  match (← lookup results node).get? port with
  | none => .error (.key "port")
  | some value => .ok value

/-- One node of `merge_results`. -/
def mergeNode (a : Alias) (ids : List ℕ) (outputs : List (Results γ)) (results : Results γ) (node : Node) :
    Except PyError (Results γ) := do
  let merged ← node.outputs.foldlM (fun merged port => do
    let values ← outputs.mapM fun output => output.output node.nodeId port.name
    return merged.set port.name (← merge a ids port values)) Dict.empty
  return results.set node.nodeId merged

/-- Merge the workers' results of a group, each output by its port type. -/
def mergeResults (nodes : List Node) (outputs : List (Results γ)) (a : Alias) (ids : List ℕ) : Except PyError (Results γ) :=
  nodes.foldlM (mergeNode a ids outputs) Dict.empty

/-! ## Order -/

/-- A table's rows of one document. -/
def documentRows (t : Table τ) (a : Alias) (document : ℕ) : List ((Alias → ℕ) × τ) :=
  t.rows.filter fun row => row.1 a = document

/-- A document is where it comes last in the group's input. -/
lemma positions_spec {ids : List ℕ} {document : ℕ} (h : document ∈ ids) :
    (positions ids).get? document = some (lastIndex 0 ids document) := by
  have hfill : ∀ (keys : List ℕ) (n : ℕ) (d : Dict ℕ ℕ),
      ((keys.zipIdx n).foldl (fun position e => position.set e.1 e.2) d).get? document =
        if document ∈ keys then some (lastIndex n keys document) else d.get? document := by
    intro keys
    induction keys with
    | nil => intro n d; rfl
    | cons key keys ih =>
      intro n d
      rw [List.zipIdx_cons, List.foldl_cons, ih, lastIndex, Dict.get?_set]
      by_cases hmem : document ∈ keys
      · rw [if_pos hmem, if_pos (List.mem_cons_of_mem key hmem), if_pos hmem]
      · rw [if_neg hmem]
        by_cases hkey : key = document
        · rw [if_pos hkey, if_pos (List.mem_cons.2 (.inl hkey.symm)), if_neg hmem]
        · rw [if_neg hkey, if_neg fun h => (List.mem_cons.1 h).elim (fun h => hkey h.symm) hmem]
  rw [positions, hfill, if_pos h]

/-- The positions of documents of the group. -/
lemma mapM_positions {ids documents : List ℕ} (h : ∀ document ∈ documents, document ∈ ids) :
    documents.mapM (fun document => lookup (positions ids) document) = .ok (documents.map (lastIndex 0 ids)) := by
  induction documents with
  | nil => rfl
  | cons document documents ih =>
    obtain ⟨hfirst, hrest⟩ := List.forall_mem_cons.1 h
    rw [List.mapM_cons, ih hrest, lookup, positions_spec hfirst]
    rfl

lemma pick_eq_take {xs : List τ} {ps : List ℕ} (h : ∀ p ∈ ps, p < xs.length) : pick xs ps = .ok (take xs ps) := by
  induction ps with
  | nil => rfl
  | cons p ps ih =>
    obtain ⟨hp, h⟩ := List.forall_mem_cons.1 h
    have hrest := ih h
    have hget := List.getElem?_eq_getElem hp
    have htake : take xs (p :: ps) = xs[p] :: take xs ps := List.filterMap_cons_some hget
    unfold pick at hrest ⊢
    rw [List.mapM_cons, hrest, hget, htake]
    rfl

/-- Rows put in order are the documents' rows, document after document. -/
lemma inOrder_spec {joined : Table τ} {a : Alias} {ids : List ℕ} (ha : a ∈ joined.aliases)
    (hids : ∀ row ∈ joined.rows, row.1 a ∈ ids) :
    inOrder a ids joined = .ok { joined with rows := ids.dedup.flatMap (documentRows joined a) } := by
  have hpositions : ∀ document ∈ joined.rows.map (fun row => row.1 a), document ∈ ids := by
    intro document hdocument
    obtain ⟨row, hrow, rfl⟩ := List.mem_map.1 hdocument
    exact hids row hrow
  have hsorted : take joined.rows (sortIndices (· ≤ ·) (joined.rows.map fun row => lastIndex 0 ids (row.1 a))) =
      ids.dedup.flatMap (documentRows joined a) :=
    take_sorted (pairwise_lastIndex 0) fun row hrow => List.mem_dedup.2 (hids row hrow)
  have hlt : ∀ p ∈ sortIndices (· ≤ ·) (joined.rows.map fun row => lastIndex 0 ids (row.1 a)), p < joined.rows.length :=
    fun p hp => by simpa using sortIndices_lt hp
  rw [inOrder, Table.column, if_pos ha, ok_bind, order, mapM_positions hpositions, ok_bind, List.map_map]
  show joined.take (sortIndices (· ≤ ·) (joined.rows.map fun row => lastIndex 0 ids (row.1 a))) = _
  rw [Table.take, pick_eq_take hlt, ok_bind, hsorted]
  rfl

/-! ## Tables -/

/-- The tables that several workers gave for one table's documents: each document's rows come from one of them. -/
structure Parted (a : Alias) (ids : List ℕ) (t : Table τ) (parts : List (Table τ)) : Prop where
  nonempty : parts ≠ []
  column : a ∈ t.aliases
  alike : ∀ part ∈ parts, part.aliases = t.aliases ∧ part.columns = t.columns
  documents : ∀ part ∈ parts, ∀ row ∈ part.rows, row.1 a ∈ ids
  rows : ∀ document, (parts.flatMap fun part => documentRows part a document) = documentRows t a document

namespace Parted

variable {a : Alias} {ids : List ℕ} {t : Table τ} {parts : List (Table τ)}

lemma concatRows (h : Parted a ids t parts) : concatRows parts = .ok { t with rows := parts.flatMap Table.rows } := by
  cases parts with
  | nil => exact absurd rfl h.nonempty
  | cons first rest =>
    obtain ⟨halias, hcolumns⟩ := h.alike first List.mem_cons_self
    have hfound : (first.aliases.find? fun a => (first :: rest).any fun part => a ∉ part.aliases) = none := by
      refine List.find?_eq_none.2 fun b hb => ?_
      rw [List.any_eq_true]
      rintro ⟨part, hpart, hmissing⟩
      rw [(h.alike part hpart).1, ← halias] at hmissing
      exact of_decide_eq_true hmissing hb
    have hsame : ((first :: rest).all fun part => part.columns = first.columns) = true :=
      List.all_eq_true.2 fun part hpart => by simpa using (h.alike part hpart).2.trans hcolumns.symm
    rw [Distributed.concatRows, hfound]
    dsimp only
    rw [if_pos hsame, halias, hcolumns]

lemma concatTables (h : Parted a ids t parts) : concatTables parts = .ok { t with rows := parts.flatMap Table.rows } := by
  cases parts with
  | nil => exact absurd rfl h.nonempty
  | cons first rest =>
    obtain ⟨halias, hcolumns⟩ := h.alike first List.mem_cons_self
    have hsame : ((first :: rest).all fun part => part.aliases = first.aliases ∧ part.columns = first.columns) = true :=
      List.all_eq_true.2 fun part hpart => by
        obtain ⟨hpartAlias, hpartColumns⟩ := h.alike part hpart
        exact decide_eq_true ⟨hpartAlias.trans halias.symm, hpartColumns.trans hcolumns.symm⟩
    rw [Distributed.concatTables, if_pos hsame, halias, hcolumns]

/-- The workers' tables, put together and in order, are the one table's rows, document after document. -/
theorem inOrder (h : Parted a ids t parts) :
    inOrder a ids { t with rows := parts.flatMap Table.rows } =
      .ok { t with rows := ids.dedup.flatMap (documentRows t a) } := by
  have hcolumn : a ∈ ({ t with rows := parts.flatMap Table.rows } : Table τ).aliases := h.column
  have hdocuments : ∀ row ∈ ({ t with rows := parts.flatMap Table.rows } : Table τ).rows, row.1 a ∈ ids := by
    intro row hrow
    obtain ⟨part, hpart, hrow⟩ := List.mem_flatMap.1 hrow
    exact h.documents part hpart row hrow
  have hrows : documentRows { t with rows := parts.flatMap Table.rows } a = documentRows t a := by
    funext document
    rw [← h.rows document, documentRows, List.filter_flatMap]
    rfl
  rw [inOrder_spec hcolumn hdocuments, hrows]

end Parted

/-! ## Join answers -/

/-- The rows of an answer table: the anchors, their partner tuples and the answers, flat. -/
def answerRows (record : JoinRecord) (anchors : List ℕ) (members : List (List ℕ)) : List ((Alias → ℕ) × Bool) :=
  ((anchors.zipWith (fun anchor row => List.replicate row.2.length anchor) record.rows.entries).flatten.zip members).zipWith
    (fun ids answer => (fun a => if a = record.anchor then ids.1 else (ids.2[record.partners.idxOf a]?).getD 0, answer))
    (record.rows.entries.flatMap Prod.snd)

/-- The partner positions of a record's rows: those the anchor streamed, or all of them in order. -/
def memberPositions (record : JoinRecord) : List ℕ :=
  record.rows.entries.flatMap fun row => (record.anchorPartners.get? row.1).getD (List.range row.2.length)

/-- What a record's table is made of. -/
structure Answered (record : JoinRecord) (anchors : List ℕ) (members : List (List ℕ)) : Prop where
  named : pick record.anchorIndex record.rows.keys = .ok anchors
  tuples : ∀ member ∈ record.partnerIndex, record.partners.length ≤ member.length
  streamed : pick record.partnerIndex (memberPositions record) = .ok members
  counted : members.length = (record.rows.entries.flatMap Prod.snd).length

lemma Answered.table {record : JoinRecord} {anchors : List ℕ} {members : List (List ℕ)} (h : Answered record anchors members) :
    record.table = .ok ⟨record.anchor :: record.partners, 1, answerRows record anchors members⟩ := by
  have hshort : (record.partnerIndex.any fun member => member.length < record.partners.length) = false :=
    List.any_eq_false.2 fun member hmember => by simpa using h.tuples member hmember
  have hflat : (record.rows.entries.map fun row =>
      (record.anchorPartners.get? row.1).getD (List.range row.2.length)).flatten = memberPositions record := rfl
  rw [JoinRecord.table, h.named, ok_bind]
  simp only [hshort, hflat, Bool.false_eq_true, if_false, h.streamed, h.counted, ok_bind, ne_eq, not_true_eq_false]
  rfl

lemma exists_answered {record : JoinRecord} {t : Table Bool} (h : record.table = .ok t) :
    ∃ anchors members, Answered record anchors members := by
  rw [JoinRecord.table] at h
  obtain ⟨anchors, hanchors, h⟩ := bind_eq_ok h
  split at h
  · cases h
  · rename_i hshort
    obtain ⟨members, hmembers, h⟩ := bind_eq_ok h
    split at h
    · cases h
    · rename_i hlength
      exact ⟨anchors, members, hanchors, by simpa using hshort, hmembers, not_not.1 hlength⟩

lemma pick_lt {xs : List τ} {ps : List ℕ} {ys : List τ} (h : pick xs ps = .ok ys) : ∀ p ∈ ps, p < xs.length := by
  induction ps generalizing ys with
  | nil => exact fun p hp => by cases hp
  | cons p ps ih =>
    rw [pick, List.mapM_cons] at h
    obtain ⟨x, hx, h⟩ := bind_eq_ok h
    obtain ⟨rest, hrest, -⟩ := bind_eq_ok h
    refine List.forall_mem_cons.2 ⟨?_, ih hrest⟩
    by_contra hp
    rw [List.getElem?_eq_none (not_lt.1 hp)] at hx
    cases hx

lemma pick_length {xs : List τ} {ps : List ℕ} {ys : List τ} (h : pick xs ps = .ok ys) : ys.length = ps.length := by
  have htake := h
  rw [pick_eq_take (pick_lt h)] at htake
  rw [← Except.ok.inj htake, length_take (pick_lt h)]

lemma pick_append {xs : List τ} {ps qs : List ℕ} {ys zs : List τ} (hp : pick xs ps = .ok ys) (hq : pick xs qs = .ok zs) :
    pick xs (ps ++ qs) = .ok (ys ++ zs) := by
  unfold pick at hp hq ⊢
  rw [List.mapM_append, hp, hq]
  rfl

lemma pick_left {xs xs' : List τ} {ps : List ℕ} {ys : List τ} (h : pick xs ps = .ok ys) : pick (xs ++ xs') ps = .ok ys := by
  rw [← h]
  exact mapM_congr fun p hp => by rw [List.getElem?_append_left (pick_lt h p hp)]

lemma pick_right {xs xs' : List τ} {ps : List ℕ} : pick (xs ++ xs') (ps.map (xs.length + ·)) = pick xs' ps := by
  unfold pick
  rw [List.mapM_map]
  exact mapM_congr fun p _ => by
    rw [Function.comp_apply, List.getElem?_append_right (Nat.le_add_right _ _), Nat.add_sub_cancel_left]

section

variable {β : Type} {base : ℕ}

/-- Entries set under shifted keys come after those there are, when none is. -/
lemma entries_shifted {es : List (ℕ × β)} (hnodup : (es.map Prod.fst).Nodup) : ∀ d : Dict ℕ β, (∀ k ∈ d.keys, k < base) →
    (es.foldl (fun d e => d.set (base + e.1) e.2) d).entries = d.entries ++ es.map fun e => (base + e.1, e.2) := by
  suffices hnew : ∀ d : Dict ℕ β, (∀ e ∈ es, base + e.1 ∉ d.keys) →
      (es.foldl (fun d e => d.set (base + e.1) e.2) d).entries = d.entries ++ es.map fun e => (base + e.1, e.2) from
    fun d hd => hnew d fun e _ hmem => absurd (hd _ hmem) (Nat.not_lt.2 (Nat.le_add_right _ _))
  induction es with
  | nil => exact fun d _ => by rw [List.map_nil, List.append_nil]; rfl
  | cons e es ih =>
    intro d hd
    obtain ⟨he, hes⟩ := List.forall_mem_cons.1 hd
    obtain ⟨hfirst, hnodup⟩ := List.nodup_cons.1 hnodup
    rw [List.foldl_cons, ih hnodup, Dict.entries_set_new he, List.append_assoc]
    · rfl
    · intro e' he' hmem
      obtain heq | hmem := Dict.mem_keys_set.1 hmem
      · exact hfirst (List.mem_map.2 ⟨e', he', Nat.add_left_cancel heq⟩)
      · exact hes e' he' hmem

/-- Shifted keys are past the earlier ones. -/
lemma get?_before {es : List (ℕ × β)} {d : Dict ℕ β} {k : ℕ} (hk : k < base) :
    (es.foldl (fun d e => d.set (base + e.1) e.2) d).get? k = d.get? k := by
  induction es generalizing d with
  | nil => rfl
  | cons e es ih =>
    rw [List.foldl_cons, ih, Dict.get?_set_ne]
    exact fun heq => absurd (heq ▸ hk) (Nat.not_lt.2 (Nat.le_add_right _ _))

lemma get?_shifted {es : List (ℕ × β)} (hnodup : (es.map Prod.fst).Nodup) {k : ℕ} : ∀ d : Dict ℕ β,
    (es.foldl (fun d e => d.set (base + e.1) e.2) d).get? (base + k) = (Dict.find k es).or (d.get? (base + k)) := by
  induction es with
  | nil => exact fun _ => rfl
  | cons e es ih =>
    intro d
    obtain ⟨hfirst, hnodup⟩ := List.nodup_cons.1 hnodup
    rw [List.foldl_cons, ih hnodup, Dict.get?_set, Dict.find]
    by_cases hk : e.1 = k
    · have hnone : Dict.find k es = none := by
        cases hfind : Dict.find k es with
        | none => rfl
        | some v => exact absurd (hk ▸ List.mem_map_of_mem (Dict.mem_of_find hfind)) hfirst
      rw [if_pos (congrArg (base + ·) hk), if_pos hk, hnone]
      rfl
    · rw [if_neg fun h => hk (Nat.add_left_cancel h), if_neg hk]

end

/-- Two records about the same partner tuples. -/
structure Alike (record record' : JoinRecord) : Prop where
  anchor : record'.anchor = record.anchor
  partners : record'.partners = record.partners
  tuples : record'.partnerIndex = record.partnerIndex

/-- A record names partners for its own anchors only. -/
def Bounded (record : JoinRecord) : Prop := ∀ k ∈ record.anchorPartners.keys, k < record.anchorIndex.length

section

variable {merged part : JoinRecord} {owners owners' : List ℕ} {members members' : List (List ℕ)}

/-- Every answer has its anchor. -/
lemma length_anchors {es : List (ℕ × List Bool)} : ∀ {owners : List ℕ}, owners.length = es.length →
    (owners.zipWith (fun owner e => List.replicate e.2.length owner) es).flatten.length = (es.flatMap Prod.snd).length := by
  induction es with
  | nil => intro owners _; rw [List.zipWith_nil_right]; rfl
  | cons e es ih =>
    intro owners hlength
    cases owners with
    | nil => cases hlength
    | cons owner owners =>
      rw [List.zipWith_cons_cons, List.flatten_cons, List.flatMap_cons, List.length_append, List.length_append,
        List.length_replicate, ih (Nat.succ.inj hlength)]

lemma Answered.owners_length (h : Answered merged owners members) : owners.length = merged.rows.entries.length :=
  (pick_length h.named).trans (List.length_map _)

lemma Answered.rows_lt (h : Answered merged owners members) : ∀ k ∈ merged.rows.keys, k < merged.anchorIndex.length :=
  pick_lt h.named

lemma mergePart_entries (h : Answered merged owners members) : (mergePart merged part).rows.entries =
    merged.rows.entries ++ part.rows.entries.map fun e => (merged.anchorIndex.length + e.1, e.2) :=
  entries_shifted part.rows.nodup _ h.rows_lt

lemma mergePart_positions (h : Answered merged owners members) (hbounded : Bounded merged) :
    memberPositions (mergePart merged part) = memberPositions merged ++ memberPositions part := by
  rw [memberPositions, mergePart_entries h, List.flatMap_append, List.flatMap_map]
  refine congrArg₂ (· ++ ·) (List.flatMap_congr fun e he => ?_) (List.flatMap_congr fun e _ => ?_)
  · rw [mergePart, get?_before (h.rows_lt e.1 (List.mem_map_of_mem he))]
  · have hnone : merged.anchorPartners.get? (merged.anchorIndex.length + e.1) = none := by
      cases hfound : merged.anchorPartners.get? (merged.anchorIndex.length + e.1) with
      | none => rfl
      | some v =>
        exact absurd (hbounded _ (Dict.mem_keys_iff.2 ⟨v, hfound⟩)) (Nat.not_lt.2 (Nat.le_add_right _ _))
    rw [mergePart, get?_shifted part.anchorPartners.nodup, hnone, Option.or_none]
    rfl

/-- A merged part's rows follow those before it, with its own anchors and partner tuples. -/
lemma mergePart_answered (h : Answered merged owners members) (hpart : Answered part owners' members')
    (halike : Alike merged part) (hbounded : Bounded merged) :
    Answered (mergePart merged part) (owners ++ owners') (members ++ members') ∧
      answerRows (mergePart merged part) (owners ++ owners') (members ++ members') =
        answerRows merged owners members ++ answerRows part owners' members' := by
  have hentries : (mergePart merged part).rows.entries =
      merged.rows.entries ++ part.rows.entries.map fun e => (merged.anchorIndex.length + e.1, e.2) := mergePart_entries h
  have hanswers : (mergePart merged part).rows.entries.flatMap Prod.snd =
      merged.rows.entries.flatMap Prod.snd ++ part.rows.entries.flatMap Prod.snd := by
    rw [hentries, List.flatMap_append, List.flatMap_map]
  refine ⟨⟨?_, h.tuples, ?_, ?_⟩, ?_⟩
  · have hkeys : (mergePart merged part).rows.keys =
        merged.rows.keys ++ part.rows.keys.map (merged.anchorIndex.length + ·) := by
      rw [Dict.keys, hentries, List.map_append, List.map_map, Dict.keys, Dict.keys, List.map_map]
      rfl
    rw [hkeys]
    exact pick_append (pick_left h.named) (pick_right.trans hpart.named)
  · rw [mergePart_positions h hbounded]
    exact pick_append h.streamed (halike.tuples ▸ hpart.streamed)
  · rw [hanswers, List.length_append, List.length_append, h.counted, hpart.counted]
  · have hanchors := length_anchors h.owners_length
    have hrenamed : owners'.zipWith (fun owner e => List.replicate e.2.length owner)
        (part.rows.entries.map fun e => (merged.anchorIndex.length + e.1, e.2)) =
          owners'.zipWith (fun owner e => List.replicate e.2.length owner) part.rows.entries := by
      rw [List.zipWith_map_right]
    rw [answerRows, hanswers, hentries, List.zipWith_append h.owners_length, hrenamed, List.flatten_append,
      List.zip_append (hanchors.trans h.counted.symm), List.zipWith_append, answerRows, answerRows, halike.anchor,
      halike.partners]
    · rfl
    · rw [List.length_zip, hanchors, h.counted, Nat.min_self]

end

/-- The merged answers are the parts' answers, one part after another, each row with its own anchor and partner
tuples. -/
theorem mergeJoinAnswers_spec {record : JoinRecord} {parts : List JoinRecord} {tables : List (Table Bool)} (hne : parts ≠ [])
    (halike : ∀ part ∈ parts, Alike record part ∧ Bounded part)
    (htables : List.Forall₂ (fun part t => part.table = .ok t) parts tables) :
    ∃ merged, mergeJoinAnswers parts = .ok merged ∧ Alike record merged ∧
      merged.anchorIndex = parts.flatMap JoinRecord.anchorIndex ∧
      merged.table = .ok ⟨record.anchor :: record.partners, 1, tables.flatMap Table.rows⟩ := by
  have hrun : ∀ {parts tables}, List.Forall₂ (fun part t => JoinRecord.table part = .ok t) parts tables →
      (∀ part ∈ parts, Alike record part ∧ Bounded part) →
      ∀ merged owners members, Answered merged owners members → Alike record merged → Bounded merged →
        ∃ owners' members', Answered (parts.foldl mergePart merged) owners' members' ∧
          Alike record (parts.foldl mergePart merged) ∧
          (parts.foldl mergePart merged).anchorIndex = merged.anchorIndex ++ parts.flatMap JoinRecord.anchorIndex ∧
          answerRows (parts.foldl mergePart merged) owners' members' =
            answerRows merged owners members ++ tables.flatMap Table.rows := by
    intro parts tables h
    induction h with
    | nil => exact fun _ merged owners members hm hlike _ => ⟨owners, members, hm, hlike, by simp, by simp⟩
    | @cons part t parts tables htable _ ih =>
      intro hparts merged owners members hm hlike hbounded
      obtain ⟨hpart, hparts⟩ := List.forall_mem_cons.1 hparts
      obtain ⟨owners', members', hanswered⟩ := exists_answered htable
      have hsame : Alike merged part := ⟨hpart.1.anchor.trans hlike.anchor.symm, hpart.1.partners.trans hlike.partners.symm,
        hpart.1.tuples.trans hlike.tuples.symm⟩
      obtain ⟨hnext, hrows⟩ := mergePart_answered hm hanswered hsame hbounded
      have hnextBounded : Bounded (mergePart merged part) := by
        intro k hk
        rw [mergePart, List.length_append]
        obtain hk | ⟨e, he, rfl⟩ := Dict.mem_keys_foldl_set.1 hk
        · exact Nat.lt_add_right _ (hbounded k hk)
        · exact Nat.add_lt_add_left (hpart.2 e.1 (List.mem_map_of_mem he)) _
      obtain ⟨owners'', members'', hlast, hlastLike, hindex, hlastRows⟩ := ih hparts _ _ _ hnext
        ⟨hlike.anchor, hlike.partners, hlike.tuples⟩ hnextBounded
      refine ⟨owners'', members'', hlast, hlastLike, ?_, ?_⟩
      · rw [List.foldl_cons, hindex, List.flatMap_cons, mergePart, List.append_assoc]
      · rw [List.foldl_cons, hlastRows, hrows, List.flatMap_cons, List.append_assoc]
        have hown := htable.symm.trans hanswered.table
        rw [Except.ok.inj hown]
  cases htables with
  | nil => exact absurd rfl hne
  | @cons first t rest tables hfirst hrest =>
    obtain ⟨hlike, -⟩ := halike first List.mem_cons_self
    obtain ⟨_, _, hanswered⟩ := exists_answered hfirst
    have hempty : Answered { first with anchorIndex := [], rows := Dict.empty, anchorPartners := Dict.empty } [] [] :=
      ⟨rfl, hanswered.tuples, rfl, rfl⟩
    obtain ⟨owners, members, hlast, hlastLike, hindex, hrows⟩ := hrun (.cons hfirst hrest) halike _ _ _ hempty
      ⟨hlike.anchor, hlike.partners, hlike.tuples⟩ fun k hk => by cases hk
    refine ⟨_, rfl, hlastLike, hindex, ?_⟩
    rw [hlast.table, hrows, hlastLike.anchor, hlastLike.partners]
    rfl

end Quail.Distributed
