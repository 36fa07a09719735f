import Quail.Joins.PartnerLists
import Quail.Lib.Fallible
import Mathlib.Data.List.GetD

/-!
# Live pairs

The purpose of the partner lists: a pair stage asks an anchor about the tuples whose partner is in a row
of the pair table with it, a cross product about every tuple.
-/

namespace Quail.Joins
open SortedKeys Argsort Product Memo

/-! ## Members -/

/-- The rows that `rows` and `byPartner` pair an anchor with are found, sorted, without repeats. -/
lemma allowedMembers_eq {anchors partners : List ℕ} {members : List (List ℕ)} {position : ℕ}
    (hlen : anchors.length = partners.length) (hnodup : (anchors.zip partners).Nodup) (anchor : ℕ) :
    allowedMembers (RowGroups.ofColumns anchors partners) (membersByPartner members position) anchor =
      (List.range members.length).filter fun m =>
        (anchor, (members.getD m []).getD position 0) ∈ anchors.zip partners := by
  set keys := members.map fun member => member.getD position 0 with hkeys
  have hkeysLen : keys.length = (List.range members.length).length := by
    rw [hkeys, List.length_map, List.length_range]
  have hzip : keys.zip (List.range members.length) = keys.zipIdx := by
    rw [List.zipIdx_eq_zip_range', ← List.range_eq_range', hkeys, List.length_map]
  -- a member is held by the partner at its position
  have hholds : ∀ partner m, m ∈ RowGroups.rowsOf keys (List.range members.length) partner ↔
      m < members.length ∧ (members.getD m []).getD position 0 = partner := by
    intro partner m
    rw [RowGroups.mem_rowsOf, hzip, List.mk_mem_zipIdx_iff_getElem?, hkeys, List.getElem?_map,
      Option.map_eq_some_iff]
    constructor
    · rintro ⟨member, hmember, hpartner⟩
      obtain ⟨hm, rfl⟩ := List.getElem?_eq_some_iff.1 hmember
      refine ⟨hm, ?_⟩
      rw [List.getD_eq_getElem _ _ hm]
      exact hpartner
    · rintro ⟨hm, hpartner⟩
      refine ⟨members[m], List.getElem?_eq_getElem hm, ?_⟩
      rw [List.getD_eq_getElem _ _ hm] at hpartner
      exact hpartner
  rw [allowedMembers, RowGroups.get_eq hlen, membersByPartner, RowGroups.take_eq hkeysLen]
  set found := (RowGroups.rowsOf anchors partners anchor).flatMap
    (RowGroups.rowsOf keys (List.range members.length)) with hfound
  have hmem : ∀ m, m ∈ found ↔ m < members.length ∧
      (anchor, (members.getD m []).getD position 0) ∈ anchors.zip partners := by
    intro m
    rw [hfound, List.mem_flatMap]
    constructor
    · rintro ⟨partner, hpartner, hm⟩
      obtain ⟨hlt, rfl⟩ := (hholds partner m).1 hm
      exact ⟨hlt, RowGroups.mem_rowsOf.1 hpartner⟩
    · rintro ⟨hm, hpair⟩
      exact ⟨_, RowGroups.mem_rowsOf.2 hpair, (hholds _ m).2 ⟨hm, rfl⟩⟩
  have hfoundNodup : found.Nodup := by
    rw [hfound, List.nodup_flatMap]
    refine ⟨fun partner _ => RowGroups.nodup_rowsOf ?_ _, ?_⟩
    · rw [hzip]
      exact List.Nodup.of_map Prod.snd (by rw [List.zipIdx_map_snd]; exact List.nodup_range')
    · refine (RowGroups.nodup_rowsOf hnodup anchor).imp fun {p q} hne => ?_
      refine List.disjoint_left.2 ?_
      intro m hp hq
      exact hne (((hholds p m).1 hp).2.symm.trans ((hholds q m).1 hq).2)
  have hperm : (found.insertionSort (· ≤ ·)).Perm ((List.range members.length).filter fun m =>
      (anchor, (members.getD m []).getD position 0) ∈ anchors.zip partners) := by
    refine (List.perm_insertionSort _ _).trans ?_
    refine (List.perm_ext_iff_of_nodup hfoundNodup (List.nodup_range.filter _)).2 fun m => ?_
    rw [hmem, List.mem_filter, List.mem_range, decide_eq_true_iff]
  exact hperm.eq_of_pairwise' (List.pairwise_insertionSort _ _) (List.pairwise_le_range.filter _)

/-! ## Lookups -/

/-- What a stage's cache holds is what the lookup would compute, which is `members`. -/
structure StageMap.Fits (members : ℕ → List ℕ) (entry : StageMap) : Prop where
  computes : ∀ anchor, allowedMembers entry.rows entry.members anchor = members anchor
  cached : ∀ (position anchor : ℕ) (found : List ℕ), entry.rows.keys[position]? = some anchor →
    entry.cache[position]?.join = some found → found = members anchor

/-- No pair row, no member. -/
lemma allowedMembers_of_notFound {rows byPartner : RowGroups} {anchor : ℕ}
    (h : ¬ rows.keys[searchSorted rows.keys anchor]? = some anchor) :
    allowedMembers rows byPartner anchor = [] := by
  simp only [allowedMembers, RowGroups.get, if_neg h]
  rfl

/-- A lookup finds the members, and leaves a cache that fits. -/
lemma StageMap.Fits.lookUp {members : ℕ → List ℕ} {entry : StageMap} (h : entry.Fits members) (anchor : ℕ) :
    (entry.lookUp anchor).1 = members anchor ∧ (entry.lookUp anchor).2.Fits members := by
  unfold StageMap.lookUp
  set position := searchSorted entry.rows.keys anchor with hposition
  simp only
  split_ifs with hfound
  · cases hcache : entry.cache[position]?.join with
    | some found => exact ⟨h.cached position anchor found hfound hcache, h⟩
    | none =>
      refine ⟨h.computes anchor, ⟨h.computes, fun i key found hkey hget => ?_⟩⟩
      -- the new entry is the only one that changes
      by_cases hi : i = position
      · subst hi
        obtain rfl : anchor = key := Option.some_inj.1 (hfound.symm.trans hkey)
        rw [Option.join_eq_some_iff, List.getElem?_set_self'] at hget
        obtain ⟨_, _, hval⟩ := Option.map_eq_some_iff.1 hget
        exact (Option.some_inj.1 hval).symm.trans (h.computes anchor)
      · simp only [List.getElem?_set_ne (Ne.symm hi)] at hget
        exact h.cached i key found hkey hget
  · exact ⟨(allowedMembers_of_notFound hfound).symm.trans (h.computes anchor), h⟩

/-- The stages of a group hold what the members of each pair stage are. -/
def Holds (members : List (Option (ℕ → List ℕ))) : PartnerLists → Prop
  | none => ∀ m ∈ members, m = none
  | some stages => List.Forall₂ (Option.Rel StageMap.Fits) members stages

lemma forall₂_set {α β : Type} {R : α → β → Prop} {xs : List α} {ys : List β} (h : List.Forall₂ R xs ys)
    {i : ℕ} {x : α} {y : β} (hx : xs[i]? = some x) (hy : R x y) : List.Forall₂ R xs (ys.set i y) := by
  induction h generalizing i with
  | nil => cases hx
  | cons hab hrest ih =>
    cases i with
    | zero => exact .cons (Option.some_inj.1 hx ▸ hy) hrest
    | succ i => exact .cons hab (ih hx)

/-- Every lookup answers the members of its stage. -/
theorem listsFor_answers (members : List (Option (ℕ → List ℕ))) :
    Answers (fun _ => True) (Holds members) listsFor fun lookup => members[lookup.2]?.join.map (· lookup.1) := by
  intro lookup lists _ h
  cases lists with
  | none =>
    refine ⟨?_, h⟩
    cases hget : members[lookup.2]? with
    | none => simp only [listsFor, hget, Option.join_none, Option.map_none]
    | some m =>
      obtain rfl := h m (List.mem_of_getElem? hget)
      simp only [listsFor, hget, Option.join_some, Option.map_none]
  | some stages =>
    cases hget : members[lookup.2]? with
    | none =>
      have hstage : stages[lookup.2]? = none := by
        have hlen := List.Forall₂.length_eq h
        rw [List.getElem?_eq_none_iff] at hget ⊢
        omega
      simp only [listsFor, hstage, hget]
      exact ⟨rfl, h⟩
    | some m =>
      obtain ⟨hlt, hm⟩ := List.getElem?_eq_some_iff.1 hget
      have hlt' : lookup.2 < stages.length := List.Forall₂.length_eq h ▸ hlt
      have hrel := h.get hlt hlt'
      have hstage : stages[lookup.2]? = some (stages.get ⟨lookup.2, hlt'⟩) := List.getElem?_eq_getElem _
      rw [List.get_eq_getElem, hm] at hrel
      generalize stages.get ⟨lookup.2, hlt'⟩ = stage at hrel hstage
      cases hrel with
      | none =>
        simp only [listsFor, hstage, hget]
        exact ⟨rfl, h⟩
      | some hfits =>
        obtain ⟨hfound, hkept⟩ := hfits.lookUp lookup.1
        simp only [listsFor, hstage, hget]
        exact ⟨congrArg some hfound, forall₂_set h hget (.some hkept)⟩

/-! ## The builder -/

/-- The rows of a pair table, the anchor's document first. -/
def PairTable.pairs (table : PairTable) (anchor : Alias) : List (ℕ × ℕ) :=
  if anchor = table.left then table.rows else table.rows.map Prod.swap

lemma PairTable.nodup_pairs (table : PairTable) (anchor : Alias) : (table.pairs anchor).Nodup := by
  unfold PairTable.pairs
  split_ifs
  · exact table.nodup
  · exact table.nodup.map Prod.swap_injective

/-- The partner map of an anchor groups the rows of the table. -/
lemma partnerMap_ok {table : PairTable} {anchor partner : Alias} {rows : RowGroups} (hne : anchor ≠ partner)
    (h : partnerMap table anchor partner = .ok rows) :
    ∃ anchors partners, rows = RowGroups.ofColumns anchors partners ∧ anchors.length = partners.length ∧
      anchors.zip partners = table.pairs anchor := by
  unfold partnerMap PairTable.column at h
  by_cases hanchor : anchor = table.left
  · have hpartner : partner ≠ table.left := hanchor ▸ hne.symm
    rw [if_pos hanchor, if_neg hpartner] at h
    split_ifs at h
    · refine ⟨_, _, (Except.ok.inj h).symm, by rw [List.length_map, List.length_map], ?_⟩
      rw [PairTable.pairs, if_pos hanchor, List.zip_map', List.map_id'']
      exact fun _ => rfl
    · cases h
  · rw [if_neg hanchor] at h
    by_cases hright : anchor = table.right
    · have hpartner : partner ≠ table.right := hright ▸ hne.symm
      rw [if_pos hright, if_neg hpartner] at h
      split_ifs at h
      · refine ⟨_, _, (Except.ok.inj h).symm, by rw [List.length_map, List.length_map], ?_⟩
        rw [PairTable.pairs, if_neg hanchor, List.zip_map']
        rfl
      · cases h
    · rw [if_neg hright] at h
      cases h

lemma pairPartner_ok {anchor partner : Alias} {partners : List Alias}
    (h : pairPartner anchor partners = .ok partner) : partners = [partner] := by
  unfold pairPartner at h
  split at h
  · rw [Except.ok.inj h]
  · cases h

/-- The rows of a pair stage, from its table. -/
def StageRows (pairTables : ℕ → Option PairTable) (join : JoinRequest) (rows : RowGroups) : Prop :=
  ∃ table partner, pairTables join.writtenPosition = some table ∧ join.partners = [partner] ∧
    partnerMap table join.anchor partner = .ok rows

/-- Every pair stage has the rows of its table. -/
lemma partnerMaps_ok {pairTables : ℕ → Option PairTable} {group : List JoinRequest}
    {maps maps' : Dict ℕ RowGroups} (h : partnerMaps pairTables group maps = .ok maps')
    (hnodup : (group.map JoinRequest.writtenPosition).Nodup) :
    (∀ position, position ∉ group.map JoinRequest.writtenPosition →
      maps'.get? position = maps.get? position) ∧
      ∀ join ∈ group, join.runsOverPairs →
        ∃ rows, maps'.get? join.writtenPosition = some rows ∧ StageRows pairTables join rows := by
  induction group generalizing maps with
  | nil => exact ⟨fun _ _ => congrArg (Dict.get? · _) (Except.ok.inj h).symm, fun _ hjoin => nomatch hjoin⟩
  | cons join group ih =>
    obtain ⟨hfresh, hnodup⟩ := List.nodup_cons.1 hnodup
    unfold partnerMaps at h
    split_ifs at h with hpairs
    · obtain ⟨hkeep, hrows⟩ := ih h hnodup
      refine ⟨fun position hposition => hkeep position fun hmem => hposition (List.mem_cons_of_mem _ hmem), ?_⟩
      refine List.forall_mem_cons.2 ⟨fun hruns => ?_, hrows⟩
      rw [hruns] at hpairs
      cases hpairs
    · cases htable : pairTables join.writtenPosition with
      | none =>
        rw [htable] at h
        cases h
      | some table =>
        rw [htable] at h
        cases hpartner : pairPartner join.anchor join.partners with
        | error e =>
          rw [hpartner] at h
          cases h
        | ok partner =>
          rw [hpartner] at h
          cases hmap : partnerMap table join.anchor partner with
          | error e =>
            simp only [ok_bind, hmap, error_bind] at h
            cases h
          | ok rows =>
            simp only [ok_bind, hmap] at h
            obtain ⟨hkeep, hrows⟩ := ih h hnodup
            refine ⟨fun position hposition => ?_, List.forall_mem_cons.2 ⟨fun _ => ⟨rows, ?_, ?_⟩, hrows⟩⟩
            · rw [List.map_cons, List.mem_cons, not_or] at hposition
              rw [hkeep position hposition.2, Dict.get?_set_ne (Ne.symm hposition.1)]
            · rw [hkeep _ hfresh, Dict.get?_set_self]
            · exact ⟨table, partner, htable, pairPartner_ok hpartner, hmap⟩

/-- The tuples of a join over the selections. -/
def tuplesOf (selected : Alias → Selection) (join : JoinNode) : List (List ℕ) :=
  product (join.partners.map fun partner => (selected partner).ids)

/-- Whether a join asks an anchor about a tuple. -/
def live (pairTables : ℕ → Option PairTable) (join : JoinNode) (anchor : ℕ) (tuple : List ℕ) : Bool :=
  !(joinRequest join).runsOverPairs ||
    (pairTables join.writtenPosition).any fun table => (anchor, tuple.getD 0 0) ∈ table.pairs join.anchor

/-- The indices of the tuples that a pair stage asks an anchor about; none at a stage of every tuple. -/
def liveMembers (selected : Alias → Selection) (pairTables : ℕ → Option PairTable) (join : JoinNode) :
    Option (ℕ → List ℕ) :=
  if (joinRequest join).runsOverPairs then
    some fun anchor => (List.range (tuplesOf selected join).length).filter fun m =>
      live pairTables join anchor ((tuplesOf selected join).getD m [])
  else none

/-- The stage maps hold the live members. -/
lemma stageMaps_holds {selected : Alias → Selection} {pairTables : ℕ → Option PairTable}
    {maps : Dict ℕ RowGroups} {nodes : List JoinNode} {stages : List (Option StageMap)}
    (hmaps : ∀ join ∈ nodes, (joinRequest join).runsOverPairs →
      ∃ rows, maps.get? join.writtenPosition = some rows ∧ StageRows pairTables (joinRequest join) rows)
    (h : stageMaps maps (nodes.map fun join => (joinRequest join, tuplesOf selected join)) = .ok stages) :
    List.Forall₂ (Option.Rel StageMap.Fits) (nodes.map (liveMembers selected pairTables)) stages := by
  induction nodes generalizing stages with
  | nil =>
    obtain rfl : [] = stages := Except.ok.inj h
    exact .nil
  | cons join nodes ih =>
    obtain ⟨hjoin, hmaps⟩ := List.forall_mem_cons.1 hmaps
    rw [List.map_cons, stageMaps] at h
    rw [List.map_cons, liveMembers]
    cases hruns : (joinRequest join).runsOverPairs with
    | false =>
      simp only [hruns, Bool.not_false, if_true] at h
      cases hrest : stageMaps maps (nodes.map fun join => (joinRequest join, tuplesOf selected join)) with
      | error e =>
        rw [hrest] at h
        cases h
      | ok rest =>
        rw [hrest] at h
        obtain rfl := Except.ok.inj h
        exact .cons .none (ih hmaps hrest)
    | true =>
      obtain ⟨rows, hrows, table, partner, htable, hpartners, hmap⟩ := hjoin hruns
      have hpartners' : join.partners = [partner] := hpartners
      have hpartner : pairPartner (joinRequest join).anchor (joinRequest join).partners = .ok partner := by
        rw [hpartners]
        rfl
      have hne : join.anchor ≠ partner := by
        rintro rfl
        exact join.anchor_notMem (hpartners' ▸ List.mem_singleton_self _)
      obtain ⟨anchors, partners, rfl, hlen, hzip⟩ := partnerMap_ok hne hmap
      have hrows' : maps.get? (joinRequest join).writtenPosition = _ := hrows
      have hindex : (joinRequest join).partners.idxOf partner = 0 := by
        rw [hpartners, List.idxOf_cons_self]
      simp only [hruns, hpartner, hrows', hindex, Bool.not_true, Bool.false_eq_true, if_false, ok_bind] at h
      cases hrest : stageMaps maps (nodes.map fun join => (joinRequest join, tuplesOf selected join)) with
      | error e =>
        rw [hrest] at h
        cases h
      | ok rest =>
        rw [hrest] at h
        obtain rfl := Except.ok.inj h
        refine .cons (.some ⟨fun anchor => ?_, fun position anchor found _ hget => ?_⟩) (ih hmaps hrest)
        · have hnodup : (anchors.zip partners).Nodup := hzip ▸ table.nodup_pairs _
          have htable' : pairTables join.writtenPosition = some table := htable
          rw [allowedMembers_eq hlen hnodup, hzip]
          refine List.filter_congr fun m _ => ?_
          simp only [live, hruns, htable', Bool.not_true, Bool.false_or, Option.any_some]
        -- nothing is looked up yet
        · rw [List.getElem?_replicate] at hget
          split_ifs at hget
          all_goals cases hget

/-- The builder holds the live members. -/
lemma partnerListBuilder_holds {selected : Alias → Selection} {pairTables : ℕ → Option PairTable}
    {maps : Dict ℕ RowGroups} {nodes : List JoinNode} {lists : PartnerLists}
    (hmaps : ∀ join ∈ nodes, (joinRequest join).runsOverPairs →
      ∃ rows, maps.get? join.writtenPosition = some rows ∧ StageRows pairTables (joinRequest join) rows)
    (h : partnerListBuilder (nodes.map joinRequest) (nodes.map (tuplesOf selected)) maps = .ok lists) :
    Holds (nodes.map (liveMembers selected pairTables)) lists := by
  rw [partnerListBuilder, List.zip_map'] at h
  cases hstages : stageMaps maps (nodes.map fun join => (joinRequest join, tuplesOf selected join)) with
  | error e =>
    rw [hstages] at h
    cases h
  | ok stages =>
    rw [hstages] at h
    obtain rfl := Except.ok.inj h
    have hholds := stageMaps_holds hmaps hstages
    split_ifs with hall
    · -- every stage is of every tuple
      intro m hm
      obtain ⟨i, hi, rfl⟩ := List.getElem_of_mem hm
      have hrel := hholds.get hi (hholds.length_eq ▸ hi)
      have hnone := List.all_eq_true.1 hall _ (List.get_mem stages ⟨i, hholds.length_eq ▸ hi⟩)
      rw [Option.isNone_iff_eq_none] at hnone
      rw [hnone, List.get_eq_getElem] at hrel
      generalize (nodes.map (liveMembers selected pairTables))[i] = m at hrel
      cases hrel
      rfl
    · exact hholds

/-! ## Suffixes -/

/-- The tuples and suffixes that `join_suffixes` adds. -/
lemma joinSuffixes_ok {documents : Alias → List (List Token)} {indices : Alias → List ℕ}
    {group : List JoinRequest} {suffixes suffixes' : List (List (List Token))}
    {tuples tuples' : Dict ℕ (List (List ℕ))}
    (h : joinSuffixes documents indices group suffixes tuples = .ok (suffixes', tuples')) :
    (∃ built, suffixes' = suffixes ++ built ∧ List.Forall₂ (fun join tokens =>
      (memberPositions indices join.partners).mapM (tupleSuffix join.labels join.tail
        (fun partner i => (documents partner).getD i []) join.partners) = .ok tokens) group built) ∧
      tuples' = group.foldl (fun tuples join => tuples.set join.writtenPosition
        ((memberPositions indices join.partners).map
          (List.zipWith (fun partner i => (indices partner).getD i 0) join.partners))) tuples := by
  induction group generalizing suffixes tuples with
  | nil =>
    obtain ⟨rfl, rfl⟩ := Prod.mk.inj (Except.ok.inj h)
    exact ⟨⟨[], (List.append_nil _).symm, .nil⟩, rfl⟩
  | cons join group ih =>
    rw [joinSuffixes] at h
    cases htokens : (memberPositions indices join.partners).mapM (tupleSuffix join.labels join.tail
        (fun partner i => (documents partner).getD i []) join.partners) with
    | error e =>
      simp only [htokens, error_bind] at h
      cases h
    | ok tokens =>
      simp only [htokens, ok_bind] at h
      obtain ⟨⟨built, rfl, hbuilt⟩, rfl⟩ := ih h
      exact ⟨⟨tokens :: built, List.append_cons _ _ _ ▸ rfl, .cons htokens hbuilt⟩, rfl⟩

/-- The tuples of positions are the tuples of documents. -/
lemma map_memberPositions (selected : Alias → Selection) (join : JoinNode) :
    (memberPositions (fun partner => (selected partner).ids) join.partners).map
      (List.zipWith (fun partner i => (selected partner).ids.getD i 0) join.partners) =
        tuplesOf selected join := by
  rw [memberPositions, product_map (fun partner i => (selected partner).ids.getD i 0), tuplesOf]
  refine congrArg product (List.map_congr_left fun partner _ => ?_)
  refine List.ext_getElem (by rw [List.length_map, List.length_range]) fun i hi hi' => ?_
  rw [List.getElem_map, List.getElem_range, List.getD_eq_getElem _ _ hi']

/-- A suffix of selected documents is the suffix of the documents themselves. -/
lemma tupleSuffix_select {labels : Dict Alias (List Token)} {tail : List Token}
    {documents : Alias → ℕ → List Token} {selected : Alias → Selection} {partners : List Alias}
    {positions : List ℕ}
    (h : List.Forall₂ (· ∈ ·) positions (partners.map fun partner => List.range (selected partner).ids.length)) :
    tupleSuffix labels tail
      (fun partner i => (selectDocuments (documents partner) (selected partner).ids).getD i [])
        partners positions =
      tupleSuffix labels tail documents partners
        (List.zipWith (fun partner i => (selected partner).ids.getD i 0) partners positions) := by
  induction partners generalizing positions with
  | nil => cases positions <;> rfl
  | cons partner partners ih =>
    cases h with
    | cons hi hrest =>
      rename_i i positions
      have hi := List.mem_range.1 hi
      have hdocument : (selectDocuments (documents partner) (selected partner).ids).getD i [] =
          documents partner ((selected partner).ids.getD i 0) := by
        have hlen : i < (selectDocuments (documents partner) (selected partner).ids).length := by
          rw [selectDocuments, List.length_map]
          exact hi
        rw [List.getD_eq_getElem _ _ hlen, List.getD_eq_getElem _ _ hi]
        exact List.getElem_map _
      rw [List.zipWith_cons_cons, tupleSuffix, tupleSuffix, ih hrest, hdocument]

/-- The suffixes of a join are built from the documents of its tuples. -/
lemma mapM_tupleSuffix {labels : Dict Alias (List Token)} {tail : List Token}
    {documents : Alias → ℕ → List Token} {selected : Alias → Selection} (join : JoinNode) :
    (memberPositions (fun partner => (selected partner).ids) join.partners).mapM (tupleSuffix labels tail
      (fun partner i => (selectDocuments (documents partner) (selected partner).ids).getD i []) join.partners) =
      (tuplesOf selected join).mapM (tupleSuffix labels tail documents join.partners) := by
  rw [← map_memberPositions, List.mapM_map]
  refine mapM_congr fun positions hpositions => ?_
  exact tupleSuffix_select (mem_product.1 hpositions)

/-! ## Inputs -/

/-- A group of joins, each written at its own position. -/
structure JoinGroup where
  nodes : List JoinNode
  positions : (nodes.map JoinNode.writtenPosition).Nodup

section
variable {group : JoinGroup} {documents : Alias → ℕ → List Token} {selected : Alias → Selection}
  {pairTables : ℕ → Option PairTable} {inputs : JoinInputs}

/-- What the inputs of a group hold. -/
lemma joinInputs_ok
    (h : joinInputs group.nodes (fun partner => selectDocuments (documents partner) (selected partner).ids)
      (fun partner => (selected partner).ids) pairTables = .ok inputs) :
    inputs.group = group.nodes.map joinRequest ∧ Option.map joinRequest group.nodes.getLast? = some inputs.last ∧
      (∀ join ∈ group.nodes, inputs.partnerIndices.get? join.writtenPosition = some (tuplesOf selected join)) ∧
      List.Forall₂ (fun join tokens => (tuplesOf selected join).mapM
        (tupleSuffix (joinRequest join).labels join.tailTokenIds documents join.partners) = .ok tokens)
          group.nodes inputs.stageSuffixes ∧
      Holds (group.nodes.map (liveMembers selected pairTables)) inputs.anchorPartners := by
  have hnodup : ((group.nodes.map joinRequest).map JoinRequest.writtenPosition).Nodup := by
    rw [List.map_map]
    exact group.positions
  have hpositions : ∀ join ∈ group.nodes, ∀ other ∈ group.nodes,
      other.writtenPosition = join.writtenPosition → other = join := fun join hjoin other hother =>
    List.inj_on_of_nodup_map group.positions hother hjoin
  simp only [joinInputs] at h
  obtain ⟨⟨suffixes, tuples⟩, hsuffixes, h⟩ := bind_eq_ok h
  obtain ⟨maps, hmaps, h⟩ := bind_eq_ok h
  obtain ⟨lists, hlists, h⟩ := bind_eq_ok h
  obtain ⟨⟨built, rfl, hbuilt⟩, rfl⟩ := joinSuffixes_ok hsuffixes
  obtain ⟨-, hrows⟩ := partnerMaps_ok hmaps hnodup
  set tuples := (group.nodes.map joinRequest).foldl _ _ with htuples
  have hget : ∀ join ∈ group.nodes, tuples.get? join.writtenPosition = some (tuplesOf selected join) := by
    intro join hjoin
    rw [htuples, ← map_memberPositions, List.foldl_map]
    refine Dict.get?_foldl_set hjoin fun other hother heq => ?_
    rw [hpositions join hjoin other hother heq]
  have htuplesOf : (group.nodes.map fun stage => (tuples.get? stage.writtenPosition).getD []) =
      group.nodes.map (tuplesOf selected) :=
    List.map_congr_left fun join hjoin => by rw [hget join hjoin, Option.getD_some]
  simp only [htuplesOf] at hlists
  have hlast : Option.map joinRequest group.nodes.getLast? = (group.nodes.map joinRequest).getLast? :=
    List.getLast?_map.symm
  cases hcases : (group.nodes.map joinRequest).getLast? with
  | none =>
    rw [hcases] at h
    cases h
  | some last =>
    rw [hcases] at h
    obtain rfl := Except.ok.inj h
    refine ⟨rfl, hlast.trans hcases, hget, ?_, ?_⟩
    · refine (List.forall₂_map_left_iff.1 hbuilt).imp fun join tokens htokens => ?_
      rw [← htokens]
      exact (mapM_tupleSuffix join).symm
    · exact partnerListBuilder_holds (fun join hjoin => hrows _ (List.mem_map_of_mem hjoin)) hlists

/-! ## Answers -/

/-- The tuples that an anchor's list names, every tuple where there is no list. -/
def askedTuples (tuples : List (List ℕ)) (members : Option (List ℕ)) : List (List ℕ) :=
  (members.getD (List.range tuples.length)).map (tuples.getD · [])

/-- The pairs that anchors are asked about, by the lists looked up for them. -/
def pairsAsked (tuples : List (List ℕ)) (anchors : List ℕ) (found : List (Option (List ℕ))) :
    List (ℕ × List ℕ) :=
  (anchors.zip found).flatMap fun e => (askedTuples tuples e.2).map (e.1, ·)

lemma map_getD_range {α : Type} (xs : List α) (d : α) : (List.range xs.length).map (xs.getD · d) = xs := by
  refine List.ext_getElem (by rw [List.length_map, List.length_range]) fun i hi hi' => ?_
  rw [List.getElem_map, List.getElem_range, List.getD_eq_getElem _ _ hi']

lemma getElem_askedTuples {tuples : List (List ℕ)} {members : Option (List ℕ)} {i : ℕ}
    (hi : i < (askedTuples tuples members).length) :
    (askedTuples tuples members)[i] = tuples.getD (members.elim i (·.getD i 0)) [] := by
  cases members with
  | none => simp only [askedTuples, Option.getD_none, List.getElem_map, List.getElem_range, Option.elim_none]
  | some found =>
    have hlt : i < found.length := by rwa [askedTuples, List.length_map] at hi
    simp only [askedTuples, Option.getD_some, List.getElem_map, Option.elim_some, List.getD_eq_getElem _ _ hlt]

/-- An anchor is asked about the live tuples, in order. -/
lemma askedTuples_live (join : JoinNode) (anchor : ℕ) :
    askedTuples (tuplesOf selected join) ((liveMembers selected pairTables join).map (· anchor)) =
      (tuplesOf selected join).filter (live pairTables join anchor) := by
  unfold liveMembers
  split_ifs with hruns
  · rw [askedTuples, Option.map_some, Option.getD_some]
    conv_rhs => rw [← map_getD_range (tuplesOf selected join) [], List.filter_map]
    rfl
  · rw [askedTuples, Option.map_none, Option.getD_none, map_getD_range, List.filter_eq_self.2]
    intro tuple _
    rw [Bool.not_eq_true] at hruns
    rw [live, hruns]
    rfl

lemma nodup_tuplesOf (join : JoinNode) : (tuplesOf selected join).Nodup := by
  refine nodup_product fun ids hids => ?_
  obtain ⟨partner, _, rfl⟩ := List.mem_map.1 hids
  exact (selected partner).nodup

/-- The pairs asked are the live ones, each once. -/
lemma pairsAsked_live (join : JoinNode) (anchors : Selection) :
    let asked := pairsAsked (tuplesOf selected join) anchors.ids
      (anchors.ids.map fun anchor => (liveMembers selected pairTables join).map (· anchor))
    asked.Nodup ∧ ∀ anchor tuple, (anchor, tuple) ∈ asked ↔
      anchor ∈ anchors.ids ∧ tuple ∈ tuplesOf selected join ∧ live pairTables join anchor tuple := by
  have hasked : pairsAsked (tuplesOf selected join) anchors.ids
      (anchors.ids.map fun anchor => (liveMembers selected pairTables join).map (· anchor)) =
      anchors.ids.flatMap fun anchor =>
        ((tuplesOf selected join).filter (live pairTables join anchor)).map (anchor, ·) := by
    have hzip : anchors.ids.zip
        (anchors.ids.map fun anchor => (liveMembers selected pairTables join).map (· anchor)) =
        anchors.ids.map fun anchor => (anchor, (liveMembers selected pairTables join).map (· anchor)) := by
      have hzip' := List.zip_map' (f := id)
        (g := fun anchor => (liveMembers selected pairTables join).map (· anchor)) (l := anchors.ids)
      rwa [List.map_id] at hzip'
    rw [pairsAsked, hzip, List.flatMap_map]
    simp only [askedTuples_live]
  rw [hasked]
  refine ⟨?_, fun anchor tuple => ?_⟩
  · rw [List.nodup_flatMap]
    refine ⟨fun anchor _ => ((nodup_tuplesOf join).filter _).map (Prod.mk_right_injective anchor), ?_⟩
    refine anchors.nodup.imp fun {a b} hne => ?_
    refine List.disjoint_left.2 ?_
    rintro pair ha hb
    obtain ⟨_, _, rfl⟩ := List.mem_map.1 ha
    obtain ⟨_, _, heq⟩ := List.mem_map.1 hb
    exact hne (Prod.mk.inj heq).1.symm
  · rw [List.mem_flatMap]
    constructor
    · rintro ⟨a, ha, hpair⟩
      obtain ⟨t, ht, heq⟩ := List.mem_map.1 hpair
      obtain ⟨rfl, rfl⟩ := Prod.mk.inj heq
      exact ⟨ha, List.mem_filter.1 ht⟩
    · rintro ⟨ha, ht⟩
      exact ⟨anchor, ha, List.mem_map_of_mem (List.mem_filter.2 ht)⟩

/-- The answers that are true, read back by their positions. -/
lemma filter_answers {α : Type} {asked : List α} {answer : α → Bool} (at' : ℕ → α)
    (h : ∀ i (hi : i < asked.length), at' i = asked[i]) :
    ((asked.map answer).zipIdx.filter Prod.fst).map (fun e => at' e.2) = asked.filter answer := by
  have hzip : (asked.map answer).zipIdx = asked.zipIdx.map (Prod.map answer id) := List.zipIdx_map
  have hfilter : asked.filter answer = (asked.zipIdx.filter (answer ∘ Prod.fst)).map Prod.fst := by
    rw [← List.filter_map, List.zipIdx_map_fst]
  rw [hzip, List.filter_map, List.map_map, hfilter]
  refine List.map_congr_left fun e he => ?_
  obtain ⟨hi, heq⟩ := List.getElem?_eq_some_iff.1 (List.mem_zipIdx_iff_getElem?.1 (List.mem_filter.1 he).1)
  exact (h _ hi).trans heq

/-- What a stage's lookups give, by the joins of the group. -/
lemma join_liveMembers (nodes : List JoinNode) (lookup : ℕ × ℕ) :
    (nodes.map (liveMembers selected pairTables))[lookup.2]?.join.map (· lookup.1) =
      nodes[lookup.2]?.bind fun join => (liveMembers selected pairTables join).map (· lookup.1) := by
  rw [List.getElem?_map]
  cases nodes[lookup.2]? with
  | none => rfl
  | some join => rfl

/-- The lists of the stages are those of the live members. -/
lemma stagePartnerLists_answers (nodes : List JoinNode) (anchors : List ℕ) {lists : PartnerLists}
    (h : Holds (nodes.map (liveMembers selected pairTables)) lists) :
    (stagePartnerLists (nodes.map joinRequest) anchors lists).1 = nodes.map fun join =>
      (liveMembers selected pairTables join).map fun members => anchors.map fun anchor => some (members anchor) := by
  set members := nodes.map (liveMembers selected pairTables) with hmembers
  -- a stage's lookups, for the stages of the group
  have hstage : Answers (fun stage => ∃ join, nodes[stage.2]? = some join ∧ stage.1 = joinRequest join)
      (Holds members) (fun (stage : JoinRequest × ℕ) lists =>
        if lists.isNone || !stage.1.runsOverPairs then (none, lists)
        else
          let r := runAll (fun anchor => listsFor (anchor, stage.2)) anchors lists
          (some r.1, r.2))
      (fun stage => members[stage.2]?.join.map fun members => anchors.map fun anchor => some (members anchor)) := by
    rintro ⟨_, j⟩ lists ⟨join, hjoin, rfl⟩ hlists
    have hexpected : members[j]?.join = liveMembers selected pairTables join := by
      rw [hmembers, List.getElem?_map, hjoin]
      rfl
    simp only [hexpected]
    cases hruns : (joinRequest join).runsOverPairs with
    | false =>
      refine ⟨?_, ?_⟩
      · simp only [Bool.not_false, Bool.or_true, if_true, liveMembers, hruns, Bool.false_eq_true, if_false,
          Option.map_none]
      · simpa only [Bool.not_false, Bool.or_true, if_true] using hlists
    | true =>
      obtain ⟨live', hlive⟩ : ∃ live', liveMembers selected pairTables join = some live' := by
        rw [liveMembers, if_pos hruns]
        exact ⟨_, rfl⟩
      cases lists with
      | none =>
        -- without lists every stage is of every tuple
        have hnone : liveMembers selected pairTables join = none :=
          hlists _ (List.mem_map_of_mem (List.mem_of_getElem? hjoin))
        rw [hnone] at hlive
        cases hlive
      | some stages =>
        have hanchors : Answers (fun _ => True) (Holds members) (fun anchor => listsFor (anchor, j))
            fun anchor => some (live' anchor) := fun anchor s _ hs => by
          obtain ⟨hfound, hkept⟩ := listsFor_answers members (anchor, j) s trivial hs
          refine ⟨hfound.trans ?_, hkept⟩
          simp only [hexpected, hlive, Option.map_some]
        obtain ⟨hfound, hkept⟩ := hanchors.runAll anchors (some stages) (fun _ _ => trivial) hlists
        simp only [Option.isNone_some, Bool.not_true, Bool.or_false, Bool.false_eq_true, if_false, hlive,
          Option.map_some, hfound, true_and]
        exact hkept
  obtain ⟨hfound, -⟩ := hstage.runAll (nodes.map joinRequest).zipIdx lists (fun stage hmem => by
    have hget := List.mem_zipIdx_iff_getElem?.1 hmem
    rw [List.getElem?_map] at hget
    obtain ⟨join, hjoin, heq⟩ := Option.map_eq_some_iff.1 hget
    exact ⟨join, hjoin, heq.symm⟩) h
  refine hfound.trans ?_
  refine List.ext_getElem (by simp only [List.length_map, List.length_zipIdx]) fun i hi hi' => ?_
  have hlt : i < nodes.length := by rwa [List.length_map] at hi'
  simp only [List.getElem_map, List.getElem_zipIdx, Nat.zero_add, hmembers, List.getElem?_map,
    List.getElem?_eq_getElem hlt, Option.map_some, Option.join_some]

/-- A finished anchor lists the tuples of its last stage that answered true. -/
lemma finishedAnswers_eq {last : JoinNode} (hlast : group.nodes.getLast? = some last)
    (h : joinInputs group.nodes (fun partner => selectDocuments (documents partner) (selected partner).ids)
      (fun partner => (selected partner).ids) pairTables = .ok inputs) {lists : PartnerLists}
    (hlists : Holds (group.nodes.map (liveMembers selected pairTables)) lists) (document : ℕ)
    (answer : List ℕ → Bool) :
    (finishedAnswers inputs document
      (((tuplesOf selected last).filter (live pairTables last document)).map answer) lists).1 =
      { anchor := last.anchor
        partners := last.partners
        semantics := last.semantics
        document := document
        asked := ((tuplesOf selected last).filter (live pairTables last document)).length
        matched := ((tuplesOf selected last).filter (live pairTables last document)).filter answer } := by
  obtain ⟨hgroup, hinputs, htuples, -, -⟩ := joinInputs_ok h
  rw [hlast, Option.map_some, Option.some_inj] at hinputs
  have hlastTuples := htuples last (List.mem_of_getLast? hlast)
  have hlength : inputs.group.length = group.nodes.length := by rw [hgroup, List.length_map]
  have hget : group.nodes[group.nodes.length - 1]? = some last := List.getLast?_eq_getElem? ▸ hlast
  -- the members read are those of the last stage's lookup
  have hmembers : (if lists.isSome && (joinRequest last).runsOverPairs
      then listsFor (document, inputs.group.length - 1) lists else (none, lists)).1 =
      (liveMembers selected pairTables last).map (· document) := by
    split_ifs with hlook
    · obtain ⟨hfound, -⟩ := listsFor_answers _ (document, inputs.group.length - 1) lists trivial hlists
      refine hfound.trans ((join_liveMembers _ _).trans ?_)
      simp only [hlength, hget, Option.bind_some]
    · rw [Bool.and_eq_true, not_and_or, Bool.not_eq_true, Bool.not_eq_true] at hlook
      have hnone : liveMembers selected pairTables last = none := by
        obtain hlists' | hruns := hlook
        · rw [Option.isSome_eq_false_iff, Option.isNone_iff_eq_none] at hlists'
          subst hlists'
          exact hlists _ (List.mem_map_of_mem (List.mem_of_getLast? hlast))
        · rw [liveMembers, hruns]
          rfl
      rw [hnone]
      rfl
  set tuples := tuplesOf selected last with htuplesOf
  set asked := tuples.filter (live pairTables last document) with hasked
  set members := (liveMembers selected pairTables last).map (· document) with hlive
  have haskedTuples : askedTuples tuples members = asked := askedTuples_live last document
  have hmatched : ((asked.map answer).zipIdx.filter Prod.fst).map
      (fun e => tuples.getD (members.elim e.2 (·.getD e.2 0)) []) = asked.filter answer := by
    refine filter_answers (fun i => tuples.getD (members.elim i (·.getD i 0)) []) fun i hi => ?_
    rw [← getElem_askedTuples (haskedTuples.symm ▸ hi)]
    simp only [haskedTuples]
  have hlastTuples' : inputs.partnerIndices.get? (joinRequest last).writtenPosition = some tuples := hlastTuples
  simp only [finishedAnswers, ← hinputs, hmembers, hlastTuples', Option.getD_some, hmatched, List.length_map]
  rfl

end

end Quail.Joins
