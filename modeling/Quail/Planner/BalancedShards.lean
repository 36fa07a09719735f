import Quail.Lib.Argsort
import Quail.Lib.Dict
import Quail.Lib.Fallible
import Quail.Lib.LeastLoaded
import Quail.Lib.Python
import Mathlib.Data.List.MinMax

/-!
# Shards of unordered documents

`balanced_shards` of `planner/graph/shards.py` gives each document, the longest first, to the worker with the fewest
tokens so far; `keyed_shards` of `backends/quail/coordinator.py` shards the documents of one stop key together.
-/

namespace Quail.Planner
open Argsort LeastLoaded

/-! ## The source -/

/-- `w = loads.index(min(loads))` -/
def leastLoaded (loads : List ℕ) : Except PyError ℕ :=
  match loads.min? with
  | none => .error (.value "min() iterable argument is empty")
  | some load => .ok (loads.idxOf load)

/-- One turn of `balanced_shards`, on the shards and their loads. -/
def addDocument (lengths : List ℕ) (turn : List (List ℕ) × List ℕ) (document : ℕ) :
    Except PyError (List (List ℕ) × List ℕ) := do
  let w ← leastLoaded turn.2
  return (put turn.1 w document, turn.2.modify w (· + lengths.getD document 0))

/-- Greedily partition documents into shards balanced by token count, and the shards' loads. -/
def balancedShards (lengths : List ℕ) (gpus : ℕ) : Except PyError (List (List ℕ) × List ℕ) :=
  if gpus = 1 then .ok ([List.range lengths.length], [lengths.sum])
  else do
    let order := sortIndices (fun length length' => length' ≤ length) lengths
    let (shards, loads) ← order.foldlM (addDocument lengths) (List.replicate gpus [], List.replicate gpus 0)
    return (shards.map fun shard => shard.insertionSort (· ≤ ·), loads)

section

variable {κ : Type} [DecidableEq κ]

/-- The tokens of each group, in the order the groups appear. -/
def groupTokens (groups : List κ) (lengths : List ℕ) : Dict κ ℕ :=
  (groups.zip lengths).foldl (fun tokens e => tokens.set e.1 ((tokens.get? e.1).getD 0 + e.2)) Dict.empty

/-- The worker of each group. -/
def placedGroups (ordered : List κ) (shards : List (List ℕ)) : Dict κ ℕ :=
  (shards.zipIdx.flatMap fun e => e.1.filterMap fun index => ordered[index]?.map (·, e.2)).foldl
    (fun placed e => placed.set e.1 e.2) Dict.empty

/-- `out[placed[group]].append(document)` -/
def appendDocument (placed : Dict κ ℕ) (out : List (List ℕ)) (e : κ × ℕ) : Except PyError (List (List ℕ)) :=
  match placed.get? e.1 with
  | none => .error (.key "group")
  | some worker => .ok (put out worker e.2)

/-- Shard documents by stop key group, balanced by token count. -/
def keyedShards (groups : List κ) (lengths : List ℕ) (gpus : ℕ) : Except PyError (List (List ℕ)) := do
  let tokens := groupTokens groups lengths
  let (shards, _) ← balancedShards (tokens.entries.map Prod.snd) gpus
  groups.zipIdx.foldlM (appendDocument (placedGroups tokens.keys shards)) (List.replicate gpus [])

end

/-! ## Balanced shards -/

variable {lengths : List ℕ} {gpus : ℕ}

/-- The tokens of a shard. -/
def shardTokens (lengths shard : List ℕ) : ℕ := load (lengths.getD · 0) shard

/-- `loads.index(min(loads))` finds a worker with the least load. -/
lemma leastLoaded_spec (lengths : List ℕ) {shards : List (List ℕ)} (hne : shards ≠ []) :
    ∃ w shard, leastLoaded (shards.map (shardTokens lengths)) = .ok w ∧ shards[w]? = some shard ∧
      ∀ other ∈ shards, shardTokens lengths shard ≤ shardTokens lengths other := by
  rw [leastLoaded]
  cases hmin : (shards.map (shardTokens lengths)).min? with
  | none => exact absurd (List.map_eq_nil_iff.1 (List.min?_eq_none_iff.1 hmin)) hne
  | some least =>
    obtain ⟨hmem, hleast⟩ := List.min?_eq_some_iff.1 hmin
    have hindex := List.getElem?_idxOf hmem
    rw [List.getElem?_map, Option.map_eq_some_iff] at hindex
    obtain ⟨shard, hshard, rfl⟩ := hindex
    exact ⟨_, shard, rfl, hshard, fun other hother => hleast _ (List.mem_map_of_mem hother)⟩

/-- The turns put the documents, given longest first, into even shards. -/
lemma addDocument_turns {order : List ℕ} {shards : List (List ℕ)} (hne : shards ≠ [])
    (hsorted : order.Pairwise fun i j => lengths.getD j 0 ≤ lengths.getD i 0)
    (heven : Level (lengths.getD · 0) shards)
    (hlonger : ∀ shard ∈ shards, ∀ i ∈ shard, ∀ j ∈ order, lengths.getD j 0 ≤ lengths.getD i 0) :
    ∃ shards', order.foldlM (addDocument lengths) (shards, shards.map (shardTokens lengths)) =
        .ok (shards', shards'.map (shardTokens lengths)) ∧
      shards'.length = shards.length ∧ shards'.flatten.Perm (shards.flatten ++ order) ∧
      Level (lengths.getD · 0) shards' := by
  induction order generalizing shards with
  | nil => exact ⟨shards, rfl, rfl, by rw [List.append_nil], heven⟩
  | cons document order ih =>
    obtain ⟨hfirst, hsorted⟩ := List.pairwise_cons.1 hsorted
    obtain ⟨w, shard, hw, hshard, hleast⟩ := leastLoaded_spec lengths hne
    have hlt : w < shards.length := (List.getElem?_eq_some_iff.1 hshard).1
    have hlonger' : ∀ grown ∈ put shards w document, ∀ i ∈ grown, ∀ j ∈ order, lengths.getD j 0 ≤ lengths.getD i 0 := by
      intro grown hgrown i hi j hj
      obtain hgrown | rfl := mem_put hshard hgrown
      · exact hlonger grown hgrown i hi j (List.mem_cons_of_mem _ hj)
      · obtain hi | hi := List.mem_append.1 hi
        · exact hlonger shard (List.mem_of_getElem? hshard) i hi j (List.mem_cons_of_mem _ hj)
        · rw [List.mem_singleton.1 hi]
          exact hfirst j hj
    have heven' := heven.put hshard hleast fun zs hzs z hz => hlonger zs hzs z hz document List.mem_cons_self
    have hne' : put shards w document ≠ [] := by
      intro h
      have hlength : (put shards w document).length = shards.length := length_put
      rw [h] at hlength
      exact hne (List.eq_nil_of_length_eq_zero hlength.symm)
    obtain ⟨shards', hrun, hlength, hperm, hlast⟩ := ih hne' hsorted heven' hlonger'
    refine ⟨shards', ?_, hlength.trans length_put, hperm.trans ?_, hlast⟩
    · rw [List.foldlM_cons, addDocument, hw, ok_bind]
      simp only [ok_bind, pure, Except.pure]
      rw [← hrun]
      exact congrArg (fun loads => order.foldlM (addDocument lengths) (put shards w document, loads)) loads_put.symm
    · exact ((flatten_put hlt).append_right order).trans (by rw [List.append_assoc]; rfl)

/-- What is promised of shards: every document is in one, in order, and a shard holds no more tokens than another
shard and any one document of its own. -/
structure Balanced (lengths : List ℕ) (gpus : ℕ) (shards : List (List ℕ)) (loads : List ℕ) : Prop where
  workers : shards.length = gpus
  documents : shards.flatten.Perm (List.range lengths.length)
  ordered : ∀ shard ∈ shards, shard.Pairwise (· < ·)
  loads : loads = shards.map (shardTokens lengths)
  even : ∀ shard ∈ shards, ∀ other ∈ shards, ∀ document ∈ shard,
    shardTokens lengths shard ≤ shardTokens lengths other + lengths.getD document 0

lemma map_getD_range : (List.range lengths.length).map (lengths.getD · 0) = lengths := by
  refine List.ext_getElem? fun i => ?_
  rw [List.getElem?_map]
  by_cases hi : i < lengths.length
  · rw [List.getElem?_range hi, List.getElem?_eq_getElem hi]
    simp [hi]
  · rw [List.getElem?_eq_none (by simpa using hi), List.getElem?_eq_none (by simpa using hi)]
    rfl

/-- One worker has every document. -/
lemma balanced_one : Balanced lengths 1 [List.range lengths.length] [lengths.sum] where
  workers := rfl
  documents := by rw [List.flatten_singleton]
  ordered shard hshard := by
    rw [List.mem_singleton.1 hshard]
    exact List.pairwise_lt_range
  loads := by rw [List.map_singleton, shardTokens, load, map_getD_range]
  even shard hshard other hother document _ := by
    rw [List.mem_singleton.1 hshard, List.mem_singleton.1 hother]
    exact Nat.le_add_right _ _

/-- Sorted shards are balanced when the shards are even. -/
lemma balanced_sorted {shards : List (List ℕ)} (hlength : shards.length = gpus)
    (hperm : shards.flatten.Perm (List.range lengths.length)) (heven : Level (lengths.getD · 0) shards) :
    Balanced lengths gpus (shards.map fun shard => shard.insertionSort (· ≤ ·)) (shards.map (shardTokens lengths)) := by
  have hsame : ∀ shard : List ℕ, shardTokens lengths (shard.insertionSort (· ≤ ·)) = shardTokens lengths shard :=
    fun shard => load_perm (List.perm_insertionSort _ shard)
  refine ⟨(List.length_map _).trans hlength, ?_, ?_, ?_, ?_⟩
  · refine List.Perm.trans ?_ hperm
    exact List.Perm.flatten_congr (List.forall₂_map_left_iff.2
      (List.forall₂_same.2 fun shard _ => List.perm_insertionSort _ shard))
  · intro sorted hsorted
    obtain ⟨shard, hshard, rfl⟩ := List.mem_map.1 hsorted
    have hnodup : shard.Nodup := (List.nodup_flatten.1 (hperm.nodup_iff.2 List.nodup_range)).1 shard hshard
    have hle := List.pairwise_insertionSort (· ≤ ·) shard
    exact (hle.and ((List.perm_insertionSort _ shard).nodup_iff.2 hnodup)).imp fun h => lt_of_le_of_ne h.1 h.2
  · rw [List.map_map]
    exact List.map_congr_left fun shard _ => (hsame shard).symm
  · intro sorted hsorted other hother document hdocument
    obtain ⟨shard, hshard, rfl⟩ := List.mem_map.1 hsorted
    obtain ⟨shard', hshard', rfl⟩ := List.mem_map.1 hother
    rw [hsame, hsame]
    exact heven shard hshard shard' hshard' document ((List.mem_insertionSort _).1 hdocument)

/-- `balanced_shards` returns balanced shards for any documents and any number of workers. -/
theorem exists_balanced (lengths : List ℕ) (hgpus : 0 < gpus) :
    ∃ shards loads, balancedShards lengths gpus = .ok (shards, loads) ∧ Balanced lengths gpus shards loads := by
  rw [balancedShards]
  by_cases hone : gpus = 1
  · rw [if_pos hone, hone]
    exact ⟨_, _, rfl, balanced_one⟩
  · rw [if_neg hone]
    have hne : List.replicate gpus ([] : List ℕ) ≠ [] := fun h => hgpus.ne' (by simpa using h)
    have hempty : ∀ shard ∈ List.replicate gpus ([] : List ℕ), shard = [] := fun shard hshard =>
      (List.mem_replicate.1 hshard).2
    have hsorted : (sortIndices (fun length length' => length' ≤ length) lengths).Pairwise
        fun i j => lengths.getD j 0 ≤ lengths.getD i 0 := by
      have : IsTrans ℕ fun length length' => length' ≤ length := ⟨fun _ _ _ h h' => h'.trans h⟩
      have : Std.Total fun length length' : ℕ => length' ≤ length := ⟨fun i j => le_total j i⟩
      refine (pairwise_sortIndices lengths).imp_of_mem fun hi hj h => ?_
      rw [List.getD_eq_getElem?_getD, List.getD_eq_getElem?_getD, List.getElem?_eq_getElem (sortIndices_lt hi),
        List.getElem?_eq_getElem (sortIndices_lt hj)]
      exact h _ _ (List.getElem?_eq_getElem (sortIndices_lt hi)) (List.getElem?_eq_getElem (sortIndices_lt hj))
    obtain ⟨shards, hrun, hlength, hperm, heven⟩ := addDocument_turns hne hsorted
      (fun shard hshard other _ document hdocument => by rw [hempty shard hshard] at hdocument; cases hdocument)
      (fun shard hshard document hdocument => by rw [hempty shard hshard] at hdocument; cases hdocument)
    have hloads : (List.replicate gpus ([] : List ℕ)).map (shardTokens lengths) = List.replicate gpus 0 := by
      rw [List.map_replicate]
      rfl
    rw [hloads] at hrun
    rw [List.length_replicate] at hlength
    refine ⟨_, _, by simp only [hrun, ok_bind]; rfl, balanced_sorted hlength (hperm.trans ?_) heven⟩
    rw [List.flatten_replicate_nil, List.nil_append]
    exact sortIndices_perm lengths

/-- `balanced_shards` returns balanced shards for any documents and any number of workers, and no worker has more
than an equal share of the tokens by as much as the longest document. -/
theorem balancedShards_spec (lengths : List ℕ) (longest : ℕ) (hlongest : ∀ length ∈ lengths, length ≤ longest)
    (hgpus : 0 < gpus) : ∃ shards loads, balancedShards lengths gpus = .ok (shards, loads) ∧
      Balanced lengths gpus shards loads ∧ ∀ tokens ∈ loads, gpus * tokens ≤ lengths.sum + (gpus - 1) * longest := by
  obtain ⟨shards, loads, hrun, hbalanced⟩ := exists_balanced lengths hgpus
  refine ⟨shards, loads, hrun, hbalanced, fun tokens htokens => ?_⟩
  have hsum : loads.sum = lengths.sum := by
    have htotal : loads.sum = shardTokens lengths shards.flatten := by
      rw [hbalanced.loads, shardTokens, load, List.map_flatten, List.sum_flatten, List.map_map]
      rfl
    rw [htotal, shardTokens, load_perm hbalanced.documents, load, map_getD_range]
  have hlength : loads.length = gpus := by rw [hbalanced.loads, List.length_map, hbalanced.workers]
  have hworst : ∀ other ∈ loads, tokens ≤ other + longest := by
    intro other hother
    rw [hbalanced.loads] at htokens hother
    obtain ⟨shard, hshard, rfl⟩ := List.mem_map.1 htokens
    obtain ⟨shard', hshard', rfl⟩ := List.mem_map.1 hother
    cases hitems : shard with
    | nil => exact Nat.zero_le _
    | cons document rest =>
      have hdocument : document ∈ shard := hitems ▸ List.mem_cons_self
      have hle := hbalanced.even shard hshard shard' hshard' document hdocument
      have hmem := hbalanced.documents.mem_iff.1 (List.mem_flatten.2 ⟨shard, hshard, hdocument⟩)
      have hlt := List.mem_range.1 hmem
      have hlen := hlongest _ (List.getElem_mem hlt)
      rw [List.getD_eq_getElem?_getD, List.getElem?_eq_getElem hlt, Option.getD_some] at hle
      rw [← hitems]
      omega
  have hshare := share_le htokens hworst
  rwa [hlength, hsum] at hshare

theorem balancedShards_spec_three : ∃ shards loads, balancedShards [2, 5, 3, 4] 3 = .ok (shards, loads) ∧
    Balanced [2, 5, 3, 4] 3 shards loads ∧ ∀ tokens ∈ loads, 3 * tokens ≤ 14 + 2 * 5 :=
  balancedShards_spec [2, 5, 3, 4] 5 (by decide) (by decide)

/-! ## Stop keys -/

section

variable {κ : Type} [DecidableEq κ] {groups : List κ}

/-- The groups with tokens are those of the documents. -/
lemma mem_keys_groupTokens (hlength : groups.length = lengths.length) {group : κ} :
    group ∈ (groupTokens groups lengths).keys ↔ group ∈ groups := by
  have hfold : ∀ (es : List (κ × ℕ)) (d : Dict κ ℕ),
      group ∈ (es.foldl (fun tokens e => tokens.set e.1 ((tokens.get? e.1).getD 0 + e.2)) d).keys ↔
        group ∈ d.keys ∨ group ∈ es.map Prod.fst := by
    intro es
    induction es with
    | nil => simp
    | cons e es ih =>
      intro d
      rw [List.foldl_cons, ih, Dict.mem_keys_set, List.map_cons, List.mem_cons, or_assoc, eq_comm]
      tauto
  rw [groupTokens, hfold, List.map_fst_zip hlength.le]
  simp

/-- A value of a dictionary that was filled in turn is one of those set. -/
lemma get?_filled {es : List (κ × ℕ)} {d : Dict κ ℕ} {k : κ} {v : ℕ}
    (h : (es.foldl (fun placed e => placed.set e.1 e.2) d).get? k = some v) : d.get? k = some v ∨ (k, v) ∈ es := by
  induction es generalizing d with
  | nil => exact .inl h
  | cons e es ih =>
    obtain h | h := ih h
    · rw [Dict.get?_set] at h
      split at h
      · rename_i heq
        refine .inr (List.mem_cons.2 (.inl ?_))
        rw [← heq, ← Option.some.inj h]
      · exact .inl h
    · exact .inr (List.mem_cons_of_mem e h)

/-- Every group has a worker. -/
lemma placedGroups_spec {ordered : List κ} {shards : List (List ℕ)}
    (hshards : shards.flatten.Perm (List.range ordered.length)) {group : κ} (hgroup : group ∈ ordered) :
    ∃ worker < shards.length, (placedGroups ordered shards).get? group = some worker := by
  obtain ⟨index, hindex⟩ := List.mem_iff_getElem?.1 hgroup
  have hlt := (List.getElem?_eq_some_iff.1 hindex).1
  obtain ⟨shard, hshard, hmem⟩ := List.mem_flatten.1 (hshards.mem_iff.2 (List.mem_range.2 hlt))
  obtain ⟨w, hw⟩ := List.mem_iff_getElem?.1 hshard
  have hkey : group ∈ (placedGroups ordered shards).keys := by
    rw [placedGroups, Dict.mem_keys_foldl_set]
    refine .inr ⟨(group, w), List.mem_flatMap.2 ⟨(shard, w), List.mem_zipIdx_iff_getElem?.2 hw, ?_⟩, rfl⟩
    exact List.mem_filterMap.2 ⟨index, hmem, by rw [hindex]; rfl⟩
  obtain ⟨worker, hworker⟩ := Dict.mem_keys_iff.1 hkey
  refine ⟨worker, ?_, hworker⟩
  obtain h | h := get?_filled hworker
  · cases h
  · obtain ⟨e, he, h⟩ := List.mem_flatMap.1 h
    obtain ⟨i, -, hi⟩ := List.mem_filterMap.1 h
    obtain ⟨g, -, hg⟩ := Option.map_eq_some_iff.1 hi
    rw [← (Prod.mk.inj hg).2]
    exact (List.getElem?_eq_some_iff.1 (List.mem_zipIdx_iff_getElem?.1 he)).1

/-- The appends give each worker the documents of its groups. -/
lemma appendDocument_turns {worker : κ → ℕ} {placed : Dict κ ℕ} {es : List (κ × ℕ)}
    (hplaced : ∀ e ∈ es, placed.get? e.1 = some (worker e.1)) : ∀ out : List (List ℕ),
    ∃ out', es.foldlM (appendDocument placed) out = .ok out' ∧ out'.length = out.length ∧
      ∀ w, out'[w]? = out[w]?.map (· ++ (es.filter fun e => worker e.1 = w).map Prod.snd) := by
  induction es with
  | nil => exact fun out => ⟨out, rfl, rfl, fun w => by simp⟩
  | cons e es ih =>
    intro out
    obtain ⟨he, hes⟩ := List.forall_mem_cons.1 hplaced
    obtain ⟨out', hrun, hlength, hout⟩ := ih hes (put out (worker e.1) e.2)
    refine ⟨out', ?_, hlength.trans length_put, fun w => ?_⟩
    · rw [List.foldlM_cons, appendDocument, he]
      exact hrun
    · rw [hout, put, List.getElem?_modify, List.filter_cons]
      cases out[w]? with
      | none => rfl
      | some shard =>
        by_cases hw : worker e.1 = w
        · simp [hw]
        · simp [hw]

/-- There is a shard for each worker. -/
lemma keyedShards_length {shards : List (List ℕ)} (h : keyedShards groups lengths gpus = .ok shards) :
    shards.length = gpus := by
  rw [keyedShards] at h
  obtain ⟨balanced, -, h⟩ := bind_eq_ok h
  refine foldlM_ok (fun _ out => out.length = gpus) List.length_replicate ?_ h
  intro _ out out' e _ hout hstep
  rw [appendDocument] at hstep
  split at hstep
  · cases hstep
  · obtain rfl := Except.ok.inj hstep
    exact length_put.trans hout

/-- `keyed_shards` returns, and the documents of a group are on one worker: each worker has all the documents of its
groups and no others, in order. -/
theorem keyedShards_grouped (hlength : groups.length = lengths.length) (hgpus : 0 < gpus) :
    ∃ (shards : List (List ℕ)) (worker : κ → ℕ),
      keyedShards groups lengths gpus = .ok shards ∧ (∀ group ∈ groups, worker group < gpus) ∧
      shards = (List.range gpus).map fun w => (groups.zipIdx.filter fun e => worker e.1 = w).map Prod.snd := by
  obtain ⟨shards, loads, hrun, hbalanced⟩ :=
    exists_balanced ((groupTokens groups lengths).entries.map Prod.snd) hgpus
  have hordered : ((groupTokens groups lengths).entries.map Prod.snd).length = (groupTokens groups lengths).keys.length := by
    rw [List.length_map, Dict.keys, List.length_map]
  have hworker : ∀ group ∈ groups, ∃ worker < gpus,
      (placedGroups (groupTokens groups lengths).keys shards).get? group = some worker := fun group hgroup => by
    have hspec := placedGroups_spec (hordered ▸ hbalanced.documents) ((mem_keys_groupTokens hlength).2 hgroup)
    rwa [hbalanced.workers] at hspec
  let worker : κ → ℕ := fun group => ((placedGroups (groupTokens groups lengths).keys shards).get? group).getD 0
  have hplaced : ∀ group ∈ groups, (placedGroups (groupTokens groups lengths).keys shards).get? group =
      some (worker group) := fun group hgroup => by
    obtain ⟨w, -, hw⟩ := hworker group hgroup
    rw [show worker group = w from by simp only [worker, hw, Option.getD_some], hw]
  obtain ⟨out, hout, hlen, hitems⟩ := appendDocument_turns (fun e (he : e ∈ groups.zipIdx) =>
    hplaced e.1 (List.mem_of_getElem? (List.mem_zipIdx_iff_getElem?.1 he))) (List.replicate gpus [])
  refine ⟨out, worker, by rw [keyedShards, hrun]; exact hout, fun group hgroup => ?_, List.ext_getElem? fun w => ?_⟩
  · obtain ⟨w, hlt, hw⟩ := hworker group hgroup
    rwa [show worker group = w from by simp only [worker, hw, Option.getD_some]]
  · rw [hitems, List.getElem?_map, List.getElem?_replicate]
    by_cases hw : w < gpus
    · rw [if_pos hw, List.getElem?_range hw]
      rfl
    · rw [if_neg hw, List.getElem?_eq_none (by simpa using hw)]
      rfl

theorem keyedShards_grouped_two : ∃ (shards : List (List ℕ)) (worker : String → ℕ),
    keyedShards ["x", "y", "x", "z"] [4, 3, 2, 6] 2 = .ok shards ∧ (∀ group ∈ ["x", "y", "x", "z"], worker group < 2) ∧
      shards = (List.range 2).map fun w => (["x", "y", "x", "z"].zipIdx.filter fun e => worker e.1 = w).map Prod.snd :=
  keyedShards_grouped rfl two_pos

end

end Quail.Planner
