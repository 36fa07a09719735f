import Mathlib
import Quail.Labels.Visible
import Quail.Lib.TreeMass

/-!
# Label scores

`path_reads` and `tree_scores` of `execution/labels.py`, over the reals: a label's probability is the product of
its tokens' probabilities at the read nodes on its path, and a label that starts others keeps what the nearest of
them do not take. A log probability may be minus infinity.
-/

namespace Quail.Labels
open PrefixTree TreeMass

attribute [local instance] lawfulBEq_node

/-! ## The source -/

/-- `math.exp` of a log probability. -/
noncomputable def expm : WithBot ℝ → ℝ := WithBot.recBotCoe 0 Real.exp

/-- The nodes of the paths' rows, in path order. -/
def pathNodes (paths : List LabelPath) : List Node := paths.flatMap LabelPath.nodes

/-- Which path rows, in path order, are read (`path_reads`). -/
def pathReads (paths : List LabelPath) (read : Option (List Node)) : List Bool :=
  (pathNodes paths).map fun node => read.all fun read => decide (node ∈ read)

/-- `row_of`: the row of `logprobs` that each read node has. -/
def rowOf (paths : List LabelPath) (read : Option (List Node)) : Dict Node ℕ :=
  ((pathNodes paths).zip (pathReads paths read)).foldl
    (fun rows e => if e.2 then rows.set e.1 rows.entries.length else rows) Dict.empty

/-- `column`: the column of `logprobs` that each token has. -/
def columnOf (targets : List Token) : Dict Token ℕ :=
  targets.zipIdx.foldl (fun column e => column.set e.1 e.2) Dict.empty

/-- `logprobs[row_of[ids[:depth]], column[ids[depth]]]`. -/
def logprobAt (rows : Dict Node ℕ) (column : Dict Token ℕ) (logprobs : List (List (WithBot ℝ))) (ids : List Token)
    (depth : ℕ) : Except PyError (WithBot ℝ) :=
  match rows.get? (ids.take depth) with
  | none => .error (.key "node")
  | some row =>
    match ids[depth]? with
    | none => .error (.index "tuple index out of range")
    | some token =>
      match column.get? token with
      | none => .error (.key "token")
      | some column =>
        match logprobs[row]?.bind (·[column]?) with
        | none => .error (.index "index out of bounds")
        | some value => .ok value

/-- `logprob`: the log probability of the label's tokens from a depth on, at the read nodes. -/
noncomputable def logprob (rows : Dict Node ℕ) (column : Dict Token ℕ) (logprobs : List (List (WithBot ℝ)))
    (ids : List Token) (start : ℕ) : Except PyError (WithBot ℝ) := do
  let depths := (List.range' start (ids.length - start)).filter fun depth => rows.contains (ids.take depth)
  let values ← depths.mapM (logprobAt rows column logprobs ids)
  return values.sum

/-- The depth of the nearest label that starts a label. -/
def nearestDepth (taken : Dict Node ℝ) (ids : List Token) : Option ℕ :=
  (List.range' 1 (ids.length - 1)).reverse.find? fun depth => taken.contains (ids.take depth)

/-- One turn of the first loop of `tree_scores`: a label's share of the nearest label that starts it. -/
noncomputable def takeShare (logprob : List Token → ℕ → Except PyError (WithBot ℝ)) (taken : Dict Node ℝ)
    (ids : List Token) : Except PyError (Dict Node ℝ) :=
  match nearestDepth taken ids with
  | none => .ok taken
  | some depth => do
    let value ← logprob ids depth
    return taken.set (ids.take depth) ((taken.get? (ids.take depth)).getD 0 + expm value)

/-- The score of a label. -/
noncomputable def scoreOf (logprob : List Token → ℕ → Except PyError (WithBot ℝ)) (taken : Dict Node ℝ)
    (ids : List Token) : Except PyError (WithBot ℝ) := do
  let share := (taken.get? ids).getD 0
  if share < 1 then return (← logprob ids 0) + (Real.log (1 + -share) : ℝ) else return ⊥

/-- Every label's log probability from packed trie paths (`tree_scores`). -/
noncomputable def treeScores (labelIds : List (List Token)) (paths : List LabelPath) (targets : List Token)
    (logprobs : List (List (WithBot ℝ))) (read : Option (List Node)) : Except PyError (List (WithBot ℝ)) := do
  let logprob := logprob (rowOf paths read) (columnOf targets) logprobs
  let taken : Dict Node ℝ := labelIds.foldl (fun taken ids => taken.set ids 0) Dict.empty
  let taken ← taken.keys.foldlM (takeShare logprob) taken
  labelIds.mapM (scoreOf logprob taken)

/-! ## The table of log probabilities -/

variable {labelIds : List (List Token)} {paths : List LabelPath} {read : List Node} {targets : List Token}
  {logp : Node → Token → WithBot ℝ} {ids front rest : List Token} {node : Node} {token : Token}

/-- The read nodes of the paths' rows, in path order. -/
def readRows (paths : List LabelPath) (read : List Node) : List Node :=
  (pathNodes paths).filter fun node => decide (node ∈ read)

/-- The paths' read rows back to back, with a column per token. -/
def tableOf (logp : Node → Token → WithBot ℝ) (targets : List Token) (rows : List Node) : List (List (WithBot ℝ)) :=
  rows.map fun node => targets.map (logp node)

lemma expm_bot : expm ⊥ = 0 := rfl

lemma expm_coe (x : ℝ) : expm x = Real.exp x := rfl

lemma expm_nonneg (x : WithBot ℝ) : 0 ≤ expm x := by
  cases x with
  | bot => exact le_rfl
  | coe x => exact (Real.exp_pos x).le

lemma expm_add (x y : WithBot ℝ) : expm (x + y) = expm x * expm y := by
  cases x with
  | bot => rw [WithBot.bot_add, expm_bot, zero_mul]
  | coe x =>
    cases y with
    | bot => rw [WithBot.add_bot, expm_bot, mul_zero]
    | coe y => rw [← WithBot.coe_add, expm_coe, expm_coe, expm_coe, Real.exp_add]

lemma expm_zero : expm 0 = 1 := Real.exp_zero

lemma rowOf_entries (h : (pathNodes paths).Nodup) :
    (rowOf paths (some read)).entries = (readRows paths read).zipIdx := by
  rw [rowOf, pathReads, readRows]
  generalize pathNodes paths = nodes at h
  induction nodes using List.reverseRecOn with
  | nil => rfl
  | append_singleton nodes node ih =>
    obtain ⟨hnodes, -, hdisjoint⟩ := List.nodup_append'.1 h
    specialize ih hnodes
    rw [List.map_append, List.zip_append (by rw [List.length_map]), List.foldl_append, List.filter_append]
    generalize (nodes.zip (nodes.map _)).foldl _ _ = rows at ih
    change (if Option.all (fun read => decide (node ∈ read)) (some read) = true then
      rows.set node rows.entries.length else rows).entries = _
    rw [Option.all_some]
    split
    · rename_i hread
      rw [List.filter_cons_of_pos (p := fun node => decide (node ∈ read)) hread, List.filter_nil, List.zipIdx_append, ← ih, Dict.entries_set_new, ih,
        List.length_zipIdx, Nat.zero_add]
      · rfl
      · rw [Dict.keys, ih, List.zipIdx_map_fst]
        exact fun hmem => hdisjoint (List.mem_filter.1 hmem).1 (List.mem_singleton_self node)
    · rename_i hread
      rw [List.filter_cons_of_neg (p := fun node => decide (node ∈ read)) hread, List.filter_nil, List.append_nil]
      exact ih

/-- A node of the paths has a row exactly if it is read. -/
lemma rowOf_spec (h : (pathNodes paths).Nodup) (hmem : node ∈ pathNodes paths) :
    if node ∈ read then ∃ row, (rowOf paths (some read)).get? node = some row ∧ (readRows paths read)[row]? = some node
    else (rowOf paths (some read)).get? node = none := by
  have hget : ∀ row, (rowOf paths (some read)).get? node = some row ↔ (readRows paths read)[row]? = some node := by
    intro row
    rw [← Dict.mem_entries_iff, rowOf_entries h, List.mem_zipIdx_iff_getElem?]
  split
  · rename_i hread
    obtain ⟨row, hrow⟩ := List.mem_iff_getElem?.1 (List.mem_filter.2 ⟨hmem, decide_eq_true hread⟩ :
      node ∈ readRows paths read)
    exact ⟨row, (hget row).2 hrow, hrow⟩
  · rename_i hread
    rw [Option.eq_none_iff_forall_ne_some]
    intro row hrow
    have hfound := List.mem_of_getElem? ((hget row).1 hrow)
    exact hread (of_decide_eq_true (List.mem_filter.1 hfound).2)

lemma columnOf_spec (h : token ∈ targets) : ∃ column, (columnOf targets).get? token = some column ∧
    targets[column]? = some token := by
  rw [columnOf]
  induction targets using List.reverseRecOn with
  | nil => cases h
  | append_singleton targets last ih =>
    rw [List.zipIdx_append, List.foldl_append, Nat.zero_add]
    change ∃ column, (Dict.set _ last targets.length).get? token = some column ∧ _
    rw [Dict.get?_set]
    split
    · rename_i heq
      subst heq
      exact ⟨targets.length, rfl, List.getElem?_concat_length⟩
    · rename_i hne
      obtain hmem | hmem := List.mem_append.1 h
      · obtain ⟨column, hget, hcolumn⟩ := ih hmem
        have hlt := (List.getElem?_eq_some_iff.1 hcolumn).1
        exact ⟨column, hget, by rw [List.getElem?_append_left hlt, hcolumn]⟩
      · exact absurd (List.mem_singleton.1 hmem).symm hne

/-! ## The probability of a label's tokens -/

/-- The probability of a token after a node, one where the node's row is not read. -/
noncomputable def stepProb (logp : Node → Token → WithBot ℝ) (read : List Node) (node : Node) (token : Token) : ℝ :=
  if node ∈ read then expm (logp node token) else 1

lemma stepProb_nonneg (node : Node) (token : Token) : 0 ≤ stepProb logp read node token := by
  rw [stepProb]
  split
  · exact expm_nonneg _
  · exact zero_le_one

/-- The paths hold each node at most once and every read node, and each token that follows a read node has a column. -/
structure Table (labelIds : List (List Token)) (paths : List LabelPath) (read : List Node) (targets : List Token) :
    Prop where
  nodup : (pathNodes paths).Nodup
  holds : ∀ node ∈ read, node ∈ pathNodes paths
  targets : ∀ node ∈ read, ∀ token, Passes labelIds (node ++ [token]) → token ∈ targets

lemma rowOf_get? (node : Node) (h : Table labelIds paths read targets) :
    if node ∈ read then ∃ row, (rowOf paths (some read)).get? node = some row ∧ (readRows paths read)[row]? = some node
    else (rowOf paths (some read)).get? node = none := by
  by_cases hmem : node ∈ pathNodes paths
  · exact rowOf_spec h.nodup hmem
  · have hread : node ∉ read := fun hread => hmem (h.holds node hread)
    rw [if_neg hread, ← Dict.contains_eq_false, Bool.eq_false_iff]
    intro hcontains
    rw [Dict.contains_iff_mem_keys, Dict.keys, rowOf_entries h.nodup, List.zipIdx_map_fst] at hcontains
    exact hmem (List.mem_filter.1 hcontains).1

lemma logprobAt_ok (h : Table labelIds paths read targets) (hread : front ∈ read)
    (hpass : Passes labelIds (front ++ [token])) : logprobAt (rowOf paths (some read)) (columnOf targets)
      (tableOf logp targets (readRows paths read)) (front ++ token :: rest) front.length = .ok (logp front token) := by
  have hrow := rowOf_get? front h
  rw [if_pos hread] at hrow
  obtain ⟨row, hget, hrow⟩ := hrow
  obtain ⟨column, hcolumn, htarget⟩ := columnOf_spec (h.targets front hread token hpass)
  have htoken : (front ++ token :: rest)[front.length]? = some token := by
    rw [List.getElem?_append_right le_rfl, Nat.sub_self]
    rfl
  rw [logprobAt, List.take_left, hget]
  dsimp only
  rw [htoken]
  dsimp only
  rw [hcolumn]
  dsimp only
  rw [tableOf, List.getElem?_map, hrow, Option.map_some, Option.bind_some, List.getElem?_map, htarget]
  rfl

/-- `logprob` gives the log of the product of the probabilities at the read nodes. -/
lemma logprob_ok (logp : Node → Token → WithBot ℝ) (h : Table labelIds paths read targets) (hmem : front ++ rest ∈ labelIds) :
    ∃ value, logprob (rowOf paths (some read)) (columnOf targets) (tableOf logp targets (readRows paths read))
      (front ++ rest) front.length = .ok value ∧ expm value = weight (stepProb logp read) front rest := by
  rw [logprob, List.length_append, Nat.add_sub_cancel_left]
  induction rest generalizing front with
  | nil => exact ⟨0, rfl, expm_zero⟩
  | cons token rest ih =>
    have hmem' : front ++ [token] ++ rest ∈ labelIds := by rwa [List.append_assoc]
    obtain ⟨value, hvalue, hexp⟩ := ih hmem'
    rw [List.append_assoc, List.singleton_append, List.length_append, List.length_singleton] at hvalue
    have hrow := rowOf_get? front h
    rw [List.length_cons, List.range'_succ]
    by_cases hread : front ∈ read
    · rw [if_pos hread] at hrow
      obtain ⟨row, hget, -⟩ := hrow
      rw [List.filter_cons_of_pos (by rw [List.take_left]; exact Dict.contains_iff.2 ⟨row, hget⟩), List.mapM_cons,
        logprobAt_ok h hread ⟨_, hmem, ⟨rest, by rw [List.append_assoc]; rfl⟩⟩]
      obtain ⟨values, hvalues, hsum⟩ := bind_eq_ok hvalue
      rw [hvalues]
      refine ⟨logp front token + value, ?_, ?_⟩
      · rw [← Except.ok.inj hsum]
        rfl
      · rw [expm_add, hexp, weight, stepProb, if_pos hread]
    · rw [if_neg hread] at hrow
      rw [List.filter_cons_of_neg (by rw [List.take_left, Bool.not_eq_true]; exact Dict.contains_eq_false.2 hrow)]
      refine ⟨value, hvalue, ?_⟩
      rw [hexp, weight, stepProb, if_neg hread, one_mul]

/-! ## The shares of longer labels -/

/-- A search from the deepest place up finds the deepest one that passes. -/
lemma find?_reverse_range' {p : ℕ → Bool} {n k : ℕ} : (List.range' 1 n).reverse.find? p = some k ↔
    1 ≤ k ∧ k ≤ n ∧ p k = true ∧ ∀ j, k < j → j ≤ n → p j = false := by
  induction n with
  | zero =>
    constructor
    · intro h
      cases h
    · intro h
      omega
  | succ n ih =>
    rw [List.range'_concat, List.reverse_append, List.reverse_singleton, List.singleton_append, List.find?_cons,
      Nat.one_mul, Nat.add_comm 1 n]
    cases hlast : p (n + 1) with
    | true =>
      constructor
      · intro h
        cases h
        exact ⟨Nat.le_add_left 1 n, le_rfl, hlast, fun j hlt hle => absurd hle (Nat.not_le.2 hlt)⟩
      · rintro ⟨-, hle, -, hnone⟩
        rcases hle.lt_or_eq with hlt | rfl
        · rw [hnone (n + 1) hlt le_rfl] at hlast
          cases hlast
        · rfl
    | false =>
      rw [ih]
      constructor
      · rintro ⟨hlow, hle, hk, hnone⟩
        refine ⟨hlow, Nat.le_succ_of_le hle, hk, fun j hlt hj => ?_⟩
        rcases Nat.le_succ_iff.1 hj with hj | rfl
        · exact hnone j hlt hj
        · exact hlast
      · rintro ⟨hlow, hle, hk, hnone⟩
        refine ⟨hlow, ?_, hk, fun j hlt hj => hnone j hlt (Nat.le_succ_of_le hj)⟩
        rcases Nat.le_succ_iff.1 hle with hle | rfl
        · exact hle
        · rw [hlast] at hk
          cases hk

variable {taken : Dict Node ℝ} {d : List Token}

/-- The labels are those with a share. -/
def Covers (labelIds : List (List Token)) (taken : Dict Node ℝ) : Prop :=
  ∀ node, taken.contains node = true ↔ node ∈ labelIds

/-- The depth found is that of the nearest label that starts a label. -/
lemma nearestDepth_iff (hids : ∀ ids ∈ labelIds, ids ≠ []) (hcovers : Covers labelIds taken) {depth : ℕ} :
    nearestDepth taken ids = some depth ↔ depth ≤ ids.length ∧ ids.take depth ∈ labelIds ∧
      Nearest labelIds.toFinset (ids.take depth) ids := by
  rw [nearestDepth, find?_reverse_range']
  constructor
  · rintro ⟨hlow, hle, hk, hnone⟩
    refine ⟨by omega, (hcovers _).1 hk, List.take_prefix depth ids, fun heq => ?_, fun m hm hdm hme => ?_⟩
    · have hlength := congrArg List.length heq
      rw [List.length_take] at hlength
      omega
    · rw [List.mem_toFinset] at hm
      obtain heq := List.prefix_iff_eq_take.1 hme
      have hlength := hdm.length_le
      rw [List.length_take, min_eq_left (by omega)] at hlength
      rcases hlength.lt_or_eq with hlt | hsame
      · rcases Nat.lt_or_ge m.length ids.length with hshort | hlong
        · have hmiss := hnone m.length hlt (by omega)
          rw [← heq, Bool.eq_false_iff] at hmiss
          exact absurd ((hcovers m).2 hm) hmiss
        · exact Or.inr (hme.eq_of_length (le_antisymm hme.length_le hlong))
      · exact Or.inl (by rw [heq, ← hsame])
  · rintro ⟨hle, hmem, -, hne, hnear⟩
    have hpos : 1 ≤ depth := by
      rcases Nat.eq_zero_or_pos depth with rfl | hpos
      · exact absurd (List.take_zero) (hids _ hmem)
      · exact hpos
    have hlt : depth < ids.length := by
      rcases hle.lt_or_eq with hlt | rfl
      · exact hlt
      · exact absurd List.take_length hne
    refine ⟨hpos, by omega, (hcovers _).2 hmem, fun j hdj hj => ?_⟩
    rw [Bool.eq_false_iff]
    intro hcontains
    rcases hnear (ids.take j) (List.mem_toFinset.2 ((hcovers _).1 hcontains))
      (List.prefix_take_iff.2 ⟨List.take_prefix depth ids, by rw [List.length_take]; omega⟩) (List.take_prefix j ids) with heq | heq
    · have hlength := congrArg List.length heq
      rw [List.length_take, List.length_take] at hlength
      omega
    · have hlength := congrArg List.length heq
      rw [List.length_take] at hlength
      omega

/-- What a label adds to the share that the labels above another take. -/
noncomputable def shareOf (labelIds : List (List Token)) (logp : Node → Token → WithBot ℝ) (read : List Node)
    (d e : List Token) : ℝ :=
  if Nearest labelIds.toFinset d e then weight (stepProb logp read) d (e.drop d.length) else 0

/-- One turn adds one label's share. -/
lemma takeShare_ok (logp : Node → Token → WithBot ℝ) (h : Table labelIds paths read targets)
    (hids : ∀ ids ∈ labelIds, ids ≠ [])
    (hcovers : Covers labelIds taken) (hmem : ids ∈ labelIds) : ∃ taken',
      takeShare (logprob (rowOf paths (some read)) (columnOf targets) (tableOf logp targets (readRows paths read))) taken ids =
        .ok taken' ∧ Covers labelIds taken' ∧
      ∀ d ∈ labelIds, (taken'.get? d).getD 0 = (taken.get? d).getD 0 + shareOf labelIds logp read d ids := by
  rw [takeShare]
  cases hdepth : nearestDepth taken ids with
  | none =>
    refine ⟨taken, rfl, hcovers, fun d hd => ?_⟩
    rw [shareOf, if_neg, add_zero]
    intro hnear
    have hsome : nearestDepth taken ids = some d.length := by
      rw [nearestDepth_iff hids hcovers, ← List.prefix_iff_eq_take.1 hnear.1]
      exact ⟨hnear.1.length_le, hd, hnear⟩
    rw [hdepth] at hsome
    cases hsome
  | some depth =>
    obtain ⟨hle, hlabel, hnear⟩ := (nearestDepth_iff hids hcovers).1 hdepth
    have hsplit : ids.take depth ++ ids.drop depth ∈ labelIds := by rwa [List.take_append_drop]
    obtain ⟨value, hvalue, hexp⟩ := logprob_ok logp h hsplit
    rw [List.take_append_drop, List.length_take, min_eq_left hle] at hvalue
    dsimp only
    rw [hvalue]
    refine ⟨_, rfl, fun node => ?_, fun d hd => ?_⟩
    · rw [Dict.contains_set, Bool.or_eq_true, hcovers]
      constructor
      · rintro (heq | hnode)
        · rw [← of_decide_eq_true heq]
          exact hlabel
        · exact hnode
      · exact Or.inr
    · rw [Dict.get?_set]
      split
      · rename_i heq
        subst heq
        rw [shareOf, if_pos hnear, Option.getD_some, hexp, List.length_take, min_eq_left hle]
      · rename_i hne
        rw [shareOf, if_neg, add_zero]
        exact fun hother => hne (nearest_unique (List.mem_toFinset.2 hlabel) (List.mem_toFinset.2 hd) hnear hother)

/-- The loop adds the share of every label it goes over. -/
lemma takeShares_ok (logp : Node → Token → WithBot ℝ) (h : Table labelIds paths read targets)
    (hids : ∀ ids ∈ labelIds, ids ≠ [])
    (hcovers : Covers labelIds taken) (labels : List (List Token)) (hmem : ∀ ids ∈ labels, ids ∈ labelIds) : ∃ taken',
      labels.foldlM (takeShare (logprob (rowOf paths (some read)) (columnOf targets)
        (tableOf logp targets (readRows paths read)))) taken = .ok taken' ∧
      ∀ d ∈ labelIds, (taken'.get? d).getD 0 =
        (taken.get? d).getD 0 + (labels.map (shareOf labelIds logp read d)).sum := by
  induction labels generalizing taken with
  | nil => exact ⟨taken, rfl, fun d _ => (add_zero _).symm⟩
  | cons ids labels ih =>
    obtain ⟨hfirst, hrest⟩ := List.forall_mem_cons.1 hmem
    obtain ⟨middle, hturn, hcovers', hshare⟩ := takeShare_ok logp h hids hcovers hfirst
    obtain ⟨last, hrun, hshares⟩ := ih hcovers' hrest
    refine ⟨last, ?_, fun d hd => ?_⟩
    · rw [List.foldlM_cons, hturn]
      exact hrun
    · rw [hshares d hd, hshare d hd, List.map_cons, List.sum_cons, add_assoc]

lemma shares_initial (labelIds : List (List Token)) : Covers labelIds (labelIds.foldl (fun taken ids => taken.set ids (0 : ℝ)) Dict.empty) ∧
    ∀ node, ((labelIds.foldl (fun taken ids => taken.set ids (0 : ℝ)) Dict.empty).get? node).getD 0 = 0 := by
  induction labelIds using List.reverseRecOn with
  | nil => exact ⟨fun node => by simp, fun node => rfl⟩
  | append_singleton labels ids ih =>
    obtain ⟨hcovers, hzero⟩ := ih
    rw [List.foldl_append]
    refine ⟨fun node => ?_, fun node => ?_⟩
    · rw [List.foldl_cons, List.foldl_nil, Dict.contains_set, Bool.or_eq_true, hcovers, List.mem_append,
        List.mem_singleton, decide_eq_true_eq, or_comm, eq_comm]
    · rw [List.foldl_cons, List.foldl_nil, Dict.get?_set]
      split
      · rfl
      · exact hzero node

/-! ## The read nodes -/

lemma labelTrie_ne_nil {trie : Trie} (h : labelTrie labelIds = .ok trie) : ∀ ids ∈ labelIds, ids ≠ [] := by
  obtain ⟨children, hrun, -⟩ := bind_eq_ok h
  refine foldlM_ok (fun past (_ : Trie) => ∀ ids ∈ past, ids ≠ []) (fun _ h => absurd h List.not_mem_nil) ?_ hrun
  intro past children children' ids _ hpast hstep
  split at hstep
  · cases hstep
  · rename_i hne
    exact List.forall_mem_append.2 ⟨hpast, List.forall_mem_singleton.2 hne⟩

/-- Every node of a label where the labels split is read. -/
lemma readNodes_splits {starts : List (List Bool)} {trie : Trie} (hread : readNodes labelIds starts = .ok read)
    (htrie : labelTrie labelIds = .ok trie) : ∀ ids ∈ labelIds, ∀ depth ∈ List.range' 1 (ids.length - 1), ∀ tokens,
      trie.get? (ids.take depth) = some tokens → 1 < tokens.length → ids.take depth ∈ read := by
  rw [readNodes, htrie] at hread
  have hrun := foldlM_ok (fun (past : List (List Token × ℕ)) (read : List Node) => ∀ e ∈ past,
    ∀ depth ∈ List.range' 1 (e.1.length - 1), ∀ tokens, trie.get? (e.1.take depth) = some tokens → 1 < tokens.length →
      e.1.take depth ∈ read) (fun _ h => absurd h List.not_mem_nil) ?_ hread
  · intro ids hids
    obtain ⟨i, hi⟩ := List.mem_iff_getElem?.1 hids
    exact hrun (ids, i) (List.mem_zipIdx_iff_getElem?.2 hi)
  · intro past read read' e _ hpast hstep
    obtain ⟨flags, -, hstep⟩ := bind_eq_ok hstep
    -- the nodes read before stay read
    have hturns := foldlM_ok (fun (past : List ℕ) (now : List Node) => (∀ node ∈ read, node ∈ now) ∧
      ∀ depth ∈ past, ∀ tokens, trie.get? (e.1.take depth) = some tokens → 1 < tokens.length → e.1.take depth ∈ now)
      ⟨fun _ h => h, fun _ h => absurd h List.not_mem_nil⟩ ?_ hstep
    · refine List.forall_mem_append.2 ⟨fun e' he' depth hdepth tokens hget hsplit => ?_, ?_⟩
      · exact hturns.1 _ (hpast e' he' depth hdepth tokens hget hsplit)
      · exact List.forall_mem_singleton.2 hturns.2
    · intro past now now' depth _ hnow hturn
      obtain ⟨reads, hreads, hturn⟩ := bind_eq_ok hturn
      have hgrows : ∀ node ∈ now, node ∈ now' := by
        intro node hnode
        obtain rfl := Except.ok.inj hturn
        split
        · exact mem_addNode.2 (Or.inl hnode)
        · exact hnode
      refine ⟨fun node hnode => hgrows node (hnow.1 node hnode), ?_⟩
      refine List.forall_mem_append.2 ⟨fun depth hdepth tokens hget hsplit => ?_, ?_⟩
      · exact hgrows _ (hnow.2 depth hdepth tokens hget hsplit)
      · refine List.forall_mem_singleton.2 fun tokens hget hsplit => ?_
        rw [isRead, hget] at hreads
        dsimp only at hreads
        rw [if_pos (Or.inl hsplit)] at hreads
        obtain rfl := Except.ok.inj hreads
        obtain rfl := Except.ok.inj hturn
        rw [if_pos rfl]
        exact mem_addNode.2 (Or.inr rfl)

/-- The tokens that can follow a node. -/
def nextTokens (trie : Trie) (node : Node) : Finset Token := ((trie.get? node).getD []).toFinset

/-- The probabilities listed at each read node add up to at most one. -/
def Subprobability (trie : Trie) (read : List Node) (logp : Node → Token → WithBot ℝ) : Prop :=
  ∀ node ∈ read, ∀ tokens, trie.get? node = some tokens → (tokens.map fun token => expm (logp node token)).sum ≤ 1

/-- The weights of the steps from a node add up to at most one, also where its row is not read: there is one step. -/
lemma sum_stepProb_le_one {starts : List (List Bool)} {trie : Trie} (hread : readNodes labelIds starts = .ok read)
    (htrie : labelTrie labelIds = .ok trie) (hof : TrieOf labelIds trie) (hsum : Subprobability trie read logp)
    (node : Node) : ∑ token ∈ nextTokens trie node, stepProb logp read node token ≤ 1 := by
  rw [nextTokens]
  cases hget : trie.get? node with
  | none =>
    rw [Option.getD_none, List.toFinset_nil, Finset.sum_empty]
    exact zero_le_one
  | some tokens =>
    have hnodup : tokens.Nodup := (hof.sorted node tokens hget).imp fun h => h.ne
    rw [Option.getD_some, List.sum_toFinset _ hnodup]
    by_cases hnode : node ∈ read
    · have hprob := hsum node hnode tokens hget
      simp only [stepProb, if_pos hnode]
      exact hprob
    · -- a node that is not read has one child
      have hone : tokens.length ≤ 1 := by
        by_contra hsplit
        obtain ⟨token, rest, rfl⟩ := List.exists_cons_of_ne_nil (hof.ne_nil node tokens hget)
        obtain ⟨ids, hids, hpass⟩ := (hof.mem_iff node _ hget token).1 (List.mem_cons_self ..)
        have hpre : node <+: ids := (List.prefix_append node [token]).trans hpass
        have hlength := hpass.length_le
        rw [List.length_append, List.length_singleton] at hlength
        have hpos : node ≠ [] := fun h => hnode (h ▸ (readNodes_inner hread).1)
        have hmem := readNodes_splits hread htrie ids hids node.length
          (List.mem_range'_1.2 ⟨List.length_pos_iff.2 hpos, by omega⟩)
        rw [← List.prefix_iff_eq_take.1 hpre] at hmem
        exact hnode (hmem _ hget (Nat.not_le.1 hsplit))
      simp only [stepProb, if_neg hnode]
      rw [List.map_const', List.sum_replicate, nsmul_one]
      exact_mod_cast hone

/-! ## The scores -/

/-- The product of the probabilities at the read nodes on a label's path. -/
noncomputable def pathProb (logp : Node → Token → WithBot ℝ) (read : List Node) (ids : List Token) : ℝ :=
  weight (stepProb logp read) [] ids

/-- The steps of the labels are steps of the trie. -/
lemma mem_nextTokens {trie : Trie} (hof : TrieOf labelIds trie) (hmem : ids ∈ labelIds.toFinset)
    (hsplit : ids = front ++ token :: rest) : token ∈ nextTokens trie front := by
  have hpass : Passes labelIds (front ++ [token]) :=
    ⟨ids, List.mem_toFinset.1 hmem, rest, by rw [hsplit, List.append_assoc]; rfl⟩
  obtain ⟨tokens, hget⟩ := Dict.contains_iff.1 (hof.contains front token hpass)
  rw [nextTokens, hget, Option.getD_some, List.mem_toFinset]
  exact (hof.mem_iff front tokens hget token).2 hpass

/-- The shares taken from a label by the labels of a list. -/
lemma sum_shareOf {labels : List (List Token)} (hnodup : labels.Nodup) (hset : labels.toFinset = labelIds.toFinset) :
    (labels.map (shareOf labelIds logp read d)).sum =
      ∑ a ∈ beyond labelIds.toFinset d, weight (stepProb logp read) d a := by
  rw [← List.sum_toFinset _ hnodup, hset]
  change ∑ e ∈ labelIds.toFinset, (if Nearest labelIds.toFinset d e then _ else 0) = _
  rw [← Finset.sum_filter, beyond, Finset.sum_image]
  intro a ha b hb heq
  obtain ⟨rest, rfl⟩ := (Finset.mem_filter.1 ha).2.1
  obtain ⟨more, rfl⟩ := (Finset.mem_filter.1 hb).2.1
  dsimp only at heq
  rw [List.drop_left, List.drop_left] at heq
  rw [heq]

/-- The score of a label is the log of what the nearest longer labels leave it. -/
lemma scoreOf_ok (h : Table labelIds paths read targets) (hmem : ids ∈ labelIds) {share : ℝ}
    (hshare : (taken.get? ids).getD 0 = share) (hle : share ≤ 1) : ∃ value,
      scoreOf (logprob (rowOf paths (some read)) (columnOf targets) (tableOf logp targets (readRows paths read))) taken
        ids = .ok value ∧ expm value = pathProb logp read ids * (1 - share) := by
  rw [scoreOf, hshare]
  rcases hle.lt_or_eq with hlt | rfl
  · obtain ⟨value, hvalue, hexp⟩ := logprob_ok logp h (show [] ++ ids ∈ labelIds from hmem)
    rw [List.nil_append, List.length_nil] at hvalue
    rw [if_pos hlt, hvalue]
    refine ⟨value + (Real.log (1 + -share) : ℝ), rfl, ?_⟩
    have hpos : 0 < 1 + -share := by linarith
    rw [expm_add, hexp, expm_coe, Real.exp_log hpos, pathProb, sub_eq_add_neg]
  · rw [if_neg (lt_irrefl 1)]
    exact ⟨⊥, rfl, by rw [expm_bot, sub_self, mul_zero]⟩

/-- Every score is the log of a number between 0 and 1: the probability of the label's tokens at the read nodes, without
that of the nearest longer labels; the distinct labels have a probability of at most one together. -/
theorem treeScores_spec {starts : List (List Bool)} {trie : Trie} (hread : readNodes labelIds starts = .ok read)
    (htrie : labelTrie labelIds = .ok trie) (h : Table labelIds paths read targets)
    (hsum : Subprobability trie read logp) : ∃ score : List Token → WithBot ℝ,
      treeScores labelIds paths targets (tableOf logp targets (readRows paths read)) (some read) =
        .ok (labelIds.map score) ∧
      (∀ ids ∈ labelIds, 0 ≤ expm (score ids) ∧ expm (score ids) ≤ 1 ∧ expm (score ids) = pathProb logp read ids -
        ∑ e ∈ labelIds.toFinset with Nearest labelIds.toFinset ids e, pathProb logp read e) ∧
      ∑ ids ∈ labelIds.toFinset, expm (score ids) ≤ 1 := by
  have hids := labelTrie_ne_nil htrie
  have hof : TrieOf labelIds trie := by
    obtain ⟨trie', htrie', hof⟩ := labelTrie_spec hids
    rw [htrie] at htrie'
    exact Except.ok.inj htrie' ▸ hof
  have hw : ∀ v t, 0 ≤ stepProb logp read v t := stepProb_nonneg
  have hone := sum_stepProb_le_one hread htrie hof hsum
  have hstep : ∀ a ∈ labelIds.toFinset, ∀ b t c, a = b ++ t :: c → t ∈ nextTokens trie b :=
    fun a ha b t c => mem_nextTokens hof ha
  obtain ⟨hcovers, hzero⟩ := shares_initial labelIds
  have hset : (labelIds.foldl (fun taken ids => taken.set ids (0 : ℝ)) Dict.empty).keys.toFinset = labelIds.toFinset := by
    ext node
    rw [List.mem_toFinset, List.mem_toFinset, ← Dict.contains_iff_mem_keys, hcovers]
  obtain ⟨taken, htaken, hshares⟩ := takeShares_ok logp h hids hcovers _
    (fun node hnode => (hcovers node).1 (Dict.contains_iff_mem_keys.2 hnode))
  have hnodup : (labelIds.foldl (fun taken ids => taken.set ids (0 : ℝ)) Dict.empty).keys.Nodup := Dict.nodup _
  have hshare : ∀ ids ∈ labelIds, (taken.get? ids).getD 0 =
      ∑ a ∈ beyond labelIds.toFinset ids, weight (stepProb logp read) ids a := by
    intro ids hmem
    rw [hshares ids hmem, hzero, zero_add, sum_shareOf hnodup hset]
  obtain ⟨score, hscore⟩ : ∃ score : List Token → WithBot ℝ, ∀ ids ∈ labelIds,
      scoreOf (logprob (rowOf paths (some read)) (columnOf targets) (tableOf logp targets (readRows paths read))) taken
        ids = .ok (score ids) ∧
      expm (score ids) = pathProb logp read ids *
        (1 - ∑ a ∈ beyond labelIds.toFinset ids, weight (stepProb logp read) ids a) := by
    choose! score hscore using fun ids (hmem : ids ∈ labelIds) =>
      scoreOf_ok h hmem (hshare ids hmem) (taken_le_one hw hone hstep)
    exact ⟨score, hscore⟩
  have hprob : ∀ ids ∈ labelIds, expm (score ids) = pathProb logp read ids -
      ∑ e ∈ labelIds.toFinset with Nearest labelIds.toFinset ids e, pathProb logp read e := by
    intro ids hmem
    rw [(hscore ids hmem).2, mul_sub, mul_one]
    simp only [pathProb]
    rw [sum_beyond]
  refine ⟨score, ?_, fun ids hmem => ⟨?_, ?_, hprob ids hmem⟩, ?_⟩
  · rw [treeScores, htaken]
    change labelIds.mapM _ = _
    rw [mapM_congr (g := fun ids => pure (score ids)) fun ids hmem => (hscore ids hmem).1, List.mapM_pure]
    rfl
  · exact expm_nonneg _
  · rw [(hscore ids hmem).2]
    have hprob : pathProb logp read ids ≤ 1 :=
      weight_le_one hw hone fun b t c hsplit => hstep ids (List.mem_toFinset.2 hmem) b t c hsplit
    have htaken : 0 ≤ ∑ a ∈ beyond labelIds.toFinset ids, weight (stepProb logp read) ids a :=
      Finset.sum_nonneg fun _ _ => weight_nonneg hw
    exact mul_le_one₀ hprob (sub_nonneg.2 (taken_le_one hw hone hstep)) (sub_le_self 1 htaken)
  · calc ∑ ids ∈ labelIds.toFinset, expm (score ids)
        = ∑ ids ∈ labelIds.toFinset, (pathProb logp read ids -
            ∑ e ∈ labelIds.toFinset with Nearest labelIds.toFinset ids e, pathProb logp read e) :=
          Finset.sum_congr rfl fun ids hmem => hprob ids (List.mem_toFinset.1 hmem)
      _ ≤ 1 := sum_shares_le_one hw hone hstep

/-- Every token has half of the probability. -/
noncomputable def halfProb (_ : Node) (_ : Token) : WithBot ℝ := (Real.log (1 / 2) : ℝ)

theorem treeScores_spec_nested : ∃ score : List Token → WithBot ℝ,
    treeScores [[1], [1, 2], [1, 3]] [⟨[[], [1]], 0, []⟩] [1, 2, 3]
        (tableOf halfProb [1, 2, 3] (readRows [⟨[[], [1]], 0, []⟩] [[], [1]])) (some [[], [1]]) =
      .ok ([[1], [1, 2], [1, 3]].map score) ∧
    (∀ ids ∈ [[1], [1, 2], [1, 3]], 0 ≤ expm (score ids) ∧ expm (score ids) ≤ 1 ∧
      expm (score ids) = pathProb halfProb [[], [1]] ids - ∑ e ∈ [[1], [1, 2], [1, 3]].toFinset with
        Nearest [[1], [1, 2], [1, 3]].toFinset ids e, pathProb halfProb [[], [1]] e) ∧
    ∑ ids ∈ [[1], [1, 2], [1, 3]].toFinset, expm (score ids) ≤ 1 := by
  have hread : readNodes [[1], [1, 2], [1, 3]] [] = .ok [[], [1]] := by decide +kernel
  have htrie : labelTrie [[1], [1, 2], [1, 3]] = .ok ⟨[([], [1]), ([1], [2, 3])], by decide⟩ := by rfl
  refine treeScores_spec hread htrie ⟨by decide, by decide, ?_⟩ ?_
  · intro node hnode token hpass
    obtain ⟨ids, hids, hpre⟩ := hpass
    have htoken : token ∈ ids := hpre.subset (List.mem_append_right _ (List.mem_singleton_self token))
    have hall : ∀ ids ∈ [[1], [1, 2], [1, 3]], ∀ token ∈ ids, token ∈ [1, 2, 3] := by decide
    exact hall ids hids token htoken
  · have hhalf : expm (Real.log (1 / 2) : ℝ) = 1 / 2 := Real.exp_log (by norm_num)
    intro node hnode tokens hget
    rcases List.mem_cons.1 hnode with rfl | hnode
    · cases hget
      simp only [halfProb, hhalf, List.map_cons, List.map_nil, List.sum_cons, List.sum_nil]
      norm_num
    · rcases List.mem_singleton.1 hnode with rfl
      cases hget
      simp only [halfProb, hhalf, List.map_cons, List.map_nil, List.sum_cons, List.sum_nil]
      norm_num

end Quail.Labels
