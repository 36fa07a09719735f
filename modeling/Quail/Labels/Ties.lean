import Quail.Labels.Decode

/-!
# Ties

The plain walk breaks a tie between children for the earliest label through the child. The decoder
breaks it for the token that occurs in the earliest label, wherever in that label, and then for the
smaller token. Both walk alike for every score exactly when the two orders agree at every node.
-/

namespace Quail.Labels
open Imperative PrefixTree

/-! ## The plain walk -/

section walk

variable {σ : Type} [LinearOrder σ]

/-- The tokens the labels go on with after a node, in label order. -/
def nexts (labelIds : List (List Token)) (node : Node) : List Token :=
  labelIds.filterMap fun ids => if node <+: ids then ids[node.length]? else none

/-- The child a plain walk takes: the highest score, and among these the child of the earliest label
that passes through it. -/
def plainChild (labelIds : List (List Token)) (score : Node → Token → σ) (node : Node) :
    Option Token :=
  (nexts labelIds node).argmin fun token =>
    toLex (OrderDual.toDual (score node token), firstThrough labelIds (node ++ [token]))

lemma mem_nexts {labelIds : List (List Token)} {node : Node} {token : Token} :
    token ∈ nexts labelIds node ↔ Passes labelIds (node ++ [token]) := by
  rw [nexts, List.mem_filterMap]
  constructor
  · rintro ⟨ids, hids, heq⟩
    split_ifs at heq with hp
    refine ⟨ids, hids, concat_prefix_iff.2 ⟨node.length, heq, ?_⟩⟩
    exact List.prefix_iff_eq_take.1 hp
  · rintro ⟨ids, hids, hp⟩
    refine ⟨ids, hids, ?_⟩
    rw [if_pos ((List.prefix_append node [token]).trans hp)]
    obtain ⟨depth, hd, hnode⟩ := concat_prefix_iff.1 hp
    have hlen := congrArg List.length hnode
    rw [List.length_take, Nat.min_eq_left (List.getElem?_eq_some_iff.1 hd).1.le] at hlen
    rw [hlen, hd]

/-- Two or more tokens follow the node. -/
def splits (labelIds : List (List Token)) (node : Node) : Bool := 1 < (nexts labelIds node).dedup.length

/-- The last node of a label's path where the labels split, the root if they never do. -/
def lastDecision (labelIds : List (List Token)) (ids : List Token) : Node :=
  ((above (splits labelIds) ids).getLast?).getD []

lemma splits_eq {labelIds : List (List Token)} {trie : Trie} (h : TrieOf labelIds trie) :
    splits labelIds = isChoice trie := by
  funext node
  rw [splits, isChoice]
  cases hget : trie.get? node with
  | none =>
    have hnil : nexts labelIds node = [] := by
      apply List.eq_nil_iff_forall_not_mem.2
      intro token htoken
      have hc := h.contains node token (mem_nexts.1 htoken)
      rw [Dict.contains, hget] at hc
      cases hc
    rw [hnil]
    rfl
  | some tokens =>
    have hperm : (nexts labelIds node).dedup.Perm tokens := by
      refine (List.perm_ext_iff_of_nodup (List.nodup_dedup _) ?_).2 ?_
      · exact (h.sorted node tokens hget).imp fun hlt => hlt.ne
      · intro token
        rw [List.mem_dedup, mem_nexts, h.mem_iff node tokens hget]
    dsimp only
    rw [hperm.length_eq]

end walk

/-! ## What the decoder does for a document -/

/-- The document ends with the label of the walk that takes these children: its requests are within
the rounds, put together lead to the last decision on the label's path, and are as long, round by
round, as the counts for the label say. -/
structure EndsLike (labelIds : List (List Token)) (choose : Node → Option Token) (cue : Token)
    (rounds : ℕ) (counts : List (List ℕ)) (label : Option ℤ) (fed : List (List Token)) : Prop where
  label : label = some (labelIds.idxOf (walkEnd labelIds choose) : ℤ)
  within : fed.length ≤ rounds
  path : fed.flatten = cue :: lastDecision labelIds (walkEnd labelIds choose)
  counted : counts[labelIds.idxOf (walkEnd labelIds choose)]? = some (fed.map List.length)

/-- In any order of rounds, every document that was served as often as rounds are reserved ends like
the walk on its scores, and the tokens requested are those fed. -/
def Decodes (σ : Type) [LinearOrder σ] (labelIds : List (List Token))
    (child : (Node → Token → σ) → Node → Option Token) : Prop :=
  ∀ (targets : List Token) (cue : Token) (documents : ℕ) (score : ℕ → Node → Token → σ),
    (∀ ids ∈ labelIds, ∀ token ∈ ids, token ∈ targets) →
    ∃ d counts, GreedyDecoder.new labelIds targets cue = .ok d ∧
      decodeRoundTokens labelIds = .ok counts ∧
      ∀ schedule, (∀ document ∈ schedule, document < documents) →
        wp (d.decode (fun document node => targets.map (score document node)) schedule)
          (fun log s => s.tokens = (log.map fun e => e.2.length).sum ∧
            ∀ document < documents, d.rounds ≤ schedule.count document →
              EndsLike labelIds (child (score document)) cue d.rounds counts s.label[document]?
                (fedTo log document))
          (fun _ _ => False) (d.start documents)

/-- The child the decoder takes, as a rule about the labels. -/
def greedyRule (σ : Type) [LinearOrder σ] (labelIds : List (List Token)) (score : Node → Token → σ)
    (node : Node) : Option Token :=
  ((nexts labelIds node).dedup.insertionSort (· ≤ ·)).argmin fun token =>
    toLex (OrderDual.toDual (score node token), firstHolding labelIds token)

variable {σ : Type} [LinearOrder σ] {labelIds : List (List Token)}

lemma greedyRule_eq {trie : Trie} (h : TrieOf labelIds trie) (score : Node → Token → σ) :
    greedyRule σ labelIds score = greedyChild labelIds trie score := by
  funext node
  rw [greedyRule, greedyChild]
  cases hget : trie.get? node with
  | none =>
    have hnil : nexts labelIds node = [] := by
      apply List.eq_nil_iff_forall_not_mem.2
      intro token htoken
      have hc := h.contains node token (mem_nexts.1 htoken)
      rw [Dict.contains, hget] at hc
      cases hc
    rw [hnil]
    rfl
  | some tokens =>
    have hsorted : (nexts labelIds node).dedup.insertionSort (· ≤ ·) = tokens := by
      apply List.Perm.eq_of_pairwise (fun a b _ _ => le_antisymm)
        (List.pairwise_insertionSort _ _) ((h.sorted node tokens hget).imp le_of_lt)
      refine (List.perm_insertionSort ..).trans
        ((List.perm_ext_iff_of_nodup (List.nodup_dedup _) ?_).2 ?_)
      · exact (h.sorted node tokens hget).imp fun hlt => hlt.ne
      · intro token
        rw [List.mem_dedup, mem_nexts, h.mem_iff node tokens hget]
    rw [hsorted]
    rfl

/-- Whatever the labels, the decoder ends like the walk by its own rule. -/
theorem decodes_greedyRule (hne : labelIds ≠ []) (htokens : ∀ ids ∈ labelIds, ids ≠ [])
    (hfree : PrefixFree labelIds) : Decodes σ labelIds (greedyRule σ labelIds) := by
  intro targets cue documents score htargets
  obtain ⟨d, choices, hnew, hd⟩ := new_spec hne htokens hfree
  refine ⟨d, _, hnew, decodeRoundTokens_spec hd.tables hne hd.decoded.1 hd.decoded.2 hd.runs hd.leaves
    cue, ?_⟩
  intro schedule hschedule
  have hgoals : ∀ i, walkEnd labelIds (greedyChild labelIds d.trie (score i)) ∈ labelIds := fun i =>
    (walkEnd_spec hd.tables.trieOf hne (greedyChild_names hd.tables.trieOf)
      fun _ hc => greedyChild_isSome hd.tables.trieOf hc).1
  refine wp_mono (decode_spec hd htargets hne hschedule (start_docs hd hne hgoals)) ?_ fun _ _ => id
  rintro log s ⟨hdocs, htotal⟩
  refine ⟨htotal.trans (Nat.zero_add _), ?_⟩
  intro document hdoc hserved
  obtain ⟨node, pending, label, _, _, hlabel, hprogress, hcount⟩ := hdocs document hdoc
  obtain ⟨hdecided, hfed, hwithin⟩ := hprogress.decided_of_served hd (hgoals document) (by
    intro hneg
    rw [hcount hneg]
    simpa using hserved)
  rw [greedyRule_eq hd.tables.trieOf]
  have hfed : fedTo log document = feedsTo d.trie cue (walkEnd labelIds
      (greedyChild labelIds d.trie (score document))) := hfed
  refine ⟨hlabel.trans (congrArg some hdecided), hwithin, ?_, ?_⟩
  · have hpairs : ([] :: above (isChoice d.trie) (walkEnd labelIds
        (greedyChild labelIds d.trie (score document)))).Pairwise (· <+: ·) :=
      List.pairwise_cons.2 ⟨fun _ _ => List.nil_prefix, pairwise_above⟩
    rw [hfed, feedsTo, feeds_flatten, lastDecision, splits_eq hd.tables.trieOf, ← flatten_cuts hpairs]
    rfl
  · rw [List.getElem?_map, List.getElem?_idxOf (hgoals document), hfed]
    rfl

/-! ## The two orders -/

/-- The best token of a list: the highest score, then the lowest rank, then the first in the list. -/
lemma argmin_eq_some {score : Token → σ} {rank : Token → ℕ} {tokens : List Token} {best : Token} :
    (tokens.argmin fun token => toLex (OrderDual.toDual (score token), rank token)) = some best ↔
      best ∈ tokens ∧ ∀ token ∈ tokens, score token ≤ score best ∧
        (score token = score best → rank best ≤ rank token ∧
          (rank token = rank best → tokens.idxOf best ≤ tokens.idxOf token)) := by
  have hle : ∀ a b : Token, toLex (OrderDual.toDual (score a), rank a) ≤
      toLex (OrderDual.toDual (score b), rank b) ↔
        score b < score a ∨ score a = score b ∧ rank a ≤ rank b := by
    intro a b
    rw [Prod.Lex.toLex_le_toLex]
    rfl
  rw [← Option.mem_def, List.mem_argmin_iff]
  simp only [hle]
  constructor
  · rintro ⟨hmem, hbest, hfirst⟩
    refine ⟨hmem, fun token htoken => ?_⟩
    have hb := hbest token htoken
    refine ⟨?_, fun heq => ⟨?_, fun hrank => hfirst token htoken (.inr ⟨heq, hrank.le⟩)⟩⟩
    · cases hb with
      | inl hlt => exact hlt.le
      | inr h => exact h.1.ge
    · cases hb with
      | inl hlt => exact absurd heq hlt.ne
      | inr h => exact h.2
  · rintro ⟨hmem, hall⟩
    refine ⟨hmem, fun token htoken => ?_, fun token htoken hkey => ?_⟩
    · obtain ⟨hscore, htie⟩ := hall token htoken
      cases lt_or_eq_of_le hscore with
      | inl hlt => exact .inl hlt
      | inr heq => exact .inr ⟨heq.symm, (htie heq).1⟩
    · obtain ⟨hscore, htie⟩ := hall token htoken
      cases hkey with
      | inl hlt => exact absurd hscore (not_le_of_gt hlt)
      | inr h => exact (htie h.1).2 (le_antisymm h.2 (htie h.1).1)

lemma firstThrough_spec {node : Node} (h : Passes labelIds node) :
    ∃ ids, labelIds[firstThrough labelIds node]? = some ids ∧ node <+: ids := by
  obtain ⟨w, hw, hp⟩ := h
  have hlt : firstThrough labelIds node < labelIds.length :=
    List.findIdx_lt_length_of_exists ⟨w, hw, decide_eq_true hp⟩
  refine ⟨_, List.getElem?_eq_getElem hlt, of_decide_eq_true ?_⟩
  exact List.findIdx_getElem (p := fun ids => decide (node <+: ids)) (w := hlt)

/-- Two children of a node have different earliest labels. -/
lemma firstThrough_injective {node : Node} {token token' : Token}
    (h : Passes labelIds (node ++ [token])) (h' : Passes labelIds (node ++ [token']))
    (heq : firstThrough labelIds (node ++ [token]) = firstThrough labelIds (node ++ [token'])) :
    token = token' := by
  obtain ⟨ids, hids, hp⟩ := firstThrough_spec h
  obtain ⟨ids', hids', hp'⟩ := firstThrough_spec h'
  rw [heq, hids'] at hids
  obtain rfl := Option.some.inj hids
  exact child_unique hp hp'

/-- In a sorted list the smaller token is the earlier one. -/
lemma idxOf_le_iff {tokens : List Token} (hsorted : tokens.Pairwise (· < ·)) {a b : Token}
    (ha : a ∈ tokens) (hb : b ∈ tokens) : tokens.idxOf a ≤ tokens.idxOf b ↔ a ≤ b := by
  have hlt : ∀ {a b : Token}, a ∈ tokens → b ∈ tokens → tokens.idxOf a < tokens.idxOf b → a < b := by
    intro a b ha hb hab
    have hpair := List.pairwise_iff_getElem.1 hsorted _ _ (List.idxOf_lt_length_of_mem ha)
      (List.idxOf_lt_length_of_mem hb) hab
    rwa [List.getElem_idxOf, List.getElem_idxOf] at hpair
  constructor
  · intro hle
    cases lt_or_eq_of_le hle with
    | inl h => exact (hlt ha hb h).le
    | inr h => exact ((List.idxOf_inj ha).1 h).le
  · intro hle
    by_contra hnot
    exact absurd hle (not_le_of_gt (hlt hb ha (Nat.lt_of_not_le hnot)))

/-- The rule's list of children. -/
lemma children_spec (labelIds : List (List Token)) (node : Node) :
    ((nexts labelIds node).dedup.insertionSort (· ≤ ·)).Pairwise (· < ·) ∧ ∀ token,
      token ∈ (nexts labelIds node).dedup.insertionSort (· ≤ ·) ↔ Passes labelIds (node ++ [token]) := by
  constructor
  · have hnodup : ((nexts labelIds node).dedup.insertionSort (· ≤ ·)).Nodup :=
      (List.perm_insertionSort ..).nodup_iff.2 (List.nodup_dedup _)
    exact ((List.pairwise_insertionSort (· ≤ ·) _).and hnodup).imp fun h => lt_of_le_of_ne h.1 h.2
  · intro token
    rw [List.mem_insertionSort, List.mem_dedup, mem_nexts]

/-- The plain walk's best child. -/
lemma plainChild_eq_some {score : Node → Token → σ} {node : Node} {best : Token} :
    plainChild labelIds score node = some best ↔ Passes labelIds (node ++ [best]) ∧
      ∀ token, Passes labelIds (node ++ [token]) → score node token ≤ score node best ∧
        (score node token = score node best →
          firstThrough labelIds (node ++ [best]) ≤ firstThrough labelIds (node ++ [token])) := by
  rw [plainChild, argmin_eq_some]
  simp only [mem_nexts]
  constructor
  · rintro ⟨hmem, hall⟩
    exact ⟨hmem, fun token htoken => ⟨(hall token htoken).1, fun heq => ((hall token htoken).2 heq).1⟩⟩
  · rintro ⟨hmem, hall⟩
    refine ⟨hmem, fun token htoken => ⟨(hall token htoken).1, fun heq => ⟨(hall token htoken).2 heq, ?_⟩⟩⟩
    intro hrank
    rw [firstThrough_injective htoken hmem hrank]

/-- The decoder's best child. -/
lemma greedyRule_eq_some {score : Node → Token → σ} {node : Node} {best : Token} :
    greedyRule σ labelIds score node = some best ↔ Passes labelIds (node ++ [best]) ∧
      ∀ token, Passes labelIds (node ++ [token]) → score node token ≤ score node best ∧
        (score node token = score node best → firstHolding labelIds best ≤ firstHolding labelIds token ∧
          (firstHolding labelIds token = firstHolding labelIds best → best ≤ token)) := by
  obtain ⟨hsorted, hmem⟩ := children_spec labelIds node
  rw [greedyRule, argmin_eq_some]
  simp only [hmem]
  constructor
  · rintro ⟨hbest, hall⟩
    refine ⟨hbest, fun token htoken => ⟨(hall token htoken).1, fun heq => ?_⟩⟩
    obtain ⟨hrank, hfirst⟩ := (hall token htoken).2 heq
    exact ⟨hrank, fun h => (idxOf_le_iff hsorted ((hmem best).2 hbest) ((hmem token).2 htoken)).1
      (hfirst h)⟩
  · rintro ⟨hbest, hall⟩
    refine ⟨hbest, fun token htoken => ⟨(hall token htoken).1, fun heq => ?_⟩⟩
    obtain ⟨hrank, hfirst⟩ := (hall token htoken).2 heq
    exact ⟨hrank, fun h => (idxOf_le_iff hsorted ((hmem best).2 hbest) ((hmem token).2 htoken)).2
      (hfirst h)⟩

/-- At every node the children's tokens, first by the earliest label that holds the token and then by
number, come in the order of the earliest labels through the children. -/
def TiesAgree (labelIds : List (List Token)) : Prop :=
  ∀ ids ∈ labelIds, ∀ node ∈ ids.inits, ∀ token ∈ nexts labelIds node,
    ∀ token' ∈ nexts labelIds node,
      firstThrough labelIds (node ++ [token]) < firstThrough labelIds (node ++ [token']) →
      firstHolding labelIds token < firstHolding labelIds token' ∨
        (firstHolding labelIds token = firstHolding labelIds token' ∧ token < token')

instance : Decidable (TiesAgree labelIds) := by
  unfold TiesAgree
  infer_instance

/-- Where the orders agree, the decoder takes the plain walk's child at every node. -/
lemma TiesAgree.rule_eq (h : TiesAgree labelIds) (score : Node → Token → σ) :
    greedyRule σ labelIds score = plainChild labelIds score := by
  funext node
  cases hplain : plainChild labelIds score node with
  | none =>
    rw [plainChild, List.argmin_eq_none] at hplain
    rw [greedyRule, hplain]
    rfl
  | some best =>
    obtain ⟨hbest, hall⟩ := plainChild_eq_some.1 hplain
    refine greedyRule_eq_some.2 ⟨hbest, fun token htoken => ⟨(hall token htoken).1, fun heq => ?_⟩⟩
    have hthrough := (hall token htoken).2 heq
    cases lt_or_eq_of_le hthrough with
    | inr hsame =>
      rw [firstThrough_injective hbest htoken hsame]
      exact ⟨le_rfl, fun _ => le_rfl⟩
    | inl hlt =>
      obtain ⟨w, hw, hp⟩ := hbest
      have hnode : node ∈ w.inits :=
        (List.mem_inits _ _).2 ((List.prefix_append node [best]).trans hp)
      cases h w hw node hnode best (mem_nexts.2 ⟨w, hw, hp⟩) token (mem_nexts.2 htoken) hlt with
      | inl hrank => exact ⟨hrank.le, fun hsame => absurd hsame hrank.ne'⟩
      | inr hrank => exact ⟨hrank.1.le, fun _ => hrank.2.le⟩

/-- Scores that lead to a node and are tied there between two children. -/
def tiedScore (low high : σ) (node : Node) (token token' : Token) (q : Node) (t : Token) : σ :=
  if q ++ [t] <+: node ∨ q = node ∧ (t = token ∨ t = token') then high else low

/-- A walk on the tied scores passes the child its rule takes at the tie. -/
lemma tied_reaches {low high : σ} (hlt : low < high) {node : Node} (token token' : Token)
    {choose : Node → Option Token} {best : Token}
    (hbest : best = token ∨ best = token') (hpass : Passes labelIds (node ++ [best]))
    (hchoose : ∀ q t, q ++ [t] <+: node ++ [best] →
      (∀ t', Passes labelIds (q ++ [t']) →
        tiedScore low high node token token' q t' ≤ tiedScore low high node token token' q t ∧
          (tiedScore low high node token token' q t' = tiedScore low high node token token' q t →
            t' = t ∨ q = node ∧ (t' = token ∨ t' = token'))) → choose q = some t) :
    node ++ [best] <+: walkEnd labelIds choose := by
  apply walk_reaches ?_ List.nil_prefix
    ((hpass.length_le fun _ => length_le_longest).trans (Nat.le_add_right _ _))
  intro q t hp
  have hhigh : q ++ [t] <+: node ∨ q = node ∧ (t = token ∨ t = token') := by
    by_cases heq : q = node
    · subst heq
      obtain rfl := child_unique hp List.prefix_rfl
      exact .inr ⟨rfl, hbest⟩
    · left
      have hq : q <+: node := by
        cases List.prefix_concat_iff.1 ((List.prefix_append q [t]).trans hp) with
        | inl hfull =>
          have hlen := hp.length_le
          rw [hfull, List.length_append] at hlen
          simp at hlen
        | inr h => exact h
      obtain ⟨t', ht'⟩ := exists_child hq heq
      rw [child_unique hp (ht'.trans (List.prefix_append node [best]))]
      exact ht'
  apply hchoose q t hp
  intro t' _
  rw [tiedScore, tiedScore, if_pos hhigh]
  split_ifs with htied
  · refine ⟨le_rfl, fun _ => ?_⟩
    cases htied with
    | inl hunder =>
      left
      exact child_unique (hunder.trans (List.prefix_append node [best])) hp
    | inr hnode => exact .inr hnode
  · exact ⟨hlt.le, fun heq => absurd heq hlt.ne⟩

/-- Where the orders differ, some scores lead the decoder and the plain walk apart. -/
lemma exists_tie [Nontrivial σ] (h : ¬TiesAgree labelIds) :
    ∃ score : Node → Token → σ,
      walkEnd labelIds (greedyRule σ labelIds score) ≠ walkEnd labelIds (plainChild labelIds score) := by
  obtain ⟨low, high, hlt⟩ := exists_pair_lt σ
  unfold TiesAgree at h
  push Not at h
  obtain ⟨w, hw, node, hnode, token, htoken, token', htoken', hthrough, hrank, hnumber⟩ := h
  rw [mem_nexts] at htoken htoken'
  refine ⟨tiedScore low high node token token', ?_⟩
  have hplain : node ++ [token] <+:
      walkEnd labelIds (plainChild labelIds (tiedScore low high node token token')) := by
    refine tied_reaches hlt token token' (.inl rfl) htoken ?_
    intro q t hp hall
    refine plainChild_eq_some.2 ⟨htoken.above hp, fun t' ht' => ⟨(hall t' ht').1, fun heq => ?_⟩⟩
    cases (hall t' ht').2 heq with
    | inl hsame => rw [hsame]
    | inr htied =>
      obtain ⟨rfl, hor⟩ := htied
      obtain rfl := child_unique hp List.prefix_rfl
      cases hor with
      | inl hsame => rw [hsame]
      | inr hsame => exact hsame ▸ hthrough.le
  have hgreedy : node ++ [token'] <+:
      walkEnd labelIds (greedyRule σ labelIds (tiedScore low high node token token')) := by
    refine tied_reaches hlt token token' (.inr rfl) htoken' ?_
    intro q t hp hall
    refine greedyRule_eq_some.2 ⟨htoken'.above hp, fun t' ht' => ⟨(hall t' ht').1, fun heq => ?_⟩⟩
    cases (hall t' ht').2 heq with
    | inl hsame =>
      rw [hsame]
      exact ⟨le_rfl, fun _ => le_rfl⟩
    | inr htied =>
      obtain ⟨rfl, hor⟩ := htied
      obtain rfl := child_unique hp List.prefix_rfl
      cases hor with
      | inl hsame =>
        rw [hsame]
        exact ⟨hrank, hnumber⟩
      | inr hsame =>
        rw [hsame]
        exact ⟨le_rfl, fun _ => le_rfl⟩
  intro heq
  rw [heq] at hgreedy
  obtain rfl := child_unique hplain hgreedy
  exact lt_irrefl _ hthrough

/-- The decoder ends like one walk only: two walks it ends like give the same label. -/
lemma Decodes.label_eq {child child' : (Node → Token → σ) → Node → Option Token}
    (h : Decodes σ labelIds child) (h' : Decodes σ labelIds child') (score : Node → Token → σ) :
    labelIds.idxOf (walkEnd labelIds (child score)) =
      labelIds.idxOf (walkEnd labelIds (child' score)) := by
  have htargets : ∀ ids ∈ labelIds, ∀ token ∈ ids, token ∈ labelIds.flatten :=
    fun ids hids token htoken => List.mem_flatten.2 ⟨ids, hids, htoken⟩
  obtain ⟨d, counts, hnew, hcounts, hrun⟩ := h labelIds.flatten 0 1 (fun _ => score) htargets
  obtain ⟨d', counts', hnew', hcounts', hrun'⟩ := h' labelIds.flatten 0 1 (fun _ => score) htargets
  obtain rfl := Except.ok.inj (hnew.symm.trans hnew')
  have hschedule : ∀ document ∈ List.replicate d.rounds 0, document < 1 := by
    intro document hmem
    rw [List.eq_of_mem_replicate hmem]
    exact Nat.one_pos
  have hserved : d.rounds ≤ (List.replicate d.rounds 0).count 0 := by rw [List.count_replicate_self]
  apply of_wp
  apply wp_mono (wp_and (hrun _ hschedule) (hrun' _ hschedule))
  · rintro log s ⟨⟨_, hends⟩, ⟨_, hends'⟩⟩
    have hlabel := (hends 0 Nat.one_pos hserved).label
    rw [(hends' 0 Nat.one_pos hserved).label] at hlabel
    exact Int.ofNat_inj.1 (Option.some.inj hlabel).symm
  · intro _ _ hfalse
    exact hfalse.1.elim

/-- Where the orders differ, the decoder leaves the plain walk on some scores. -/
lemma not_decodes_of_tie (σ : Type) [LinearOrder σ] [Nontrivial σ] (hne : labelIds ≠ [])
    (htokens : ∀ ids ∈ labelIds, ids ≠ []) (hfree : PrefixFree labelIds)
    (hdiffer : ¬TiesAgree labelIds) : ¬Decodes σ labelIds (plainChild labelIds) := by
  intro hplain
  obtain ⟨score, hends⟩ := exists_tie (σ := σ) hdiffer
  obtain ⟨trie, _, htrie⟩ := labelTrie_spec htokens
  have hmem : walkEnd labelIds (greedyRule σ labelIds score) ∈ labelIds := by
    rw [greedyRule_eq htrie]
    exact (walkEnd_spec htrie hne (greedyChild_names htrie) fun _ hc => greedyChild_isSome htrie hc).1
  exact hends ((List.idxOf_inj hmem).1 ((decodes_greedyRule hne htokens hfree).label_eq hplain score))

/-- The decoder decodes like the plain walk, whatever the scores, exactly when the order of the tokens
agrees at every node with the order of the labels. -/
theorem decodes_plain_iff (σ : Type) [LinearOrder σ] [Nontrivial σ] (labelIds : List (List Token))
    (hne : labelIds ≠ []) (htokens : ∀ ids ∈ labelIds, ids ≠ []) (hfree : PrefixFree labelIds) :
    Decodes σ labelIds (plainChild labelIds) ↔ TiesAgree labelIds := by
  constructor
  · intro hplain
    by_contra hdiffer
    exact not_decodes_of_tie σ hne htokens hfree hdiffer hplain
  · intro hagree
    have heq : greedyRule σ labelIds = plainChild labelIds := funext hagree.rule_eq
    exact heq ▸ decodes_greedyRule hne htokens hfree

theorem decodes_plain_iff_three : Decodes ℤ [[1, 2], [1, 3], [4]] (plainChild [[1, 2], [1, 3], [4]]) :=
  (decodes_plain_iff ℤ [[1, 2], [1, 3], [4]] (by decide) (by decide)
    (by unfold PrefixFree; decide)).2 (by decide)

/-- At the node of token 2 a tie goes to `[2, 9]`, as token 9 also ends the first label; the earliest
label through the node is `[2, 7]`. -/
theorem greedy_decoder_leaves_plain_walk :
    ¬Decodes ℤ [[1, 9], [2, 7], [2, 9]] (plainChild [[1, 9], [2, 7], [2, 9]]) :=
  not_decodes_of_tie ℤ (by decide) (by decide) (by unfold PrefixFree; decide) (by decide)

end Quail.Labels
