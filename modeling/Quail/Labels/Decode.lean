import Quail.Labels.Greedy
import Quail.Labels.Rounds

/-!
# Decoding follows a walk

The decoder's tables say what they should (`DecoderOf`), and every document, in any order of rounds,
goes along the walk that takes the decoder's choice at every node: it asks at the choice nodes of that
walk only, is fed the pieces between them, and ends with the walk's label (`Progress`).
-/

namespace Quail.Labels
open Imperative PrefixTree

/-! ## The tables -/

/-- The first label that holds a token. -/
def firstHolding (labelIds : List (List Token)) (token : Token) : ℕ :=
  labelIds.findIdx fun ids => token ∈ ids

/-- The first label that runs through a node. -/
def firstThrough (labelIds : List (List Token)) (node : Node) : ℕ :=
  labelIds.findIdx fun ids => node <+: ids

lemma leafLabels_spec {labelIds : List (List Token)} {ids : List Token} :
    (leafLabels labelIds).get? ids = if ids ∈ labelIds then some (labelIds.idxOf ids) else none := by
  have hfind : ∀ (labels : List (List Token)) (offset : ℕ),
      ((labels.zipIdx offset).find? fun e => e.1 = ids).map Prod.snd =
        if ids ∈ labels then some (offset + labels.idxOf ids) else none := by
    intro labels
    induction labels with
    | nil => intro offset; rfl
    | cons l labels ih =>
      intro offset
      rw [List.zipIdx_cons, List.find?_cons]
      by_cases heq : l = ids
      · subst heq
        simp
      · rw [decide_eq_false heq]
        dsimp only
        rw [ih, List.idxOf_cons_ne _ heq]
        simp only [List.mem_cons, Ne.symm heq, false_or]
        split_ifs
        · congr 1
          omega
        · rfl
  rw [leafLabels, Dict.get?_foldl_setDefault, hfind labelIds 0, Nat.zero_add]
  rfl

lemma tokenOrder_spec {labelIds : List (List Token)} {token : Token} {ids : List Token}
    (hids : ids ∈ labelIds) (htoken : token ∈ ids) :
    (tokenOrder labelIds).get? token = some (firstHolding labelIds token) := by
  have hfind : ∀ (labels : List (List Token)) (offset : ℕ), (∃ l ∈ labels, token ∈ l) →
      (((labels.zipIdx offset).flatMap fun e => e.1.map fun t => (t, e.2)).find? fun e =>
        e.1 = token).map Prod.snd = some (offset + firstHolding labels token) := by
    intro labels
    induction labels with
    | nil =>
      rintro _ ⟨l, hl, _⟩
      cases hl
    | cons l labels ih =>
      intro offset hex
      rw [List.zipIdx_cons, List.flatMap_cons, List.find?_append, firstHolding, List.findIdx_cons]
      by_cases hmem : token ∈ l
      · have hhead : ((l.map fun t => (t, offset)).find? fun e => e.1 = token) =
            some (token, offset) := by
          clear ih hex
          induction l with
          | nil => cases hmem
          | cons t l ihl =>
            rw [List.map_cons, List.find?_cons]
            by_cases ht : t = token
            · rw [ht, decide_eq_true rfl]
            · rw [decide_eq_false ht]
              exact ihl ((List.mem_cons.1 hmem).resolve_left (Ne.symm ht))
        rw [hhead, decide_eq_true hmem]
        rfl
      · have hhead : ((l.map fun t => (t, offset)).find? fun e => e.1 = token) = none := by
          rw [List.find?_eq_none]
          intro e he
          obtain ⟨t, ht, rfl⟩ := List.mem_map.1 he
          rw [decide_eq_true_eq]
          rintro rfl
          exact hmem ht
        have hrest : ∃ l ∈ labels, token ∈ l := by
          obtain ⟨l', hl', ht⟩ := hex
          cases List.mem_cons.1 hl' with
          | inl heq => exact absurd (heq ▸ ht) hmem
          | inr hl' => exact ⟨l', hl', ht⟩
        rw [hhead, Option.none_or, ih _ hrest, decide_eq_false hmem]
        show some _ = some _
        rw [firstHolding]
        congr 1
        dsimp only [cond]
        omega
  rw [tokenOrder, Dict.get?_foldl_setDefault, hfind labelIds 0 ⟨ids, hids, htoken⟩, Nat.zero_add]
  rfl

lemma columns_spec {targets : List Token} {token : Token} (h : token ∈ targets) :
    ∃ i, (columns targets).get? token = some i ∧ targets[i]? = some token := by
  have hfold : ∀ (entries : List (Token × ℕ)) (d : Dict Token ℕ),
      (∀ i, (entries.foldl (fun d e => d.set e.1 e.2) d).get? token = some i →
        d.get? token = some i ∨ (token, i) ∈ entries) ∧
      ((d.contains token = true ∨ ∃ i, (token, i) ∈ entries) →
        (entries.foldl (fun d e => d.set e.1 e.2) d).contains token = true) := by
    intro entries
    induction entries with
    | nil => exact fun d => ⟨fun i h => .inl h, fun h => h.resolve_right (by simp)⟩
    | cons e entries ih =>
      intro d
      obtain ⟨hget, hcontains⟩ := ih (d.set e.1 e.2)
      constructor
      · intro i hi
        cases hget i hi with
        | inl hset =>
          rw [Dict.get?_set] at hset
          split_ifs at hset with heq
          · obtain rfl := Option.some.inj hset
            exact .inr (heq ▸ List.mem_cons_self ..)
          · exact .inl hset
        | inr hmem => exact .inr (List.mem_cons_of_mem _ hmem)
      · intro hor
        apply hcontains
        rw [Dict.contains_set]
        cases hor with
        | inl hd => exact .inl (by rw [hd, Bool.or_true])
        | inr hmem =>
          obtain ⟨i, hi⟩ := hmem
          cases List.mem_cons.1 hi with
          | inl heq => exact .inl (by rw [← heq]; simp)
          | inr hi => exact .inr ⟨i, hi⟩
  obtain ⟨hget, hcontains⟩ := hfold targets.zipIdx Dict.empty
  obtain ⟨i, hi⟩ := List.mem_iff_getElem?.1 h
  obtain ⟨j, hj⟩ := Dict.contains_iff.1
    (hcontains (.inr ⟨i, List.mk_mem_zipIdx_iff_getElem?.2 hi⟩))
  have hmem := (hget j hj).resolve_left (by rintro ⟨⟩)
  exact ⟨j, hj, List.mk_mem_zipIdx_iff_getElem?.1 hmem⟩

/-- What the constructor makes of the labels. -/
structure DecoderOf (labelIds : List (List Token)) (targets : List Token) (cue : Token)
    (choices : List Node) (d : GreedyDecoder) : Prop where
  tables : TrieTables labelIds d.trie choices
  runs : RunsOf labelIds d.trie choices d.runs
  leaves : ∀ ids ∈ labelIds, d.trie.contains ids = false
  leaf : d.leaf = leafLabels labelIds
  order : d.order = tokenOrder labelIds
  column : d.column = columns targets
  suffix_first : d.suffixes[0]? =
    some (cue :: if d.trie.contains d.runs.first then d.runs.first else [])
  suffix_later : ∀ i, d.suffixes[i + 1]? = d.runs.runs[i + 1]?
  decoded : labelTrie labelIds = .ok d.trie ∧ decodeRuns labelIds = .ok d.runs

/-- No label is a proper prefix of another. -/
def PrefixFree (labelIds : List (List Token)) : Prop :=
  ∀ ids ∈ labelIds, ∀ ids' ∈ labelIds, ids <+: ids' → ids = ids'

/-- The constructor accepts the labels. -/
theorem new_spec {labelIds : List (List Token)} {targets : List Token} {cue : Token}
    (hne : labelIds ≠ []) (htokens : ∀ ids ∈ labelIds, ids ≠ []) (hfree : PrefixFree labelIds) :
    ∃ d choices, GreedyDecoder.new labelIds targets cue = .ok d ∧
      DecoderOf labelIds targets cue choices d := by
  obtain ⟨trie, htrie, hof⟩ := labelTrie_spec htokens
  obtain ⟨choices, hchoices, hmem⟩ := choiceNodes_spec htrie
  have htables : TrieTables labelIds trie choices := ⟨hof, hmem⟩
  obtain ⟨runs, hruns, hrunsOf⟩ := decodeRuns_spec hne htrie hchoices htables
  have hleaves : ∀ ids ∈ labelIds, trie.contains ids = false := by
    intro ids hids
    cases hc : trie.contains ids with
    | false => rfl
    | true =>
      obtain ⟨tokens, hget⟩ := Dict.contains_iff.1 hc
      obtain ⟨token, rest, rfl⟩ := List.exists_cons_of_ne_nil (hof.ne_nil ids tokens hget)
      obtain ⟨ids', hids', hp⟩ := (hof.mem_iff ids _ hget token).1 (List.mem_cons_self ..)
      have heq := hfree ids hids ids' hids' ((List.prefix_append ids [token]).trans hp)
      have hlen := hp.length_le
      rw [List.length_append, List.length_singleton, heq] at hlen
      omega
  have hnone : trie.keys.any (leafLabels labelIds).contains = false := by
    rw [List.any_eq_false]
    intro node hnode hleaf
    rw [Dict.contains, leafLabels_spec] at hleaf
    split_ifs at hleaf with hids
    · have hc := Dict.contains_iff_mem_keys.2 hnode
      rw [hleaves node hids] at hc
      cases hc
    · cases hleaf
  cases hlist : runs.runs with
  | nil =>
    have hhead := hrunsOf.head
    rw [hlist] at hhead
    cases hhead
  | cons run rest =>
    have hhead := hrunsOf.head
    rw [hlist] at hhead
    refine ⟨{ labelIds, trie, leaf := leafLabels labelIds, runs
              suffixes := (cue :: run) :: rest
              order := tokenOrder labelIds
              column := columns targets }, choices, ?_, ?_⟩
    · unfold GreedyDecoder.new
      rw [htrie, ok_bind]
      dsimp only
      rw [hnone, hruns]
      simp only [Bool.false_eq_true, if_false, ok_bind]
      rw [hlist]
      rfl
    · refine ⟨htables, hrunsOf, hleaves, rfl, rfl, rfl, ?_, ?_, htrie, hruns⟩
      · show some (cue :: run) = _
        rw [← Option.some.inj hhead]
      · intro i
        rw [hlist]
        rfl

/-! ## Choices -/

section choices

variable {σ : Type} [LinearOrder σ]

/-- The child the decoder takes: of the sorted children, the first of the highest score, and among
these of the earliest label holding the token. -/
def greedyChild (labelIds : List (List Token)) (trie : Trie) (score : Node → Token → σ) (node : Node) :
    Option Token :=
  ((trie.get? node).getD []).argmin fun token =>
    toLex (OrderDual.toDual (score node token), firstHolding labelIds token)

lemma argmin_map {α β γ : Type} [LinearOrder γ] {f : β → γ} {g : α → β} {xs : List α} :
    (xs.map g).argmin f = (xs.argmin fun x => f (g x)).map g := by
  induction xs using List.reverseRecOn with
  | nil => rfl
  | append_singleton xs x ih =>
    rw [List.map_append, List.map_singleton, List.argmin_concat, List.argmin_concat, ih]
    cases xs.argmin fun x => f (g x) with
    | none => rfl
    | some m =>
      dsimp only [Option.map_some]
      split_ifs <;> rfl

lemma greedyChild_names {labelIds : List (List Token)} {trie : Trie} (h : TrieOf labelIds trie)
    {score : Node → Token → σ} : Names labelIds (greedyChild labelIds trie score) := by
  intro node token hchild
  rw [greedyChild] at hchild
  have hmem := List.argmin_mem hchild
  cases hget : trie.get? node with
  | none =>
    rw [hget] at hmem
    cases hmem
  | some tokens =>
    rw [hget] at hmem
    exact (h.mem_iff node tokens hget token).1 hmem

lemma greedyChild_isSome {labelIds : List (List Token)} {trie : Trie} (h : TrieOf labelIds trie)
    {score : Node → Token → σ} {node : Node} (hc : trie.contains node = true) :
    ∃ token, greedyChild labelIds trie score node = some token := by
  obtain ⟨tokens, hget⟩ := Dict.contains_iff.1 hc
  cases hchild : greedyChild labelIds trie score node with
  | none =>
    rw [greedyChild, hget, Option.getD_some, List.argmin_eq_none] at hchild
    exact absurd hchild (h.ne_nil node tokens hget)
  | some token => exact ⟨token, rfl⟩

/-- The label a walk ends at. -/
def walkEnd (labelIds : List (List Token)) (choose : Node → Option Token) : Node :=
  walk choose (longest labelIds) []

/-- A walk that chooses among the children ends at a label. -/
lemma walkEnd_spec {labelIds : List (List Token)} {trie : Trie} {choose : Node → Option Token}
    (h : TrieOf labelIds trie) (hne : labelIds ≠ []) (hnames : Names labelIds choose)
    (hsome : ∀ node, trie.contains node = true → ∃ token, choose node = some token) :
    walkEnd labelIds choose ∈ labelIds ∧ trie.contains (walkEnd labelIds choose) = false := by
  obtain ⟨ids, rest, hcons⟩ := List.exists_cons_of_ne_nil hne
  have hroot : Passes labelIds [] := ⟨ids, hcons ▸ List.mem_cons_self .., List.nil_prefix⟩
  have hpass : Passes labelIds (walkEnd labelIds choose) := passes_walk hnames hroot
  have hnone : choose (walkEnd labelIds choose) = none :=
    walk_end (fun _ => length_le_longest) hnames (Nat.le_add_right _ _)
  have hleaf : trie.contains (walkEnd labelIds choose) = false := by
    cases hc : trie.contains (walkEnd labelIds choose) with
    | false => rfl
    | true =>
      obtain ⟨token, htoken⟩ := hsome _ hc
      rw [hnone] at htoken
      cases htoken
  refine ⟨?_, hleaf⟩
  obtain ⟨w, hw, hp⟩ := hpass
  by_cases heq : walkEnd labelIds choose = w
  · exact heq ▸ hw
  · obtain ⟨token, htoken⟩ := exists_child hp heq
    have hcontains := h.contains _ token ⟨w, hw, htoken⟩
    rw [hleaf] at hcontains
    cases hcontains

end choices

/-! ## Rounds -/

section rounds

variable {σ : Type} [LinearOrder σ] {labelIds : List (List Token)} {targets : List Token}
  {cue : Token} {choices : List Node} {d : GreedyDecoder}

@[simp] lemma wp_item {α : Type} {xs : List α} {i : ℕ} {Q : α → Decoding → Prop}
    {E : PyError → Decoding → Prop} {s : Decoding} :
    wp (GreedyDecoder.item xs i) Q E s ↔
      (∀ x, xs[i]? = some x → Q x s) ∧ (xs[i]? = none → E (.index "list index out of range") s) := by
  unfold GreedyDecoder.item
  cases xs[i]? <;> simp

@[simp] lemma wp_lookup {κ β : Type} [DecidableEq κ] {dict : Dict κ β} {key : κ}
    {Q : β → Decoding → Prop} {E : PyError → Decoding → Prop} {s : Decoding} :
    wp (GreedyDecoder.lookup dict key) Q E s ↔
      (∀ v, dict.get? key = some v → Q v s) ∧ (dict.get? key = none → E (.key "key") s) := by
  unfold GreedyDecoder.lookup
  cases dict.get? key <;> simp

omit [LinearOrder σ] in
/-- Ranking a child raises nothing when the row covers the targets. -/
lemma wp_rank (hd : DecoderOf labelIds targets cue choices d) {score : Token → σ} {token : Token}
    {ids : List Token} (hids : ids ∈ labelIds) (htoken : token ∈ ids) (htarget : token ∈ targets)
    {s : Decoding} {Q : σᵒᵈ ×ₗ ℕ → Decoding → Prop} {E : PyError → Decoding → Prop}
    (h : Q (toLex (OrderDual.toDual (score token), firstHolding labelIds token)) s) :
    wp (d.rank (targets.map score) token) Q E s := by
  obtain ⟨i, hcolumn, hi⟩ := columns_spec htarget
  have hscore : (targets.map score)[i]? = some (score token) := by
    rw [List.getElem?_map, hi]
    rfl
  unfold GreedyDecoder.rank
  simp only [wp_bind, wp_lookup, wp_item, wp_pure, hd.column, hcolumn, hd.order,
    tokenOrder_spec hids htoken, Option.some.injEq, reduceCtorEq, false_implies, and_true,
    forall_eq', hscore]
  exact h

/-- A loop over a list that returns a value for each element. -/
lemma wp_mapM {α β : Type} {f : α → GreedyDecoder.Op β} {g : α → β} {xs : List α} {s : Decoding}
    {Q : List β → Decoding → Prop} {E : PyError → Decoding → Prop}
    (hf : ∀ x ∈ xs, ∀ {Q : β → Decoding → Prop}, Q (g x) s → wp (f x) Q E s) (h : Q (xs.map g) s) :
    wp (xs.mapM f) Q E s := by
  induction xs generalizing Q with
  | nil => exact h
  | cons x xs ih =>
    rw [List.mapM_cons, wp_bind]
    apply hf x (List.mem_cons_self ..)
    rw [wp_bind]
    exact ih (fun y hy => hf y (List.mem_cons_of_mem _ hy)) h

/-- `update` at a choice node takes the greedy choice there. -/
lemma wp_update_choice (hd : DecoderOf labelIds targets cue choices d)
    (htargets : ∀ ids ∈ labelIds, ∀ t ∈ ids, t ∈ targets) {score : Node → Token → σ} {document : ℕ}
    {node : Node} {token : Token} {s : Decoding} (hnode : s.node[document]? = some node)
    (hchoice : isChoice d.trie node = true)
    (htoken : greedyChild labelIds d.trie score node = some token)
    {Q : Unit → Decoding → Prop}
    (hleaf : d.trie.contains (targetOf labelIds d.trie choices node token) = false →
      targetOf labelIds d.trie choices node token ∈ labelIds →
      Q () { s with
        label := s.label.set document
          (labelIds.idxOf (targetOf labelIds d.trie choices node token) : ℤ) })
    (hnext : ∀ i, d.trie.contains (targetOf labelIds d.trie choices node token) = true →
      d.suffixes[i]? = some ((targetOf labelIds d.trie choices node token).drop node.length) →
      Q () { s with
        node := s.node.set document (targetOf labelIds d.trie choices node token)
        pending := s.pending.set document i }) :
    wp (d.update document (targets.map (score node))) Q (fun _ _ => False) s := by
  obtain ⟨tokens, hget⟩ := Dict.contains_iff.1 (isChoice_contains hchoice)
  have hnoleaf : d.leaf.get? node = none := by
    rw [hd.leaf, leafLabels_spec, if_neg]
    intro hmem
    have hc := hd.leaves node hmem
    rw [isChoice_contains hchoice] at hc
    cases hc
  have hpass := greedyChild_names hd.tables.trieOf node token htoken
  obtain ⟨run, hafter, hrun⟩ := hd.runs.after node token hchoice hpass
  have hkey : (tokens.map fun t => (t, toLex (OrderDual.toDual (score node t),
      firstHolding labelIds t))).argmin Prod.snd =
        some (token, toLex (OrderDual.toDual (score node token), firstHolding labelIds token)) := by
    rw [argmin_map]
    rw [greedyChild, hget, Option.getD_some] at htoken
    rw [htoken]
    rfl
  unfold GreedyDecoder.update
  simp only [wp_bind, wp_get, wp_item, hnode, Option.some.injEq, forall_eq', reduceCtorEq,
    false_implies, and_true, hnoleaf, wp_lookup, hget]
  apply wp_mapM
  · intro t ht Q' h
    obtain ⟨ids, hids, hp⟩ := (hd.tables.trieOf.mem_iff node tokens hget t).1 ht
    have hmem : t ∈ ids := hp.subset (List.mem_append_right _ (List.mem_singleton_self t))
    rw [wp_bind]
    exact wp_rank hd hids hmem (htargets ids hids t hmem) h
  · rw [hkey]
    simp only [wp_bind, wp_lookup, hafter, Option.some.injEq, forall_eq', reduceCtorEq, false_implies,
      and_true]
    cases hc : d.trie.contains (targetOf labelIds d.trie choices node token) with
    | false =>
      rw [hrun.leaf hc]
      obtain ⟨w, hw, hp⟩ := (hd.tables.target_spec hpass).2.1
      have heq := hd.tables.leaf_eq hp ⟨w, hw, List.prefix_rfl⟩ hc
      have hmem : targetOf labelIds d.trie choices node token ∈ labelIds := heq ▸ hw
      simp only [wp_bind, wp_lookup, hd.leaf, leafLabels_spec, if_pos hmem, Option.some.injEq,
        forall_eq', reduceCtorEq, false_implies, and_true, wp_set]
      exact hleaf hc hmem
    | true =>
      obtain ⟨i, rfl, hi⟩ := hrun.next hc
      simp only [wp_set]
      exact hnext (i + 1) hc ((hd.suffix_later i).trans hi)

/-- Where a document stands after it was fed some requests, on the walk to `goal`. -/
inductive Progress (labelIds : List (List Token)) (cue : Token) (d : GreedyDecoder) (goal : Node)
    (fed : List (List Token)) : Node → ℕ → ℤ → Prop
  /-- It asks at a choice node of the walk, and was fed what is above. -/
  | asking node pending suffix (hp : node <+: goal) (hchoice : isChoice d.trie node = true)
      (hsuffix : d.suffixes[pending]? = some suffix)
      (hfed : fed ++ [suffix] = feeds cue (cuts [] (above (isChoice d.trie) node ++ [node]))) :
      Progress labelIds cue d goal fed node pending (-1)
  /-- The only label is decided at the cue's row. -/
  | only pending (hsuffix : d.suffixes[pending]? = some [cue])
      (habove : above (isChoice d.trie) goal = []) (hfed : fed = []) :
      Progress labelIds cue d goal fed goal pending (-1)
  /-- It has the walk's label. -/
  | decided node pending (hfed : fed = feedsTo d.trie cue goal) :
      Progress labelIds cue d goal fed node pending (labelIds.idxOf goal)

/-- A document that goes on from a choice node is nearer to its label, or has it. -/
lemma Progress.next (pending : ℕ) (hd : DecoderOf labelIds targets cue choices d)
    {goal node : Node} {token : Token} {fed : List (List Token)} {suffix : List Token} (hgoal : goal ∈ labelIds)
    (hchoice : isChoice d.trie node = true) (htoken : node ++ [token] <+: goal)
    (hfed : fed ++ [suffix] = feeds cue (cuts [] (above (isChoice d.trie) node ++ [node]))) :
    (d.trie.contains (targetOf labelIds d.trie choices node token) = false →
      Progress labelIds cue d goal (fed ++ [suffix]) node pending
        (labelIds.idxOf (targetOf labelIds d.trie choices node token))) ∧
    ∀ i, d.trie.contains (targetOf labelIds d.trie choices node token) = true →
      d.suffixes[i]? = some ((targetOf labelIds d.trie choices node token).drop node.length) →
      Progress labelIds cue d goal (fed ++ [suffix]) (targetOf labelIds d.trie choices node token) i
        (-1) := by
  have hpass : Passes labelIds goal := ⟨goal, hgoal, List.prefix_rfl⟩
  have hchild := hpass.above htoken
  have hleaf := hd.leaves goal hgoal
  have htarget := hd.tables.target_prefix htoken hpass hleaf
  have habove := hd.tables.above_target hchild hchoice
  constructor
  · intro hc
    have heq := hd.tables.leaf_eq htarget hpass hc
    rw [heq] at habove ⊢
    exact .decided node pending (by rw [hfed, feedsTo, habove])
  · intro i hc hsuffix
    have hend := (hd.tables.target_spec hchild).2.2.1
    refine .asking _ i _ htarget (hend.resolve_right ?_) hsuffix ?_
    · rw [hc]
      rintro ⟨⟩
    · rw [hfed, habove, cuts_concat, feeds_concat]
      intro hnil
      have hlen := congrArg List.length hnil
      rw [length_cuts, List.length_append, List.length_singleton] at hlen
      cases hlen

/-- The documents, each on the walk to its goal: what it was fed, and how often it was served. -/
def Docs (labelIds : List (List Token)) (cue : Token) (d : GreedyDecoder) (goal : ℕ → Node)
    (documents : ℕ) (fed : ℕ → List (List Token)) (served : ℕ → ℕ) (s : Decoding) : Prop :=
  ∀ i < documents, ∃ node pending label, s.node[i]? = some node ∧ s.pending[i]? = some pending ∧
    s.label[i]? = some label ∧ Progress labelIds cue d (goal i) (fed i) node pending label ∧
    (label = -1 → (fed i).length = served i)

lemma Docs.congr {goal : ℕ → Node} {documents : ℕ} {fed fed' : ℕ → List (List Token)}
    {served served' : ℕ → ℕ} {s : Decoding} (h : Docs labelIds cue d goal documents fed served s)
    (hfed : ∀ i, fed i = fed' i) (hserved : ∀ i, served i = served' i) :
    Docs labelIds cue d goal documents fed' served' s := by
  obtain rfl := funext hfed
  obtain rfl := funext hserved
  exact h

lemma getElem?_set_of_lt {α : Type} {xs : List α} {i j : ℕ} {a x : α} (h : xs[i]? = some x) :
    (xs.set i a)[j]? = if i = j then some a else xs[j]? := by
  rw [List.getElem?_set]
  split_ifs with hij hlt
  · rfl
  · exact absurd (List.getElem?_eq_some_iff.1 h).1 hlt
  · rfl

/-- A document without a label is fed its run, and the row read at its node updates it. -/
lemma wp_round_asking {rows : ℕ → Node → List σ} {document pending : ℕ} {node : Node}
    {suffix : List Token} {s : Decoding} (hnode : s.node[document]? = some node)
    (hpending : s.pending[document]? = some pending) (hlabel : s.label[document]? = some (-1))
    (hsuffix : d.suffixes[pending]? = some suffix) {Q : Option (List Token) → Decoding → Prop}
    {E : PyError → Decoding → Prop}
    (h : wp (d.update document (rows document node)) (fun _ => Q (some suffix)) E
      { s with tokens := s.tokens + suffix.length }) : wp (d.round rows document) Q E s := by
  unfold GreedyDecoder.round GreedyDecoder.requests
  simp only [wp_bind, wp_get, wp_item, hlabel, hpending, hsuffix, hnode, Option.some.injEq,
    forall_eq', reduceCtorEq, false_implies, and_true, wp_ite, wp_pure, wp_set]
  refine ⟨fun hle => absurd hle (by decide), fun _ => h⟩

/-- A document with a label is skipped. -/
lemma wp_round_decided {rows : ℕ → Node → List σ} {document label : ℕ} {s : Decoding}
    (hlabel : s.label[document]? = some (label : ℤ)) {Q : Option (List Token) → Decoding → Prop}
    {E : PyError → Decoding → Prop} (h : Q none s) : wp (d.round rows document) Q E s := by
  unfold GreedyDecoder.round GreedyDecoder.requests
  simp only [wp_bind, wp_get, wp_item, hlabel, Option.some.injEq, forall_eq', reduceCtorEq,
    false_implies, and_true, wp_ite, wp_pure]
  exact ⟨fun _ => h, fun hneg => absurd (Int.natCast_nonneg label) hneg⟩

/-- One round of a document leaves the others where they are. -/
lemma round_spec (hd : DecoderOf labelIds targets cue choices d)
    (htargets : ∀ ids ∈ labelIds, ∀ t ∈ ids, t ∈ targets) (hne : labelIds ≠ [])
    {score : ℕ → Node → Token → σ} {documents document : ℕ} (hdoc : document < documents)
    {fed : ℕ → List (List Token)} {served : ℕ → ℕ} {s : Decoding}
    (h : Docs labelIds cue d (fun i => walkEnd labelIds (greedyChild labelIds d.trie (score i)))
      documents fed served s) :
    wp (d.round (fun i node => targets.map (score i node)) document)
      (fun f s' =>
        Docs labelIds cue d (fun i => walkEnd labelIds (greedyChild labelIds d.trie (score i)))
          documents (Function.update fed document (fed document ++ f.toList))
          (Function.update served document (served document + 1)) s' ∧
        s'.tokens = s.tokens + (f.toList.map List.length).sum)
      (fun _ _ => False) s := by
  obtain ⟨node, pending, label, hnode, hpending, hlabel, hprogress, hserved⟩ := h document hdoc
  -- the others are as they were, whatever becomes of this document
  have hothers : ∀ {s' : Decoding} {f : Option (List Token)} {node' : Node} {pending' : ℕ}
      {label' : ℤ},
      (∀ i, i ≠ document → s'.node[i]? = s.node[i]? ∧ s'.pending[i]? = s.pending[i]? ∧
        s'.label[i]? = s.label[i]?) →
      s'.node[document]? = some node' → s'.pending[document]? = some pending' →
      s'.label[document]? = some label' →
      Progress labelIds cue d (walkEnd labelIds (greedyChild labelIds d.trie (score document)))
        (fed document ++ f.toList) node' pending' label' →
      (label' = -1 → (fed document ++ f.toList).length = served document + 1) →
      Docs labelIds cue d (fun i => walkEnd labelIds (greedyChild labelIds d.trie (score i)))
        documents (Function.update fed document (fed document ++ f.toList))
        (Function.update served document (served document + 1)) s' := by
    intro s' f node' pending' label' hsame hn hp hl hprog hcount i hi
    by_cases heq : i = document
    · subst heq
      rw [Function.update_self, Function.update_self]
      exact ⟨node', pending', label', hn, hp, hl, hprog, hcount⟩
    · rw [Function.update_of_ne heq, Function.update_of_ne heq]
      obtain ⟨hn, hp, hl⟩ := hsame i heq
      rw [hn, hp, hl]
      exact h i hi
  have hnames : Names labelIds (greedyChild labelIds d.trie (score document)) :=
    greedyChild_names hd.tables.trieOf
  obtain ⟨hgoal, hend⟩ := walkEnd_spec hd.tables.trieOf hne hnames
    fun _ hc => greedyChild_isSome hd.tables.trieOf hc
  cases hprogress with
  | asking node pending suffix hp hchoice hsuffix hfed =>
    apply wp_round_asking hnode hpending hlabel hsuffix
    have hne : node ≠ walkEnd labelIds (greedyChild labelIds d.trie (score document)) := by
      intro heq
      rw [← heq, isChoice_contains hchoice] at hend
      cases hend
    obtain ⟨token, htoken, hunder⟩ := (walk_next List.nil_prefix hp).resolve_left hne
    obtain ⟨hdecided, hasking⟩ := Progress.next pending hd hgoal hchoice hunder hfed
    refine wp_update_choice (s := { s with tokens := s.tokens + suffix.length }) hd htargets hnode
      hchoice htoken ?_ ?_
    · intro hc _
      refine ⟨hothers (f := some suffix) (fun i hi => ⟨rfl, rfl, ?_⟩) hnode hpending ?_ (hdecided hc)
        fun hneg => absurd hneg (by omega), rfl⟩
      · exact List.getElem?_set_ne hi.symm
      · rw [getElem?_set_of_lt hlabel, if_pos rfl]
    · intro i hc hi
      refine ⟨hothers (f := some suffix) (fun j hj => ⟨?_, ?_, rfl⟩) ?_ ?_ hlabel (hasking i hc hi)
        fun _ => ?_, rfl⟩
      · exact List.getElem?_set_ne hj.symm
      · exact List.getElem?_set_ne hj.symm
      · rw [getElem?_set_of_lt hnode, if_pos rfl]
      · rw [getElem?_set_of_lt hpending, if_pos rfl]
      · show (fed document ++ [suffix]).length = _
        rw [List.length_append, hserved rfl, List.length_singleton]
  | only pending hsuffix habove hfed =>
    apply wp_round_asking hnode hpending hlabel hsuffix
    have hleaf : d.leaf.get? (walkEnd labelIds (greedyChild labelIds d.trie (score document))) =
        some (labelIds.idxOf (walkEnd labelIds (greedyChild labelIds d.trie (score document)))) := by
      rw [hd.leaf, leafLabels_spec, if_pos hgoal]
    unfold GreedyDecoder.update
    simp only [wp_bind, wp_get, wp_item, hnode, Option.some.injEq, forall_eq', reduceCtorEq,
      false_implies, and_true, hleaf, wp_set]
    have hdecided : Progress labelIds cue d
        (walkEnd labelIds (greedyChild labelIds d.trie (score document)))
        (fed document ++ (some [cue]).toList)
        (walkEnd labelIds (greedyChild labelIds d.trie (score document))) pending
        (labelIds.idxOf (walkEnd labelIds (greedyChild labelIds d.trie (score document)))) := by
      apply Progress.decided
      rw [hfed, feedsTo, habove]
      rfl
    refine ⟨hothers (fun i hi => ⟨rfl, rfl, ?_⟩) hnode hpending ?_ hdecided
      fun hneg => absurd hneg (by omega), rfl⟩
    · exact List.getElem?_set_ne hi.symm
    · rw [getElem?_set_of_lt hlabel, if_pos rfl]
  | decided node pending hfed =>
    apply wp_round_decided hlabel
    refine ⟨hothers (f := none) (fun _ _ => ⟨rfl, rfl, rfl⟩) hnode hpending hlabel ?_
      fun hneg => absurd hneg (by omega), rfl⟩
    apply Progress.decided
    rw [← hfed]
    exact List.append_nil _

/-- What a document was fed, of a log of rounds. -/
def fedTo (log : List (ℕ × List Token)) (document : ℕ) : List (List Token) :=
  (log.filter fun e => e.1 = document).map Prod.snd

/-- Rounds of documents in any order. -/
lemma decode_spec (hd : DecoderOf labelIds targets cue choices d)
    (htargets : ∀ ids ∈ labelIds, ∀ t ∈ ids, t ∈ targets) (hne : labelIds ≠ [])
    {score : ℕ → Node → Token → σ} {documents : ℕ} {schedule : List ℕ}
    (hschedule : ∀ document ∈ schedule, document < documents)
    {fed : ℕ → List (List Token)} {served : ℕ → ℕ} {s : Decoding}
    (h : Docs labelIds cue d (fun i => walkEnd labelIds (greedyChild labelIds d.trie (score i)))
      documents fed served s) :
    wp (d.decode (fun i node => targets.map (score i node)) schedule)
      (fun log s' =>
        Docs labelIds cue d (fun i => walkEnd labelIds (greedyChild labelIds d.trie (score i)))
          documents (fun i => fed i ++ fedTo log i) (fun i => served i + schedule.count i) s' ∧
        s'.tokens = s.tokens + (log.map fun e => e.2.length).sum)
      (fun _ _ => False) s := by
  induction schedule generalizing fed served s with
  | nil =>
    exact ⟨h.congr (fun i => (List.append_nil _).symm) fun i => rfl, rfl⟩
  | cons document schedule ih =>
    rw [GreedyDecoder.decode, wp_bind]
    refine wp_mono (round_spec hd htargets hne (hschedule document (List.mem_cons_self ..)) h) ?_
      fun _ _ => id
    rintro f s' ⟨h', htokens⟩
    rw [wp_bind]
    refine wp_mono (ih (fun i hi => hschedule i (List.mem_cons_of_mem _ hi)) h') ?_ fun _ _ => id
    rintro rest s'' ⟨hdocs, htokens'⟩
    have hserved : ∀ i, Function.update served document (served document + 1) i + schedule.count i =
        served i + (document :: schedule).count i := by
      intro i
      rw [List.count_cons]
      by_cases heq : i = document
      · subst heq
        rw [Function.update_self]
        simp
        omega
      · rw [Function.update_of_ne heq]
        simp [Ne.symm heq]
    cases f with
    | none =>
      refine ⟨hdocs.congr ?_ hserved, htokens'.trans (by rw [htokens]; rfl)⟩
      intro i
      by_cases heq : i = document
      · subst heq
        rw [Function.update_self]
        exact congrArg (· ++ fedTo rest i) (List.append_nil _)
      · rw [Function.update_of_ne heq]
    | some suffix =>
      refine ⟨hdocs.congr ?_ hserved, htokens'.trans (by rw [htokens]; exact Nat.add_assoc _ _ _)⟩
      intro i
      unfold fedTo
      rw [List.filter_cons]
      by_cases heq : i = document
      · subst heq
        rw [Function.update_self, if_pos (decide_eq_true rfl), List.map_cons, List.append_assoc]
        rfl
      · rw [Function.update_of_ne heq, if_neg]
        rw [decide_eq_true_eq]
        exact fun h => heq h.symm

/-- No document was fed anything before the first round. -/
lemma start_docs (hd : DecoderOf labelIds targets cue choices d) (hne : labelIds ≠ [])
    {goal : ℕ → Node} (hgoal : ∀ i, goal i ∈ labelIds) {documents : ℕ} :
    Docs labelIds cue d goal documents (fun _ => []) (fun _ => 0) (d.start documents) := by
  intro i hi
  refine ⟨d.runs.first, 0, -1, List.getElem?_replicate_of_lt hi, List.getElem?_replicate_of_lt hi,
    List.getElem?_replicate_of_lt hi, ?_, fun _ => rfl⟩
  have hpass : Passes labelIds (goal i) := ⟨goal i, hgoal i, List.prefix_rfl⟩
  have hleaf := hd.leaves (goal i) (hgoal i)
  have hfirst : d.runs.first <+: goal i := by
    rw [hd.runs.first]
    exact follow_prefix hd.tables.trieOf hd.tables.mem_choices List.nil_prefix hpass hleaf
  have habove := above_first hd.tables hne
  rw [← hd.runs.first] at habove
  have hsuffix := hd.suffix_first
  cases hc : d.trie.contains d.runs.first with
  | true =>
    rw [if_pos hc] at hsuffix
    have hend := (follow_spec hd.tables.trieOf hd.tables.mem_choices (hpass.above List.nil_prefix)
      (Nat.le_add_right (longest labelIds) _)).2.2.1
    rw [← hd.runs.first] at hend
    refine .asking _ 0 _ hfirst (hend.resolve_right ?_) hsuffix ?_
    · rw [hc]
      exact nofun
    · rw [habove]
      rfl
  | false =>
    have heq := hd.tables.leaf_eq hfirst hpass hc
    rw [if_neg (by rw [hc]; exact Bool.false_ne_true)] at hsuffix
    rw [heq] at habove ⊢
    exact .only 0 hsuffix habove rfl

/-- A document that is not decided was served less often than its label takes. -/
lemma Progress.decided_of_served (hd : DecoderOf labelIds targets cue choices d) {goal node : Node}
    (hgoal : goal ∈ labelIds) {fed : List (List Token)} {pending : ℕ} {label : ℤ}
    (h : Progress labelIds cue d goal fed node pending label)
    (hserved : label = -1 → d.rounds ≤ fed.length) :
    label = labelIds.idxOf goal ∧ fed = feedsTo d.trie cue goal ∧ fed.length ≤ d.rounds := by
  have hrounds := hd.runs.rounds goal ⟨goal, hgoal, List.prefix_rfl⟩ (hd.leaves goal hgoal)
  unfold readsTo at hrounds
  rw [if_neg (by rw [hd.leaves goal hgoal]; exact Bool.false_ne_true), Nat.add_zero] at hrounds
  cases h with
  | asking node pending suffix hp hchoice hsuffix hfed =>
    have hmem : node ∈ above (isChoice d.trie) goal := by
      refine mem_above.2 ⟨hp, ?_, hchoice⟩
      rintro rfl
      have hc := hd.leaves node hgoal
      rw [isChoice_contains hchoice] at hc
      cases hc
    have hlen := congrArg List.length hfed
    rw [List.length_append, List.length_singleton, feeds_length, length_cuts, List.length_append,
      List.length_singleton] at hlen
    -- the nodes above the node are above the goal too, with the node itself
    have hmore : (above (isChoice d.trie) node).length + 1 ≤ (above (isChoice d.trie) goal).length := by
      obtain ⟨token, htoken⟩ := exists_child hp (mem_above.1 hmem).2.1
      have hpre : above (isChoice d.trie) (node ++ [token]) <+: above (isChoice d.trie) goal :=
        above_mono htoken
      have hlen := hpre.length_le
      rw [above_concat, List.filter_singleton, hchoice, List.length_append] at hlen
      exact hlen
    have hserved := hserved rfl
    unfold GreedyDecoder.rounds at hserved
    omega
  | only pending hsuffix habove hfed =>
    have hserved := hserved rfl
    unfold GreedyDecoder.rounds at hserved
    rw [hfed, List.length_nil] at hserved
    omega
  | decided node pending hfed =>
    refine ⟨rfl, hfed, ?_⟩
    rw [hfed, feedsTo, feeds_length, length_cuts]
    exact hrounds

end rounds

end Quail.Labels
