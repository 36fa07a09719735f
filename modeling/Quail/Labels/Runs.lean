import Quail.Labels.Trie
import Quail.Lib.PrefixTree

/-!
# The runs of a label trie

What the trie of the labels is in terms of the labels (`TrieOf`), where `follow` stops, and what the
loop of `decode_runs` builds from it (`RunsOf`): every choice leads past forced tokens only, its run
holds exactly the tokens on the way, and the rounds bound the choices on the way to every label.
-/

namespace Quail.Labels
open PrefixTree

/-- A loop that raises nowhere it goes is a fold. -/
lemma foldlM_eq_foldl {α β ε : Type} {f : β → α → Except ε β} {g : β → α → β} {xs : List α} {b : β}
    (h : ∀ x ∈ xs, ∀ b, f b x = .ok (g b x)) : xs.foldlM f b = .ok (xs.foldl g b) := by
  induction xs generalizing b with
  | nil => rfl
  | cons x xs ih =>
    rw [List.foldlM_cons, h x (List.mem_cons_self ..)]
    exact ih fun y hy => h y (List.mem_cons_of_mem _ hy)

/-! ## The trie -/

/-- The children recorded so far hold the token under the node. -/
def Edge (children : Trie) (node : Node) (token : Token) : Prop :=
  ∃ tokens, children.get? node = some tokens ∧ token ∈ tokens

/-- No node is recorded without a child, or with one twice. -/
def Distinct (children : Trie) : Prop :=
  ∀ node tokens, children.get? node = some tokens → tokens ≠ [] ∧ tokens.Nodup

lemma addChild_edge {children : Trie} {node node' : Node} {token token' : Token} :
    Edge (addChild children node token) node' token' ↔
      Edge children node' token' ∨ (node' = node ∧ token' = token) := by
  unfold Edge addChild
  dsimp only
  by_cases hn : node = node'
  · subst hn
    rw [Dict.get?_set_self]
    cases hc : children.get? node with
    | none => simp
    | some tokens =>
      by_cases ht : token ∈ tokens
      · simp only [Option.getD_some, if_pos ht, Option.some.injEq, exists_eq_left', true_and]
        constructor
        · exact .inl
        · intro h
          cases h with
          | inl h => exact h
          | inr h => exact h ▸ ht
      · simp only [Option.getD_some, if_neg ht, Option.some.injEq, exists_eq_left', true_and,
          List.mem_append, List.mem_singleton]
  · rw [Dict.get?_set_ne hn]
    constructor
    · exact .inl
    · intro h
      cases h with
      | inl h => exact h
      | inr h => exact absurd h.1.symm hn

lemma addChild_distinct {children : Trie} {node : Node} {token : Token} (h : Distinct children) :
    Distinct (addChild children node token) := by
  intro node' tokens hget
  unfold addChild at hget
  rw [Dict.get?_set] at hget
  split_ifs at hget with hn ht
  · obtain rfl := Option.some.inj hget
    cases hc : children.get? node with
    | none =>
      rw [hc] at ht
      cases ht
    | some tokens => exact h node tokens hc
  · obtain rfl := Option.some.inj hget
    refine ⟨by simp, ?_⟩
    rw [List.nodup_append]
    refine ⟨?_, List.nodup_singleton token, ?_⟩
    · cases hc : children.get? node with
      | none => exact List.nodup_nil
      | some tokens => exact (h node tokens hc).2
    · intro a ha b hb heq
      rw [List.mem_singleton] at hb
      exact ht (hb ▸ heq ▸ ha)
  · exact h node' tokens hget

/-- A prefix and the token after it are a position of the label. -/
lemma concat_prefix_iff {ids node : List Token} {token : Token} :
    node ++ [token] <+: ids ↔ ∃ depth, ids[depth]? = some token ∧ node = ids.take depth := by
  constructor
  · rintro ⟨rest, h⟩
    refine ⟨node.length, ?_, ?_⟩
    · rw [← h, List.append_assoc, List.getElem?_append_right le_rfl, Nat.sub_self]
      rfl
    · rw [← h, List.append_assoc, List.take_left]
  · rintro ⟨depth, htoken, hnode⟩
    obtain ⟨hlt, rfl⟩ := List.getElem?_eq_some_iff.1 htoken
    rw [hnode, List.take_concat_get' ids depth hlt]
    exact List.take_prefix _ ids

lemma addLabel_edge {children : Trie} {ids : List Token} {node : Node} {token : Token} :
    Edge (addLabel children ids) node token ↔ Edge children node token ∨ node ++ [token] <+: ids := by
  have hfold : ∀ (positions : List (Token × ℕ)) (children : Trie),
      Edge (positions.foldl (fun c e => addChild c (ids.take e.2) e.1) children) node token ↔
        Edge children node token ∨ ∃ e ∈ positions, node = ids.take e.2 ∧ token = e.1 := by
    intro positions
    induction positions with
    | nil => simp
    | cons e positions ih =>
      intro children
      rw [List.foldl_cons, ih, addChild_edge, or_assoc]
      simp only [List.mem_cons, exists_eq_or_imp]
  rw [addLabel, hfold, concat_prefix_iff]
  apply or_congr_right
  constructor
  · rintro ⟨e, he, hnode, htoken⟩
    exact ⟨e.2, htoken ▸ List.mem_zipIdx_iff_getElem?.1 he, hnode⟩
  · rintro ⟨depth, htoken, hnode⟩
    exact ⟨(token, depth), List.mk_mem_zipIdx_iff_getElem?.2 htoken, hnode, rfl⟩

lemma addLabel_distinct {children : Trie} {ids : List Token} (h : Distinct children) :
    Distinct (addLabel children ids) := by
  have hfold : ∀ (positions : List (Token × ℕ)) (children : Trie), Distinct children →
      Distinct (positions.foldl (fun c e => addChild c (ids.take e.2) e.1) children) := by
    intro positions
    induction positions with
    | nil => exact fun _ h => h
    | cons e positions ih => exact fun _ h => ih _ (addChild_distinct h)
  exact hfold _ _ h

/-- What the trie records of the labels. -/
structure TrieOf (labelIds : List (List Token)) (trie : Trie) : Prop where
  mem_iff : ∀ node tokens, trie.get? node = some tokens →
    ∀ token, token ∈ tokens ↔ Passes labelIds (node ++ [token])
  ne_nil : ∀ node tokens, trie.get? node = some tokens → tokens ≠ []
  sorted : ∀ node tokens, trie.get? node = some tokens → tokens.Pairwise (· < ·)
  contains : ∀ node token, Passes labelIds (node ++ [token]) → trie.contains node = true

/-- `label_trie` raises for an empty label only. -/
theorem labelTrie_spec {labelIds : List (List Token)} (h : ∀ ids ∈ labelIds, ids ≠ []) :
    ∃ trie, labelTrie labelIds = .ok trie ∧ TrieOf labelIds trie := by
  have hedges : ∀ (labels : List (List Token)) (children : Trie), Distinct children →
      Distinct (labels.foldl addLabel children) ∧ ∀ node token,
        (Edge (labels.foldl addLabel children) node token ↔
          Edge children node token ∨ Passes labels (node ++ [token])) := by
    intro labels
    induction labels with
    | nil => exact fun children hd => ⟨hd, fun node token => by simp [Passes]⟩
    | cons ids labels ih =>
      intro children hd
      obtain ⟨hd', hedge⟩ := ih _ (addLabel_distinct hd)
      refine ⟨hd', fun node token => ?_⟩
      rw [List.foldl_cons, hedge, addLabel_edge, or_assoc]
      simp only [Passes, List.mem_cons, exists_eq_or_imp]
  obtain ⟨hdistinct, hedge⟩ := hedges labelIds Dict.empty nofun
  have hrun : labelTrie labelIds =
      .ok ((labelIds.foldl addLabel Dict.empty).mapValues (List.insertionSort (· ≤ ·))) := by
    unfold labelTrie
    rw [foldlM_eq_foldl (g := addLabel)]
    · rfl
    · intro ids hids children
      exact if_neg (h ids hids)
  refine ⟨_, hrun, ?_⟩
  have hget : ∀ node tokens,
      ((labelIds.foldl addLabel Dict.empty).mapValues (List.insertionSort (· ≤ ·))).get? node =
        some tokens → ∃ unsorted, (labelIds.foldl addLabel Dict.empty).get? node = some unsorted ∧
          tokens = unsorted.insertionSort (· ≤ ·) := by
    intro node tokens hget
    rw [Dict.get?_mapValues] at hget
    obtain ⟨unsorted, hunsorted, rfl⟩ := Option.map_eq_some_iff.1 hget
    exact ⟨unsorted, hunsorted, rfl⟩
  refine ⟨?_, ?_, ?_, ?_⟩
  · intro node tokens h token
    obtain ⟨unsorted, hunsorted, rfl⟩ := hget node tokens h
    have hiff := hedge node token
    simp only [Edge, Dict.get?_empty, hunsorted, Option.some.injEq, exists_eq_left', reduceCtorEq,
      false_and, exists_false, false_or] at hiff
    rw [List.mem_insertionSort, hiff]
  · intro node tokens h hnil
    obtain ⟨unsorted, hunsorted, rfl⟩ := hget node tokens h
    apply (hdistinct node unsorted hunsorted).1
    exact List.eq_nil_of_length_eq_zero ((List.length_insertionSort ..).symm.trans (by rw [hnil]; rfl))
  · intro node tokens h
    obtain ⟨unsorted, hunsorted, rfl⟩ := hget node tokens h
    have hnodup : (unsorted.insertionSort (· ≤ ·)).Nodup :=
      (List.perm_insertionSort ..).nodup_iff.2 (hdistinct node unsorted hunsorted).2
    exact ((List.pairwise_insertionSort (· ≤ ·) unsorted).and hnodup).imp fun h =>
      lt_of_le_of_ne h.1 h.2
  · intro node token hp
    obtain ⟨tokens, htokens, _⟩ := (hedge node token).2 (.inr hp)
    rw [Dict.contains_mapValues]
    exact Dict.contains_iff.2 ⟨tokens, htokens⟩

/-! ## Choice nodes -/

/-- The node has two or more children. -/
def isChoice (trie : Trie) (node : Node) : Bool :=
  match trie.get? node with
  | none => false
  | some tokens => 1 < tokens.length

lemma choiceNodes_spec {labelIds : List (List Token)} {trie : Trie} (h : labelTrie labelIds = .ok trie) :
    ∃ choices, choiceNodes labelIds = .ok choices ∧
      ∀ node, node ∈ choices ↔ isChoice trie node = true := by
  refine ⟨(trie.entries.filter fun e => 1 < e.2.length).map Prod.fst, ?_, ?_⟩
  · rw [choiceNodes, h]
    rfl
  · intro node
    rw [List.mem_map]
    constructor
    · rintro ⟨e, he, hnode⟩
      subst hnode
      obtain ⟨hmem, hlen⟩ := List.mem_filter.1 he
      rw [isChoice, Dict.mem_entries_iff.1 hmem]
      exact hlen
    · intro hchoice
      rw [isChoice] at hchoice
      cases hget : trie.get? node with
      | none =>
        rw [hget] at hchoice
        cases hchoice
      | some tokens =>
        rw [hget] at hchoice
        exact ⟨(node, tokens), List.mem_filter.2 ⟨Dict.mem_entries_iff.2 hget, hchoice⟩, rfl⟩

lemma isChoice_contains {trie : Trie} {node : Node} (h : isChoice trie node = true) :
    trie.contains node = true := by
  rw [isChoice] at h
  cases hget : trie.get? node with
  | none =>
    rw [hget] at h
    cases h
  | some tokens => exact Dict.contains_iff.2 ⟨tokens, hget⟩

lemma length_le_longest {labelIds : List (List Token)} {ids : List Token} (h : ids ∈ labelIds) :
    ids.length ≤ longest labelIds := by
  unfold longest
  induction labelIds with
  | nil => cases h
  | cons ids' labelIds ih =>
    cases List.mem_cons.1 h with
    | inl heq => exact heq ▸ le_max_left ..
    | inr h => exact (ih h).trans (le_max_right ..)

lemma exists_longest {labelIds : List (List Token)} (h : labelIds ≠ []) :
    ∃ ids ∈ labelIds, ids.length = longest labelIds := by
  induction labelIds with
  | nil => exact absurd rfl h
  | cons ids labelIds ih =>
    have hmax : longest (ids :: labelIds) = max ids.length (longest labelIds) := rfl
    rw [hmax]
    cases le_total (longest labelIds) ids.length with
    | inl hle => exact ⟨ids, List.mem_cons_self .., (max_eq_left hle).symm⟩
    | inr hle =>
      rw [max_eq_right hle]
      cases labelIds with
      | nil => exact ⟨ids, List.mem_cons_self .., Nat.le_zero.1 hle⟩
      | cons ids' labelIds =>
        obtain ⟨w, hw, hlen⟩ := ih nofun
        exact ⟨w, List.mem_cons_of_mem _ hw, hlen⟩

/-- A longest label is a leaf. -/
lemma TrieOf.exists_leaf {labelIds : List (List Token)} {trie : Trie} (h : TrieOf labelIds trie)
    (hne : labelIds ≠ []) : ∃ node, Passes labelIds node ∧ trie.contains node = false := by
  obtain ⟨ids, hids, hlen⟩ := exists_longest hne
  refine ⟨ids, ⟨ids, hids, List.prefix_rfl⟩, ?_⟩
  cases hc : trie.contains ids with
  | false => rfl
  | true =>
    obtain ⟨tokens, hget⟩ := Dict.contains_iff.1 hc
    obtain ⟨token, rest, rfl⟩ := List.exists_cons_of_ne_nil (h.ne_nil ids tokens hget)
    have hchild := (h.mem_iff ids _ hget token).1 (List.mem_cons_self ..)
    have hle := hchild.length_le fun _ => length_le_longest
    rw [List.length_append, List.length_singleton] at hle
    omega

/-- The only child of a node that is no choice. -/
lemma TrieOf.only_child {labelIds : List (List Token)} {trie : Trie} (h : TrieOf labelIds trie)
    {node : Node} {token : Token} (hp : Passes labelIds (node ++ [token]))
    (hchoice : isChoice trie node = false) : trie.get? node = some [token] := by
  obtain ⟨tokens, hget⟩ := Dict.contains_iff.1 (h.contains node token hp)
  have hmem := (h.mem_iff node tokens hget token).2 hp
  rw [isChoice, hget] at hchoice
  have hlen : ¬1 < tokens.length := of_decide_eq_false hchoice
  cases tokens with
  | nil => cases hmem
  | cons t rest =>
    cases rest with
    | nil =>
      rw [List.mem_singleton] at hmem
      rw [hget, hmem]
    | cons t' rest =>
      rw [List.length_cons, List.length_cons] at hlen
      omega

/-! ## Following forced tokens -/

section follow

variable {labelIds : List (List Token)} {trie : Trie} {choices : List Node} {fuel : ℕ}
  {node target : Node}

/-- `follow` stops at a choice node and at a leaf. -/
lemma follow_stop (hchoices : ∀ node, node ∈ choices ↔ isChoice trie node = true)
    (h : isChoice trie node = true ∨ trie.contains node = false) :
    follow trie choices fuel node = node := by
  cases fuel with
  | zero => rfl
  | succ fuel =>
    rw [follow]
    cases hget : trie.get? node with
    | none => rfl
    | some tokens =>
      have hmem : node ∈ choices := by
        rw [hchoices]
        apply h.resolve_right
        rw [Dict.contains_iff.2 ⟨tokens, hget⟩]
        exact nofun
      cases tokens with
      | nil => rfl
      | cons t rest => exact if_pos hmem

/-- Past a node with one child, `follow` goes on to the child. -/
lemma follow_step (hchoices : ∀ node, node ∈ choices ↔ isChoice trie node = true) {token : Token}
    (hget : trie.get? node = some [token]) :
    follow trie choices (fuel + 1) node = follow trie choices fuel (node ++ [token]) := by
  rw [follow, hget]
  apply if_neg
  rw [hchoices, isChoice, hget]
  exact nofun

/-- `follow` goes from a node of the trie past nodes with one child to a choice node or a leaf. -/
lemma follow_spec (htrie : TrieOf labelIds trie)
    (hchoices : ∀ node, node ∈ choices ↔ isChoice trie node = true) (hp : Passes labelIds node)
    (hfuel : longest labelIds ≤ fuel + node.length) :
    node <+: follow trie choices fuel node ∧ Passes labelIds (follow trie choices fuel node) ∧
      (isChoice trie (follow trie choices fuel node) = true ∨
        trie.contains (follow trie choices fuel node) = false) ∧
      ∀ q, node <+: q → q <+: follow trie choices fuel node → q ≠ follow trie choices fuel node →
        isChoice trie q = false := by
  induction fuel generalizing node with
  | zero =>
    refine ⟨List.prefix_rfl, hp, ?_, fun q hq hq' hne => absurd (hq'.eq_of_length_le hq.length_le) hne⟩
    cases hc : trie.contains node with
    | false => exact .inr hc
    | true =>
      obtain ⟨tokens, hget⟩ := Dict.contains_iff.1 hc
      obtain ⟨token, rest, rfl⟩ := List.exists_cons_of_ne_nil (htrie.ne_nil node tokens hget)
      have hchild := (htrie.mem_iff node _ hget token).1 (List.mem_cons_self ..)
      have hlen := hchild.length_le fun _ => length_le_longest
      rw [List.length_append, List.length_singleton] at hlen
      omega
  | succ fuel ih =>
    by_cases hstop : isChoice trie node = true ∨ trie.contains node = false
    · rw [follow_stop hchoices hstop]
      exact ⟨List.prefix_rfl, hp, hstop,
        fun q hq hq' hne => absurd (hq'.eq_of_length_le hq.length_le) hne⟩
    · rw [not_or, Bool.not_eq_true, Bool.not_eq_false] at hstop
      obtain ⟨hchoice, hcontains⟩ := hstop
      obtain ⟨tokens, hget⟩ := Dict.contains_iff.1 hcontains
      obtain ⟨token, rest, rfl⟩ := List.exists_cons_of_ne_nil (htrie.ne_nil node tokens hget)
      have hchild := (htrie.mem_iff node _ hget token).1 (List.mem_cons_self ..)
      rw [follow_step hchoices (htrie.only_child hchild hchoice)]
      have hfuel' : longest labelIds ≤ fuel + (node ++ [token]).length := by
        rw [List.length_append, List.length_singleton]
        omega
      obtain ⟨hpre, hpass, hend, hbetween⟩ := ih hchild hfuel'
      refine ⟨(List.prefix_append node [token]).trans hpre, hpass, hend, ?_⟩
      intro q hq hq' hne
      by_cases heq : node = q
      · exact heq ▸ hchoice
      · obtain ⟨token', htoken'⟩ := exists_child hq heq
        obtain rfl := child_unique (htoken'.trans hq') hpre
        exact hbetween q htoken' hq' hne

/-- `follow` stays on the path to a leaf. -/
lemma follow_prefix (htrie : TrieOf labelIds trie)
    (hchoices : ∀ node, node ∈ choices ↔ isChoice trie node = true) (hp : node <+: target)
    (hpass : Passes labelIds target) (hleaf : trie.contains target = false) :
    follow trie choices fuel node <+: target := by
  induction fuel generalizing node with
  | zero => exact hp
  | succ fuel ih =>
    by_cases hstop : isChoice trie node = true ∨ trie.contains node = false
    · rw [follow_stop hchoices hstop]
      exact hp
    · rw [not_or, Bool.not_eq_true, Bool.not_eq_false] at hstop
      have hne : node ≠ target := by
        rintro rfl
        exact absurd hleaf (hstop.2 ▸ nofun)
      obtain ⟨token, htoken⟩ := exists_child hp hne
      rw [follow_step hchoices (htrie.only_child (hpass.above htoken) hstop.1)]
      exact ih htoken

/-- `follow` stops nowhere else. -/
lemma follow_eq (htrie : TrieOf labelIds trie)
    (hchoices : ∀ node, node ∈ choices ↔ isChoice trie node = true) (hp : node <+: target)
    (hpass : Passes labelIds target)
    (hend : isChoice trie target = true ∨ trie.contains target = false)
    (hbetween : ∀ q, node <+: q → q <+: target → q ≠ target → isChoice trie q = false)
    (hfuel : longest labelIds ≤ fuel + node.length) : follow trie choices fuel node = target := by
  induction fuel generalizing node with
  | zero => exact hp.eq_of_length_le ((hpass.length_le fun _ => length_le_longest).trans (by omega))
  | succ fuel ih =>
    by_cases heq : node = target
    · subst heq
      exact follow_stop hchoices hend
    · obtain ⟨token, htoken⟩ := exists_child hp heq
      have hchoice := hbetween node List.prefix_rfl hp heq
      rw [follow_step hchoices (htrie.only_child (hpass.above htoken) hchoice)]
      apply ih htoken
      · exact fun q hq => hbetween q ((List.prefix_append node [token]).trans hq)
      · rw [List.length_append, List.length_singleton]
        omega

end follow

/-! ## The loop of `decode_runs` -/

/-- The reads a document makes on the way to a node: one at every choice node, and one at least. -/
def readsTo (trie : Trie) (node : Node) : ℕ :=
  max 1 ((above (isChoice trie) node).length + if trie.contains node then 1 else 0)

/-- The run of a choice: none when it leads to a leaf, else the tokens on the way. -/
structure RunAt (runs : List (List Token)) (trie : Trie) (node target : Node) (run : Option ℕ) :
    Prop where
  leaf : trie.contains target = false → run = none
  next : trie.contains target = true →
    ∃ i, run = some (i + 1) ∧ runs[i + 1]? = some (target.drop node.length)

/-- The labels have a trie, and `choices` are its choice nodes. -/
structure TrieTables (labelIds : List (List Token)) (trie : Trie) (choices : List Node) : Prop where
  trieOf : TrieOf labelIds trie
  mem_choices : ∀ node, node ∈ choices ↔ isChoice trie node = true

section loop

variable {labelIds : List (List Token)} {trie : Trie} {choices : List Node}

/-- Where a choice leads. -/
def targetOf (labelIds : List (List Token)) (trie : Trie) (choices : List Node) (node : Node)
    (token : Token) : Node := follow trie choices (longest labelIds) (node ++ [token])

/-- Where a choice leads: a choice node or a leaf under it, past nodes that are no choice. -/
lemma TrieTables.target_spec (h : TrieTables labelIds trie choices) {node : Node} {token : Token}
    (hp : Passes labelIds (node ++ [token])) :
    node ++ [token] <+: targetOf labelIds trie choices node token ∧
      Passes labelIds (targetOf labelIds trie choices node token) ∧
      (isChoice trie (targetOf labelIds trie choices node token) = true ∨
        trie.contains (targetOf labelIds trie choices node token) = false) ∧
      above (isChoice trie) (targetOf labelIds trie choices node token) =
        above (isChoice trie) (node ++ [token]) := by
  obtain ⟨hpre, hpass, hend, hbetween⟩ := follow_spec h.trieOf h.mem_choices hp le_self_add
  exact ⟨hpre, hpass, hend, above_extend hpre hbetween⟩

/-- One more choice is above where a choice leads. -/
lemma TrieTables.above_target (h : TrieTables labelIds trie choices) {node : Node} {token : Token}
    (hp : Passes labelIds (node ++ [token])) (hchoice : isChoice trie node = true) :
    above (isChoice trie) (targetOf labelIds trie choices node token) =
      above (isChoice trie) node ++ [node] := by
  rw [(h.target_spec hp).2.2.2, above_concat, List.filter_singleton, hchoice]
  rfl

/-- The reads to where a choice leads. -/
lemma TrieTables.readsTo_target (h : TrieTables labelIds trie choices) {node : Node} {token : Token}
    (hp : Passes labelIds (node ++ [token])) (hchoice : isChoice trie node = true) :
    readsTo trie (targetOf labelIds trie choices node token) =
      readsTo trie node + if trie.contains (targetOf labelIds trie choices node token) then 1 else 0 := by
  unfold readsTo
  rw [h.above_target hp hchoice, isChoice_contains hchoice, List.length_append,
    List.length_singleton]
  split <;> simp

/-- A choice node or leaf under a choice is where the choice leads, when no choice is between. -/
lemma TrieTables.target_eq (h : TrieTables labelIds trie choices) {node target : Node} {token : Token}
    (hp : node ++ [token] <+: target) (hpass : Passes labelIds target)
    (hend : isChoice trie target = true ∨ trie.contains target = false)
    (hbetween : ∀ q, node ++ [token] <+: q → q <+: target → q ≠ target → isChoice trie q = false) :
    targetOf labelIds trie choices node token = target :=
  follow_eq h.trieOf h.mem_choices hp hpass hend hbetween le_self_add

/-- Every choice node and every leaf is the first of its path, or the one a choice leads to. -/
lemma TrieTables.reached (h : TrieTables labelIds trie choices) {node : Node}
    (hpass : Passes labelIds node) (hend : isChoice trie node = true ∨ trie.contains node = false) :
    follow trie choices (longest labelIds) [] = node ∨
      ∃ choice token, isChoice trie choice = true ∧ Passes labelIds (choice ++ [token]) ∧
        choice.length < node.length ∧ targetOf labelIds trie choices choice token = node := by
  cases habove : (above (isChoice trie) node).getLast? with
  | none =>
    left
    rw [List.getLast?_eq_none_iff] at habove
    apply follow_eq h.trieOf h.mem_choices List.nil_prefix hpass hend ?_ le_self_add
    intro q _ hq hne
    cases hchoice : isChoice trie q with
    | false => rfl
    | true =>
      have hmem := mem_above.2 ⟨hq, hne, hchoice⟩
      rw [habove] at hmem
      cases hmem
  | some choice =>
    right
    have hmem := List.mem_of_getLast? habove
    obtain ⟨hpre, hne, hchoice⟩ := mem_above.1 hmem
    obtain ⟨token, htoken⟩ := exists_child hpre hne
    have hlen := htoken.length_le
    rw [List.length_append, List.length_singleton] at hlen
    refine ⟨choice, token, hchoice, hpass.above htoken, hlen, ?_⟩
    apply h.target_eq htoken hpass hend
    intro q hq hq' hne'
    cases hq2 : isChoice trie q with
    | false => rfl
    | true =>
      -- a choice below the last one above the node
      have hlast : q <+: choice := by
        obtain ⟨l, hl⟩ := List.getLast?_eq_some_iff.1 habove
        have hqmem := mem_above.2 ⟨hq', hne', hq2⟩
        have hpair : (above (isChoice trie) node).Pairwise (· <+: ·) := pairwise_above
        rw [hl] at hqmem hpair
        cases List.mem_append.1 hqmem with
        | inl hin =>
          exact (List.pairwise_append.1 hpair).2.2 q hin choice (List.mem_singleton_self _)
        | inr heq => exact List.mem_singleton.1 heq ▸ List.prefix_rfl
      have hlen' := (hq.trans hlast).length_le
      rw [List.length_append, List.length_singleton] at hlen'
      omega

/-- What the loop has built after the turns `done`. -/
structure Built (labelIds : List (List Token)) (trie : Trie) (choices : List Node)
    (done : List (Node × Token)) (b : Building) : Prop where
  head : b.runs.head? = some (if trie.contains (follow trie choices (longest labelIds) []) then
    follow trie choices (longest labelIds) [] else [])
  after : ∀ node token, (node, token) ∈ done → ∃ run,
    b.after.get? (node, token) = some (targetOf labelIds trie choices node token, run) ∧
      RunAt b.runs trie node (targetOf labelIds trie choices node token) run
  read : ∀ node token, (node, token) ∈ done →
    b.reads.contains (targetOf labelIds trie choices node token) = true
  first : b.reads.contains (follow trie choices (longest labelIds) []) = true
  reads : ∀ node reads, b.reads.get? node = some reads → reads = readsTo trie node

lemma RunAt.mono {runs : List (List Token)} {node target : Node} {run : Option ℕ}
    (h : RunAt runs trie node target run) (more : List (List Token)) :
    RunAt (runs ++ more) trie node target run := by
  refine ⟨h.leaf, fun hc => ?_⟩
  obtain ⟨i, hi, hrun⟩ := h.next hc
  exact ⟨i, hi, (List.getElem?_append_left (List.getElem?_eq_some_iff.1 hrun).1).trans hrun⟩

/-- One turn of the loop. -/
lemma Built.add (h : TrieTables labelIds trie choices) {done : List (Node × Token)} {b : Building}
    (hb : Built labelIds trie choices done b) {node : Node} {token : Token}
    (hchoice : isChoice trie node = true) (hp : Passes labelIds (node ++ [token]))
    (hread : b.reads.contains node = true) :
    ∃ b', b.add trie (targetOf labelIds trie choices node token) node token = .ok b' ∧
      Built labelIds trie choices (done ++ [(node, token)]) b' := by
  obtain ⟨reads, hreads⟩ := Dict.contains_iff.1 hread
  have hlevel := hb.reads node reads hreads
  have htarget := h.readsTo_target hp hchoice
  -- the entries of both ways a turn can go
  have hbuilt : ∀ (more : List (List Token)) (run : Option ℕ),
      RunAt (b.runs ++ more) trie node (targetOf labelIds trie choices node token) run →
      Built labelIds trie choices (done ++ [(node, token)]) {
        runs := b.runs ++ more
        after := b.after.set (node, token) (targetOf labelIds trie choices node token, run)
        reads := b.reads.set (targetOf labelIds trie choices node token)
          (readsTo trie (targetOf labelIds trie choices node token)) } := by
    intro more run hrun
    refine ⟨?_, ?_, ?_, ?_, ?_⟩
    · show (b.runs ++ more).head? = _
      rw [List.head?_append, hb.head]
      rfl
    · intro n t hmem
      rw [Dict.get?_set]
      split_ifs with heq
      · cases heq
        exact ⟨run, rfl, hrun⟩
      · have hdone : (n, t) ∈ done := by
          apply (List.mem_append.1 hmem).resolve_right
          intro hin
          exact heq (List.mem_singleton.1 hin).symm
        obtain ⟨run', hget, hrun'⟩ := hb.after n t hdone
        exact ⟨run', hget, hrun'.mono more⟩
    · intro n t hmem
      rw [Dict.contains_set]
      cases List.mem_append.1 hmem with
      | inl hdone => rw [hb.read n t hdone, Bool.or_true]
      | inr hin =>
        cases List.mem_singleton.1 hin
        simp
    · rw [Dict.contains_set, hb.first, Bool.or_true]
    · intro n r hget
      rw [Dict.get?_set] at hget
      split_ifs at hget with heq
      · rw [← heq]
        exact (Option.some.inj hget).symm
      · exact hb.reads n r hget
  unfold Building.add
  rw [hreads]
  dsimp only
  rw [hlevel]
  cases hc : trie.contains (targetOf labelIds trie choices node token) with
  | true =>
    rw [if_pos rfl]
    refine ⟨_, rfl, ?_⟩
    rw [hc, if_pos rfl] at htarget
    rw [← htarget]
    apply hbuilt [(targetOf labelIds trie choices node token).drop node.length] (some b.runs.length)
    have hne : b.runs ≠ [] := by
      intro hnil
      have hhead := hb.head
      rw [hnil] at hhead
      cases hhead
    obtain ⟨run, rest, hruns⟩ := List.exists_cons_of_ne_nil hne
    have hlen : b.runs.length = rest.length + 1 := by rw [hruns, List.length_cons]
    refine ⟨fun hf => ?_, fun _ => ⟨rest.length, congrArg some hlen, ?_⟩⟩
    · rw [hc] at hf
      cases hf
    · rw [← hlen, List.getElem?_append_right le_rfl, Nat.sub_self]
      rfl
  | false =>
    rw [if_neg Bool.false_ne_true]
    refine ⟨_, rfl, ?_⟩
    rw [hc, if_neg Bool.false_ne_true, Nat.add_zero] at htarget
    rw [← htarget]
    have hnone := hbuilt [] none
    rw [List.append_nil] at hnone
    apply hnone
    refine ⟨fun _ => rfl, fun ht => ?_⟩
    rw [hc] at ht
    cases ht

/-- The turns of the loop: every child of every choice node, the shorter nodes first. -/
structure Turns (labelIds : List (List Token)) (trie : Trie) (turns : List (Node × Token)) : Prop where
  mem_iff : ∀ node token, (node, token) ∈ turns ↔
    isChoice trie node = true ∧ Passes labelIds (node ++ [token])
  sorted : turns.Pairwise fun e e' => e.1.length ≤ e'.1.length

lemma TrieTables.turns (h : TrieTables labelIds trie choices) :
    Turns labelIds trie ((choices.insertionSort fun a b => a.length ≤ b.length).flatMap fun node =>
      ((trie.get? node).getD []).map fun token => (node, token)) := by
  refine ⟨?_, ?_⟩
  · intro node token
    rw [List.mem_flatMap]
    constructor
    · rintro ⟨n, hn, hmem⟩
      obtain ⟨t, ht, heq⟩ := List.mem_map.1 hmem
      cases heq
      rw [List.mem_insertionSort, h.mem_choices] at hn
      refine ⟨hn, ?_⟩
      cases hget : trie.get? node with
      | none =>
        rw [hget] at ht
        cases ht
      | some tokens =>
        rw [hget] at ht
        exact (h.trieOf.mem_iff node tokens hget token).1 ht
    · rintro ⟨hchoice, hp⟩
      refine ⟨node, (List.mem_insertionSort _).2 ((h.mem_choices node).2 hchoice), ?_⟩
      obtain ⟨tokens, hget⟩ := Dict.contains_iff.1 (h.trieOf.contains node token hp)
      rw [hget]
      exact List.mem_map.2 ⟨token, (h.trieOf.mem_iff node tokens hget token).2 hp, rfl⟩
  · rw [List.pairwise_flatMap]
    constructor
    · intro node _
      rw [List.pairwise_map]
      exact List.pairwise_of_forall fun _ _ => le_rfl
    · have hsorted := List.pairwise_insertionSort (fun a b : Node => a.length ≤ b.length) choices
      refine hsorted.imp ?_
      intro a b hab x hx y hy
      obtain ⟨_, _, rfl⟩ := List.mem_map.1 hx
      obtain ⟨_, _, rfl⟩ := List.mem_map.1 hy
      exact hab

/-- The loop never looks up a node that was not read before, and builds what it should. -/
lemma Built.loop (h : TrieTables labelIds trie choices) {turns rest done : List (Node × Token)}
    (hturns : Turns labelIds trie turns) (heq : turns = done ++ rest) {b : Building}
    (hb : Built labelIds trie choices done b) :
    ∃ b', rest.foldlM (fun (b : Building) e =>
        b.add trie (targetOf labelIds trie choices e.1 e.2) e.1 e.2) b = .ok b' ∧
      Built labelIds trie choices turns b' := by
  induction rest generalizing done b with
  | nil =>
    rw [List.append_nil] at heq
    exact ⟨b, rfl, heq ▸ hb⟩
  | cons e rest ih =>
    obtain ⟨node, token⟩ := e
    have hmem : (node, token) ∈ turns := by
      rw [heq]
      exact List.mem_append_right _ (List.mem_cons_self ..)
    obtain ⟨hchoice, hp⟩ := (hturns.mem_iff node token).1 hmem
    have hpass : Passes labelIds node := hp.above (List.prefix_append node [token])
    have hread : b.reads.contains node = true := by
      cases h.reached hpass (.inl hchoice) with
      | inl hfirst => exact hfirst ▸ hb.first
      | inr hchosen =>
        obtain ⟨choice, t, hchoice', hp', hlen, htarget⟩ := hchosen
        -- the choice is shorter, so its turn is over
        have hbefore : (choice, t) ∈ done := by
          have hin := (hturns.mem_iff choice t).2 ⟨hchoice', hp'⟩
          have hsorted := hturns.sorted
          rw [heq] at hin hsorted
          have hlater := (List.pairwise_append.1 hsorted).2.1
          cases List.mem_append.1 hin with
          | inl hin => exact hin
          | inr hin =>
            cases List.mem_cons.1 hin with
            | inl heq' =>
              cases heq'
              exact absurd hlen (lt_irrefl _)
            | inr hin =>
              have hle := (List.pairwise_cons.1 hlater).1 (choice, t) hin
              exact absurd hlen (Nat.not_lt.2 hle)
        exact htarget ▸ hb.read choice t hbefore
    obtain ⟨b', hadd, hb'⟩ := hb.add h hchoice hp hread
    rw [List.foldlM_cons, hadd]
    exact ih (by rw [heq, List.append_assoc]; rfl) hb'

/-- What `decode_runs` returns for the labels. -/
structure RunsOf (labelIds : List (List Token)) (trie : Trie) (choices : List Node)
    (runs : DecodeRuns) : Prop where
  first : runs.first = follow trie choices (longest labelIds) []
  head : runs.runs.head? = some (if trie.contains runs.first then runs.first else [])
  after : ∀ node token, isChoice trie node = true → Passes labelIds (node ++ [token]) → ∃ run,
    runs.after.get? (node, token) = some (targetOf labelIds trie choices node token, run) ∧
      RunAt runs.runs trie node (targetOf labelIds trie choices node token) run
  rounds : ∀ node, Passes labelIds node → trie.contains node = false → readsTo trie node ≤ runs.rounds

lemma above_first (h : TrieTables labelIds trie choices) (hne : labelIds ≠ []) :
    above (isChoice trie) (follow trie choices (longest labelIds) []) = [] := by
  obtain ⟨ids, rest, rfl⟩ := List.exists_cons_of_ne_nil hne
  obtain ⟨hpre, _, _, hbetween⟩ := follow_spec h.trieOf h.mem_choices
    ⟨ids, List.mem_cons_self .., List.nil_prefix⟩ le_self_add
  exact above_extend hpre hbetween

/-- `decode_runs` returns for every list of labels that has a trie. -/
theorem decodeRuns_spec (hne : labelIds ≠ []) (htrie : labelTrie labelIds = .ok trie)
    (hchoices : choiceNodes labelIds = .ok choices) (h : TrieTables labelIds trie choices) :
    ∃ runs, decodeRuns labelIds = .ok runs ∧ RunsOf labelIds trie choices runs := by
  have hturns := h.turns
  obtain ⟨ids, rest, hcons⟩ := List.exists_cons_of_ne_nil hne
  have hroot : Passes labelIds [] := ⟨ids, hcons ▸ List.mem_cons_self .., List.nil_prefix⟩
  have hfirst : readsTo trie (follow trie choices (longest labelIds) []) = 1 := by
    unfold readsTo
    rw [above_first h hne]
    split <;> rfl
  have hstart : Built labelIds trie choices [] {
      runs := [if trie.contains (follow trie choices (longest labelIds) []) then
        follow trie choices (longest labelIds) [] else []]
      after := Dict.empty
      reads := Dict.empty.set (follow trie choices (longest labelIds) []) 1 } := by
    refine ⟨rfl, (by simp), (by simp), ?_, ?_⟩
    · rw [Dict.contains_set]
      simp
    · intro node reads hget
      rw [Dict.get?_set] at hget
      split_ifs at hget with heq
      · rw [← heq, hfirst]
        exact (Option.some.inj hget).symm
      · cases hget
  obtain ⟨b, hloop, hb⟩ := Built.loop h hturns (List.nil_append _).symm hstart
  -- every leaf was read
  have hleaf : ∀ node, Passes labelIds node → trie.contains node = false →
      readsTo trie node ∈ (b.reads.entries.filter fun e => !trie.contains e.1).map Prod.snd := by
    intro node hpass hc
    have hread : b.reads.contains node = true := by
      cases h.reached hpass (.inr hc) with
      | inl heq => exact heq ▸ hb.first
      | inr hchosen =>
        obtain ⟨choice, token, hchoice, hp, _, htarget⟩ := hchosen
        exact htarget ▸ hb.read choice token ((hturns.mem_iff choice token).2 ⟨hchoice, hp⟩)
    obtain ⟨reads, hget⟩ := Dict.contains_iff.1 hread
    obtain rfl := hb.reads node reads hget
    refine List.mem_map.2 ⟨(node, _), List.mem_filter.2 ⟨Dict.mem_entries_iff.2 hget, ?_⟩, rfl⟩
    rw [hc]
    rfl
  cases hmax : ((b.reads.entries.filter fun e => !trie.contains e.1).map Prod.snd).max? with
  | none =>
    obtain ⟨node, hpass, hc⟩ := h.trieOf.exists_leaf hne
    have hmem := hleaf node hpass hc
    rw [List.max?_eq_none_iff.1 hmax] at hmem
    cases hmem
  | some rounds =>
    refine ⟨⟨b.runs, follow trie choices (longest labelIds) [], b.after, rounds⟩, ?_, ?_⟩
    · unfold decodeRuns
      rw [htrie, hchoices]
      unfold targetOf at hloop
      simp only [ok_bind, hloop, hmax]
      rfl
    · refine ⟨rfl, hb.head, ?_, ?_⟩
      · intro node token hchoice hp
        exact hb.after node token ((hturns.mem_iff node token).2 ⟨hchoice, hp⟩)
      · intro node hpass hc
        exact (List.max?_eq_some_iff.1 hmax).2 _ (hleaf node hpass hc)

end loop

end Quail.Labels
