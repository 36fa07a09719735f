import Quail.Labels.Runs

/-!
# The rounds of a label

`decode_round_tokens` follows every label through the runs. The runs on the way to a label are the
pieces its sequence is cut into at its choice nodes, but for what comes after the last one.
-/

namespace Quail.Labels
open PrefixTree

/-- The requests that feed the pieces of a path: the answer cue comes before the first. -/
def feeds (cue : Token) : List (List Token) → List (List Token)
  | [] => [[cue]]
  | piece :: pieces => (cue :: piece) :: pieces

lemma feeds_concat {cue : Token} {pieces : List (List Token)} {piece : List Token}
    (h : pieces ≠ []) : feeds cue (pieces ++ [piece]) = feeds cue pieces ++ [piece] := by
  cases pieces with
  | nil => exact absurd rfl h
  | cons p pieces => rfl

lemma feeds_flatten {cue : Token} {pieces : List (List Token)} :
    (feeds cue pieces).flatten = cue :: pieces.flatten := by
  cases pieces <;> rfl

lemma feeds_length {cue : Token} {pieces : List (List Token)} :
    (feeds cue pieces).length = max 1 pieces.length := by
  cases pieces with
  | nil => rfl
  | cons p pieces =>
    show pieces.length + 1 = max 1 (pieces.length + 1)
    omega

/-- The requests on the way to a label. -/
def feedsTo (trie : Trie) (cue : Token) (ids : List Token) : List (List Token) :=
  feeds cue (cuts [] (above (isChoice trie) ids))

lemma length_cuts {start : Node} {nodes : List Node} : (cuts start nodes).length = nodes.length := by
  induction nodes generalizing start with
  | nil => rfl
  | cons n nodes ih => exact congrArg (· + 1) ih

variable {labelIds : List (List Token)} {trie : Trie} {choices : List Node} {runs : DecodeRuns}

/-- The label under a choice node goes on to where the choice of its token leads. -/
lemma TrieTables.target_prefix (h : TrieTables labelIds trie choices) {node target : Node}
    {token : Token} (hp : node ++ [token] <+: target) (hpass : Passes labelIds target)
    (hleaf : trie.contains target = false) :
    targetOf labelIds trie choices node token <+: target :=
  follow_prefix h.trieOf h.mem_choices hp hpass hleaf

/-- A leaf on the way to a leaf is that leaf. -/
lemma TrieTables.leaf_eq (h : TrieTables labelIds trie choices) {node target : Node}
    (hp : node <+: target) (hpass : Passes labelIds target) (hleaf : trie.contains node = false) :
    node = target := by
  by_contra hne
  obtain ⟨token, htoken⟩ := exists_child hp hne
  have hcontains := h.trieOf.contains node token (hpass.above htoken)
  rw [hleaf] at hcontains
  cases hcontains

/-- From a choice node of a label on, the loop counts the pieces to its later choice nodes. -/
lemma roundTokensFrom_spec (h : TrieTables labelIds trie choices)
    (hruns : RunsOf labelIds trie choices runs) {ids : List Token} (hids : ids ∈ labelIds)
    (hleaf : trie.contains ids = false) {fuel : ℕ} {node : Node} (hp : node <+: ids)
    (hchoice : isChoice trie node = true) (hfuel : longest labelIds ≤ fuel + node.length) :
    ∃ rest, above (isChoice trie) ids = above (isChoice trie) node ++ [node] ++ rest ∧
      roundTokensFrom runs trie ids fuel node = .ok ((cuts node rest).map List.length) := by
  have hpass : Passes labelIds ids := ⟨ids, hids, List.prefix_rfl⟩
  have hcontains := isChoice_contains hchoice
  induction fuel generalizing node with
  | zero =>
    obtain ⟨tokens, hget⟩ := Dict.contains_iff.1 hcontains
    obtain ⟨token, rest, rfl⟩ := List.exists_cons_of_ne_nil (h.trieOf.ne_nil node tokens hget)
    have hchild := (h.trieOf.mem_iff node _ hget token).1 (List.mem_cons_self ..)
    have hlen := hchild.length_le fun _ => length_le_longest
    rw [List.length_append, List.length_singleton] at hlen
    omega
  | succ fuel ih =>
    have hne : node ≠ ids := by
      rintro rfl
      rw [hleaf] at hcontains
      cases hcontains
    obtain ⟨token, htoken⟩ := exists_child hp hne
    have hchild := hpass.above htoken
    have hnext : ids[node.length]? = some token := by
      obtain ⟨depth, hd, hnode⟩ := concat_prefix_iff.1 htoken
      have hlen := congrArg List.length hnode
      rw [List.length_take, Nat.min_eq_left (List.getElem?_eq_some_iff.1 hd).1.le] at hlen
      rw [hlen, hd]
    obtain ⟨run, hafter, hrun⟩ := hruns.after node token hchoice hchild
    have htarget := h.target_prefix htoken hpass hleaf
    have habove := h.above_target hchild hchoice
    obtain ⟨hunder, _, hend, _⟩ := h.target_spec hchild
    rw [roundTokensFrom, if_pos hcontains, hnext]
    dsimp only
    rw [hafter]
    cases hc : trie.contains (targetOf labelIds trie choices node token) with
    | false =>
      rw [hrun.leaf hc]
      have heq := h.leaf_eq htarget hpass hc
      rw [heq] at habove
      exact ⟨[], by rw [habove, List.append_nil], rfl⟩
    | true =>
      obtain ⟨i, rfl, hi⟩ := hrun.next hc
      have hchoice' := hend.resolve_right (by rw [hc]; exact nofun)
      have hfuel' : longest labelIds ≤
          fuel + (targetOf labelIds trie choices node token).length := by
        have hlen := hunder.length_le
        rw [List.length_append, List.length_singleton] at hlen
        omega
      obtain ⟨rest, hrest, hloop⟩ := ih htarget hchoice' hfuel' (isChoice_contains hchoice')
      refine ⟨targetOf labelIds trie choices node token :: rest, ?_, ?_⟩
      · rw [hrest, habove, List.append_assoc (_ ++ _)]
        rfl
      · dsimp only
        rw [hi]
        dsimp only
        rw [hloop]
        rfl

/-- The counts of `decode_round_tokens` are the lengths of the requests on the way to each label. -/
theorem decodeRoundTokens_spec (h : TrieTables labelIds trie choices) (hne : labelIds ≠ [])
    (htrie : labelTrie labelIds = .ok trie) (hdecode : decodeRuns labelIds = .ok runs)
    (hruns : RunsOf labelIds trie choices runs)
    (hleaves : ∀ ids ∈ labelIds, trie.contains ids = false) (cue : Token) :
    decodeRoundTokens labelIds =
      .ok (labelIds.map fun ids => (feedsTo trie cue ids).map List.length) := by
  have hmapM : ∀ {f : List Token → Except PyError (List ℕ)} {g : List Token → List ℕ}
      {xs : List (List Token)}, (∀ x ∈ xs, f x = .ok (g x)) → xs.mapM f = .ok (xs.map g) := by
    intro f g xs hfg
    induction xs with
    | nil => rfl
    | cons x xs ih =>
      rw [List.mapM_cons, hfg x (List.mem_cons_self ..),
        ih fun y hy => hfg y (List.mem_cons_of_mem _ hy)]
      rfl
  unfold decodeRoundTokens
  rw [hdecode, htrie, ok_bind, ok_bind]
  apply hmapM
  intro ids hids
  have hpass : Passes labelIds ids := ⟨ids, hids, List.prefix_rfl⟩
  have hfirst : runs.first <+: ids := by
    rw [hruns.first]
    exact follow_prefix h.trieOf h.mem_choices List.nil_prefix hpass (hleaves ids hids)
  have habove := above_first h hne
  rw [← hruns.first] at habove
  rw [hruns.head]
  dsimp only
  cases hc : trie.contains runs.first with
  | false =>
    have heq := h.leaf_eq hfirst hpass hc
    have hloop : roundTokensFrom runs trie ids (longest labelIds) runs.first = .ok [] := by
      cases longest labelIds <;> rw [roundTokensFrom, hc] <;> rfl
    rw [hloop, feedsTo, ← heq, habove]
    rfl
  | true =>
    have hend : isChoice trie runs.first = true ∨ trie.contains runs.first = false := by
      rw [hruns.first]
      exact (follow_spec h.trieOf h.mem_choices (hpass.above List.nil_prefix) le_self_add).2.2.1
    have hchoice := hend.resolve_right (by rw [hc]; exact nofun)
    obtain ⟨rest, hrest, hloop⟩ := roundTokensFrom_spec h hruns hids (hleaves ids hids) hfirst hchoice
      (Nat.le_add_right _ runs.first.length)
    rw [hloop, feedsTo, hrest, habove]
    show Except.ok ((1 + runs.first.length) :: (cuts runs.first rest).map List.length) =
      .ok ((cue :: runs.first).length :: (cuts runs.first rest).map List.length)
    rw [List.length_cons, Nat.add_comm]

end Quail.Labels
