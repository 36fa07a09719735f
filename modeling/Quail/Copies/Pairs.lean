import Quail.Copies.Answers

/-!
# Answers over two tables

A question about two tables is asked about pairs: every combination of the documents read, the listed
pairs of these, or the pairs of rows. The pairs of key documents carry the answers of all of them.
-/

namespace Quail.Copies
open Arrays

variable {γ : Type} {context : Context}

/-! ## Products -/

/-- Going through two lists in either order finds the same. -/
lemma flatMap_comm_perm {α β ε : Type} (xs : List α) (ys : List β) (f : α → β → List ε) :
    (xs.flatMap fun x => ys.flatMap fun y => f x y).Perm
      (ys.flatMap fun y => xs.flatMap fun x => f x y) := by
  induction xs with
  | nil => simp
  | cons x xs ih =>
    simp only [List.flatMap_cons]
    exact (ih.append_left _).trans (List.flatMap_append_perm ys (f x) fun y => xs.flatMap fun x => f x y)

lemma flatMap_product {α β ε : Type} (xs : List α) (ys : List β) (f : α × β → List ε) :
    (xs ×ˢ ys).flatMap f = xs.flatMap fun x => ys.flatMap fun y => f (x, y) := by
  induction xs with
  | nil => rfl
  | cons x xs ih => rw [List.product_cons, List.flatMap_append, ih, List.flatMap_map, List.flatMap_cons]

/-! ## Pairs of key documents -/

section pairs

variable {join : List ℕ → List ℕ → List (ℕ × ℕ)} {node : Node} {a b : Alias} {pairing : Pairing}
  {inputs reduced : Inputs γ} {left right : List ℕ} {d : Deduplicated γ}

lemma PairsReady.mem_of_asked (h : PairsReady context node a b pairing inputs left right d reduced)
    {p : ℕ × ℕ} (hp : p ∈ askedPairs inputs a b pairing) : p.1 ∈ left ∧ p.2 ∈ right := by
  obtain ⟨_, _, hasked⟩ | ⟨_, table, _, _, hasked⟩ := h.pairs
  · rw [hasked] at hp
    exact List.mem_product.1 hp
  · rw [hasked] at hp
    obtain ⟨row, hrow, rfl⟩ := List.mem_map.1 hp
    have hboth := (List.mem_filter.1 hrow).2
    rw [Bool.and_eq_true, decide_eq_true_iff, decide_eq_true_iff] at hboth
    exact hboth

lemma PairsReady.pairsRead (h : PairsReady context node a b pairing inputs left right d reduced)
    {source : NodeId} (hports : node.inputs = Operator.pairPorts source a b pairing) :
    ∃ pairs n, d.pairsRead node [] = .ok pairs ∧ d.rowsRead node pairs = .ok n ∧
      pairs = d.pairs.get? node.nodeId := by
  obtain ⟨rfl, hnone, _⟩ | ⟨_, table, hsome, _⟩ := h.pairs
  · refine ⟨none, some left.length, pairsRead_none hnone fun port hport => ?_,
      rowsRead_documents hports h.everyLeft, hnone.symm⟩
    rw [hports] at hport
    simp only [Operator.pairPorts, List.mem_cons, List.not_mem_nil, or_false] at hport
    obtain rfl | rfl := hport
    · exact fun h => by cases h
    · exact fun h => by cases h
  · refine ⟨some table, some table.rows.length, ?_, rfl, hsome.symm⟩
    rw [Deduplicated.pairsRead, hsome]
    rfl

/-- The answers of the pairs of key documents, expanded, are those of all pairs. -/
lemma PairsReady.expandedTable {τ : Type}
    (h : PairsReady context node a b pairing inputs left right d reduced) (hctx : context.WellFormed)
    (hjoin : IsInnerJoin join) (hab : a ≠ b) {t : Table τ} (ht : t.aliases = [a, b])
    {answer : ℕ × ℕ → Option τ}
    (hanswer : ∀ p ∈ askedPairs inputs a b pairing,
      answer (keyIn d.keys a p.1, keyIn d.keys b p.2) = answer p)
    (hrows : (t.rows.map fun row => ((row.1 a, row.1 b), row.2)).Perm
      ((askedPairs reduced a b pairing).filterMap fun q => (answer q).map fun v => (q, v))) :
    ∃ t', Copies.expandedTable join t [a, b] d.every (d.keysOf [a, b] (d.pairs.get? node.nodeId))
        (d.pairs.get? node.nodeId) = .ok t' ∧ t'.aliases = [a, b] ∧
      Same (decide (pairing ≠ .product)) (t'.rows.map fun row => ((row.1 a, row.1 b), row.2))
        ((askedPairs inputs a b pairing).filterMap fun p => (answer p).map fun v => (p, v)) := by
  have ha : a ∈ t.aliases := ht ▸ List.mem_cons_self ..
  have hb : b ∈ t.aliases := ht ▸ List.mem_cons_of_mem _ (List.mem_cons_self ..)
  obtain ⟨kl, hkl, hlistl⟩ := keysOf_spec h.keys hctx (d.pairs.get? node.nodeId)
    (List.mem_cons_self .. : a ∈ [a, b])
  obtain ⟨kr, hkr, hlistr⟩ := keysOf_spec h.keys hctx (d.pairs.get? node.nodeId)
    (List.mem_cons_of_mem _ (List.mem_cons_self ..) : b ∈ [a, b])
  have hleft : KeyList (keyIn d.keys a) left kl := fun x hx =>
    hlistl x (List.mem_append_left _ (by rwa [h.everyLeft])) (h.inLeft x hx)
  have hright : KeyList (keyIn d.keys b) right kr := fun y hy =>
    hlistr y (List.mem_append_left _ (by rwa [h.everyRight])) (h.inRight y hy)
  have hwanted : ∀ p ∈ askedPairs inputs a b pairing,
      ((answer (keyIn d.keys a p.1, keyIn d.keys b p.2)).map fun v => (p, v)) =
        (answer p).map fun v => (p, v) := fun p hp => by rw [hanswer p hp]
  obtain ⟨rfl, hnone, hasked⟩ | ⟨hlisted, table, hsome, htable, hasked⟩ := h.pairs
  · rw [hnone] at hkl hkr
    obtain ⟨t', hrun, ht', hperm⟩ := expandedTable_product (γ := γ) hjoin hab ha hb h.everyLeft
      h.everyRight hkl hkr hleft hright
    rw [hnone]
    refine ⟨t', hrun, ht'.trans ht, ?_⟩
    have hall := flatMap_answered Prod.snd (c := fun q : ℕ × ℕ => q)
      (k := fun p : ℕ × ℕ => (keyIn d.keys a p.1, keyIn d.keys b p.2)) hrows
      (by rw [List.map_id']; exact h.nodup) (fun p : ℕ × ℕ => p) h.wanted
    rw [List.filterMap_congr hwanted, hasked, flatMap_product] at hall
    rw [hasked, ← hall]
    show List.Perm _ _
    simp only [Prod.mk.injEq]
    exact hperm.trans (flatMap_comm_perm right left _)
  · have hpa : a ∈ table.aliases := by
      cases htable.aliases with
      | inl h => exact h ▸ List.mem_cons_self ..
      | inr h => exact h ▸ List.mem_cons_of_mem _ (List.mem_cons_self ..)
    have hpb : b ∈ table.aliases := by
      cases htable.aliases with
      | inl h => exact h ▸ List.mem_cons_of_mem _ (List.mem_cons_self ..)
      | inr h => exact h ▸ List.mem_cons_self ..
    rw [hsome] at hkl hkr hlistl hlistr
    have hpl : KeyList (keyIn d.keys a) (table.rows.map fun row => row.1 a) kl := fun x hx => by
      obtain ⟨row, hrow, rfl⟩ := List.mem_map.1 hx
      refine hlistl _ (List.mem_append_right _ ?_) (htable.left row hrow)
      simp only [if_pos hpa]
      exact hx
    have hpr : KeyList (keyIn d.keys b) (table.rows.map fun row => row.1 b) kr := fun y hy => by
      obtain ⟨row, hrow, rfl⟩ := List.mem_map.1 hy
      refine hlistr _ (List.mem_append_right _ ?_) (htable.right row hrow)
      simp only [if_pos hpb]
      exact hy
    obtain ⟨t', hrun, ht', _, hexact⟩ := expandedTable_pairs hjoin hab ha hb h.everyLeft h.everyRight
      hkl hkr hleft hright hpa hpb hpl hpr
    rw [hsome]
    refine ⟨t', hrun, ht'.trans ht, ?_⟩
    rw [decide_eq_true hlisted]
    have hkeys : ((askedPairs reduced a b pairing).map fun q => pairKey q.1 q.2).Nodup := by
      refine List.Nodup.map_on (fun q hq q' hq' heq => ?_) h.nodup
      exact Prod.ext_iff.2
        (pairKey_injective (lt_of_inTable (h.bounded q hq).2) (lt_of_inTable (h.bounded q' hq').2) heq)
    have hids : (t.rows.map fun row => pairKey (row.1 a) (row.1 b)).Nodup := by
      have h := nodup_answered hrows hkeys
      rw [List.map_map] at h
      exact h
    have hall := flatMap_answered Prod.snd (c := fun q : ℕ × ℕ => pairKey q.1 q.2)
      (k := fun p : ℕ × ℕ => (keyIn d.keys a p.1, keyIn d.keys b p.2)) hrows hkeys (fun p : ℕ × ℕ => p)
      h.wanted
    rw [List.filterMap_congr hwanted] at hall
    refine (hexact hids).trans (Eq.trans ?_ hall)
    rw [hasked, List.flatMap_map]
    rfl

/-- The keys of a pair that is asked answer as the pair does. -/
lemma PairsReady.answer_key (h : PairsReady context node a b pairing inputs left right d reduced)
    (hctx : context.WellFormed) {p : ℕ × ℕ} (hp : p ∈ askedPairs inputs a b pairing) :
    context.keyOf a (keyIn d.keys a p.1) = context.keyOf a p.1 ∧
      context.keyOf b (keyIn d.keys b p.2) = context.keyOf b p.2 := by
  obtain ⟨hx, hy⟩ := h.mem_of_asked hp
  exact ⟨h.keys.keyOf_keyIn hctx (h.inLeft _ hx), h.keys.keyOf_keyIn hctx (h.inRight _ hy)⟩

lemma PairsReady.anyCopies (h : PairsReady context node a b pairing inputs left right d reduced) :
    [a, b].any d.keys.contains = true := by
  rw [List.any_cons, List.any_cons, List.any_nil, Bool.or_false, Bool.or_eq_true]
  exact h.found

/-- What a group over two tables leaves, or that it runs over all of its inputs. -/
lemma deduplicate_pairs [DecidableEq γ] (hctx : context.WellFormed) (hmodel : node.isModel = true)
    (hjoins : node.joinsSeveral = false) {source : NodeId} (hsource : source ≠ node.nodeId)
    (hab : a ≠ b) (hports : node.inputs = Operator.pairPorts source a b pairing)
    (hreads : ReadsPairs context inputs a b pairing) :
    deduplicate [node] (Dict.empty.set node.nodeId inputs) context = .ok none ∨
      ∃ left right d reduced,
        deduplicate [node] (Dict.empty.set node.nodeId inputs) context = .ok (some d) ∧
        PairsReady context node a b pairing inputs left right d reduced := by
  cases pairing with
  | product =>
    obtain ⟨⟨left, hleft, hl⟩, right, hright, hr⟩ := hreads
    obtain ⟨hsome, hnone⟩ := deduplicate_product hctx hmodel hjoins hsource hab hports hleft hright hl hr
    by_cases hready : Agree context a left ∧ Agree context b right ∧
        (a ∈ context.deduplicate ∨ b ∈ context.deduplicate)
    · obtain ⟨d, reduced, hrun, h, _⟩ := hsome hready
      exact .inr ⟨_, _, d, reduced, hrun, h⟩
    · exact .inl (hnone hready)
  | listed =>
    obtain ⟨⟨left, hleft, hl⟩, ⟨right, hright, hr⟩, table, hpairs, htable⟩ := hreads
    obtain ⟨hsome, hnone⟩ := deduplicate_listed hctx hmodel hjoins hsource hab hports hleft hright hpairs
      hl hr htable
    by_cases hready : Agree context a left ∧ Agree context b right ∧ table.columns = 0 ∧
        (a ∈ context.deduplicate ∨ b ∈ context.deduplicate)
    · obtain ⟨d, reduced, hrun, h, _⟩ := hsome hready
      exact .inr ⟨_, _, d, reduced, hrun, h⟩
    · exact .inl (hnone hready)
  | rows =>
    obtain ⟨table, hpairs, htable⟩ := hreads
    exact deduplicate_rows hctx hmodel hjoins hsource hab hports hpairs htable

/-- An inference over two tables answers every pair as its keys. -/
theorem expands_pairInference [DecidableEq γ] (hjoin : IsInnerJoin join) {nodeId source : NodeId}
    (hsource : source ≠ nodeId) (hctx : context.WellFormed)
    (hreads : (Operator.pairInference a b pairing).Reads context inputs) :
    Expands join (.pairInference a b pairing) nodeId source context inputs := by
  obtain ⟨hab, hreads⟩ := hreads
  have hdedup : deduplicate [(Operator.pairInference a b pairing).node nodeId source]
      (Dict.empty.set nodeId inputs) context = .ok none ∨ ∃ left right d reduced,
        deduplicate [(Operator.pairInference a b pairing).node nodeId source]
          (Dict.empty.set nodeId inputs) context = .ok (some d) ∧
        PairsReady context ((Operator.pairInference a b pairing).node nodeId source) a b pairing inputs
          left right d reduced :=
    deduplicate_pairs hctx rfl rfl hsource hab rfl hreads
  rw [Expands]
  obtain hnone | ⟨left, right, d, reduced, hrun, h⟩ := hdedup
  · rw [hnone]
    trivial
  rw [hrun]
  refine ⟨reduced, h.reads, fun model result hanswered => ?_⟩
  obtain ⟨t, hout, ht, hrows⟩ := hanswered
  have hperm : (t.rows.map fun row => ((row.1 a, row.1 b), row.2)).Perm
      ((askedPairs reduced a b pairing).filterMap fun q =>
        (model.pairRow (context.keyOf a q.1) (context.keyOf b q.2)).map fun v => (q, v)) := hrows
  obtain ⟨t', htable, ht', hrows'⟩ := h.expandedTable hctx hjoin hab ht
    (fun p hp => by rw [(h.answer_key hctx hp).1, (h.answer_key hctx hp).2]) hperm
  obtain ⟨pairs, n, hpairs, hread, rfl⟩ := h.pairsRead rfl
  have haliases : Deduplicated.aliasesOf ((Operator.pairInference a b pairing).node nodeId source)
      ⟨.allRows, .rows⟩ (.rows t : Value γ) = .ok [a, b] := by
    rw [Deduplicated.aliasesOf, Value.rowAliases, ht]
  have hexpand : d.expandOutput join ((Operator.pairInference a b pairing).node nodeId source)
      (d.pairs.get? nodeId) d.every Dict.empty ⟨.allRows, .rows⟩ (.rows t) [a, b] = .ok (.rows t') := by
    rw [expandOutput_rows fun _ _ _ h => by cases h]
    exact congrArg (· >>= fun t => pure (Value.rows t)) htable
  obtain ⟨e, hport, he⟩ := expandPort_expanded (s := (Dict.empty, ⟨d.every, Dict.empty, []⟩)) hout haliases
    h.anyCopies hexpand ⟨_, rfl⟩
  obtain ⟨metrics, hmetrics⟩ :=
    expandMetrics_ok hread (Dict.empty.set .allRows (.rows t')) result.metrics
  have hexpanded := expanded_one h.nodes hpairs
    (congrArg (· >>= fun s => pure s) hport :) he hmetrics
  exact ⟨_, _, hexpanded, Dict.get?_set_self, t', Dict.get?_set_self, ht', hrows'⟩

end pairs

end Quail.Copies
