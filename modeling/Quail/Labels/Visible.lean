import Quail.Labels.Paths
import Quail.Lib.Fallible

/-!
# What the rows of the trie paths see

The rows above a row of its path hold the nodes above its node, back to the first of the path, and what the
path gathers are the rows of those above the first. `triePaths_spec` is the promise of `trie_paths`.
-/

namespace Quail.Labels
open PrefixTree

variable {trie : Trie} {fed : List Node} {paths : List LabelPath} {pk pk' : Packing} {p : LabelPath}
  {path i j q r : ℕ} {row : ℕ × ℕ} {node above first : Node}

/-- What is above a node: itself, and what is above its parent. -/
lemma prefix_iff : above <+: node ↔ above = node ∨ above <+: node.dropLast := by
  cases List.eq_nil_or_concat node with
  | inl h => simp [h]
  | inr h =>
    obtain ⟨rest, token, rfl⟩ := h
    rw [List.concat_eq_append, List.dropLast_concat, List.prefix_concat_iff]

namespace Packing.Placed

lemma functional {row' : ℕ × ℕ} (h : pk.Placed) (hat : nodeAt pk.paths row = some node)
    (hat' : nodeAt pk.paths row' = some node) : row = row' := by
  have hget := (h.at_iff node row).2 hat
  rw [(h.at_iff node row').2 hat'] at hget
  exact (Option.some.inj hget).symm

/-- A row below the first of its path has its parent just above. -/
lemma step (h : pk.Placed) (hat : nodeAt pk.paths (path, i + 1) = some node) :
    node ≠ [] ∧ nodeAt pk.paths (path, i) = some node.dropLast := by
  have hne : node ≠ [] := by
    obtain ⟨p, hp, hnode⟩ := nodeAt_eq_some.1 hat
    have hdepth := h.depth path (i + 1) p node hp hnode
    rintro rfl
    rw [List.length_nil] at hdepth
    omega
  cases h.below path (i + 1) node hat hne with
  | inl hbelow =>
    obtain ⟨k, hk, hparent⟩ := hbelow
    obtain rfl : i = k := by omega
    exact ⟨hne, hparent⟩
  | inr hbelow => cases hbelow.1

/-- The rows up to a row hold nodes above its node. -/
lemma lead (h : pk.Placed) (hat : nodeAt pk.paths (path, i) = some node) (hj : j ≤ i) :
    ∃ above, above <+: node ∧ nodeAt pk.paths (path, j) = some above := by
  induction i generalizing node with
  | zero =>
    obtain rfl : j = 0 := by omega
    exact ⟨node, List.prefix_rfl, hat⟩
  | succ i ih =>
    by_cases heq : j = i + 1
    · exact ⟨node, List.prefix_rfl, heq ▸ hat⟩
    · obtain ⟨above, hle, hrow⟩ := ih (h.step hat).2 (by omega)
      exact ⟨above, prefix_iff.2 (.inr hle), hrow⟩

/-- What is above a node lies in an earlier path or above its row. -/
lemma earlier (h : pk.Placed) (hat : nodeAt pk.paths (path, i) = some node)
    (hat' : nodeAt pk.paths (q, j) = some above) (hle : above <+: node) : q < path ∨ (q = path ∧ j ≤ i) := by
  induction hn : node.length generalizing path i node with
  | zero =>
    obtain rfl := List.length_eq_zero_iff.1 hn
    obtain rfl := List.prefix_nil.1 hle
    have hrow := h.functional hat' hat
    rw [Prod.mk.injEq] at hrow
    exact .inr ⟨hrow.1, hrow.2.le⟩
  | succ n ih =>
    cases prefix_iff.1 hle with
    | inl heq =>
      have hrow := h.functional hat' (heq ▸ hat)
      rw [Prod.mk.injEq] at hrow
      exact .inr ⟨hrow.1, hrow.2.le⟩
    | inr hle =>
      have hne : node ≠ [] := fun heq => by rw [heq] at hn; cases hn
      have hlen : node.dropLast.length = n := by rw [List.length_dropLast, hn]; rfl
      cases h.below path i node hat hne with
      | inl hbelow =>
        obtain ⟨k, rfl, hparent⟩ := hbelow
        cases ih hparent hle hlen with
        | inl hlt => exact .inl hlt
        | inr heq => exact .inr ⟨heq.1, by omega⟩
      | inr hbelow =>
        obtain ⟨-, parent, hlt, hparent⟩ := hbelow
        cases ih hparent hle hlen with
        | inl hlt' => exact .inl (hlt'.trans hlt)
        | inr heq => exact .inl (heq.1 ▸ hlt)

/-- What is above a node and outside its path is above the first of the path. -/
lemma outside (h : pk.Placed) (hfirst : nodeAt pk.paths (path, 0) = some first)
    (hat : nodeAt pk.paths (path, i) = some node) (hat' : nodeAt pk.paths (q, j) = some above)
    (hle : above <+: node) (hq : q ≠ path) : above <+: first.dropLast := by
  have hself : ∀ {i node}, nodeAt pk.paths (path, i) = some node → above ≠ node := by
    intro i node hat heq
    have hrow := h.functional hat' (heq ▸ hat)
    rw [Prod.mk.injEq] at hrow
    exact hq hrow.1
  induction i generalizing node with
  | zero =>
    obtain rfl := Option.some.inj (hfirst.symm.trans hat)
    exact (prefix_iff.1 hle).resolve_left (hself hat)
  | succ i ih => exact ih (h.step hat).2 ((prefix_iff.1 hle).resolve_left (hself hat))

/-- The first row of the first path holds the root. -/
lemma root (h : pk.Placed) (hfull : Full pk.paths) (hheld : Holds pk.paths []) :
    nodeAt pk.paths (0, 0) = some [] := by
  obtain ⟨row, hat⟩ := hheld
  obtain ⟨p, hp, -⟩ := nodeAt_eq_some.1 hat
  obtain ⟨p, paths, hpaths⟩ := List.exists_cons_of_ne_nil (List.ne_nil_of_mem (List.mem_of_getElem? hp))
  obtain ⟨first, rest, hnodes⟩ := List.exists_cons_of_ne_nil (hfull p (hpaths ▸ List.mem_cons_self ..))
  have hfirst : nodeAt pk.paths (0, 0) = some first :=
    nodeAt_eq_some.2 ⟨p, by rw [hpaths]; rfl, by rw [hnodes]; rfl⟩
  by_cases hne : first = []
  · exact hne ▸ hfirst
  · cases h.below 0 0 first hfirst hne with
    | inl hbelow =>
      obtain ⟨_, hzero, _⟩ := hbelow
      cases hzero
    | inr hbelow =>
      obtain ⟨_, _, hlt, _⟩ := hbelow
      cases hlt

end Packing.Placed

/-! ## What a path gathers -/

/-- What the loop over the depths has counted: for each path the leading rows that reach what was met. -/
lemma counts_spec {placed : Dict Node (ℕ × ℕ)} {parent : Node} {depths : List ℕ} {counts : Dict ℕ ℕ}
    (hheld : ∀ depth ∈ depths, ∃ row, placed.get? (parent.take depth) = some row)
    (hpos : ∀ q c, counts.get? q = some c → 0 < c) :
    ∃ counts', depths.foldlM (countRows placed parent) counts = .ok counts' ∧
      (∀ q c, counts'.get? q = some c → 0 < c) ∧
      ∀ q i, i < (counts'.get? q).getD 0 ↔ i < (counts.get? q).getD 0 ∨
        ∃ depth ∈ depths, ∃ j, i ≤ j ∧ placed.get? (parent.take depth) = some (q, j) := by
  induction depths generalizing counts with
  | nil => exact ⟨counts, rfl, hpos, fun q i => by simp⟩
  | cons depth depths ih =>
    obtain ⟨⟨⟨path, row⟩, hrow⟩, hheld⟩ := List.forall_mem_cons.1 hheld
    obtain ⟨counts', hrun, hpos', hcounts⟩ := @ih (counts.set path (max ((counts.get? path).getD 0) (row + 1))) hheld
      (by
        intro q c hget
        rw [Dict.get?_set] at hget
        split_ifs at hget with hq
        · rw [← Option.some.inj hget]
          exact Nat.lt_of_lt_of_le (Nat.succ_pos row) (Nat.le_max_right _ _)
        · exact hpos q c hget)
    refine ⟨counts', ?_, hpos', fun q i => ?_⟩
    · rw [List.foldlM_cons, countRows, hrow]
      exact hrun
    · rw [hcounts, Dict.get?_set]
      simp only [List.mem_cons, exists_eq_or_imp, hrow, Option.some.injEq, Prod.mk.injEq, ← or_assoc]
      apply or_congr_left
      split_ifs with hq
      · subst hq
        simp only [Option.getD_some, lt_max_iff, Nat.lt_succ_iff, true_and]
        apply or_congr_right
        refine ⟨fun hi => ⟨row, hi, rfl⟩, ?_⟩
        rintro ⟨j, hi, hj⟩
        exact hj ▸ hi
      · refine ⟨.inl, fun hi => ?_⟩
        cases hi with
        | inl hi => exact hi
        | inr hi =>
          obtain ⟨_, _, heq, _⟩ := hi
          exact absurd heq hq

/-- A path gathers, of each path, the rows up to the last that holds a node above its first. -/
lemma gathersOf_spec {placed : Dict Node (ℕ × ℕ)}
    (hheld : ∀ above, above <+: first.dropLast → ∃ row, placed.get? above = some row) :
    ∃ gathers, gathersOf placed first = .ok gathers ∧ (gathers.map Prod.fst).Nodup ∧ (∀ g ∈ gathers, 0 < g.2) ∧
      ∀ q i, (∃ g ∈ gathers, g.1 = q ∧ i < g.2) ↔
        ∃ above, above <+: first.dropLast ∧ ∃ j, i ≤ j ∧ placed.get? above = some (q, j) := by
  obtain ⟨counts, hrun, hpos, hcounts⟩ := @counts_spec placed first.dropLast
    (List.range (first.dropLast.length + 1)) Dict.empty
    (fun depth _ => hheld _ (List.take_prefix depth _)) (fun q c hget => by cases hget)
  have hperm := List.perm_insertionSort (fun a b : ℕ × ℕ => a.1 < b.1 ∨ (a.1 = b.1 ∧ a.2 ≤ b.2)) counts.entries
  refine ⟨counts.entries.insertionSort fun a b => a.1 < b.1 ∨ (a.1 = b.1 ∧ a.2 ≤ b.2), ?_, ?_, ?_, ?_⟩
  · unfold gathersOf
    dsimp only
    rw [hrun]
    rfl
  · exact (hperm.map Prod.fst).nodup_iff.2 counts.nodup
  · intro g hg
    exact hpos g.1 g.2 (Dict.mem_entries_iff.1 (hperm.mem_iff.1 hg))
  · intro q i
    trans i < (counts.get? q).getD 0
    · constructor
      · rintro ⟨g, hg, hq, hi⟩
        rw [← hq, Dict.mem_entries_iff.1 (hperm.mem_iff.1 hg)]
        exact hi
      · intro hi
        cases hget : counts.get? q with
        | none =>
          rw [hget] at hi
          cases hi
        | some c =>
          rw [hget] at hi
          exact ⟨(q, c), hperm.mem_iff.2 (Dict.mem_entries_iff.2 hget), rfl, hi⟩
    · rw [hcounts]
      constructor
      · intro hi
        cases hi with
        | inl hi => cases hi
        | inr hi =>
          obtain ⟨depth, -, j, hij, hget⟩ := hi
          exact ⟨_, List.take_prefix depth _, j, hij, hget⟩
      · rintro ⟨above, hle, j, hij, hget⟩
        refine .inr ⟨above.length, List.mem_range.2 (Nat.lt_succ_of_le hle.length_le), j, hij, ?_⟩
        rw [← List.prefix_iff_eq_take.1 hle]
        exact hget

/-- A path after its turn: the same rows, and the rows outside it that hold the nodes above its first. -/
structure Gathers (pk : Packing) (e : LabelPath × ℕ) (p : LabelPath) : Prop where
  nodes : p.nodes = e.1.nodes
  start : p.start = e.1.start
  once : (p.gathers.map Prod.fst).Nodup
  pos : ∀ g ∈ p.gathers, 0 < g.2
  rows : ∀ first, e.1.nodes.head? = some first → ∀ q i, (∃ g ∈ p.gathers, g.1 = q ∧ i < g.2) ↔
    e.2 ≠ 0 ∧ ∃ above, above <+: first.dropLast ∧ ∃ j, i ≤ j ∧ nodeAt pk.paths (q, j) = some above

lemma gather_ok (h : pk.Placed) (hfull : Full pk.paths)
    (hclosed : ∀ node above, Holds pk.paths node → above <+: node → Holds pk.paths above)
    {e : LabelPath × ℕ} (he : e ∈ pk.paths.zipIdx) : ∃ p, gather pk.placed e = .ok p ∧ Gathers pk e p := by
  have hpath : pk.paths[e.2]? = some e.1 := List.mem_zipIdx_iff_getElem?.1 he
  have hnone := h.gathers e.2 e.1 hpath
  unfold gather
  by_cases hzero : e.2 = 0
  · rw [if_pos hzero]
    refine ⟨e.1, rfl, rfl, rfl, ?_, ?_, ?_⟩
    · rw [hnone]
      exact List.nodup_nil
    · simp [hnone]
    · simp [hnone, hzero]
  · rw [if_neg hzero]
    obtain ⟨first, rest, hnodes⟩ := List.exists_cons_of_ne_nil (hfull e.1 (List.mem_of_getElem? hpath))
    have hfirst : nodeAt pk.paths (e.2, 0) = some first :=
      nodeAt_eq_some.2 ⟨e.1, hpath, by rw [hnodes]; rfl⟩
    have hheld : ∀ above, above <+: first.dropLast → ∃ row, pk.placed.get? above = some row := by
      intro above hle
      obtain ⟨row, hat⟩ := hclosed first above ⟨_, hfirst⟩ (prefix_iff.2 (.inr hle))
      exact ⟨row, (h.at_iff above row).2 hat⟩
    obtain ⟨gathers, hrun, honce, hpos, hrows⟩ := gathersOf_spec hheld
    rw [hnodes]
    dsimp only [List.head?_cons]
    rw [hrun]
    refine ⟨_, rfl, hnodes.symm ▸ rfl, rfl, ?_, ?_, ?_⟩
    · rw [hnone]
      exact honce
    · rw [hnone]
      exact hpos
    · intro first' hfirst' q i
      rw [hnodes] at hfirst'
      obtain rfl := Option.some.inj hfirst'
      rw [hnone]
      refine (hrows q i).trans ?_
      simp only [h.at_iff, ne_eq, hzero, not_false_eq_true, true_and]

/-! ## The promise -/

section Promise

variable {paths : List LabelPath} {e : LabelPath × ℕ}

lemma mem_visible {other : ℕ × ℕ} (hp : paths[path]? = some p) : other ∈ visible paths (path, i) ↔
    (∃ g ∈ p.gathers, g.1 = other.1 ∧ other.2 < g.2) ∨ (other.1 = path ∧ other.2 ≤ i) := by
  obtain ⟨q, j⟩ := other
  unfold visible
  dsimp only
  rw [hp, List.mem_append]
  simp only [Option.map_some, Option.getD_some, List.mem_flatMap, List.mem_map, List.mem_range, Prod.mk.injEq]
  apply or_congr
  · constructor
    · rintro ⟨g, hg, k, hk, hq, hj⟩
      exact ⟨g, hg, hq, hj ▸ hk⟩
    · rintro ⟨g, hg, hq, hj⟩
      exact ⟨g, hg, j, hj, hq, rfl⟩
  · constructor
    · rintro ⟨k, hk, hq, hj⟩
      exact ⟨hq.symm, hj ▸ Nat.lt_succ_iff.1 hk⟩
    · rintro ⟨hq, hj⟩
      exact ⟨j, Nat.lt_succ_of_le hj, hq.symm, rfl⟩

lemma nodup_visible (hp : paths[path]? = some p) (honce : (p.gathers.map Prod.fst).Nodup)
    (hearlier : ∀ g ∈ p.gathers, g.1 < path) : (visible paths (path, i)).Nodup := by
  have hrange : ∀ q n : ℕ, ((List.range n).map fun k => (q, k)).Nodup :=
    fun q n => List.nodup_range.map fun a b heq => congrArg Prod.snd heq
  unfold visible
  dsimp only
  rw [hp]
  simp only [Option.map_some, Option.getD_some]
  rw [List.nodup_append]
  refine ⟨?_, hrange path (i + 1), ?_⟩
  · rw [List.nodup_flatMap]
    refine ⟨fun g _ => hrange g.1 g.2, (List.pairwise_map.1 honce).imp fun {g g'} hne => ?_⟩
    intro row hrow hrow'
    obtain ⟨_, -, rfl⟩ := List.mem_map.1 hrow
    obtain ⟨_, -, heq⟩ := List.mem_map.1 hrow'
    exact hne (Prod.ext_iff.1 heq).1.symm
  · intro row hrow row' hrow' heq
    obtain ⟨g, hg, hrow⟩ := List.mem_flatMap.1 hrow
    obtain ⟨_, -, rfl⟩ := List.mem_map.1 hrow
    obtain ⟨_, -, rfl⟩ := List.mem_map.1 hrow'
    exact (hearlier g hg).ne (Prod.ext_iff.1 heq).1

/-- The paths that hold what is fed, once each has gathered. -/
lemma pathsOf_gathers (h : pk.Placed) (hfull : Full pk.paths) (hholds : ∀ node, Holds pk.paths node ↔ node ∈ fed)
    (hroot : nodeAt pk.paths (0, 0) = some []) (hruns : List.Forall₂ (Gathers pk) pk.paths.zipIdx paths) :
    PathsOf fed paths := by
  have hget : ∀ (path : ℕ) (p : LabelPath), paths[path]? = some p →
      ∃ old, pk.paths[path]? = some old ∧ Gathers pk (old, path) p := by
    intro path p hp
    obtain ⟨hlt, rfl⟩ := List.getElem?_eq_some_iff.1 hp
    have hlen := hruns.length_eq
    rw [List.length_zipIdx] at hlen
    refine ⟨pk.paths[path], List.getElem?_eq_getElem (hlen ▸ hlt), ?_⟩
    have hrel := hruns.get (i := path) (by rw [List.length_zipIdx, hlen]; exact hlt) hlt
    rw [List.get_eq_getElem, List.get_eq_getElem, List.getElem_zipIdx, Nat.zero_add] at hrel
    exact hrel
  have hrows : ∀ row, nodeAt paths row = nodeAt pk.paths row := by
    intro row
    unfold nodeAt
    cases hp : paths[row.1]? with
    | none =>
      have hle := List.getElem?_eq_none_iff.1 hp
      rw [← hruns.length_eq, List.length_zipIdx] at hle
      rw [List.getElem?_eq_none hle]
    | some p =>
      obtain ⟨old, hold, hg⟩ := hget row.1 p hp
      rw [hold, Option.bind_some, Option.bind_some, hg.nodes]
  have hearlier : ∀ (path : ℕ) (p : LabelPath), paths[path]? = some p → ∀ g ∈ p.gathers, g.1 < path := by
    intro path p hp g hg
    obtain ⟨old, hold, hgathers⟩ := hget path p hp
    obtain ⟨first, rest, hnodes⟩ := List.exists_cons_of_ne_nil (hfull old (List.mem_of_getElem? hold))
    have hfirst : nodeAt pk.paths (path, 0) = some first := nodeAt_eq_some.2 ⟨old, hold, by rw [hnodes]; rfl⟩
    obtain ⟨hne, above, hle, j, -, hat⟩ :=
      (hgathers.rows first (by rw [hnodes]; rfl) g.1 0).1 ⟨g, hg, rfl, hgathers.pos g hg⟩
    cases h.earlier hfirst hat (prefix_iff.2 (.inr hle)) with
    | inl hlt => exact hlt
    | inr heq =>
      obtain ⟨hq, hj⟩ := heq
      obtain rfl : j = 0 := by omega
      rw [hq, hfirst] at hat
      obtain rfl := Option.some.inj hat
      -- a path but the first starts below the root
      have hlen := hle.length_le
      rw [List.length_dropLast] at hlen
      have hnil : first = [] := List.length_eq_zero_iff.1 (by omega)
      rw [hnil] at hfirst
      exact absurd (Prod.ext_iff.1 (h.functional hfirst hroot)).1 hne
  refine ⟨?_, ?_, ?_, hearlier, ?_⟩
  · intro node hnode
    obtain ⟨row, hat⟩ := (hholds node).2 hnode
    refine ⟨row, (hrows row).trans hat, fun row' hat' => ?_⟩
    exact h.functional ((hrows row').symm.trans hat') hat
  · intro row node hat
    exact (hholds node).1 ⟨row, (hrows row).symm.trans hat⟩
  · intro path row p node hp hnode
    obtain ⟨old, hold, hg⟩ := hget path p hp
    rw [hg.start]
    exact h.depth path row old node hold (hg.nodes ▸ hnode)
  · rintro ⟨path, i⟩ node hat
    obtain ⟨p, hp, -⟩ := nodeAt_eq_some.1 hat
    obtain ⟨old, hold, hgathers⟩ := hget path p hp
    obtain ⟨first, rest, hnodes⟩ := List.exists_cons_of_ne_nil (hfull old (List.mem_of_getElem? hold))
    have hfirst : nodeAt pk.paths (path, 0) = some first := nodeAt_eq_some.2 ⟨old, hold, by rw [hnodes]; rfl⟩
    have hiff := hgathers.rows first (by rw [hnodes]; rfl)
    rw [hrows] at hat
    refine ⟨nodup_visible hp hgathers.once (hearlier path p hp), ?_⟩
    rintro ⟨q, j⟩
    rw [mem_visible hp, hrows]
    dsimp only at hp hiff ⊢
    constructor
    · intro hseen
      cases hseen with
      | inl hseen =>
        -- a gathered row: what is above it is above the first of the path
        obtain ⟨-, top, htop, k, hj, hrow⟩ := (hiff q j).1 hseen
        obtain ⟨above, hle, habove⟩ := h.lead hrow hj
        obtain ⟨first', hle', hfirst'⟩ := h.lead hat (Nat.zero_le i)
        obtain rfl := Option.some.inj (hfirst.symm.trans hfirst')
        exact ⟨above, (prefix_iff.2 (.inr (hle.trans htop))).trans hle', habove⟩
      | inr hseen =>
        obtain ⟨rfl, hj⟩ := hseen
        exact h.lead hat hj
    · rintro ⟨above, hle, habove⟩
      cases h.earlier hat habove hle with
      | inl hlt =>
        have htop := h.outside hfirst hat habove hle hlt.ne
        exact .inl ((hiff q j).2 ⟨(Nat.zero_lt_of_lt hlt).ne', above, htop, j, le_rfl, habove⟩)
      | inr heq => exact .inr heq

end Promise

/-! ## The nodes that are read -/

/-- The node is the root, or a proper prefix of a label. -/
def Inner (labelIds : List (List Token)) (node : Node) : Prop :=
  node = [] ∨ ∃ ids ∈ labelIds, node <+: ids ∧ node.length < ids.length

lemma mem_addNode {read : List Node} : above ∈ addNode read node ↔ above ∈ read ∨ above = node := by
  unfold addNode
  split_ifs with hmem
  · exact ⟨.inl, fun h => h.elim id fun heq => heq ▸ hmem⟩
  · rw [List.mem_append, List.mem_singleton]

/-- The root is read, and nothing but inner nodes. -/
lemma readNodes_inner {labelIds : List (List Token)} {starts : List (List Bool)} {read : List Node}
    (h : readNodes labelIds starts = .ok read) : [] ∈ read ∧ ∀ node ∈ read, Inner labelIds node := by
  unfold readNodes at h
  obtain ⟨trie, -, h⟩ := bind_eq_ok h
  refine foldlM_ok (fun _ read => [] ∈ read ∧ ∀ node ∈ read, Inner labelIds node) ?_ ?_ h
  · refine ⟨List.mem_singleton_self _, fun node hnode => .inl (List.mem_singleton.1 hnode)⟩
  · intro past read read' e he hread hstep
    obtain ⟨flags, -, hstep⟩ := bind_eq_ok hstep
    refine foldlM_ok (fun _ read => [] ∈ read ∧ ∀ node ∈ read, Inner labelIds node) hread ?_ hstep
    intro past read read' depth hdepth hread hturn
    obtain ⟨reads, -, hturn⟩ := bind_eq_ok hturn
    obtain rfl := Except.ok.inj hturn
    split_ifs
    · refine ⟨mem_addNode.2 (.inl hread.1), fun node hnode => ?_⟩
      cases mem_addNode.1 hnode with
      | inl hnode => exact hread.2 node hnode
      | inr heq =>
        have hids := List.mem_of_getElem? (List.mem_zipIdx_iff_getElem?.1 he)
        rw [List.mem_range'_1] at hdepth
        refine .inr ⟨e.1, hids, heq ▸ List.take_prefix depth e.1, ?_⟩
        rw [heq, List.length_take]
        omega
    · exact hread

lemma mem_fedNodes {read : List Node} : node ∈ fedNodes read ↔ ∃ below ∈ read, node <+: below := by
  unfold fedNodes
  simp only [List.mem_flatMap, List.mem_map, List.mem_range]
  apply exists_congr
  intro below
  apply and_congr_right
  intro _
  constructor
  · rintro ⟨depth, _, heq⟩
    exact heq ▸ List.take_prefix depth below
  · intro hle
    exact ⟨node.length, Nat.lt_succ_of_le hle.length_le, (List.prefix_iff_eq_take.1 hle).symm⟩

/-- What is fed is what `extend` relies on. -/
lemma feeds_fedNodes {labelIds : List (List Token)} {read : List Node} (hne : labelIds ≠ [])
    (hids : ∀ ids ∈ labelIds, ids ≠ []) (htrie : TrieOf labelIds trie) (hroot : [] ∈ read)
    (hread : ∀ node ∈ read, Inner labelIds node) : Feeds trie (fedNodes read) (longest labelIds + 1) := by
  have hinner : ∀ node ∈ fedNodes read, Inner labelIds node := by
    intro node hnode
    obtain ⟨below, hbelow, hle⟩ := mem_fedNodes.1 hnode
    cases hread below hbelow with
    | inl heq => exact .inl (List.prefix_nil.1 (heq ▸ hle))
    | inr h =>
      obtain ⟨ids, hmem, hpre, hlt⟩ := h
      exact .inr ⟨ids, hmem, hle.trans hpre, Nat.lt_of_le_of_lt hle.length_le hlt⟩
  refine ⟨mem_fedNodes.2 ⟨[], hroot, List.prefix_rfl⟩, ?_, ?_, ?_⟩
  · intro node hnode above hle
    obtain ⟨below, hbelow, hle'⟩ := mem_fedNodes.1 hnode
    exact mem_fedNodes.2 ⟨below, hbelow, hle.trans hle'⟩
  · intro node hnode
    -- some label goes on below the node
    have hchild : ∃ token, Passes labelIds (node ++ [token]) := by
      cases hinner node hnode with
      | inl heq =>
        obtain ⟨ids, labels, rfl⟩ := List.exists_cons_of_ne_nil hne
        obtain ⟨token, rest, rfl⟩ := List.exists_cons_of_ne_nil (hids ids (List.mem_cons_self ..))
        exact ⟨token, token :: rest, List.mem_cons_self .., by rw [heq]; exact ⟨rest, rfl⟩⟩
      | inr h =>
        obtain ⟨ids, hmem, hpre, hlt⟩ := h
        obtain ⟨token, htoken⟩ := exists_child hpre fun heq => hlt.ne (congrArg List.length heq)
        exact ⟨token, ids, hmem, htoken⟩
    obtain ⟨token, htoken⟩ := hchild
    obtain ⟨tokens, hget⟩ := Dict.contains_iff.1 (htrie.contains node token htoken)
    refine ⟨tokens, hget, (htrie.sorted node tokens hget).imp fun hlt => hlt.ne, fun token hmem => ?_⟩
    rw [htrie.mem_iff node tokens hget]
    cases hinner _ hmem with
    | inl heq => exact absurd heq (List.append_ne_nil_of_right_ne_nil _ (List.cons_ne_nil _ _))
    | inr h =>
      obtain ⟨ids, hmem, hpre, -⟩ := h
      exact ⟨ids, hmem, hpre⟩
  · intro node hnode
    cases hinner node hnode with
    | inl heq =>
      rw [heq]
      exact Nat.succ_pos _
    | inr h =>
      obtain ⟨ids, hmem, hpre, -⟩ := h
      exact Nat.lt_succ_of_le (hpre.length_le.trans (length_le_longest hmem))

/-- `trie_paths` puts every fed node on one path, at its depth, where it sees the rows of its ancestors and
itself. -/
theorem triePaths_spec {labelIds : List (List Token)} {starts : List (List Bool)} {read : List Node}
    (hne : labelIds ≠ []) (hids : ∀ ids ∈ labelIds, ids ≠ []) (hread : readNodes labelIds starts = .ok read) :
    ∃ paths, triePaths labelIds (some read) = .ok paths ∧ PathsOf (fedNodes read) paths := by
  obtain ⟨trie, htrie, hof⟩ := labelTrie_spec hids
  obtain ⟨hroot, hinner⟩ := readNodes_inner hread
  have hf := feeds_fedNodes hne hids hof hroot hinner
  have hready : Ready 0 ⟨[], 0, []⟩ [] ⟨[⟨[], 0, []⟩], Dict.empty⟩ := by
    have hnone : ∀ row node, nodeAt [⟨[], 0, []⟩] row ≠ some node := by
      intro row node hat
      obtain ⟨p, hp, hnode⟩ := nodeAt_eq_some.1 hat
      rw [List.mem_singleton.1 (List.mem_of_getElem? hp)] at hnode
      cases hnode
    refine ⟨⟨fun node row => ?_, ?_, ?_, ?_⟩, rfl, ?_, rfl, fun h => absurd rfl h, ?_⟩
    · exact ⟨nofun, fun h => absurd h (hnone row node)⟩
    · intro path row p node hp hnode
      exact absurd (nodeAt_eq_some.2 ⟨p, hp, hnode⟩) (hnone (path, row) node)
    · intro path row node hat
      exact absurd hat (hnone (path, row) node)
    · intro path p hp
      rw [List.mem_singleton.1 (List.mem_of_getElem? hp)]
    · intro q p hq hp
      rw [List.getElem?_singleton, if_neg hq] at hp
      cases hp
    · rintro m _ ⟨row, hat⟩
      exact hnone row m hat
  obtain ⟨pk, hrun, hadds⟩ := extend_adds hf (Nat.le_refl _) hf.root hready
  have hholds : ∀ node, Holds pk.paths node ↔ node ∈ fedNodes read := by
    intro node
    rw [hadds.holds]
    constructor
    · intro h
      cases h with
      | inl h => exact absurd h (hready.fresh node List.nil_prefix)
      | inr h => exact h.1
    · exact fun h => .inr ⟨h, List.nil_prefix⟩
  have hclosed : ∀ node above, Holds pk.paths node → above <+: node → Holds pk.paths above :=
    fun node above hnode hle => (hholds above).2 (hf.closed node ((hholds node).1 hnode) above hle)
  obtain ⟨paths, hpaths, hgathers⟩ := mapM_ok fun _ he => gather_ok hadds.placed hadds.full hclosed he
  refine ⟨paths, ?_, pathsOf_gathers hadds.placed hadds.full hholds
    (hadds.placed.root hadds.full ((hholds []).2 hf.root)) hgathers⟩
  unfold triePaths
  rw [htrie]
  dsimp only [bind, Except.bind, Option.getD_some]
  rw [hrun]
  exact hpaths

theorem triePaths_spec_words : ∃ paths, triePaths [[1, 2, 3], [1, 2, 4, 5], [1, 2], [6], [1, 7, 8, 9], [1, 7, 8, 10]]
      (some [[], [1], [1, 2], [1, 2, 4], [1, 7], [1, 7, 8]]) = .ok paths ∧
    PathsOf (fedNodes [[], [1], [1, 2], [1, 2, 4], [1, 7], [1, 7, 8]]) paths :=
  @triePaths_spec _ [] _ (by decide) (by decide) (by rfl)

/-- Without labels there is no root to look up. -/
theorem triePaths_raises_without_labels : ¬ ∀ (labelIds : List (List Token)) (starts : List (List Bool))
    (read : List Node), (∀ ids ∈ labelIds, ids ≠ []) → readNodes labelIds starts = .ok read →
    ∃ paths, triePaths labelIds (some read) = .ok paths ∧ PathsOf (fedNodes read) paths := by
  intro h
  obtain ⟨paths, hrun, -⟩ := h [] [] [[]] nofun rfl
  cases hrun

end Quail.Labels
