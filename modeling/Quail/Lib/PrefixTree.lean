import Mathlib.Tactic.Basic
import Mathlib.Tactic.Common
import Mathlib.Data.List.Infix
import Mathlib.Data.List.Chain

/-!
# Walks through a prefix tree

The nodes of a prefix tree are the prefixes of its words. A walk asks a chooser for a child at every
node and ends where there is none. `above mark node` are the marked nodes strictly above a node, and
`cuts` the pieces a path is cut into at some of its nodes.
-/

namespace PrefixTree

variable {τ : Type} {words : List (List τ)} {node node' q : List τ} {t : τ}

/-- Some word runs through the node. -/
def Passes (words : List (List τ)) (node : List τ) : Prop := ∃ w ∈ words, node <+: w

lemma Passes.above (h : Passes words node') (hp : node <+: node') : Passes words node := by
  obtain ⟨w, hw, hn⟩ := h
  exact ⟨w, hw, hp.trans hn⟩

lemma Passes.length_le {longest : ℕ} (hlong : ∀ w ∈ words, w.length ≤ longest)
    (h : Passes words node) : node.length ≤ longest := by
  obtain ⟨w, hw, hn⟩ := h
  exact hn.length_le.trans (hlong w hw)

/-- A proper extension of a node goes through one of its children. -/
lemma exists_child (hp : node <+: node') (hne : node ≠ node') : ∃ t, node ++ [t] <+: node' := by
  obtain ⟨rest, rfl⟩ := hp
  cases rest with
  | nil => exact absurd (List.append_nil node).symm hne
  | cons t rest => exact ⟨t, rest, by rw [List.append_assoc]; rfl⟩

/-- The child a path goes through is determined by the path. -/
lemma child_unique {t' : τ} (h : node ++ [t] <+: q) (h' : node ++ [t'] <+: q) : t = t' := by
  have hlen : (node ++ [t]).length = (node ++ [t']).length := by
    rw [List.length_append, List.length_append]
    rfl
  have heq := (List.prefix_of_prefix_length_le h h' hlen.le).eq_of_length hlen
  exact List.singleton_inj.1 (List.append_cancel_left heq)

/-! ## Walks -/

/-- Where a walk of at most `n` steps gets to. -/
def walk (choose : List τ → Option τ) : ℕ → List τ → List τ
  | 0, node => node
  | n + 1, node =>
    match choose node with
    | none => node
    | some t => walk choose n (node ++ [t])

variable {choose choose' : List τ → Option τ} {n : ℕ}

lemma walk_none (h : choose node = none) : walk choose n node = node := by
  cases n with
  | zero => rfl
  | succ n => rw [walk, h]

lemma walk_some (h : choose node = some t) :
    walk choose (n + 1) node = walk choose n (node ++ [t]) := by rw [walk, h]

lemma prefix_walk : node <+: walk choose n node := by
  induction n generalizing node with
  | zero => exact List.prefix_rfl
  | succ n ih =>
    cases h : choose node with
    | none => rw [walk_none h]
    | some t =>
      rw [walk_some h]
      exact (List.prefix_append node [t]).trans ih

/-- At every node it passes, a walk goes on to the child that is chosen there. -/
lemma walk_next (hq : node <+: q) (hq' : q <+: walk choose n node) :
    q = walk choose n node ∨ ∃ t, choose q = some t ∧ q ++ [t] <+: walk choose n node := by
  induction n generalizing node with
  | zero => exact .inl (hq'.eq_of_length_le hq.length_le)
  | succ n ih =>
    cases h : choose node with
    | none =>
      rw [walk_none h] at hq' ⊢
      exact .inl (hq'.eq_of_length_le hq.length_le)
    | some t =>
      rw [walk_some h] at hq' ⊢
      by_cases heq : node = q
      · subst heq
        exact .inr ⟨t, h, prefix_walk⟩
      · obtain ⟨t', ht'⟩ := exists_child hq heq
        obtain rfl := child_unique (ht'.trans hq') (prefix_walk (n := n))
        exact ih ht' hq'

/-- The chooser names children of the tree. -/
def Names (words : List (List τ)) (choose : List τ → Option τ) : Prop :=
  ∀ node t, choose node = some t → Passes words (node ++ [t])

lemma passes_walk (hnames : Names words choose) (h : Passes words node) :
    Passes words (walk choose n node) := by
  induction n generalizing node with
  | zero => exact h
  | succ n ih =>
    cases hc : choose node with
    | none => rwa [walk_none hc]
    | some t =>
      rw [walk_some hc]
      exact ih (hnames node t hc)

/-- A walk that may take as many steps as the longest word has tokens ends where no child is
chosen. -/
lemma walk_end {longest : ℕ} (hlong : ∀ w ∈ words, w.length ≤ longest) (hnames : Names words choose)
    (hn : longest ≤ n + node.length) : choose (walk choose n node) = none := by
  induction n generalizing node with
  | zero =>
    cases hc : choose node with
    | none => exact hc
    | some t =>
      have hlen := (hnames node t hc).length_le hlong
      rw [List.length_append, List.length_singleton] at hlen
      omega
  | succ n ih =>
    cases hc : choose node with
    | none => rwa [walk_none hc]
    | some t =>
      rw [walk_some hc]
      apply ih
      rw [List.length_append, List.length_singleton]
      omega

/-- A walk whose choices lead to a node passes it. -/
lemma walk_reaches (h : ∀ q t, q ++ [t] <+: node' → choose q = some t) (hp : node <+: node')
    (hn : node'.length ≤ n + node.length) : node' <+: walk choose n node := by
  induction n generalizing node with
  | zero => exact hp.eq_of_length_le (by omega) ▸ List.prefix_rfl
  | succ n ih =>
    by_cases heq : node = node'
    · exact heq ▸ prefix_walk
    · obtain ⟨t, ht⟩ := exists_child hp heq
      rw [walk_some (h node t ht)]
      apply ih ht
      rw [List.length_append, List.length_singleton]
      omega

/-! ## Marked nodes of a path -/

/-- The marked nodes strictly above a node, the root first. -/
def above (mark : List τ → Bool) (node : List τ) : List (List τ) :=
  ((List.range node.length).map node.take).filter mark

variable {mark : List τ → Bool}

@[simp] lemma above_nil : above mark [] = [] := rfl

lemma above_concat : above mark (node ++ [t]) = above mark node ++ [node].filter mark := by
  unfold above
  rw [List.length_append, List.length_singleton, List.range_succ, List.map_append,
    List.filter_append]
  congr 1
  · congr 1
    apply List.map_congr_left
    intro k hk
    exact List.take_append_of_le_length (List.mem_range.1 hk).le
  · rw [List.map_singleton, List.take_left]

/-- Going down adds marked nodes at the end. -/
lemma above_mono (hp : node <+: node') : above mark node <+: above mark node' := by
  obtain ⟨rest, rfl⟩ := hp
  induction rest using List.reverseRecOn with
  | nil => rw [List.append_nil]
  | append_singleton rest t ih =>
    rw [← List.append_assoc, above_concat]
    exact ih.trans (List.prefix_append _ _)

/-- Going down past unmarked nodes adds no marked node. -/
lemma above_extend (hp : node <+: node')
    (h : ∀ q, node <+: q → q <+: node' → q ≠ node' → mark q = false) :
    above mark node' = above mark node := by
  obtain ⟨rest, rfl⟩ := hp
  induction rest using List.reverseRecOn with
  | nil => rw [List.append_nil]
  | append_singleton rest t ih =>
    have hlast : mark (node ++ rest) = false := by
      apply h
      · exact List.prefix_append node rest
      · rw [← List.append_assoc]
        exact List.prefix_append _ [t]
      · intro heq
        have hlen := congrArg List.length heq
        simp only [List.length_append, List.length_singleton] at hlen
        omega
    rw [← List.append_assoc, above_concat, List.filter_singleton, hlast]
    refine (List.append_nil _).trans (ih fun q hq hq' hne => h q hq ?_ ?_)
    · exact hq'.trans (List.append_assoc node rest [t] ▸ List.prefix_append _ [t])
    · rintro rfl
      have hlen := hq'.length_le
      simp only [List.length_append, List.length_singleton] at hlen
      omega

lemma mem_above : q ∈ above mark node ↔ q <+: node ∧ q ≠ node ∧ mark q = true := by
  unfold above
  rw [List.mem_filter, List.mem_map]
  constructor
  · rintro ⟨⟨k, hk, hq⟩, hmark⟩
    subst hq
    refine ⟨List.take_prefix k node, ?_, hmark⟩
    intro heq
    have hlen := congrArg List.length heq
    rw [List.length_take, Nat.min_eq_left (List.mem_range.1 hk).le] at hlen
    exact absurd hlen (List.mem_range.1 hk).ne
  · rintro ⟨hq, hne, hmark⟩
    refine ⟨⟨q.length, ?_, (List.prefix_iff_eq_take.1 hq).symm⟩, hmark⟩
    rw [List.mem_range]
    apply lt_of_le_of_ne hq.length_le
    intro hlen
    exact hne (hq.eq_of_length hlen)

/-- The marked nodes of a path lie one under the other. -/
lemma pairwise_above : (above mark node).Pairwise (· <+: ·) := by
  apply List.Pairwise.filter
  rw [List.pairwise_map]
  apply List.pairwise_lt_range.imp
  intro i j hij
  exact List.take_isPrefix_take.2 (.inl hij.le)

/-! ## Pieces of a path -/

/-- The pieces between the given nodes of a path, the first after `start`. -/
def cuts : List τ → List (List τ) → List (List τ)
  | _, [] => []
  | start, n :: nodes => n.drop start.length :: cuts n nodes

lemma cuts_concat {start c n : List τ} {nodes : List (List τ)} :
    cuts start (nodes ++ [c] ++ [n]) = cuts start (nodes ++ [c]) ++ [n.drop c.length] := by
  induction nodes generalizing start with
  | nil => rfl
  | cons m nodes ih => exact congrArg (_ :: ·) ih

/-- The pieces put together lead to the last of the nodes. -/
lemma flatten_cuts {start : List τ} {nodes : List (List τ)} (h : (start :: nodes).Pairwise (· <+: ·)) :
    start ++ (cuts start nodes).flatten = (nodes.getLast?).getD start := by
  induction nodes generalizing start with
  | nil => exact List.append_nil start
  | cons n nodes ih =>
    obtain ⟨hstart, hrest⟩ := List.pairwise_cons.1 h
    have hn := hstart n (List.mem_cons_self ..)
    have hsplit : start ++ n.drop start.length = n := (List.prefix_append_drop hn).symm
    rw [cuts, List.flatten_cons, ← List.append_assoc, hsplit, ih hrest, List.getLast?_cons]
    rfl

end PrefixTree
