import Quail.Lib.Dict
import Quail.Lib.Networks
import Mathlib.Algebra.Order.Ring.Nat
import Mathlib.Data.Finset.Sort
import Mathlib.Data.List.MinMax
import Mathlib.Data.Prod.Lex

/-!
# Exact survivors

`exact_survivors` of `planner/search/survivors.py`: the rows of every alias that occur in an assignment of
rows meeting all the binary relations of its component. A component that is a tree is reduced by semijoins
until nothing changes; any other is searched by backtracking.
-/

namespace Quail.Planner
open Networks

variable {α ρ : Type} [LinearOrder α] [LinearOrder ρ]

/-- The exact passing row pairs of one binary join predicate. -/
structure PairRelation (α ρ : Type) where
  left : α
  right : α
  pairs : Finset (ρ × ρ)

namespace PairRelation

/-- The two aliases, sorted. -/
def key (r : PairRelation α ρ) : α × α := if r.left ≤ r.right then (r.left, r.right) else (r.right, r.left)

/-- The pairs in the key's order. -/
def oriented (r : PairRelation α ρ) : Finset (ρ × ρ) :=
  if (r.left, r.right) ≠ r.key then r.pairs.image Prod.swap else r.pairs

/-- `_adjacency`: the rows that pass with a row of the left alias. -/
def leftToRight (r : PairRelation α ρ) (row : ρ) : Finset ρ := (r.pairs.filter fun p => p.1 = row).image Prod.snd

/-- `_adjacency`: the rows that pass with a row of the right alias. -/
def rightToLeft (r : PairRelation α ρ) (row : ρ) : Finset ρ := (r.pairs.filter fun p => p.2 = row).image Prod.fst

end PairRelation

/-- The pairs of every two aliases, each relation between them kept. -/
def orientedPairs (relations : List (PairRelation α ρ)) : Dict (α × α) (Finset (ρ × ρ)) :=
  relations.foldl (fun oriented r => oriented.set r.key <|
    match oriented.get? r.key with
    | some pairs => pairs ∩ r.oriented
    | none => r.oriented) .empty

/-- `_combine_parallel_relations`. -/
def combineParallelRelations (relations : List (PairRelation α ρ)) : List (PairRelation α ρ) :=
  ((orientedPairs relations).entries.insertionSort fun e e' => toLex e.1 ≤ toLex e'.1).map fun e =>
    ⟨e.1.1, e.1.2, e.2⟩

/-- The aliases related to an alias. -/
def neighbors (relations : List (PairRelation α ρ)) (name : α) : Finset α :=
  ((relations.filter fun r => r.left = name).map PairRelation.right ++
    (relations.filter fun r => r.right = name).map PairRelation.left).toFinset

/-! ## Components -/

/-- Follow the neighbors of the aliases on the stack, until it is empty. The neighbors of an alias are a set:
they are taken here in the order of the unseen aliases. -/
def explore (neighbors : α → Finset α) : ℕ → List α → List α → List α → List α × List α
  | 0, unseen, component, _ => (component, unseen)
  | _ + 1, unseen, component, [] => (component, unseen)
  | fuel + 1, unseen, component, name :: stack =>
    let found := unseen.filter fun other => other ∈ neighbors name
    explore neighbors fuel (unseen.filter fun other => other ∉ neighbors name) (found.reverse ++ component)
      (found.reverse ++ stack)

/-- The components, each from its least alias. -/
def components (neighbors : α → Finset α) : ℕ → List α → List (List α)
  | 0, _ => []
  | fuel + 1, unseen =>
    match unseen.min? with
    | none => []
    | some root =>
      let (component, unseen) := explore neighbors unseen.length (unseen.erase root) [root] [root]
      component :: components neighbors fuel unseen

/-! ## Semijoins -/

/-- The rows of a relation's two aliases that still pass with a row of the other, and whether any was dropped. -/
def semijoin (s : (α → Finset ρ) × Bool) (r : PairRelation α ρ) : (α → Finset ρ) × Bool :=
  let left := (s.1 r.left).filter fun row => (r.leftToRight row ∩ s.1 r.right).Nonempty
  let right := (s.1 r.right).filter fun row => (r.rightToLeft row ∩ s.1 r.left).Nonempty
  let s := if left ≠ s.1 r.left then (Function.update s.1 r.left left, true) else s
  if right ≠ s.1 r.right then (Function.update s.1 r.right right, true) else s

/-- One pass over the relations. -/
def sweep (relations : List (PairRelation α ρ)) (rows : α → Finset ρ) : (α → Finset ρ) × Bool :=
  relations.foldl semijoin (rows, false)

/-- Passes until one changes nothing. -/
def sweeps (relations : List (PairRelation α ρ)) : ℕ → (α → Finset ρ) → α → Finset ρ
  | 0, rows => rows
  | fuel + 1, rows =>
    let next := sweep relations rows
    if next.2 then sweeps relations fuel next.1 else next.1

/-- The base rows of an alias. -/
def baseRow (baseRows : Dict α (List ρ)) (name : α) : List ρ := (baseRows.get? name).getD []

/-- `_forest_live_rows`. A pass that changes something drops a row. -/
def forestLiveRows (baseRows : Dict α (List ρ)) (relations : List (PairRelation α ρ)) (aliases : List α) :
    α → Finset ρ :=
  let rows name := (baseRow baseRows name).toFinset
  sweeps relations ((aliases.map fun name => (rows name).card).sum + 1) rows

/-! ## Backtracking -/

/-- The pairs of two aliases, in either order. -/
def pairSets (relations : List (PairRelation α ρ)) : α × α → Finset (ρ × ρ) :=
  relations.foldl (fun sets r => Function.update (Function.update sets (r.left, r.right) r.pairs)
    (r.right, r.left) (r.pairs.image Prod.swap)) fun _ => ∅

/-- The alias to assign next: the most assigned neighbors, the fewest rows, the name. -/
def nextAlias (baseRows : Dict α (List ρ)) (relations : List (PairRelation α ρ)) (assignment : Dict α ρ)
    (remaining : List α) : Option α :=
  remaining.argmin fun name =>
    -- the order turned round for the source's minus sign
    toLex (OrderDual.toDual ((neighbors relations name).filter fun other => other ∈ assignment.keys).card,
      toLex ((baseRow baseRows name).length, name))

/-- A row passes with the rows assigned to an alias's neighbors. -/
def Passes (relations : List (PairRelation α ρ)) (assignment : Dict α ρ) (name : α) (row : ρ) : Prop :=
  ∀ other ∈ neighbors relations name, ∀ value ∈ assignment.get? other, (row, value) ∈ pairSets relations (name, other)

instance (relations : List (PairRelation α ρ)) (assignment : Dict α ρ) (name : α) (row : ρ) :
    Decidable (Passes relations assignment name row) :=
  inferInstanceAs (Decidable (∀ other ∈ neighbors relations name, ∀ value ∈ assignment.get? other, _))

/-- Assign rows to the aliases left, and note every full assignment's rows. -/
def visit (baseRows : Dict α (List ρ)) (relations : List (PairRelation α ρ)) (aliases : List α) :
    ℕ → Dict α ρ → (α → Finset ρ) → α → Finset ρ
  | 0, _, found => found
  | fuel + 1, assignment, found =>
    if assignment.keys.length = aliases.length then
      assignment.entries.foldl (fun found e => Function.update found e.1 (insert e.2 (found e.1))) found
    else
      match nextAlias baseRows relations assignment (aliases.filter fun other => other ∉ assignment.keys) with
      | none => found
      | some name =>
        (baseRow baseRows name).foldl (fun found row =>
          if Passes relations assignment name row then
            visit baseRows relations aliases fuel (assignment.set name row) found
          else found) found

/-- `_cyclic_live_rows`. -/
def cyclicLiveRows (baseRows : Dict α (List ρ)) (relations : List (PairRelation α ρ)) (aliases : List α) :
    α → Finset ρ :=
  visit baseRows relations aliases (aliases.length + 1) .empty fun _ => ∅

/-- The relations of a component. -/
def inside (relations : List (PairRelation α ρ)) (component : List α) : List (PairRelation α ρ) :=
  relations.filter fun r => r.left ∈ component ∧ r.right ∈ component

/-- The rows of a component that take part in an assignment. -/
def liveRows (baseRows : Dict α (List ρ)) (relations : List (PairRelation α ρ)) (component : List α) :
    α → Finset ρ :=
  let relations := inside relations component
  if relations.length ≤ component.length - 1 then forestLiveRows baseRows relations component
  else cyclicLiveRows baseRows relations component

/-- The components of the aliases under a set of relations. -/
def aliasComponents (baseRows : Dict α (List ρ)) (relations : List (PairRelation α ρ)) : List (List α) :=
  components (neighbors relations) baseRows.keys.length baseRows.keys

/-- `exact_survivors`. -/
def exactSurvivors (baseRows : Dict α (List ρ)) (relations : List (PairRelation α ρ)) : Dict α (List ρ) :=
  let combined := combineParallelRelations relations
  (aliasComponents baseRows combined).foldl (fun output component =>
    component.foldl (fun output name =>
      output.set name ((liveRows baseRows combined component name).sort (· ≤ ·))) output) .empty

/-! ## Parallel relations -/

namespace PairRelation

/-- An assignment meets the relation. -/
def Holds (r : PairRelation α ρ) (f : α → ρ) : Prop := (f r.left, f r.right) ∈ r.pairs

/-- The two aliases, in no order. -/
def edge (r : PairRelation α ρ) : Sym2 α := s(r.left, r.right)

variable {r : PairRelation α ρ}

omit [LinearOrder ρ] in
lemma key_le : r.key.1 ≤ r.key.2 := by
  unfold key
  split_ifs with hle
  · exact hle
  · exact (not_le.1 hle).le

omit [LinearOrder ρ] in
lemma edge_key : s(r.key.1, r.key.2) = r.edge := by
  unfold key edge
  split_ifs
  · rfl
  · exact Sym2.eq_swap

/-- Turning the pairs to the key's order keeps what they say of an assignment. -/
lemma holds_oriented {f : α → ρ} : (f r.key.1, f r.key.2) ∈ r.oriented ↔ r.Holds f := by
  by_cases hle : r.left ≤ r.right
  · simp [oriented, key, Holds, hle]
  · have hne : r.left ≠ r.right := fun heq => hle heq.le
    simp [oriented, key, Holds, hle, hne]

end PairRelation

open PairRelation

section Combine
variable {relations : List (PairRelation α ρ)} {c : PairRelation α ρ} {f : α → ρ}

lemma orientedPairs_snoc (relations : List (PairRelation α ρ)) (r : PairRelation α ρ) :
    orientedPairs (relations ++ [r]) = (orientedPairs relations).set r.key
      (match (orientedPairs relations).get? r.key with
        | some pairs => pairs ∩ r.oriented
        | none => r.oriented) := by
  simp [orientedPairs, List.foldl_append]

/-- Two aliases have pairs if there is a relation between them, and then those every such relation has. -/
lemma get?_orientedPairs (relations : List (PairRelation α ρ)) (k : α × α) :
    match (orientedPairs relations).get? k with
    | some pairs => (∃ r ∈ relations, r.key = k) ∧ ∀ p, p ∈ pairs ↔ ∀ r ∈ relations, r.key = k → p ∈ r.oriented
    | none => ∀ r ∈ relations, r.key ≠ k := by
  induction relations using List.reverseRecOn with
  | nil => exact fun _ hr => absurd hr List.not_mem_nil
  | append_singleton relations r ih =>
    rw [orientedPairs_snoc, Dict.get?_set]
    split_ifs with hk
    · subst hk
      refine ⟨⟨r, by simp, rfl⟩, fun p => ?_⟩
      cases hold : (orientedPairs relations).get? r.key with
      | none =>
        rw [hold] at ih
        constructor
        · intro hp r' hr' hkey
          rcases List.mem_append.1 hr' with hr' | hr'
          · exact absurd hkey (ih r' hr')
          · rwa [List.mem_singleton.1 hr']
        · exact fun hall => hall r (by simp) rfl
      | some pairs =>
        rw [hold] at ih
        rw [Finset.mem_inter, ih.2 p]
        simp only [List.mem_append, List.mem_singleton, or_imp, forall_and, forall_eq, forall_const]
    · cases hold : (orientedPairs relations).get? k with
      | none =>
        rw [hold] at ih
        intro r' hr'
        rcases List.mem_append.1 hr' with hr' | hr'
        · exact ih r' hr'
        · rwa [List.mem_singleton.1 hr']
      | some pairs =>
        rw [hold] at ih
        obtain ⟨⟨r', hr', hkey⟩, hpairs⟩ := ih
        refine ⟨⟨r', List.mem_append_left _ hr', hkey⟩, fun p => ?_⟩
        rw [hpairs p]
        simp only [List.mem_append, List.mem_singleton, or_imp, forall_and, forall_eq]
        exact ⟨fun hall => ⟨hall, fun heq => absurd heq hk⟩, And.left⟩

lemma mem_combine : c ∈ combineParallelRelations relations ↔
    (orientedPairs relations).get? (c.left, c.right) = some c.pairs := by
  rw [combineParallelRelations, List.mem_map, ← Dict.mem_entries_iff]
  constructor
  · rintro ⟨e, he, rfl⟩
    exact (List.mem_insertionSort _).1 he
  · intro hc
    exact ⟨((c.left, c.right), c.pairs), (List.mem_insertionSort _).2 hc, rfl⟩

lemma exists_key (hc : c ∈ combineParallelRelations relations) :
    ∃ r ∈ relations, r.key = (c.left, c.right) := by
  have hspec := get?_orientedPairs relations (c.left, c.right)
  rw [mem_combine.1 hc] at hspec
  exact hspec.1

/-- A combined relation holds if all the relations it combines do. -/
lemma holds_combine (hc : c ∈ combineParallelRelations relations) :
    c.Holds f ↔ ∀ r ∈ relations, r.key = (c.left, c.right) → r.Holds f := by
  have hspec := get?_orientedPairs relations (c.left, c.right)
  rw [mem_combine.1 hc] at hspec
  refine (hspec.2 _).trans (forall₂_congr fun r _ => ?_)
  constructor
  · intro h hkey
    rw [← holds_oriented, hkey]
    exact h hkey
  · intro h hkey
    have := holds_oriented.2 (h hkey)
    rwa [hkey] at this

lemma exists_combine {r : PairRelation α ρ} (hr : r ∈ relations) :
    ∃ c ∈ combineParallelRelations relations, r.key = (c.left, c.right) := by
  have hspec := get?_orientedPairs relations r.key
  cases hget : (orientedPairs relations).get? r.key with
  | none =>
    rw [hget] at hspec
    exact absurd rfl (hspec r hr)
  | some pairs => exact ⟨⟨r.key.1, r.key.2, pairs⟩, mem_combine.2 hget, rfl⟩

/-- The combined relations are between the aliases that the relations are between. -/
lemma exists_edge_combine {e : Sym2 α} :
    (∃ c ∈ combineParallelRelations relations, c.edge = e) ↔ ∃ r ∈ relations, r.edge = e := by
  constructor
  · rintro ⟨c, hc, rfl⟩
    obtain ⟨r, hr, hkey⟩ := exists_key hc
    exact ⟨r, hr, by rw [← edge_key, hkey, edge]⟩
  · rintro ⟨r, hr, rfl⟩
    obtain ⟨c, hc, hkey⟩ := exists_combine hr
    exact ⟨c, hc, by rw [← edge_key (r := r), hkey, edge]⟩

/-- No two combined relations are between the same aliases. -/
lemma nodup_edge_combine : ((combineParallelRelations relations).map edge).Nodup := by
  have hnodup : (combineParallelRelations relations).Nodup := by
    refine List.Nodup.of_map (fun c => (c.left, c.right)) ?_
    rw [combineParallelRelations, List.map_map]
    exact ((List.perm_insertionSort _ _).map Prod.fst).nodup_iff.2 (orientedPairs relations).nodup
  refine List.Nodup.map_on (fun c hc c' hc' hedge => ?_) hnodup
  obtain ⟨r, -, hkey⟩ := exists_key hc
  obtain ⟨r', -, hkey'⟩ := exists_key hc'
  have hle : c.left ≤ c.right := by simpa [hkey] using key_le (r := r)
  have hle' : c'.left ≤ c'.right := by simpa [hkey'] using key_le (r := r')
  have hends : c.left = c'.left ∧ c.right = c'.right := by
    rcases Sym2.eq_iff.1 hedge with hends | ⟨hfrom, hto⟩
    · exact hends
    · rw [hfrom, hto] at hle
      have heq := le_antisymm hle hle'
      exact ⟨hfrom.trans heq, hto.trans heq.symm⟩
  have hpairs := mem_combine.1 hc
  rw [hends.1, hends.2, mem_combine.1 hc'] at hpairs
  obtain ⟨left, right, pairs⟩ := c
  obtain ⟨left', right', pairs'⟩ := c'
  obtain ⟨rfl, rfl⟩ := hends
  obtain rfl : pairs' = pairs := Option.some.inj hpairs
  rfl

end Combine

/-! ## What the components are -/

section Components
variable {relations : List (PairRelation α ρ)} {near : α → Finset α}

omit [LinearOrder ρ] in
lemma mem_neighbors {a b : α} : b ∈ neighbors relations a ↔ ∃ r ∈ relations, r.edge = s(a, b) := by
  simp only [neighbors, List.mem_toFinset, List.mem_append, List.mem_map, List.mem_filter, decide_eq_true_eq, edge,
    Sym2.eq_iff]
  constructor
  · rintro (⟨r, ⟨hr, rfl⟩, rfl⟩ | ⟨r, ⟨hr, rfl⟩, rfl⟩)
    · exact ⟨r, hr, .inl ⟨rfl, rfl⟩⟩
    · exact ⟨r, hr, .inr ⟨rfl, rfl⟩⟩
  · rintro ⟨r, hr, ⟨rfl, rfl⟩ | ⟨rfl, rfl⟩⟩
    · exact .inl ⟨r, ⟨hr, rfl⟩, rfl⟩
    · exact .inr ⟨r, ⟨hr, rfl⟩, rfl⟩

omit [LinearOrder ρ] in
lemma neighbors_symm {a b : α} (h : b ∈ neighbors relations a) : a ∈ neighbors relations b := by
  rw [mem_neighbors] at h ⊢
  rwa [Sym2.eq_swap]

/-- Exploring from the stack grows the component by all that can be reached from it. -/
lemma explore_spec {fuel : ℕ} {unseen component stack : List α} {es : List (α × α)}
    (hgrown : Grown (fun a b => b ∈ near a) component es) (hnodup : unseen.Nodup)
    (hdisjoint : ∀ a ∈ component, a ∉ unseen) (hstack : ∀ a ∈ stack, a ∈ component)
    (hclosed : ∀ a ∈ component, a ∉ stack → ∀ b ∈ unseen, b ∉ near a)
    (hfuel : unseen.length + stack.length ≤ fuel) :
    let result := explore near fuel unseen component stack
    (∃ es', Grown (fun a b => b ∈ near a) result.1 es') ∧ (result.1 ++ result.2).Perm (component ++ unseen) ∧
      ∀ a ∈ result.1, ∀ b ∈ result.2, b ∉ near a := by
  induction fuel generalizing unseen component stack es with
  | zero =>
    have hempty : stack = [] := List.length_eq_zero_iff.1 (by omega)
    exact ⟨⟨es, hgrown⟩, .refl _, fun a ha => hclosed a ha (by simp [hempty])⟩
  | succ fuel ih =>
    cases stack with
    | nil => exact ⟨⟨es, hgrown⟩, .refl _, fun a ha => hclosed a ha List.not_mem_nil⟩
    | cons name stack =>
      set found := unseen.filter fun other => other ∈ near name with hfound
      set rest := unseen.filter fun other => other ∉ near name with hrest
      have hmem : ∀ v ∈ found, v ∈ unseen ∧ v ∈ near name := fun v hv => by simpa [hfound] using hv
      have hmem' : ∀ v ∈ rest, v ∈ unseen ∧ v ∉ near name := fun v hv => by simpa [hrest] using hv
      have hperm : (found ++ rest).Perm unseen := by
        have := List.filter_append_perm (fun other => decide (other ∈ near name)) unseen
        simpa [hfound, hrest] using this
      obtain ⟨es', hgrown'⟩ := hgrown.many (hstack name List.mem_cons_self) (hnodup.filter _)
        (fun v hv hmem'' => hdisjoint v hmem'' (hmem v hv).1) fun v hv => (hmem v hv).2
      have hlength := hperm.length_eq
      rw [List.length_append] at hlength
      have hdisjoint' : ∀ a ∈ found.reverse ++ component, a ∉ rest := by
        intro a ha hmem''
        rcases List.mem_append.1 ha with ha | ha
        · exact (hmem' a hmem'').2 (hmem a (List.mem_reverse.1 ha)).2
        · exact hdisjoint a ha (hmem' a hmem'').1
      have hstack' : ∀ a ∈ found.reverse ++ stack, a ∈ found.reverse ++ component := by
        intro a ha
        rcases List.mem_append.1 ha with ha | ha
        · exact List.mem_append_left _ ha
        · exact List.mem_append_right _ (hstack a (List.mem_cons_of_mem _ ha))
      -- the neighbors of the alias taken off the stack are no longer unseen
      have hclosed' : ∀ a ∈ found.reverse ++ component, a ∉ found.reverse ++ stack → ∀ b ∈ rest, b ∉ near a := by
        intro a ha hnot b hb
        obtain ⟨hb, hnear⟩ := hmem' b hb
        rcases List.mem_append.1 ha with ha | ha
        · exact absurd (List.mem_append_left _ ha) hnot
        · by_cases heq : a = name
          · rwa [heq]
          · refine hclosed a ha (fun hmem'' => ?_) b hb
            rcases List.mem_cons.1 hmem'' with rfl | hmem''
            · exact heq rfl
            · exact hnot (List.mem_append_right _ hmem'')
      have hfuel' : rest.length + (found.reverse ++ stack).length ≤ fuel := by
        simp only [List.length_append, List.length_reverse, List.length_cons] at hfuel ⊢
        omega
      obtain ⟨hexists, hperm', hreached⟩ := ih hgrown' (hnodup.filter _) hdisjoint' hstack' hclosed' hfuel'
      refine ⟨hexists, hperm'.trans ?_, hreached⟩
      have hback : (found.reverse ++ component).Perm (component ++ found) :=
        List.perm_append_comm.trans ((List.reverse_perm found).append_left component)
      have hall := hperm.append_left component
      rw [← List.append_assoc] at hall
      exact (hback.append_right rest).trans hall

/-- The components share out the aliases, and each is grown from one alias along the relations and has all the
aliases they reach from it. -/
lemma components_spec (hsymm : ∀ a b, b ∈ near a → a ∈ near b) {fuel : ℕ} {unseen : List α} (hnodup : unseen.Nodup)
    (hfuel : unseen.length ≤ fuel) :
    (components near fuel unseen).flatten.Perm unseen ∧ ∀ c ∈ components near fuel unseen,
      (∃ es, Grown (fun a b => b ∈ near a) c es) ∧ ∀ a ∈ c, ∀ b ∈ unseen, b ∈ near a → b ∈ c := by
  induction fuel generalizing unseen with
  | zero =>
    obtain rfl : unseen = [] := List.length_eq_zero_iff.1 (by omega)
    exact ⟨.refl _, fun _ hc => absurd hc List.not_mem_nil⟩
  | succ fuel ih =>
    unfold components
    cases hmin : unseen.min? with
    | none =>
      obtain rfl : unseen = [] := List.min?_eq_none_iff.1 hmin
      exact ⟨.refl _, fun _ hc => absurd hc List.not_mem_nil⟩
    | some root =>
      have hroot : root ∈ unseen := List.min?_mem hmin
      have hperm : (root :: unseen.erase root).Perm unseen := (List.perm_cons_erase hroot).symm
      have hcons := List.nodup_cons.1 (hperm.nodup_iff.2 hnodup)
      have hlength := hperm.length_eq
      rw [List.length_cons] at hlength
      have hspec := @explore_spec α _ near unseen.length (unseen.erase root) [root] [root] [] (.root root) hcons.2
        (fun a ha => by rw [List.mem_singleton.1 ha]; exact hcons.1) (fun a ha => ha)
        (fun a ha hnot => absurd ha hnot) (by rw [List.length_singleton]; omega)
      dsimp only at hspec ⊢
      generalize explore near unseen.length (unseen.erase root) [root] [root] = explored at hspec ⊢
      obtain ⟨component, rest⟩ := explored
      obtain ⟨⟨es, hgrown⟩, hshare, hclosed⟩ := hspec
      dsimp only at hgrown hshare hclosed ⊢
      have hshare' : (component ++ rest).Perm unseen := hshare.trans hperm
      have hrest : ∀ b ∈ rest, b ∈ unseen := fun b hb => hshare'.mem_iff.1 (List.mem_append_right _ hb)
      have hless : rest.length ≤ fuel := by
        have hsum := hshare'.length_eq
        have := hgrown.length
        rw [List.length_append] at hsum
        omega
      obtain ⟨hflatten, hall⟩ := ih (hshare'.nodup_iff.2 hnodup).of_append_right hless
      refine ⟨(hflatten.append_left component).trans hshare', List.forall_mem_cons.2 ⟨⟨⟨es, hgrown⟩, ?_⟩, ?_⟩⟩
      · intro a ha b hb hnear
        rcases List.mem_append.1 (hshare'.mem_iff.2 hb) with hb | hb
        · exact hb
        · exact absurd hnear (hclosed a ha b hb)
      · intro c hc
        obtain ⟨hgrown', hclosed'⟩ := hall c hc
        refine ⟨hgrown', fun a ha b hb hnear => ?_⟩
        have harest : a ∈ rest := hflatten.mem_iff.1 (List.mem_flatten.2 ⟨c, hc, ha⟩)
        rcases List.mem_append.1 (hshare'.mem_iff.2 hb) with hb | hb
        · exact absurd (hsymm a b hnear) (hclosed b hb a harest)
        · exact hclosed' a ha b hb hnear

end Components

/-! ## What the semijoins leave -/

section Semijoins
variable {relations : List (PairRelation α ρ)} {rows : α → Finset ρ} {s : (α → Finset ρ) × Bool} {r : PairRelation α ρ}

/-- Every row of the relation's aliases passes with a row of the other. -/
def Supported (rows : α → Finset ρ) (r : PairRelation α ρ) : Prop :=
  (∀ x ∈ rows r.left, ∃ y ∈ rows r.right, (x, y) ∈ r.pairs) ∧ ∀ y ∈ rows r.right, ∃ x ∈ rows r.left, (x, y) ∈ r.pairs

/-- The rows of the left alias that pass with a row of the right one. -/
def keptLeft (rows : α → Finset ρ) (r : PairRelation α ρ) : Finset ρ :=
  (rows r.left).filter fun row => (r.leftToRight row ∩ rows r.right).Nonempty

/-- The rows of the right alias that pass with a row of the left one. -/
def keptRight (rows : α → Finset ρ) (r : PairRelation α ρ) : Finset ρ :=
  (rows r.right).filter fun row => (r.rightToLeft row ∩ rows r.left).Nonempty

omit [LinearOrder α] in
lemma mem_keptLeft {x : ρ} : x ∈ keptLeft rows r ↔ x ∈ rows r.left ∧ ∃ y ∈ rows r.right, (x, y) ∈ r.pairs := by
  rw [keptLeft, Finset.mem_filter]
  refine and_congr_right fun _ => ?_
  simp only [leftToRight, Finset.Nonempty, Finset.mem_inter, Finset.mem_image, Finset.mem_filter]
  constructor
  · rintro ⟨y, ⟨⟨x', y'⟩, ⟨hp, rfl⟩, rfl⟩, hy⟩
    exact ⟨y', hy, hp⟩
  · rintro ⟨y, hy, hp⟩
    exact ⟨y, ⟨(x, y), ⟨hp, rfl⟩, rfl⟩, hy⟩

omit [LinearOrder α] in
lemma mem_keptRight {y : ρ} : y ∈ keptRight rows r ↔ y ∈ rows r.right ∧ ∃ x ∈ rows r.left, (x, y) ∈ r.pairs := by
  rw [keptRight, Finset.mem_filter]
  refine and_congr_right fun _ => ?_
  simp only [rightToLeft, Finset.Nonempty, Finset.mem_inter, Finset.mem_image, Finset.mem_filter]
  constructor
  · rintro ⟨x, ⟨⟨x', y'⟩, ⟨hp, rfl⟩, rfl⟩, hx⟩
    exact ⟨x', hx, hp⟩
  · rintro ⟨x, hx, hp⟩
    exact ⟨x, ⟨(x, y), ⟨hp, rfl⟩, rfl⟩, hx⟩

/-- What a semijoin does to the rows, and when it notes a change. -/
lemma semijoin_eq (hne : r.left ≠ r.right) :
    (semijoin s r).1 = Function.update (Function.update s.1 r.left (keptLeft s.1 r)) r.right (keptRight s.1 r) ∧
      ((semijoin s r).2 = true ↔ s.2 = true ∨ keptLeft s.1 r ≠ s.1 r.left ∨ keptRight s.1 r ≠ s.1 r.right) := by
  change let left := keptLeft s.1 r
    let right := keptRight s.1 r
    let s' := if left ≠ s.1 r.left then (Function.update s.1 r.left left, true) else s
    (if right ≠ s'.1 r.right then (Function.update s'.1 r.right right, true) else s').1 = _ ∧
      ((if right ≠ s'.1 r.right then (Function.update s'.1 r.right right, true) else s').2 = true ↔ _)
  by_cases hleft : keptLeft s.1 r = s.1 r.left
  · by_cases hright : keptRight s.1 r = s.1 r.right
    · simp [hleft, hright]
    · simp [hleft, hright]
  · by_cases hright : keptRight s.1 r = s.1 r.right
    · have hsame : Function.update (Function.update s.1 r.left (keptLeft s.1 r)) r.right (s.1 r.right) =
          Function.update s.1 r.left (keptLeft s.1 r) := by
        rw [Function.update_comm hne, Function.update_eq_self]
      simp [hleft, hright, hne.symm, hsame]
    · simp [hleft, hright, hne.symm]

/-- A semijoin keeps the rows of an assignment that meets the relation, and only drops rows of its two aliases. -/
lemma semijoin_subset (hne : r.left ≠ r.right) (a : α) : (semijoin s r).1 a ⊆ s.1 a := by
  rw [(semijoin_eq hne).1]
  rcases eq_or_ne a r.right with rfl | hright
  · rw [Function.update_self]
    exact Finset.filter_subset _ _
  · rw [Function.update_of_ne hright]
    rcases eq_or_ne a r.left with rfl | hleft
    · rw [Function.update_self]
      exact Finset.filter_subset _ _
    · rw [Function.update_of_ne hleft]

lemma semijoin_of_ne (hne : r.left ≠ r.right) {a : α} (hleft : a ≠ r.left) (hright : a ≠ r.right) :
    (semijoin s r).1 a = s.1 a := by
  rw [(semijoin_eq hne).1, Function.update_of_ne hright, Function.update_of_ne hleft]

lemma semijoin_keeps (hne : r.left ≠ r.right) {f : α → ρ} (hf : r.Holds f) (hleft : f r.left ∈ s.1 r.left)
    (hright : f r.right ∈ s.1 r.right) {a : α} (ha : f a ∈ s.1 a) : f a ∈ (semijoin s r).1 a := by
  rw [(semijoin_eq hne).1]
  rcases eq_or_ne a r.right with rfl | hneright
  · rw [Function.update_self, mem_keptRight]
    exact ⟨ha, f r.left, hleft, hf⟩
  · rw [Function.update_of_ne hneright]
    rcases eq_or_ne a r.left with rfl | hneleft
    · rw [Function.update_self, mem_keptLeft]
      exact ⟨ha, f r.right, hright, hf⟩
    · rwa [Function.update_of_ne hneleft]

/-- A semijoin notes no change exactly if it drops nothing, and then every row is supported. -/
lemma semijoin_unchanged (hne : r.left ≠ r.right) (h : (semijoin s r).2 = false) :
    (semijoin s r).1 = s.1 ∧ s.2 = false ∧ Supported s.1 r := by
  obtain ⟨hrows, hflag⟩ := semijoin_eq hne (s := s)
  rw [h] at hflag
  simp only [Bool.false_eq_true, false_iff, not_or, not_not, Bool.not_eq_true] at hflag
  obtain ⟨hflag, hleft, hright⟩ := hflag
  refine ⟨?_, hflag, fun x hx => ?_, fun y hy => ?_⟩
  · rw [hrows, hleft, hright, Function.update_eq_self, Function.update_eq_self]
  · rw [← hleft, mem_keptLeft] at hx
    exact hx.2
  · rw [← hright, mem_keptRight] at hy
    exact hy.2

lemma semijoin_same (hne : r.left ≠ r.right) (h : (semijoin s r).1 = s.1) : (semijoin s r).2 = s.2 := by
  obtain ⟨hrows, hflag⟩ := semijoin_eq hne (s := s)
  rw [h] at hrows
  have hright : keptRight s.1 r = s.1 r.right := by
    have := congrFun hrows r.right
    rwa [Function.update_self, eq_comm] at this
  have hleft : keptLeft s.1 r = s.1 r.left := by
    have := congrFun hrows r.left
    rwa [Function.update_of_ne hne, Function.update_self, eq_comm] at this
  rw [Bool.eq_iff_iff, hflag, hleft, hright]
  simp

/-! ### Passes -/

/-- The relations are between two aliases of the component. -/
def Within (relations : List (PairRelation α ρ)) (aliases : List α) : Prop :=
  ∀ r ∈ relations, r.left ≠ r.right ∧ r.left ∈ aliases ∧ r.right ∈ aliases

variable {aliases : List α}

lemma foldl_subset (h : Within relations aliases) (a : α) : (relations.foldl semijoin s).1 a ⊆ s.1 a := by
  induction relations generalizing s with
  | nil => exact Finset.Subset.refl _
  | cons r relations ih =>
    obtain ⟨hr, h⟩ := List.forall_mem_cons.1 h
    exact (ih h).trans (semijoin_subset hr.1 a)

lemma foldl_outside (h : Within relations aliases) {a : α} (ha : a ∉ aliases) :
    (relations.foldl semijoin s).1 a = s.1 a := by
  induction relations generalizing s with
  | nil => rfl
  | cons r relations ih =>
    obtain ⟨⟨hne, hleft, hright⟩, h⟩ := List.forall_mem_cons.1 h
    rw [List.foldl_cons, ih h]
    exact semijoin_of_ne hne (fun heq => ha (heq ▸ hleft)) fun heq => ha (heq ▸ hright)

lemma foldl_keeps (h : Within relations aliases) {f : α → ρ} (hf : ∀ r ∈ relations, r.Holds f)
    (hrows : ∀ a ∈ aliases, f a ∈ s.1 a) : ∀ a ∈ aliases, f a ∈ (relations.foldl semijoin s).1 a := by
  induction relations generalizing s with
  | nil => exact hrows
  | cons r relations ih =>
    obtain ⟨⟨hne, hleft, hright⟩, h⟩ := List.forall_mem_cons.1 h
    obtain ⟨hr, hf⟩ := List.forall_mem_cons.1 hf
    exact ih h hf fun a ha => semijoin_keeps hne hr (hrows _ hleft) (hrows _ hright) (hrows a ha)

/-- A pass that notes no change dropped nothing, and every row is supported. -/
lemma foldl_unchanged (h : Within relations aliases) (hflag : (relations.foldl semijoin s).2 = false) :
    (relations.foldl semijoin s).1 = s.1 ∧ s.2 = false ∧ ∀ r ∈ relations, Supported s.1 r := by
  induction relations generalizing s with
  | nil => exact ⟨rfl, hflag, fun _ hr => absurd hr List.not_mem_nil⟩
  | cons r relations ih =>
    obtain ⟨hr, h⟩ := List.forall_mem_cons.1 h
    obtain ⟨hrows, hone, hall⟩ := ih h hflag
    obtain ⟨hsame, hbefore, hsupported⟩ := semijoin_unchanged hr.1 hone
    rw [hsame] at hall
    exact ⟨hrows.trans hsame, hbefore, List.forall_mem_cons.2 ⟨hsupported, hall⟩⟩

/-- A pass that drops nothing notes no change. -/
lemma foldl_same (h : Within relations aliases) (hsame : (relations.foldl semijoin s).1 = s.1) :
    (relations.foldl semijoin s).2 = s.2 := by
  induction relations generalizing s with
  | nil => rfl
  | cons r relations ih =>
    obtain ⟨hr, h⟩ := List.forall_mem_cons.1 h
    have hone : (semijoin s r).1 = s.1 := by
      funext a
      refine Finset.Subset.antisymm (semijoin_subset hr.1 a) ?_
      rw [← congrFun hsame a]
      exact foldl_subset h a
    exact (ih h (hsame.trans hone.symm)).trans (semijoin_same hr.1 hone)

/-- A pass that notes a change drops a row of an alias of the component. -/
lemma sweep_lt (h : Within relations aliases) (hflag : (sweep relations rows).2 = true) :
    (aliases.map fun a => ((sweep relations rows).1 a).card).sum < (aliases.map fun a => (rows a).card).sum := by
  have hchanged : (sweep relations rows).1 ≠ rows := fun hsame => by
    have := foldl_same h (s := (rows, false)) hsame
    exact absurd (this.symm.trans hflag) Bool.false_ne_true
  obtain ⟨a, ha⟩ := Function.ne_iff.1 hchanged
  have hmem : a ∈ aliases := by_contra fun hnot => ha (foldl_outside h hnot)
  refine List.sum_lt_sum _ _ (fun b _ => Finset.card_le_card (foldl_subset h b)) ⟨a, hmem, ?_⟩
  exact Finset.card_lt_card ((foldl_subset h a).ssubset_of_ne ha)

lemma sweeps_succ (relations : List (PairRelation α ρ)) (fuel : ℕ) (rows : α → Finset ρ) :
    sweeps relations (fuel + 1) rows = if (sweep relations rows).2 then
      sweeps relations fuel (sweep relations rows).1 else (sweep relations rows).1 := rfl

/-- The passes end: after as many as there are rows, one changes nothing. -/
lemma sweeps_end (h : Within relations aliases) {fuel : ℕ} (hfuel : (aliases.map fun a => (rows a).card).sum < fuel) :
    (sweep relations (sweeps relations fuel rows)).2 = false := by
  induction fuel generalizing rows with
  | zero => omega
  | succ fuel ih =>
    rw [sweeps_succ]
    split_ifs with hflag
    · have hlt := sweep_lt h hflag
      exact ih (by omega)
    · have hflag : (sweep relations rows).2 = false := Bool.eq_false_iff.2 hflag
      have hsame : (sweep relations rows).1 = rows := (foldl_unchanged h hflag).1
      rw [hsame]
      exact hflag

/-- The passes keep the rows of every assignment, and add none. -/
lemma sweeps_between (h : Within relations aliases) {fuel : ℕ} {f : α → ρ} (hf : ∀ r ∈ relations, r.Holds f)
    (hrows : ∀ a ∈ aliases, f a ∈ rows a) : ∀ a ∈ aliases, f a ∈ sweeps relations fuel rows a := by
  induction fuel generalizing rows with
  | zero => exact hrows
  | succ fuel ih =>
    rw [sweeps_succ]
    split_ifs
    · exact ih (foldl_keeps h hf hrows)
    · exact foldl_keeps h hf hrows

lemma sweeps_subset (h : Within relations aliases) {fuel : ℕ} (a : α) : sweeps relations fuel rows a ⊆ rows a := by
  induction fuel generalizing rows with
  | zero => exact Finset.Subset.refl _
  | succ fuel ih =>
    rw [sweeps_succ]
    split_ifs
    · exact ih.trans (foldl_subset h a)
    · exact foldl_subset h a

variable {baseRows : Dict α (List ρ)} {es : List (α × α)} {adj : α → α → Prop}

/-- An assignment of base rows to the aliases that meets the relations. -/
def Solves (baseRows : Dict α (List ρ)) (relations : List (PairRelation α ρ)) (aliases : List α) (f : α → ρ) : Prop :=
  (∀ b ∈ aliases, f b ∈ baseRow baseRows b) ∧ ∀ r ∈ relations, r.Holds f

/-- Rows of two aliases meet the relations between them. -/
def Between (relations : List (PairRelation α ρ)) (p v : α) (x y : ρ) : Prop :=
  ∀ r ∈ relations, (r.left = p → r.right = v → (x, y) ∈ r.pairs) ∧ (r.left = v → r.right = p → (y, x) ∈ r.pairs)

omit [LinearOrder α] [LinearOrder ρ] in
/-- Between two aliases there is one relation to meet. -/
lemma between_of_mem (hedges : (relations.map edge).Nodup) (hr : r ∈ relations) (hne : r.left ≠ r.right) {x y : ρ}
    (hpair : (x, y) ∈ r.pairs) : Between relations r.left r.right x y ∧ Between relations r.right r.left y x := by
  have hunique : ∀ r' ∈ relations, r'.edge = r.edge → r' = r := fun r' hr' hedge =>
    List.inj_on_of_nodup_map hedges hr' hr hedge
  refine ⟨fun r' hr' => ⟨fun hleft hright => ?_, fun hleft hright => ?_⟩,
    fun r' hr' => ⟨fun hleft hright => ?_, fun hleft hright => ?_⟩⟩
  · obtain rfl := hunique r' hr' (by rw [edge, hleft, hright, edge])
    exact hpair
  · obtain rfl := hunique r' hr' (by rw [edge, hleft, hright, edge, Sym2.eq_swap])
    exact absurd hleft hne
  · obtain rfl := hunique r' hr' (by rw [edge, hleft, hright, edge, Sym2.eq_swap])
    exact absurd hleft hne
  · obtain rfl := hunique r' hr' (by rw [edge, hleft, hright, edge])
    exact hpair

/-- Over a tree the semijoins leave exactly the rows of the assignments. -/
lemma mem_forestLiveRows (h : Within relations aliases) (hedges : (relations.map edge).Nodup)
    (hgrown : Grown adj aliases es) (hes : ∀ e ∈ es, ∃ r ∈ relations, r.edge = s(e.1, e.2))
    (hle : relations.length + 1 ≤ aliases.length) {a : α} (ha : a ∈ aliases) {x : ρ} :
    x ∈ forestLiveRows baseRows relations aliases a ↔ ∃ f, Solves baseRows relations aliases f ∧ f a = x := by
  have hend := sweeps_end h (Nat.lt_succ_self (aliases.map fun a => ((baseRow baseRows a).toFinset).card).sum)
  have hsupported := (foldl_unchanged h hend).2.2
  constructor
  · intro hx
    have hpartner : ∀ e ∈ es, (∀ x ∈ forestLiveRows baseRows relations aliases e.1,
        ∃ y ∈ forestLiveRows baseRows relations aliases e.2, Between relations e.1 e.2 x y) ∧
        ∀ y ∈ forestLiveRows baseRows relations aliases e.2,
          ∃ x ∈ forestLiveRows baseRows relations aliases e.1, Between relations e.1 e.2 x y := by
      intro e he
      obtain ⟨r, hr, hedge⟩ := hes e he
      obtain ⟨hleft, hright⟩ := hsupported r hr
      have hne := (h r hr).1
      rcases Sym2.eq_iff.1 hedge with ⟨heleft, heright⟩ | ⟨heleft, heright⟩
      · rw [← heleft, ← heright]
        refine ⟨fun x hx => ?_, fun y hy => ?_⟩
        · obtain ⟨y, hy, hpair⟩ := hleft x hx
          exact ⟨y, hy, (between_of_mem hedges hr hne hpair).1⟩
        · obtain ⟨x, hx, hpair⟩ := hright y hy
          exact ⟨x, hx, (between_of_mem hedges hr hne hpair).1⟩
      · rw [← heleft, ← heright]
        refine ⟨fun y hy => ?_, fun x hx => ?_⟩
        · obtain ⟨x, hx, hpair⟩ := hright y hy
          exact ⟨x, hx, (between_of_mem hedges hr hne hpair).2⟩
        · obtain ⟨y, hy, hpair⟩ := hleft x hx
          exact ⟨y, hy, (between_of_mem hedges hr hne hpair).2⟩
    obtain ⟨f, hfa, hrows, hbetween⟩ := @Grown.exists_assignment α ρ adj aliases es hgrown
      (fun v => (forestLiveRows baseRows relations aliases v : Set ρ)) (Between relations)
      (fun e he => (hpartner e he).1) (fun e he => (hpartner e he).2) a ha x hx
    refine ⟨f, ⟨fun b hb => List.mem_toFinset.1 (sweeps_subset h b (hrows b hb)), fun r hr => ?_⟩, hfa⟩
    have hlength : (relations.map edge).length + 1 ≤ aliases.length := by rwa [List.length_map]
    obtain ⟨e, he, hedge⟩ := hgrown.covers (fun e he => List.mem_map.2 (hes e he)) hlength r.edge
      (List.mem_map_of_mem hr)
    rcases Sym2.eq_iff.1 hedge with ⟨hleft, hright⟩ | ⟨hleft, hright⟩
    · have := (hbetween e he r hr).1 hleft.symm hright.symm
      rwa [hleft, hright] at this
    · have := (hbetween e he r hr).2 hright.symm hleft.symm
      rwa [hleft, hright] at this
  · rintro ⟨f, ⟨hbase, hf⟩, rfl⟩
    exact sweeps_between h hf (fun b hb => List.mem_toFinset.2 (hbase b hb)) a ha

end Semijoins

/-! ## What the backtracking finds -/

section Backtracking
variable {relations : List (PairRelation α ρ)} {aliases : List α} {baseRows : Dict α (List ρ)}
  {assignment : Dict α ρ} {found : α → Finset ρ} {r : PairRelation α ρ}

lemma pairSets_of_mem (hedges : (relations.map edge).Nodup) (hne : ∀ r ∈ relations, r.left ≠ r.right)
    (hr : r ∈ relations) : pairSets relations (r.left, r.right) = r.pairs ∧
      pairSets relations (r.right, r.left) = r.pairs.image Prod.swap := by
  induction relations using List.reverseRecOn with
  | nil => exact absurd hr List.not_mem_nil
  | append_singleton relations last ih =>
    rw [List.map_append, List.map_singleton] at hedges
    have hlast : last.left ≠ last.right := hne last (by simp)
    have hsnoc : pairSets (relations ++ [last]) = Function.update (Function.update (pairSets relations)
        (last.left, last.right) last.pairs) (last.right, last.left) (last.pairs.image Prod.swap) := by
      simp [pairSets, List.foldl_append]
    rw [hsnoc]
    rcases List.mem_append.1 hr with hr | hr
    · have hother : r.edge ≠ last.edge := fun heq =>
        List.disjoint_of_nodup_append hedges (List.mem_map_of_mem hr) (by rw [heq]; exact List.mem_singleton_self _)
      have hsame : (r.left, r.right) ≠ (last.left, last.right) := fun heq => hother (by
        rw [edge, edge, (Prod.mk.inj heq).1, (Prod.mk.inj heq).2])
      have hswap : (r.left, r.right) ≠ (last.right, last.left) := fun heq => hother (by
        rw [edge, edge, (Prod.mk.inj heq).1, (Prod.mk.inj heq).2, Sym2.eq_swap])
      have hsame' : (r.right, r.left) ≠ (last.left, last.right) := fun heq => hswap (by
        rw [(Prod.mk.inj heq).1, (Prod.mk.inj heq).2])
      have hswap' : (r.right, r.left) ≠ (last.right, last.left) := fun heq => hsame (by
        rw [(Prod.mk.inj heq).1, (Prod.mk.inj heq).2])
      rw [Function.update_of_ne hswap, Function.update_of_ne hsame, Function.update_of_ne hswap',
        Function.update_of_ne hsame']
      exact ih hedges.of_append_left (fun r hr => hne r (List.mem_append_left _ hr)) hr
    · obtain rfl := List.mem_singleton.1 hr
      have hturned : (r.left, r.right) ≠ (r.right, r.left) := fun heq => hlast (Prod.mk.inj heq).1
      rw [Function.update_of_ne hturned, Function.update_self, Function.update_self]
      exact ⟨rfl, rfl⟩

/-- A row passes if it meets every relation to an alias assigned before. -/
lemma passes_iff (hedges : (relations.map edge).Nodup) (hne : ∀ r ∈ relations, r.left ≠ r.right) {name : α} {row : ρ} :
    Passes relations assignment name row ↔ ∀ r ∈ relations,
      (r.left = name → ∀ value, assignment.get? r.right = some value → (row, value) ∈ r.pairs) ∧
      (r.right = name → ∀ value, assignment.get? r.left = some value → (value, row) ∈ r.pairs) := by
  constructor
  · intro h r hr
    obtain ⟨hpairs, hswapped⟩ := pairSets_of_mem hedges hne hr
    refine ⟨?_, ?_⟩
    · rintro rfl value hvalue
      have := h r.right (mem_neighbors.2 ⟨r, hr, rfl⟩) value hvalue
      rwa [hpairs] at this
    · rintro rfl value hvalue
      have := h r.left (mem_neighbors.2 ⟨r, hr, Sym2.eq_swap⟩) value hvalue
      rw [hswapped] at this
      simpa using this
  · intro h other hother value hvalue
    obtain ⟨r, hr, hedge⟩ := mem_neighbors.1 hother
    obtain ⟨hpairs, hswapped⟩ := pairSets_of_mem hedges hne hr
    rcases Sym2.eq_iff.1 hedge with ⟨rfl, rfl⟩ | ⟨rfl, rfl⟩
    · rw [hpairs]
      exact (h r hr).1 rfl value hvalue
    · rw [hswapped]
      have := (h r hr).2 rfl value hvalue
      simpa using this

/-- The rows assigned so far are base rows that meet the relations between their aliases. -/
structure Partial (baseRows : Dict α (List ρ)) (relations : List (PairRelation α ρ)) (aliases : List α)
    (assignment : Dict α ρ) : Prop where
  base : ∀ b v, assignment.get? b = some v → b ∈ aliases ∧ v ∈ baseRow baseRows b
  pairs : ∀ r ∈ relations, ∀ v w, assignment.get? r.left = some v → assignment.get? r.right = some w → (v, w) ∈ r.pairs

omit [LinearOrder ρ] in
lemma Partial.empty : Partial baseRows relations aliases Dict.empty :=
  ⟨fun _ _ h => (nomatch h), fun _ _ _ _ h => (nomatch h)⟩

omit [LinearOrder ρ] in
lemma Partial.subset (h : Partial baseRows relations aliases assignment) : assignment.keys ⊆ aliases := fun b hb => by
  obtain ⟨v, hv⟩ := Dict.mem_keys_iff.1 hb
  exact (h.base b v hv).1

omit [LinearOrder ρ] in
lemma Partial.length_le (h : Partial baseRows relations aliases assignment) :
    assignment.keys.length ≤ aliases.length :=
  (List.subperm_of_subset assignment.nodup h.subset).length_le

lemma Partial.set (h : Partial baseRows relations aliases assignment) (hedges : (relations.map edge).Nodup)
    (hne : ∀ r ∈ relations, r.left ≠ r.right) {name : α} {row : ρ} (hname : name ∈ aliases)
    (hrow : row ∈ baseRow baseRows name) (hpasses : Passes relations assignment name row) :
    Partial baseRows relations aliases (assignment.set name row) := by
  rw [passes_iff hedges hne] at hpasses
  constructor
  · intro b v hv
    rw [Dict.get?_set] at hv
    split_ifs at hv with hb
    · obtain rfl := Option.some.inj hv
      exact hb ▸ ⟨hname, hrow⟩
    · exact h.base b v hv
  · intro r hr v w hv hw
    rw [Dict.get?_set] at hv hw
    split_ifs at hv hw with hleft hright hright
    · exact absurd (hleft.symm.trans hright) (hne r hr)
    · obtain rfl := Option.some.inj hv
      exact (hpasses r hr).1 hleft.symm w hw
    · obtain rfl := Option.some.inj hw
      exact (hpasses r hr).2 hright.symm v hv
    · exact h.pairs r hr v w hv hw

/-- An assignment of all the aliases that keeps the rows assigned. -/
def Extends (assignment : Dict α ρ) (f : α → ρ) : Prop := ∀ b v, assignment.get? b = some v → f b = v

omit [LinearOrder ρ] in
lemma extends_set {name : α} {row : ρ} (hname : name ∉ assignment.keys) {f : α → ρ} :
    Extends (assignment.set name row) f ↔ f name = row ∧ Extends assignment f := by
  constructor
  · intro h
    refine ⟨h name row Dict.get?_set_self, fun b v hv => h b v ?_⟩
    have hb : name ≠ b := fun heq => hname (Dict.mem_keys_iff.2 ⟨v, heq ▸ hv⟩)
    rwa [Dict.get?_set_ne hb]
  · rintro ⟨hrow, h⟩ b v hv
    rw [Dict.get?_set] at hv
    split_ifs at hv with hb
    · rw [← hb, hrow]
      exact Option.some.inj hv
    · exact h b v hv

lemma mem_foldl_insert {entries : List (α × ρ)} {a : α} {x : ρ} :
    x ∈ entries.foldl (fun found e => Function.update found e.1 (insert e.2 (found e.1))) found a ↔
      x ∈ found a ∨ (a, x) ∈ entries := by
  induction entries generalizing found with
  | nil => simp
  | cons e entries ih =>
    obtain ⟨b, v⟩ := e
    rw [List.foldl_cons, ih, List.mem_cons]
    rcases eq_or_ne a b with rfl | hne
    · simp only [Function.update_self, Finset.mem_insert, Prod.mk.injEq, true_and]
      tauto
    · simp only [Function.update_of_ne hne, Prod.mk.injEq, hne, false_and, false_or]

omit [LinearOrder α] [LinearOrder ρ] in
lemma mem_foldl {step : (α → Finset ρ) → ρ → α → Finset ρ} {found : α → Finset ρ} {rows : List ρ} {a : α} {x : ρ}
    {P : ρ → Prop} (hstep : ∀ found, ∀ row ∈ rows, (x ∈ step found row a ↔ x ∈ found a ∨ P row)) :
    x ∈ rows.foldl step found a ↔ x ∈ found a ∨ ∃ row ∈ rows, P row := by
  induction rows generalizing found with
  | nil => simp
  | cons row rows ih =>
    rw [List.foldl_cons, ih fun found row hrow => hstep found row (List.mem_cons_of_mem _ hrow),
      hstep found row List.mem_cons_self, List.exists_mem_cons_iff, or_assoc]

omit [LinearOrder ρ] in
/-- A full assignment is one of the assignments that meet the relations, and the only one that extends it. -/
lemma mem_full (h : Within relations aliases) (hp : Partial baseRows relations aliases assignment)
    (hfull : assignment.keys.length = aliases.length) {a : α} {x : ρ} :
    (a, x) ∈ assignment.entries ↔
      a ∈ aliases ∧ ∃ f, Extends assignment f ∧ Solves baseRows relations aliases f ∧ f a = x := by
  have hperm : assignment.keys.Perm aliases :=
    (List.subperm_of_subset assignment.nodup hp.subset).perm_of_length_le hfull.ge
  have hvalue : ∀ b ∈ aliases, ∃ v, assignment.get? b = some v := fun b hb =>
    Dict.mem_keys_iff.1 (hperm.mem_iff.2 hb)
  rw [Dict.mem_entries_iff]
  constructor
  · intro hx
    have hget : ∀ b v, assignment.get? b = some v → (assignment.get? b).getD x = v := fun b v hv => by
      rw [hv, Option.getD_some]
    refine ⟨(hp.base a x hx).1, fun b => (assignment.get? b).getD x, hget, ⟨fun b hb => ?_, fun r hr => ?_⟩, hget a x hx⟩
    · obtain ⟨v, hv⟩ := hvalue b hb
      dsimp only
      rw [hget b v hv]
      exact (hp.base b v hv).2
    · obtain ⟨-, hleft, hright⟩ := h r hr
      obtain ⟨v, hv⟩ := hvalue _ hleft
      obtain ⟨w, hw⟩ := hvalue _ hright
      rw [Holds, hget _ v hv, hget _ w hw]
      exact hp.pairs r hr v w hv hw
  · rintro ⟨ha, f, hextends, -, rfl⟩
    obtain ⟨v, hv⟩ := hvalue a ha
    rw [hv, hextends a v hv]

/-- The search notes the rows of every assignment that extends the one it started from. -/
lemma mem_visit (h : Within relations aliases) (hnodup : aliases.Nodup) (hedges : (relations.map edge).Nodup)
    {fuel : ℕ} (hp : Partial baseRows relations aliases assignment)
    (hfuel : aliases.length < assignment.keys.length + fuel) {a : α} {x : ρ} :
    x ∈ visit baseRows relations aliases fuel assignment found a ↔ x ∈ found a ∨
      a ∈ aliases ∧ ∃ f, Extends assignment f ∧ Solves baseRows relations aliases f ∧ f a = x := by
  have hle := hp.length_le
  induction fuel generalizing assignment found with
  | zero => omega
  | succ fuel ih =>
    have hne : ∀ r ∈ relations, r.left ≠ r.right := fun r hr => (h r hr).1
    unfold visit
    split_ifs with hfull
    · rw [mem_foldl_insert, mem_full h hp hfull]
    · cases hnext : nextAlias baseRows relations assignment (aliases.filter fun other => other ∉ assignment.keys) with
      | none =>
        -- no alias is left, though fewer are assigned than there are
        have hempty := List.argmin_eq_none.1 hnext
        rw [List.filter_eq_nil_iff] at hempty
        have hback : aliases ⊆ assignment.keys := fun b hb => by simpa using hempty b hb
        have := (List.subperm_of_subset hnodup hback).length_le
        omega
      | some name =>
        have hmem : name ∈ aliases.filter fun other => other ∉ assignment.keys := List.argmin_mem hnext
        obtain ⟨hname, hnew⟩ : name ∈ aliases ∧ name ∉ assignment.keys := by simpa using hmem
        dsimp only
        rw [@mem_foldl _ _ _ _ _ a x (fun row => Passes relations assignment name row ∧ a ∈ aliases ∧
          ∃ f, Extends (assignment.set name row) f ∧ Solves baseRows relations aliases f ∧ f a = x)]
        · refine or_congr_right ⟨?_, ?_⟩
          · rintro ⟨row, -, -, ha, f, hextends, hsolves, hx⟩
            exact ⟨ha, f, ((extends_set hnew).1 hextends).2, hsolves, hx⟩
          · rintro ⟨ha, f, hextends, hsolves, hx⟩
            refine ⟨f name, hsolves.1 name hname, (passes_iff hedges hne).2 fun r hr => ⟨?_, ?_⟩, ha, f,
              (extends_set hnew).2 ⟨rfl, hextends⟩, hsolves, hx⟩
            · rintro rfl value hvalue
              rw [← hextends _ _ hvalue]
              exact hsolves.2 r hr
            · rintro rfl value hvalue
              rw [← hextends _ _ hvalue]
              exact hsolves.2 r hr
        · intro found row hrow
          split_ifs with hpasses
          · have hlength : (assignment.set name row).keys.length = assignment.keys.length + 1 := by
              rw [Dict.keys, Dict.entries_set_new hnew]
              simp [Dict.keys]
            have hp' := hp.set hedges hne hname hrow hpasses
            have hfuel' : aliases.length < (assignment.set name row).keys.length + fuel := by omega
            refine (ih hp' hfuel' hp'.length_le).trans ?_
            simp only [hpasses, true_and]
          · simp only [hpasses, false_and, or_false]

/-- The backtracking finds exactly the rows of the assignments. -/
lemma mem_cyclicLiveRows (h : Within relations aliases) (hnodup : aliases.Nodup) (hedges : (relations.map edge).Nodup)
    {a : α} (ha : a ∈ aliases) {x : ρ} :
    x ∈ cyclicLiveRows baseRows relations aliases a ↔ ∃ f, Solves baseRows relations aliases f ∧ f a = x := by
  rw [cyclicLiveRows, mem_visit h hnodup hedges Partial.empty (by simp)]
  simp only [Finset.notMem_empty, false_or, ha, true_and]
  refine exists_congr fun f => ⟨And.right, fun hf => ⟨fun _ _ hget => ?_, hf⟩⟩
  exact nomatch hget

end Backtracking

/-! ## The survivors -/

/-- Aliases joined by relations, directly or through others. -/
def Joined (relations : List (PairRelation α ρ)) : α → α → Prop :=
  Relation.EqvGen fun a b => ∃ r ∈ relations, r.left = a ∧ r.right = b

/-- A base row of an alias is in an assignment of base rows to the aliases joined to it that meets all their
relations. -/
def Survives (baseRows : Dict α (List ρ)) (relations : List (PairRelation α ρ)) (a : α) (x : ρ) : Prop :=
  ∃ f : α → ρ, f a = x ∧ ∀ b, Joined relations a b → f b ∈ baseRow baseRows b ∧
    ∀ r ∈ relations, r.left = b → r.Holds f

section Survivors
variable {relations : List (PairRelation α ρ)} {baseRows : Dict α (List ρ)} {component : List α}

/-- What the relations of a component are when combined. -/
lemma inside_combine (hdistinct : ∀ r ∈ relations, r.left ≠ r.right) :
    Within (inside (combineParallelRelations relations) component) component ∧
      ((inside (combineParallelRelations relations) component).map edge).Nodup := by
  refine ⟨fun c hc => ?_, nodup_edge_combine.sublist (List.filter_sublist.map edge)⟩
  obtain ⟨hc, hends⟩ := List.mem_filter.1 hc
  obtain ⟨r, hr, hedge⟩ := exists_edge_combine.1 ⟨c, hc, rfl⟩
  refine ⟨fun heq => hdistinct r hr ?_, of_decide_eq_true hends⟩
  rcases Sym2.eq_iff.1 hedge with ⟨hleft, hright⟩ | ⟨hleft, hright⟩
  · rw [hleft, hright, heq]
  · rw [hleft, hright, heq]

/-- The combined relations of a component hold if the relations between its aliases do. -/
lemma holds_inside {f : α → ρ} : (∀ c ∈ inside (combineParallelRelations relations) component, c.Holds f) ↔
    ∀ r ∈ relations, r.left ∈ component → r.right ∈ component → r.Holds f := by
  have hends : ∀ {r c : PairRelation α ρ}, r.key = (c.left, c.right) →
      (c.left ∈ component ∧ c.right ∈ component ↔ r.left ∈ component ∧ r.right ∈ component) := by
    intro r c hkey
    have hedge : r.edge = c.edge := by rw [← edge_key, hkey, edge]
    rcases Sym2.eq_iff.1 hedge with ⟨hleft, hright⟩ | ⟨hleft, hright⟩
    · rw [hleft, hright]
    · rw [hleft, hright, and_comm]
  simp only [inside, List.mem_filter, decide_eq_true_eq]
  constructor
  · intro h r hr hleft hright
    obtain ⟨c, hc, hkey⟩ := exists_combine hr
    exact (holds_combine hc).1 (h c ⟨hc, (hends hkey).2 ⟨hleft, hright⟩⟩) r hr hkey
  · rintro h c ⟨hc, hboth⟩
    refine (holds_combine hc).2 fun r hr hkey => ?_
    obtain ⟨hleft, hright⟩ := (hends hkey).1 hboth
    exact h r hr hleft hright

/-- A component of the aliases is one alias and all that are joined to it. -/
lemma mem_component (hknown : ∀ r ∈ relations, r.left ∈ baseRows.keys ∧ r.right ∈ baseRows.keys)
    (hc : component ∈ aliasComponents baseRows (combineParallelRelations relations)) {a : α} (ha : a ∈ component)
    {b : α} : b ∈ component ↔ Joined relations a b := by
  obtain ⟨hperm, hall⟩ := components_spec (fun _ _ => neighbors_symm) baseRows.nodup (le_refl baseRows.keys.length)
  obtain ⟨⟨es, hgrown⟩, hclosed⟩ := hall component hc
  have hstep : ∀ {x y : α}, y ∈ neighbors (combineParallelRelations relations) x ↔
      ∃ r ∈ relations, r.edge = s(x, y) := mem_neighbors.trans exists_edge_combine
  constructor
  · intro hb
    have hreach := hgrown.joined (fun a b => neighbors_symm) ha hb
    clear hb
    induction hreach with
    | refl => exact .refl a
    | tail _ hlast ih =>
      obtain ⟨r, hr, hedge⟩ := hstep.1 hlast
      rcases Sym2.eq_iff.1 hedge with hends | hends
      · exact ih.trans _ _ _ (.rel _ _ ⟨r, hr, hends⟩)
      · exact ih.trans _ _ _ (.symm _ _ (.rel _ _ ⟨r, hr, hends⟩))
  · intro hjoined
    have hsame : ∀ {x y : α}, Joined relations x y → (x ∈ component ↔ y ∈ component) := by
      intro x y h
      induction h with
      | rel x y h =>
        obtain ⟨r, hr, rfl, rfl⟩ := h
        obtain ⟨hleft, hright⟩ := hknown r hr
        constructor
        · intro hx
          exact hclosed _ hx _ hright (hstep.2 ⟨r, hr, rfl⟩)
        · intro hy
          exact hclosed _ hy _ hleft (hstep.2 ⟨r, hr, Sym2.eq_swap⟩)
      | refl x => exact Iff.rfl
      | symm x y _ ih => exact ih.symm
      | trans x y z _ _ ih ih' => exact ih.trans ih'
    exact (hsame hjoined).1 ha

omit [LinearOrder ρ] in
/-- The relations a component was grown along are relations inside it. -/
lemma grown_inside {es : List (α × α)} {relations : List (PairRelation α ρ)}
    (hgrown : Grown (fun a b => b ∈ neighbors relations a) component es) :
    ∀ e ∈ es, ∃ r ∈ inside relations component, r.edge = s(e.1, e.2) := by
  intro e he
  obtain ⟨hadj, hfrom, hto⟩ := hgrown.edge e he
  obtain ⟨r, hr, hedge⟩ := mem_neighbors.1 hadj
  refine ⟨r, List.mem_filter.2 ⟨hr, decide_eq_true ?_⟩, hedge⟩
  rcases Sym2.eq_iff.1 hedge with ⟨hleft, hright⟩ | ⟨hleft, hright⟩
  · rw [hleft, hright]
    exact ⟨hfrom, hto⟩
  · rw [hleft, hright]
    exact ⟨hto, hfrom⟩

/-- The assignments of a component are the assignments of the aliases joined to one of its aliases. -/
lemma solves_iff (hknown : ∀ r ∈ relations, r.left ∈ baseRows.keys ∧ r.right ∈ baseRows.keys)
    (hc : component ∈ aliasComponents baseRows (combineParallelRelations relations)) {a : α} (ha : a ∈ component)
    {x : ρ} : (∃ f, Solves baseRows (inside (combineParallelRelations relations) component) component f ∧ f a = x) ↔
      Survives baseRows relations a x := by
  refine exists_congr fun f => ?_
  rw [Solves, holds_inside, and_comm]
  refine and_congr_right fun _ => ?_
  constructor
  · rintro ⟨hbase, hholds⟩ b hb
    have hmem := (mem_component hknown hc ha).2 hb
    refine ⟨hbase b hmem, ?_⟩
    rintro r hr rfl
    exact hholds r hr hmem ((mem_component hknown hc hmem).2 (.rel _ _ ⟨r, hr, rfl, rfl⟩))
  · intro h
    refine ⟨fun b hb => (h b ((mem_component hknown hc ha).1 hb)).1, fun r hr hleft _ => ?_⟩
    exact (h _ ((mem_component hknown hc ha).1 hleft)).2 r hr rfl

/-- A component's live rows, found either way, are its survivors. -/
lemma mem_liveRows (hdistinct : ∀ r ∈ relations, r.left ≠ r.right)
    (hknown : ∀ r ∈ relations, r.left ∈ baseRows.keys ∧ r.right ∈ baseRows.keys)
    (hc : component ∈ aliasComponents baseRows (combineParallelRelations relations)) {a : α} (ha : a ∈ component)
    {x : ρ} : (x ∈ cyclicLiveRows baseRows (inside (combineParallelRelations relations) component) component a ↔
        Survives baseRows relations a x) ∧
      ((inside (combineParallelRelations relations) component).length ≤ component.length - 1 →
        (x ∈ forestLiveRows baseRows (inside (combineParallelRelations relations) component) component a ↔
          Survives baseRows relations a x)) := by
  obtain ⟨-, hall⟩ := components_spec (fun _ _ => neighbors_symm) baseRows.nodup (le_refl baseRows.keys.length)
  obtain ⟨⟨es, hgrown⟩, -⟩ := hall component hc
  obtain ⟨hwithin, hedges⟩ := @inside_combine α ρ _ _ relations component hdistinct
  refine ⟨?_, fun hle => ?_⟩
  · rw [mem_cyclicLiveRows hwithin hgrown.nodup hedges ha, solves_iff hknown hc ha]
  · have hlength := hgrown.length
    rw [mem_forestLiveRows hwithin hedges hgrown (grown_inside hgrown) (by omega) ha, solves_iff hknown hc ha]

omit [LinearOrder ρ] in
/-- The aliases, shared out among their components. -/
lemma flatten_components (baseRows : Dict α (List ρ)) (relations : List (PairRelation α ρ)) :
    (aliasComponents baseRows relations).flatten.Perm baseRows.keys :=
  (components_spec (fun _ _ => neighbors_symm) baseRows.nodup le_rfl).1

lemma exactSurvivors_eq : exactSurvivors baseRows relations =
    ((aliasComponents baseRows (combineParallelRelations relations)).flatMap fun component =>
      component.map fun name => (component, name)).foldl (fun output e => output.set e.2
        ((liveRows baseRows (combineParallelRelations relations) e.1 e.2).sort (· ≤ ·))) .empty := by
  rw [List.foldl_flatMap]
  simp only [List.foldl_map]
  rfl

omit [LinearOrder α] in
lemma mem_named {parts : List (List α)} {e : List α × α} :
    e ∈ parts.flatMap (fun component => component.map fun name => (component, name)) ↔ e.1 ∈ parts ∧ e.2 ∈ e.1 := by
  obtain ⟨component, name⟩ := e
  simp only [List.mem_flatMap, List.mem_map, Prod.mk.injEq]
  constructor
  · rintro ⟨_, hc, _, hname, rfl, rfl⟩
    exact ⟨hc, hname⟩
  · rintro ⟨hc, hname⟩
    exact ⟨component, hc, name, hname, rfl, rfl⟩

/-- The result has the rows of every alias, from its component. -/
lemma get?_exactSurvivors (hc : component ∈ aliasComponents baseRows (combineParallelRelations relations)) {a : α}
    (ha : a ∈ component) : (exactSurvivors baseRows relations).get? a =
      some ((liveRows baseRows (combineParallelRelations relations) component a).sort (· ≤ ·)) := by
  have hnodup := (flatten_components baseRows (combineParallelRelations relations)).nodup_iff.2 baseRows.nodup
  have hdisjoint := (List.nodup_flatten.1 hnodup).2
  rw [exactSurvivors_eq]
  refine Dict.get?_foldl_set (x := (component, a)) (mem_named.2 ⟨hc, ha⟩) fun e he heq => ?_
  obtain ⟨hc', ha'⟩ := mem_named.1 he
  -- an alias is in one component
  have hone : e.1 = component := by
    by_contra hne
    have : Std.Symm (List.Disjoint (α := α)) := ⟨fun _ _ h => h.symm⟩
    refine hdisjoint.forall hc' hc hne ha' ?_
    rw [heq]
    exact ha
  rw [hone, heq]

/-- The survivors are exact: every alias has, sorted, the base rows that are in an assignment of rows to the aliases
of its component that meets all the relations. Of a component with fewer relations than aliases, the semijoins end
and leave the rows that the backtracking finds. -/
theorem exactSurvivors_exact (hdistinct : ∀ r ∈ relations, r.left ≠ r.right)
    (hknown : ∀ r ∈ relations, r.left ∈ baseRows.keys ∧ r.right ∈ baseRows.keys) :
    (∀ a, a ∈ (exactSurvivors baseRows relations).keys ↔ a ∈ baseRows.keys) ∧
    (∀ a rows, (exactSurvivors baseRows relations).get? a = some rows →
      rows.SortedLT ∧ ∀ x, x ∈ rows ↔ Survives baseRows relations a x) ∧
    ∀ component ∈ aliasComponents baseRows (combineParallelRelations relations),
      let relations := inside (combineParallelRelations relations) component
      relations.length ≤ component.length - 1 →
        (sweep relations (forestLiveRows baseRows relations component)).2 = false ∧
          ∀ a ∈ component, forestLiveRows baseRows relations component a = cyclicLiveRows baseRows relations component a := by
  have hkeys : ∀ a, a ∈ (exactSurvivors baseRows relations).keys ↔ a ∈ baseRows.keys := by
    intro a
    rw [exactSurvivors_eq, Dict.mem_keys_foldl_set,
      ← (flatten_components baseRows (combineParallelRelations relations)).mem_iff, List.mem_flatten]
    simp only [Dict.keys_empty, List.not_mem_nil, false_or]
    constructor
    · rintro ⟨e, he, rfl⟩
      exact ⟨e.1, mem_named.1 he⟩
    · rintro ⟨component, hc, ha⟩
      exact ⟨(component, a), mem_named.2 ⟨hc, ha⟩, rfl⟩
  refine ⟨hkeys, fun a rows hrows => ?_, fun component hc => ?_⟩
  · have hmem := (flatten_components baseRows (combineParallelRelations relations)).mem_iff.2
      ((hkeys a).1 (Dict.mem_keys_iff.2 ⟨rows, hrows⟩))
    obtain ⟨component, hc, ha⟩ := List.mem_flatten.1 hmem
    rw [get?_exactSurvivors hc ha] at hrows
    obtain rfl := Option.some.inj hrows
    refine ⟨Finset.sortedLT_sort _, fun x => ?_⟩
    obtain ⟨hcyclic, hforest⟩ := mem_liveRows hdistinct hknown hc ha (x := x)
    rw [Finset.mem_sort, liveRows]
    split_ifs with hle
    · exact hforest hle
    · exact hcyclic
  · intro relations' hle
    obtain ⟨hwithin, -⟩ := @inside_combine α ρ _ _ relations component hdistinct
    refine ⟨sweeps_end hwithin (Nat.lt_succ_self _), fun a ha => ?_⟩
    ext x
    obtain ⟨hcyclic, hforest⟩ := mem_liveRows hdistinct hknown hc ha (x := x)
    exact (hforest hle).trans hcyclic.symm

end Survivors

/-- Three aliases in a ring, and a fourth joined to one of them twice. -/
def ring : Dict ℕ (List ℕ) := ⟨[(0, [1, 2]), (1, [1, 2]), (2, [1, 2]), (3, [5, 6, 7])], by decide⟩

/-- The relations of the ring, and two parallel ones in opposite orders. -/
def ringRelations : List (PairRelation ℕ ℕ) :=
  [⟨0, 1, {(1, 1), (2, 2)}⟩, ⟨1, 2, {(1, 1), (2, 2)}⟩, ⟨2, 0, {(1, 2), (2, 2)}⟩, ⟨3, 0, {(5, 2), (6, 2), (7, 1)}⟩,
    ⟨0, 3, {(2, 5), (1, 7)}⟩]

theorem exactSurvivors_ring : ∃ rows, (exactSurvivors ring ringRelations).get? 3 = some rows ∧ 5 ∈ rows ∧ 6 ∉ rows := by
  have hdistinct : ∀ r ∈ ringRelations, r.left ≠ r.right := by decide
  have hknown : ∀ r ∈ ringRelations, r.left ∈ ring.keys ∧ r.right ∈ ring.keys := by decide
  obtain ⟨hkeys, hrows, -⟩ := exactSurvivors_exact hdistinct hknown
  obtain ⟨rows, hget⟩ := Dict.mem_keys_iff.1 ((hkeys 3).2 (by decide))
  obtain ⟨-, hsurvives⟩ := hrows 3 rows hget
  have hjoined : ∀ {x y : ℕ}, Joined ringRelations x y → (x ∈ ring.keys ↔ y ∈ ring.keys) := by
    intro x y h
    induction h with
    | rel x y h =>
      obtain ⟨r, hr, rfl, rfl⟩ := h
      revert r
      decide
    | refl x => exact Iff.rfl
    | symm x y _ ih => exact ih.symm
    | trans x y z _ _ ih ih' => exact ih.trans ih'
  refine ⟨rows, hget, (hsurvives 5).2 ?_, fun h => ?_⟩
  · refine ⟨fun a => if a = 3 then 5 else 2, rfl, fun b hb => ?_⟩
    have hmem := (hjoined hb).1 (by decide)
    clear hb
    unfold Holds
    revert b
    decide
  · obtain ⟨f, hf, hall⟩ := (hsurvives 6).1 h
    have hlast : (⟨0, 3, {(2, 5), (1, 7)}⟩ : PairRelation ℕ ℕ) ∈ ringRelations := by simp [ringRelations]
    have hzero := (hall 0 (.symm _ _ (.rel _ _ ⟨_, hlast, rfl, rfl⟩))).2 _ hlast rfl
    simp [Holds, hf] at hzero

end Quail.Planner
