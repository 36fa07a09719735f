import Quail.Recombine.Declaration
import Mathlib.Data.List.Pairwise

/-!
# Survivors of the joins

`joined_survivors` of `execution/result.py`: relations that share an alias are merged into components, each
component is joined as a whole, and an id survives if it takes part in such a join.
-/

namespace Quail.Recombine
open NaturalJoin

/-- Relations merged by the aliases they share, with their aliases. -/
structure Component where
  aliases : List Alias
  group : List Ids

/-- Merge the components that share an alias with the aliases merged so far, and leave the others apart. -/
def merge (aliases : List Alias) (group : List Ids) : List Component → Component × List Component
  | [] => (⟨aliases, group⟩, [])
  | component :: components =>
    if ∃ a ∈ aliases, a ∈ component.aliases then
      merge (aliases ++ component.aliases) (group ++ component.group) components
    else
      let merged := merge aliases group components
      (merged.1, component :: merged.2)

/-- Add a relation to the components. -/
def addTable (components : List Component) (table : Ids) : List Component :=
  let merged := merge table.columns [table] components
  merged.2 ++ [merged.1]

/-- The ids of a relation under an alias. -/
def idsOf (table : Ids) (a : Alias) : List ℕ := table.rows.filterMap fun row => cell table.columns row a

/-- The ids each alias of a component is limited to: its survivors, or without any the ids of a relation. -/
def limitsOf (survivors : Dict Alias (List ℕ)) (group : List Ids) : Dict Alias (List ℕ) :=
  (group.flatMap fun table => table.columns.map fun a => (table, a)).foldl (fun limits entry =>
    limits.set entry.2 ((survivors.get? entry.2).getD (idsOf entry.1 entry.2).eraseDups)) .empty

/-- The first alias of a component. -/
def baseOf (group : List Ids) : Alias := (group.head?.bind fun table => table.columns.head?).getD ""

/-- Keep the survivors under an alias that are in a component's join. -/
def keepJoined (survivors : Dict Alias (List ℕ)) (joined : Ids) (kept : Dict Alias (List ℕ)) (a : Alias) :
    Dict Alias (List ℕ) :=
  match survivors.get? a with
  | none => kept
  | some ids => kept.set a (ids.filter fun id => decide (id ∈ idsOf joined a))

/-- Keep the survivors that are in a component's join. -/
def keepComponent (j : HashJoin Alias ℕ) (survivors kept : Dict Alias (List ℕ)) (component : Component) :
    Except ResultError (Dict Alias (List ℕ)) := do
  let joined ← buildResultDeclaration j component.group (limitsOf survivors component.group)
    (baseOf component.group)
  return component.aliases.foldl (keepJoined survivors joined) kept

/-- Keep the ids that take part in a complete join of their relations. -/
def joinedSurvivors (j : HashJoin Alias ℕ) (tables : List Ids) (survivors : Dict Alias (List ℕ)) :
    Except ResultError (Dict Alias (List ℕ)) :=
  (tables.foldl addTable []).foldlM (keepComponent j survivors) survivors

/-! ## Components -/

/-- A component's aliases are its relations', and its relations are connected. -/
structure Component.Whole (c : Component) : Prop where
  aliases : ∀ a, a ∈ c.aliases ↔ ∃ t ∈ c.group, a ∈ t.columns
  nonempty : c.group ≠ []
  connected : Connected c.group

/-- Two components have no alias in common. -/
def Apart (c c' : Component) : Prop := ∀ a ∈ c.aliases, a ∉ c'.aliases

/-- The components of some relations. -/
structure Components (tables : List Ids) (components : List Component) : Prop where
  members : (components.flatMap (·.group)).Perm tables
  whole : ∀ c ∈ components, c.Whole
  apart : components.Pairwise Apart

/-- Merging keeps a component whole and apart from the components left. -/
lemma merge_spec {c : Component} {components : List Component} (hc : c.Whole)
    (hwhole : ∀ c' ∈ components, c'.Whole) (hapart : components.Pairwise Apart) :
    (merge c.aliases c.group components).1.Whole ∧
      (merge c.aliases c.group components).2.Sublist components ∧
      (((merge c.aliases c.group components).2.flatMap (·.group)) ++
        (merge c.aliases c.group components).1.group).Perm
          (c.group ++ components.flatMap (·.group)) ∧
      (∀ c' ∈ (merge c.aliases c.group components).2, Apart c' (merge c.aliases c.group components).1) ∧
      ∀ a ∈ (merge c.aliases c.group components).1.aliases,
        a ∈ c.aliases ∨ ∃ c' ∈ components, a ∈ c'.aliases := by
  induction components generalizing c with
  | nil =>
    exact ⟨hc, .slnil, by simp [merge], fun _ h => absurd h List.not_mem_nil, fun a ha => .inl ha⟩
  | cons first components ih =>
    obtain ⟨hfirst, hwhole⟩ := List.forall_mem_cons.1 hwhole
    obtain ⟨hout, hapart⟩ := List.pairwise_cons.1 hapart
    rw [merge]
    split_ifs with hshared
    · -- the component joins the merged one
      obtain ⟨a, ha, hafirst⟩ := hshared
      obtain ⟨t, ht, hat⟩ := (hc.aliases a).1 ha
      obtain ⟨u, hu, hau⟩ := (hfirst.aliases a).1 hafirst
      have hmerged : (⟨c.aliases ++ first.aliases, c.group ++ first.group⟩ : Component).Whole := by
        refine ⟨fun b => ?_, by simp [hc.nonempty], hc.connected.append hfirst.connected ht hu ⟨a, hat, hau⟩⟩
        simp only [List.mem_append, hc.aliases, hfirst.aliases, or_and_right, exists_or]
      obtain ⟨hw, hsub, hperm, hap, hnames⟩ := ih hmerged hwhole hapart
      refine ⟨hw, hsub.cons _, hperm.trans ?_, hap, fun b hb => ?_⟩
      · rw [List.flatMap_cons, List.append_assoc]
      · obtain hb | ⟨c', hc', hb⟩ := hnames b hb
        · exact (List.mem_append.1 hb).imp_right fun hb => ⟨first, List.mem_cons_self, hb⟩
        · exact .inr ⟨c', List.mem_cons_of_mem _ hc', hb⟩
    · obtain ⟨hw, hsub, hperm, hap, hnames⟩ := ih hc hwhole hapart
      refine ⟨hw, hsub.cons_cons _, ?_, List.forall_mem_cons.2 ⟨fun b hb hmem => ?_, hap⟩, fun b hb => ?_⟩
      · rw [List.flatMap_cons, List.append_assoc, List.flatMap_cons]
        refine (hperm.append_left _).trans ?_
        rw [← List.append_assoc, ← List.append_assoc]
        exact List.perm_append_comm.append_right _
      · obtain hb' | ⟨c', hc', hb'⟩ := hnames b hmem
        · exact hshared ⟨b, hb', hb⟩
        · exact hout c' hc' b hb hb'
      · exact (hnames b hb).imp_right (Exists.imp fun c' h => ⟨List.mem_cons_of_mem _ h.1, h.2⟩)

/-- Adding a relation keeps the components. -/
lemma Components.add {tables : List Ids} {components : List Component} (h : Components tables components)
    {table : Ids} (ht : table.columns ≠ []) : Components (tables ++ [table]) (addTable components table) := by
  have hone : (⟨table.columns, [table]⟩ : Component).Whole :=
    ⟨fun a => by simp, List.cons_ne_nil _ _, .single ht⟩
  obtain ⟨hw, hsub, hperm, hap, -⟩ := merge_spec hone h.whole h.apart
  refine ⟨?_, fun c hc => ?_, ?_⟩
  · rw [addTable, List.flatMap_append, List.flatMap_singleton]
    exact (hperm.trans (h.members.append_left _)).trans List.perm_append_comm
  · obtain hc | hc := List.mem_append.1 hc
    · exact h.whole c (hsub.subset hc)
    · exact List.mem_singleton.1 hc ▸ hw
  · rw [addTable, List.pairwise_append]
    exact ⟨h.apart.sublist hsub, List.pairwise_singleton _ _, fun c hc c' hc' =>
      List.mem_singleton.1 hc' ▸ hap c hc⟩

/-- The components of relations. -/
lemma components_spec {tables : List Ids} (h : ∀ t ∈ tables, t.columns ≠ []) :
    Components tables (tables.foldl addTable []) := by
  induction tables using List.reverseRecOn with
  | nil => exact ⟨.nil, fun _ h => absurd h List.not_mem_nil, .nil⟩
  | append_singleton tables table ih =>
    rw [List.foldl_append, List.foldl_cons, List.foldl_nil]
    exact (ih fun t ht => h t (List.mem_append_left _ ht)).add
      (h table (List.mem_append_right _ List.mem_cons_self))

/-! ## What a component keeps -/

variable {j : HashJoin Alias ℕ} {tables : List Ids} {survivors : Dict Alias (List ℕ)}

/-- The ids of a relation under an alias are those its assignments give the alias. -/
lemma mem_idsOf {table : Ids} {a : Alias} (ha : a ∈ table.columns) {id : ℕ} :
    id ∈ idsOf table a ↔ ∃ f, table.Holds f ∧ f a = id := by
  unfold idsOf
  rw [List.mem_filterMap]
  constructor
  · rintro ⟨row, hrow, hcell⟩
    obtain ⟨f, rfl⟩ := exists_eq_map table.nodup (table.aligned row hrow)
    rw [cell_map ha] at hcell
    exact ⟨f, hrow, Option.some.inj hcell⟩
  · rintro ⟨f, hf, rfl⟩
    exact ⟨_, hf, cell_map ha⟩

/-- Each alias of a component has a limit: its survivors, or the ids of a relation. -/
lemma limitsOf_spec (survivors : Dict Alias (List ℕ)) {group : List Ids} {t : Ids} {a : Alias} (ht : t ∈ group) (ha : a ∈ t.columns) :
    (limitsOf survivors group).contains a ∧
      (survivorsOf (limitsOf survivors group) a = survivorsOf survivors a ∧ survivors.contains a ∨
        survivors.get? a = none ∧ ∃ u ∈ group, a ∈ u.columns ∧
          survivorsOf (limitsOf survivors group) a = (idsOf u a).eraseDups) := by
  have hcontains : (limitsOf survivors group).contains a := by
    rw [Dict.contains_iff_mem_keys, limitsOf, Dict.mem_keys_foldl_set]
    exact .inr ⟨(t, a), List.mem_flatMap.2 ⟨t, ht, List.mem_map_of_mem ha⟩, rfl⟩
  refine ⟨hcontains, ?_⟩
  -- every limit that is set is one of an entry
  have hall : ∀ b ids, (limitsOf survivors group).get? b = some ids → ∃ u ∈ group, b ∈ u.columns ∧
      ids = (survivors.get? b).getD (idsOf u b).eraseDups := by
    unfold limitsOf
    refine List.foldlRecOn _ _ (motive := fun limits => ∀ b ids, Dict.get? limits b = some ids →
      ∃ u ∈ group, b ∈ u.columns ∧ ids = (survivors.get? b).getD (idsOf u b).eraseDups) ?_ ?_
    · exact fun b ids h => absurd h (by simp)
    · intro limits hlimits entry hentry b ids hget
      rw [Dict.get?_set] at hget
      split_ifs at hget with heq
      · obtain ⟨u, hu, hmem⟩ := List.mem_flatMap.1 hentry
        obtain ⟨name, hname, rfl⟩ := List.mem_map.1 hmem
        obtain rfl : name = b := heq
        exact ⟨u, hu, hname, (Option.some.inj hget).symm⟩
      · exact hlimits b ids hget
  obtain ⟨ids, hids⟩ := Dict.contains_iff.1 hcontains
  obtain ⟨u, hu, hau, rfl⟩ := hall a ids hids
  rw [survivorsOf, hids, Option.getD_some, survivorsOf]
  cases hs : survivors.get? a with
  | none => exact .inr ⟨rfl, u, hu, hau, rfl⟩
  | some ids' => exact .inl ⟨rfl, Dict.contains_iff.2 ⟨ids', hs⟩⟩

/-- An assignment of ids is in every relation of a group and survives where its aliases have survivors. -/
def TakesPart (survivors : Dict Alias (List ℕ)) (group : Set Ids) (f : Alias → ℕ) : Prop :=
  (∀ t ∈ group, t.Holds f) ∧
    ∀ t ∈ group, ∀ a ∈ t.columns, ∀ ids, survivors.get? a = some ids → f a ∈ ids

/-- A component's join exists, and holds the assignments that take part. -/
lemma Component.Whole.joined {c : Component} (hc : c.Whole) (j : HashJoin Alias ℕ)
    (survivors : Dict Alias (List ℕ)) :
    ∃ joined, buildResultDeclaration j c.group (limitsOf survivors c.group) (baseOf c.group) = .ok joined ∧
      (∀ a, a ∈ joined.columns ↔ a ∈ c.aliases) ∧
      ∀ f, joined.Holds f ↔ TakesPart survivors {t | t ∈ c.group} f := by
  have haliases : ∀ a, a ∈ aliasesOf c.group (baseOf c.group) ↔ a ∈ c.aliases := by
    intro a
    rw [aliasesOf, if_neg (by simpa using hc.nonempty), List.mem_flatMap, hc.aliases]
  have hlimits : ∀ a ∈ aliasesOf c.group (baseOf c.group), (limitsOf survivors c.group).contains a := by
    intro a ha
    obtain ⟨t, ht, hat⟩ := (hc.aliases a).1 ((haliases a).1 ha)
    exact (limitsOf_spec survivors ht hat).1
  obtain ⟨joined, hjoined, hr⟩ := buildResultDeclaration_ok (j := j) (.inr hc.connected) hlimits
  refine ⟨joined, hjoined, fun a => (hr.columns a).trans (haliases a), fun f => ?_⟩
  rw [hr.holds, TakesPart]
  refine and_congr_right fun hholds => ?_
  constructor
  · intro h t ht a hat ids hids
    have hin := h a ((hr.columns a).2 ((haliases a).2 ((hc.aliases a).2 ⟨t, ht, hat⟩)))
    obtain ⟨-, ⟨heq, -⟩ | ⟨hnone, -⟩⟩ := limitsOf_spec survivors ht hat
    · rwa [heq, survivorsOf, hids] at hin
    · rw [hids] at hnone
      cases hnone
  · intro h a ha
    obtain ⟨t, ht, hat⟩ := (hc.aliases a).1 ((haliases a).1 ((hr.columns a).1 ha))
    obtain ⟨-, ⟨heq, hcontains⟩ | ⟨-, u, hu, hau, heq⟩⟩ := limitsOf_spec survivors ht hat
    · obtain ⟨ids, hids⟩ := Dict.contains_iff.1 hcontains
      rw [heq, survivorsOf, hids]
      exact h t ht a hat ids hids
    · rw [heq, List.mem_eraseDups, mem_idsOf hau]
      exact ⟨f, hholds u hu, rfl⟩

/-- What a component's aliases keep: the survivors that take part in an assignment. -/
lemma keepJoined_spec (names : List Alias) (joined : Ids) {kept : Dict Alias (List ℕ)}
    (hkeys : kept.keys = survivors.keys) :
    (names.foldl (keepJoined survivors joined) kept).keys = survivors.keys ∧
      (∀ a, a ∉ names → (names.foldl (keepJoined survivors joined) kept).get? a = kept.get? a) ∧
      ∀ a ∈ names, ∀ ids, survivors.get? a = some ids →
        (names.foldl (keepJoined survivors joined) kept).get? a =
          some (ids.filter fun id => decide (id ∈ idsOf joined a)) := by
  induction names using List.reverseRecOn with
  | nil => exact ⟨hkeys, fun _ _ => rfl, fun _ h => absurd h List.not_mem_nil⟩
  | append_singleton names name ih =>
    obtain ⟨hk, hother, hall⟩ := ih
    rw [List.foldl_append, List.foldl_cons, List.foldl_nil]
    generalize names.foldl (keepJoined survivors joined) kept = middle at hk hother hall
    unfold keepJoined
    cases hname : survivors.get? name with
    | none =>
      refine ⟨hk, fun a ha => hother a fun h => ha (List.mem_append_left _ h), fun a ha ids hids => ?_⟩
      obtain ha | ha := List.mem_append.1 ha
      · exact hall a ha ids hids
      · rw [List.mem_singleton.1 ha, hname] at hids
        cases hids
    | some found =>
      have hin : name ∈ middle.keys := hk ▸ Dict.mem_keys_iff.2 ⟨found, hname⟩
      refine ⟨?_, fun a ha => ?_, fun a ha ids hids => ?_⟩
      · rw [Dict.keys_set, if_pos hin, hk]
      · have hne : name ≠ a := fun heq =>
          ha (List.mem_append_right _ (List.mem_singleton.2 heq.symm))
        rw [Dict.get?_set_ne hne]
        exact hother a fun h => ha (List.mem_append_left _ h)
      · by_cases heq : name = a
        · subst heq
          rw [hname] at hids
          cases hids
          exact Dict.get?_set_self
        · rw [Dict.get?_set_ne heq]
          refine hall a ((List.mem_append.1 ha).resolve_right fun h => ?_) ids hids
          exact heq (List.mem_singleton.1 h).symm

/-! ## The survivors kept -/

/-- A relation is in the component of an alias: it is reached from a relation of the alias. -/
def Linked (tables : List Ids) (a : Alias) (t : Ids) : Prop :=
  t ∈ tables ∧ ∃ u ∈ tables, a ∈ u.columns ∧ Reaches tables u t

/-- Components with an alias in common are one. -/
lemma Components.eq_of_mem {components : List Component} (h : Components tables components)
    {c c' : Component} (hc : c ∈ components) (hc' : c' ∈ components) {a : Alias} (ha : a ∈ c.aliases)
    (ha' : a ∈ c'.aliases) : c = c' := by
  by_contra hne
  have hsymm : Std.Symm Apart := ⟨fun _ _ hap b hb hb' => hap b hb' hb⟩
  exact h.apart.forall hc hc' hne a ha ha'

/-- A component's relations are those reached from the relations of each of its aliases. -/
lemma Components.mem_group_iff {components : List Component} (h : Components tables components)
    {c : Component} (hc : c ∈ components) {a : Alias} (ha : a ∈ c.aliases) (t : Ids) :
    t ∈ c.group ↔ Linked tables a t := by
  have hsub : c.group ⊆ tables := fun u hu => h.members.subset (List.mem_flatMap.2 ⟨c, hc, hu⟩)
  -- a relation with an alias of the component is in it
  have hin : ∀ u ∈ tables, ∀ b ∈ u.columns, b ∈ c.aliases → u ∈ c.group := by
    intro u hu b hb hbc
    obtain ⟨c', hc', hmem⟩ := List.mem_flatMap.1 (h.members.symm.subset hu)
    rwa [h.eq_of_mem hc hc' hbc (((h.whole c' hc').aliases b).2 ⟨u, hmem, hb⟩)]
  constructor
  · intro ht
    obtain ⟨u, hu, hau⟩ := ((h.whole c hc).aliases a).1 ha
    exact ⟨hsub ht, u, hsub hu, hau, ((h.whole c hc).connected.reaches u hu t ht).mono hsub⟩
  · rintro ⟨-, u, hu, hau, hreach⟩
    induction hreach with
    | refl => exact hin u hu a hau ha
    | tail _ hstep ih =>
      obtain ⟨hmem, b, hbx, hby⟩ := hstep
      exact hin _ hmem b hby (((h.whole c hc).aliases b).2 ⟨_, ih, hbx⟩)

/-- What some components keep: of their aliases, the survivors that take part in an assignment. -/
lemma foldlM_keepComponent {components : List Component} {kept : Dict Alias (List ℕ)}
    (hwhole : ∀ c ∈ components, c.Whole) (hapart : components.Pairwise Apart)
    (hkeys : kept.keys = survivors.keys) :
    ∃ kept', components.foldlM (keepComponent j survivors) kept = .ok kept' ∧
      kept'.keys = survivors.keys ∧
      (∀ a, (∀ c ∈ components, a ∉ c.aliases) → kept'.get? a = kept.get? a) ∧
      ∀ c ∈ components, ∀ a ∈ c.aliases, ∀ ids, survivors.get? a = some ids →
        ∃ p : ℕ → Bool, kept'.get? a = some (ids.filter p) ∧
          ∀ id, p id ↔ ∃ f, f a = id ∧ TakesPart survivors {t | t ∈ c.group} f := by
  induction components generalizing kept with
  | nil => exact ⟨kept, rfl, hkeys, fun _ _ => rfl, fun _ h => absurd h List.not_mem_nil⟩
  | cons c components ih =>
    obtain ⟨hc, hwhole⟩ := List.forall_mem_cons.1 hwhole
    obtain ⟨hout, hapart⟩ := List.pairwise_cons.1 hapart
    obtain ⟨joined, hjoined, hcolumns, hholds⟩ := hc.joined j survivors
    obtain ⟨hmiddle, hother, hall⟩ := keepJoined_spec c.aliases joined hkeys
    obtain ⟨kept', hkept, hk, hrest, hlater⟩ := ih hwhole hapart hmiddle
    refine ⟨kept', ?_, hk, fun a ha => ?_, List.forall_mem_cons.2 ⟨fun a ha ids hids => ?_, hlater⟩⟩
    · rw [List.foldlM_cons, keepComponent, hjoined]
      exact hkept
    · obtain ⟨hfirst, ha⟩ := List.forall_mem_cons.1 ha
      rw [hrest a ha, hother a hfirst]
    · refine ⟨_, by rw [hrest a fun c' hc' => hout c' hc' a ha, hall a ha ids hids], fun id => ?_⟩
      rw [decide_eq_true_iff, mem_idsOf ((hcolumns a).2 ha)]
      simp only [hholds, and_comm]

/-- What the joins keep of the survivors: under an alias of a relation the ids that take part in an assignment
of its component, and everything under the others. -/
structure Kept (tables : List Ids) (survivors kept : Dict Alias (List ℕ)) : Prop where
  keys : kept.keys = survivors.keys
  others : ∀ a, (∀ t ∈ tables, a ∉ t.columns) → kept.get? a = survivors.get? a
  joined : ∀ a, (∃ t ∈ tables, a ∈ t.columns) → ∀ ids, survivors.get? a = some ids →
    ∃ p : ℕ → Bool, kept.get? a = some (ids.filter p) ∧
      ∀ id, p id ↔ ∃ f, f a = id ∧ TakesPart survivors {t | Linked tables a t} f

/-- The survivors of relations' joins. -/
lemma joinedSurvivors_ok (h : ∀ t ∈ tables, t.columns ≠ []) :
    ∃ kept, joinedSurvivors j tables survivors = .ok kept ∧ Kept tables survivors kept := by
  have hc := components_spec h
  obtain ⟨kept, hkept, hkeys, hother, hall⟩ :=
    foldlM_keepComponent (j := j) hc.whole hc.apart (Eq.refl survivors.keys)
  refine ⟨kept, hkept, hkeys, fun a ha => hother a fun c hmem hin => ?_, fun a ha ids hids => ?_⟩
  · obtain ⟨t, ht, hat⟩ := ((hc.whole c hmem).aliases a).1 hin
    exact ha t (hc.members.subset (List.mem_flatMap.2 ⟨c, hmem, ht⟩)) hat
  · obtain ⟨t, ht, hat⟩ := ha
    obtain ⟨c, hmem, htc⟩ := List.mem_flatMap.1 (hc.members.symm.subset ht)
    have hac : a ∈ c.aliases := ((hc.whole c hmem).aliases a).2 ⟨t, htc, hat⟩
    obtain ⟨p, hget, hp⟩ := hall c hmem a hac ids hids
    refine ⟨p, hget, fun id => ?_⟩
    rw [hp, show {t | t ∈ c.group} = {t | Linked tables a t} from
      Set.ext fun u => hc.mem_group_iff hmem hac u]

/-- Connected relations, in any order, and the survivors of their aliases give the assignments that are in
every relation and survive; and of any relations, the joins keep the survivors that take part in an
assignment of their component. -/
theorem recombine_exact (j : HashJoin Alias ℕ) (tables : List Ids) (survivors : Dict Alias (List ℕ))
    (base : Alias) (hcolumns : ∀ t ∈ tables, t.columns ≠ []) :
    (tables = [] ∨ Connected tables → (∀ a ∈ aliasesOf tables base, survivors.contains a) →
      ∃ result, buildResultDeclaration j tables survivors base = .ok result ∧
        Recombined tables survivors base result ∧
        ∀ tables' : List Ids, tables'.Perm tables →
          ∃ result', buildResultDeclaration j tables' survivors base = .ok result' ∧
            ∀ f, result'.Holds f ↔ result.Holds f) ∧
    ∃ kept, joinedSurvivors j tables survivors = .ok kept ∧ Kept tables survivors kept := by
  refine ⟨fun hc hs => ?_, joinedSurvivors_ok hcolumns⟩
  obtain ⟨result, hresult, hr⟩ := buildResultDeclaration_ok (j := j) hc hs
  refine ⟨result, hresult, hr, fun tables' hperm => ?_⟩
  have haliases : ∀ a, a ∈ aliasesOf tables' base ↔ a ∈ aliasesOf tables base := by
    intro a
    unfold aliasesOf
    rw [hperm.isEmpty_eq]
    split_ifs
    · rfl
    · exact (hperm.flatMap_right _).mem_iff
  have hc' : tables' = [] ∨ Connected tables' :=
    hc.imp (fun h => List.perm_nil.1 (hperm.trans (List.perm_nil.2 h))) fun h => h.perm hperm.symm
  obtain ⟨result', hresult', hr'⟩ := buildResultDeclaration_ok (j := j) hc' fun a ha =>
    hs a ((haliases a).1 ha)
  refine ⟨result', hresult', fun f => ?_⟩
  simp only [hr.holds, hr'.holds, hr.columns, hr'.columns, haliases, hperm.mem_iff]

/-- The pairs of two aliases. -/
def pairs (a b : Alias) (h : a ≠ b) (rows : List (ℕ × ℕ)) : Ids where
  columns := [a, b]
  rows := rows.map fun row => [row.1, row.2]
  nodup := by simpa using h
  aligned := by
    intro row hrow
    obtain ⟨pair, -, rfl⟩ := List.mem_map.1 hrow
    rfl

/-- Two relations that share an alias. -/
def chain : List Ids :=
  [pairs "a" "b" (by decide) [(0, 1), (1, 1), (2, 0)], pairs "b" "c" (by decide) [(1, 5), (1, 6)]]

/-- Survivors of the aliases of the relations and of one more. -/
def chainSurvivors : Dict Alias (List ℕ) :=
  (((Dict.empty.set "a" [2, 1, 0, 1]).set "b" [0, 1]).set "c" [5]).set "d" [7]

lemma chain_connected : Connected chain :=
  (Connected.single (by decide)).append (.single (by decide)) List.mem_cons_self List.mem_cons_self
    ⟨"b", by decide, by decide⟩

theorem recombine_exact_chain :
    (∃ result, buildResultDeclaration .inner chain chainSurvivors "a" = .ok result ∧
      Recombined chain chainSurvivors "a" result) ∧
    ∃ kept, joinedSurvivors .inner chain chainSurvivors = .ok kept ∧ Kept chain chainSurvivors kept := by
  obtain ⟨hbuild, hkept⟩ := recombine_exact .inner chain chainSurvivors "a" (by decide)
  obtain ⟨result, hresult, hr, -⟩ := hbuild (.inr chain_connected) (by decide)
  exact ⟨⟨result, hresult, hr⟩, hkept⟩

end Quail.Recombine
