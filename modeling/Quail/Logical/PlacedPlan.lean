import Quail.Lib.Fallible
import Quail.Logical.Builder

/-!
# Plans of placed conditions

`place_relation` of `logical/naive.py` and the plan it builds: the conditions are placed, every table gets its
scan conditions and filters, the tables are joined, and the result rows are tested above the Project. In the
plan no part of a condition is lost or tested twice, a Filter stands above everything that computes what it
tests, and every model call is computed once.
-/

namespace Quail.Logical

open Condition

/-! ## The relation -/

/-- The columns a table's operators compute, in the order `place_relation` enters them. -/
def Table.extracted (t : Table) : List (ColumnKey × ComputedKind × String) :=
  t.extracts.flatMap fun call => [call.2, call.2 ++ spanSuffix].map fun column => ((t.table, column), .extract, call.2)

@[inherit_doc Table.extracted]
def Table.computedBy (t : Table) (kind : ComputedKind) (calls : List NamedCall) :
    List (ColumnKey × ComputedKind × String) :=
  calls.map fun call => ((t.table, call.2), kind, call.2)

/-- What a query's FROM, JOIN and SELECT give `place_relation`: the tables, FROM first, with the calls over
each; the joins, which bring every other table in once, and the classifications of joined pairs. -/
structure Relation where
  tables : List Table
  joins : List JoinSpec
  crossed : List String
  pairLabels : List NamedCall
  unnested : List String
  aliases : (tables.map Table.table).Nodup
  brought : (joins.flatMap JoinSpec.tables ++ crossed).Perm (tables.map Table.table).tail
  labels : ∀ t ∈ tables, (t.labels.map Prod.fst).Nodup
  operators : ∀ t ∈ tables, t.columnOperators.Nodup
  oneTable : ∀ t ∈ tables, ∀ c ∈ t.labels.map Table.classify ++ t.columnOperators, c.call.aliases = [t.table]
  pairs : pairLabels.Nodup
  twoTables : ∀ label ∈ pairLabels, label.1.aliases.length = 2

namespace Relation

/-- Every computed column with its operator; a later entry of a column replaces an earlier one. -/
def entries (r : Relation) : List (ColumnKey × ComputedKind × String) :=
  r.tables.flatMap Table.extracted ++
    r.tables.flatMap (fun t => t.computedBy .features t.saeFeatures) ++
      r.tables.flatMap (fun t => t.computedBy .map t.maps) ++
        r.tables.flatMap fun t => t.computedBy .label t.labels

/-- `computed`. -/
def computed (r : Relation) : Computed := fun key => (r.entries.reverse.find? (·.1 = key)).map Prod.snd

/-- Whether a reference resolves: to a field of an unnested list, a computed column, or a source column. -/
def Resolves (r : Relation) (ref : ColumnRef) : Prop :=
  ref.table ∈ r.unnested ∨ (r.computed ref.key).isSome ∨
    ∃ t ∈ r.tables, t.table = ref.table ∧ ref.column ∈ t.schema

end Relation

/-- A condition that a front end bound: a valid tree over columns that resolve, with its HINT. -/
structure BoundCondition (r : Relation) where
  hinted : Hinted
  valid : Valid hinted.1
  resolves : ∀ ref ∈ hinted.1.references, r.Resolves ref

/-- The scans of a relation, each under its filters and column operators. -/
def addScans (listed : ColumnCondition → Bool) (placed : PlacedConditions) (nodes : Dict String DocumentNode)
    (t : Table) : Except BuildError (Dict String DocumentNode) :=
  if nodes.contains t.table then .error (.duplicateTable t.table)
  else do
    let node ← addScan listed t ((placed.scans.get? t.table).getD []) ((placed.computed.get? t.table).getD [])
    pure (nodes.set t.table node)

/-- The relation of documents that `place_relation` builds from placed conditions. -/
def buildRelation (listed : ColumnCondition → Bool) (r : Relation) (placed : PlacedConditions) :
    Except BuildError DocumentNode := do
  let nodes ← r.tables.foldlM (addScans listed placed) Dict.empty
  let some first := r.tables.head?.bind fun t => nodes.get? t.table | throw .noInput
  let root ← r.joins.foldlM (addJoin nodes) first
  let root ← r.crossed.foldlM (joinTable nodes) root
  r.pairLabels.foldlM addClassify root

/-- `place_relation`, then `project`. -/
def buildPlan (valid listed : ColumnCondition → Bool) (r : Relation) (conditions : List Hinted)
    (p : Projection) : Except BuildError (PlacedConditions × RowNode) := do
  let placed ← (placeConditions valid r.computed r.unnested conditions).mapError .placement
  let root ← buildRelation listed r placed
  let rows ← project root p placed.rows
  pure (placed, rows)

/-! ## Parts -/

section
variable {valid : ColumnCondition → Bool} {computed : Computed} {unnested : List String}

lemma get?_appendTo {α : Type} {found : Dict String (List α)} {table table' : String} {part : α} :
    ((appendTo found table part).get? table').getD [] =
      (found.get? table').getD [] ++ if table = table' then [part] else [] := by
  rw [appendTo, Dict.get?_set]
  split_ifs with h
  · rw [h, Option.getD_some]
  · rw [List.append_nil]

/-- Where each part went. -/
structure PlacedAs (computed : Computed) (unnested : List String) (parts : List Hinted)
    (placed : PlacedConditions) : Prop where
  scans : ∀ table, (placed.scans.get? table).getD [] =
    (parts.filter fun part => place computed unnested part.1 = .scan table).map Prod.fst
  tested : ∀ table, (placed.computed.get? table).getD [] =
    parts.filter fun part => place computed unnested part.1 = .computed table
  rows : placed.rows = (parts.filter fun part => place computed unnested part.1 = .rows).map Prod.fst

lemma PlacedAs.step {parts : List Hinted} {placed placed' : PlacedConditions} {part : Hinted}
    (h : PlacedAs computed unnested parts placed) (hstep : placePart valid computed unnested placed part = .ok placed') :
    PlacedAs computed unnested (parts ++ [part]) placed' := by
  -- the part joins the list of its place, and no other
  have hfilter : ∀ other, (parts ++ [part]).filter (fun part => place computed unnested part.1 = other) =
      parts.filter (fun part => place computed unnested part.1 = other) ++
        if place computed unnested part.1 = other then [part] else [] := by
    intro other
    rw [List.filter_append]
    refine congrArg _ ?_
    by_cases heq : place computed unnested part.1 = other <;> simp [heq]
  unfold placePart at hstep
  by_cases hvalid : valid part.1
  · rw [if_pos hvalid] at hstep
    cases hplace : place computed unnested part.1 with
    | scan table =>
      simp only [hplace] at hstep hfilter
      split_ifs at hstep
      obtain rfl := Except.ok.inj hstep
      refine ⟨fun other => ?_, fun other => ?_, ?_⟩
      · rw [get?_appendTo, h.scans, hfilter, List.map_append]
        by_cases heq : table = other <;> simp [heq]
      · rw [h.tested, hfilter]
        simp
      · rw [h.rows, hfilter]
        simp
    | computed table =>
      simp only [hplace] at hstep hfilter
      obtain rfl := Except.ok.inj hstep
      refine ⟨fun other => ?_, fun other => ?_, ?_⟩
      · rw [h.scans, hfilter]
        simp
      · rw [get?_appendTo, h.tested, hfilter]
        by_cases heq : table = other <;> simp [heq]
      · rw [h.rows, hfilter]
        simp
    | rows =>
      simp only [hplace] at hstep hfilter
      split_ifs at hstep
      obtain rfl := Except.ok.inj hstep
      refine ⟨fun other => ?_, fun other => ?_, ?_⟩
      · rw [h.scans, hfilter]
        simp
      · rw [h.tested, hfilter]
        simp
      · rw [h.rows, hfilter, List.map_append]
        simp
  · rw [if_neg hvalid] at hstep
    cases hstep

/-- `place_conditions` puts each part where its place says. -/
lemma placeConditions_ok {conditions : List Hinted} {placed : PlacedConditions}
    (h : placeConditions valid computed unnested conditions = .ok placed) :
    PlacedAs computed unnested (conditions.flatMap partsOf) placed := by
  have hempty : PlacedAs computed unnested [] ⟨Dict.empty, Dict.empty, []⟩ :=
    ⟨fun _ => rfl, fun _ => rfl, rfl⟩
  exact foldlM_ok (PlacedAs computed unnested) hempty (fun past b b' part _ hpast hstep => hpast.step hstep) h

/-! ## Places -/

lemma eq_of_eraseDups {α : Type} [DecidableEq α] {xs : List α} {x : α} (h : xs.eraseDups = [x]) :
    ∀ y ∈ xs, y = x := fun y hy => by
  rw [← List.mem_eraseDups, h] at hy
  exact List.mem_singleton.1 hy

/-- A part at a scan reads source columns of one table. -/
lemma place_scan {part : ColumnCondition} {table : String} (h : place computed unnested part = .scan table) :
    table ∉ unnested ∧ part.references ≠ [] ∧ ∀ ref ∈ part.references, ref.table = table ∧ computed ref.key = none := by
  unfold place at h
  split at h
  · rename_i found heq
    split_ifs at h with hunnested howners hkinds
    obtain rfl := Place.scan.inj h
    refine ⟨hunnested, ?_, fun ref href => ⟨eq_of_eraseDups heq _ (List.mem_map_of_mem href), ?_⟩⟩
    · intro hnil
      rw [hnil] at heq
      cases heq
    · cases hcomputed : computed ref.key with
      | none => rfl
      | some owner =>
        have hmem : owner ∈ owners computed part :=
          List.mem_eraseDups.2 (List.mem_filterMap.2 ⟨ref, href, hcomputed⟩)
        rw [howners] at hmem
        cases hmem
  · cases h

/-- A part above a table's operators reads columns of operators of one kind, and source columns. -/
lemma place_computed {part : ColumnCondition} {table : String}
    (h : place computed unnested part = .computed table) :
    table ∉ unnested ∧ ∃ kind, (∃ ref ∈ part.references, ∃ name, computed ref.key = some (kind, name)) ∧
      ∀ ref ∈ part.references, ref.table = table ∧
        (computed ref.key = none ∨ ∃ name, computed ref.key = some (kind, name)) := by
  unfold place at h
  split at h
  · rename_i found heq
    split_ifs at h with hunnested howners hkinds
    obtain rfl := Place.computed.inj h
    obtain ⟨kind, hkind⟩ := List.length_eq_one_iff.1 hkinds
    refine ⟨hunnested, kind, ?_, fun ref href => ⟨eq_of_eraseDups heq _ (List.mem_map_of_mem href), ?_⟩⟩
    · obtain ⟨owner, howner⟩ := List.exists_mem_of_ne_nil _ howners
      obtain ⟨ref, href, hcomputed⟩ := List.mem_filterMap.1 (List.mem_eraseDups.1 howner)
      have hfst := eq_of_eraseDups hkind _ (List.mem_map_of_mem howner)
      exact ⟨ref, href, owner.2, hcomputed.trans (congrArg some (Prod.ext hfst rfl))⟩
    · cases hcomputed : computed ref.key with
      | none => exact .inl rfl
      | some owner =>
        have howner : owner ∈ owners computed part :=
          List.mem_eraseDups.2 (List.mem_filterMap.2 ⟨ref, href, hcomputed⟩)
        have hfst := eq_of_eraseDups hkind _ (List.mem_map_of_mem howner)
        exact .inr ⟨owner.2, congrArg some (Prod.ext hfst rfl)⟩
  · cases h

end

/-! ## Computed columns -/

namespace Relation

variable {r : Relation} {t : Table}

/-- Two tables of one alias are one. -/
lemma eq_of_table {t' : Table} (ht : t ∈ r.tables) (ht' : t' ∈ r.tables) (h : t.table = t'.table) : t = t' :=
  List.inj_on_of_nodup_map r.aliases ht ht' h

lemma mem_entries_of_computed {key : ColumnKey} {owner : ComputedKind × String}
    (h : r.computed key = some owner) : (key, owner) ∈ r.entries := by
  obtain ⟨e, he, rfl⟩ := Option.map_eq_some_iff.1 h
  have hkey := List.find?_some he
  rw [decide_eq_true_iff] at hkey
  subst hkey
  exact List.mem_reverse.1 (List.mem_of_find?_eq_some he)

/-- A column that a label owns is the name of a classification of its table. -/
lemma computed_label (ht : t ∈ r.tables) {column name : String}
    (h : r.computed (t.table, column) = some (.label, name)) : ∃ call, (call, column) ∈ t.labels := by
  have hmem := mem_entries_of_computed h
  simp only [entries, List.mem_append, List.mem_flatMap, Table.extracted, Table.computedBy, List.mem_map,
    Prod.mk.injEq, reduceCtorEq, false_and, and_false, exists_false, or_false, false_or] at hmem
  obtain ⟨t', ht', ⟨call, _⟩, hcall, ⟨htable, rfl⟩, -⟩ := hmem
  obtain rfl := eq_of_table ht' ht htable
  exact ⟨call, hcall⟩

/-- A column that another operator owns is one the operator adds. -/
lemma computed_operator (ht : t ∈ r.tables) {column name : String} {kind : ComputedKind}
    (h : r.computed (t.table, column) = some (kind, name)) (hkind : kind ≠ .label) :
    ∃ c ∈ t.columnOperators, column ∈ c.addedColumns := by
  have hmem := mem_entries_of_computed h
  simp only [entries, List.mem_append, List.mem_flatMap, Table.extracted, Table.computedBy, List.mem_map,
    Prod.mk.injEq] at hmem
  obtain ((⟨t', ht', call, hcall, added, hadded, ⟨htable, rfl⟩, -, -⟩ | ⟨t', ht', call, hcall, ⟨htable, rfl⟩, -, -⟩) |
    ⟨t', ht', call, hcall, ⟨htable, rfl⟩, -, -⟩) | ⟨t', ht', call, hcall, -, hlabel, -⟩ := hmem
  · obtain rfl := eq_of_table ht' ht htable
    refine ⟨⟨.extract, call.1, call.2⟩, ?_, hadded⟩
    exact List.mem_append_left _ (List.mem_append_left _ (List.mem_map_of_mem hcall))
  · obtain rfl := eq_of_table ht' ht htable
    refine ⟨⟨.saeFeatures, call.1, call.2⟩, ?_, List.mem_singleton_self _⟩
    exact List.mem_append_left _ (List.mem_append_right _ (List.mem_map_of_mem hcall))
  · obtain rfl := eq_of_table ht' ht htable
    exact ⟨⟨.map, call.1, call.2⟩, List.mem_append_right _ (List.mem_map_of_mem hcall), List.mem_singleton_self _⟩
  · exact absurd hlabel.symm hkind

/-- The column of a classification is owned by it, whatever else has its name. -/
lemma computed_of_label (ht : t ∈ r.tables) {call : ModelCall} {name : String} (h : (call, name) ∈ t.labels) :
    r.computed (t.table, name) = some (.label, name) := by
  unfold computed entries
  rw [List.reverse_append, List.find?_append]
  -- the classifications are entered last
  have hmem : ((t.table, name), ComputedKind.label, name) ∈
      (r.tables.flatMap fun t => t.computedBy .label t.labels).reverse :=
    List.mem_reverse.2 (List.mem_flatMap.2 ⟨t, ht, List.mem_map.2 ⟨_, h, rfl⟩⟩)
  cases hfind : (r.tables.flatMap fun t => t.computedBy .label t.labels).reverse.find?
      (·.1 = (t.table, name)) with
  | none => exact absurd (decide_eq_true rfl) (List.find?_eq_none.1 hfind _ hmem)
  | some e =>
    have hkey := List.find?_some hfind
    rw [decide_eq_true_iff] at hkey
    obtain ⟨t', _, he⟩ := List.mem_flatMap.1 (List.mem_reverse.1 (List.mem_of_find?_eq_some hfind))
    obtain ⟨label, _, rfl⟩ := List.mem_map.1 he
    obtain ⟨-, rfl⟩ := Prod.mk.inj hkey
    rfl

end Relation

/-! ## Table nodes -/

/-- Every Filter of the relation of documents reads what stands below it. -/
def DocumentNode.Wired : DocumentNode → Prop
  | .scan _ => True
  | .over (.filter condition) input => input.Wired ∧ ∀ ref ∈ condition.references, input.Provides ref.key
  | .over _ input => input.Wired
  | .join left right _ => left.Wired ∧ right.Wired

/-- The Scan of a table. -/
def Table.scan (t : Table) (scanConditions : List ColumnCondition) : Scan :=
  ⟨t.provider, t.table, t.column, [], scanConditions, some t.schema⟩

/-- What a table's node holds: its Scan, and wired Filters. -/
structure Stack (t : Table) (scanConditions filters : List ColumnCondition) (node : DocumentNode) : Prop where
  scans : node.scans = [t.scan scanConditions]
  filters : node.filters = filters
  wired : node.Wired

section
variable {r : Relation} {t : Table} {scanConditions filters : List ColumnCondition} {node : DocumentNode}

lemma Stack.base : Stack t scanConditions [] (t.base scanConditions) ∧ (t.base scanConditions).columns = [] := by
  unfold Table.base
  split
  · exact ⟨⟨rfl, rfl, trivial⟩, rfl⟩
  · exact ⟨⟨rfl, rfl, trivial⟩, rfl⟩

lemma Stack.column (h : Stack t scanConditions filters node) (c : SemanticColumn) :
    Stack t scanConditions filters (.over (.column c) node) := ⟨h.scans, h.filters, h.wired⟩

lemma Stack.filter (h : Stack t scanConditions filters node) {condition : ColumnCondition}
    (hreads : ∀ ref ∈ condition.references, node.Provides ref.key) :
    Stack t scanConditions (filters ++ [condition]) (.over (.filter condition) node) :=
  ⟨h.scans, congrArg (· ++ [condition]) h.filters, h.wired, hreads⟩

/-- A table provides its source columns. -/
lemma Stack.source (h : Stack t scanConditions filters node) {column : String} (hcolumn : column ∈ t.schema) :
    node.Provides (t.table, column) :=
  .inl ⟨t.scan scanConditions, h.scans ▸ List.mem_singleton_self _, rfl, hcolumn⟩

lemma name_mem_addedColumns (c : SemanticColumn) : c.name ∈ c.addedColumns := by
  unfold SemanticColumn.addedColumns
  split
  · split_ifs <;> exact List.mem_cons_self
  all_goals exact List.mem_cons_self

/-- A relation provides what its operators add. -/
lemma provides_added {c : SemanticColumn} {column : String} (ht : t ∈ r.tables)
    (hc : c ∈ t.labels.map Table.classify ++ t.columnOperators) (hnode : c ∈ node.columns)
    (hcolumn : column ∈ c.addedColumns) : node.Provides (t.table, column) := by
  refine .inr ⟨c, hnode, List.mem_map.2 ⟨column, hcolumn, ?_⟩⟩
  rw [SemanticColumn.table, r.oneTable t ht c hc]
  rfl

/-- Filters over a node that provides what they read. -/
lemma Stack.filterAll (h : Stack t scanConditions filters node) {tests : List Hinted}
    (hreads : ∀ test ∈ tests, ∀ ref ∈ test.1.references, node.Provides ref.key) :
    Stack t scanConditions (filters ++ tests.map Prod.fst)
      (tests.foldl (fun node test => .over (.filter test.1) node) node) ∧
      (tests.foldl (fun node test => DocumentNode.over (.filter test.1) node) node).columns = node.columns := by
  induction tests generalizing filters node with
  | nil => exact ⟨by rwa [List.map_nil, List.append_nil], rfl⟩
  | cons test tests ih =>
    obtain ⟨htest, htests⟩ := List.forall_mem_cons.1 hreads
    obtain ⟨hstack, hcolumns⟩ := ih (h.filter htest) htests
    rw [List.append_assoc] at hstack
    exact ⟨hstack, hcolumns⟩

/-! ### Classifications -/

/-- The classifications below are those of the calls classified, each once. -/
structure Labelled (t : Table) (state : DocumentNode × List ModelCall) : Prop where
  calls : state.1.columns.map SemanticColumn.call = state.2
  nodup : state.2.Nodup
  named : ∀ c ∈ state.1.columns, ∃ label ∈ t.labels, c = Table.classify label

/-- One more classification. -/
lemma Labelled.add {classified : List ModelCall} (h : Labelled t (node, classified)) {label : NamedCall}
    (hlabel : label ∈ t.labels) (hnew : label.1 ∉ classified) :
    Labelled t (.over (.column (Table.classify label)) node, classified ++ [label.1]) := by
  refine ⟨?_, ?_, ?_⟩
  · show (node.columns ++ [Table.classify label]).map SemanticColumn.call = classified ++ [label.1]
    rw [List.map_append, h.calls]
    rfl
  · exact List.nodup_append.2 ⟨h.nodup, List.nodup_singleton _, fun a ha b hb heq =>
      hnew (List.mem_singleton.1 hb ▸ heq ▸ ha)⟩
  · intro c hc
    obtain hc | hc := List.mem_append.1 hc
    · exact h.named c hc
    · exact ⟨label, hlabel, List.mem_singleton.1 hc⟩

/-- A named classification among those classified stands below under its own name. -/
lemma Labelled.mem_columns {state : DocumentNode × List ModelCall} (h : Labelled t state)
    (hnodup : (t.labels.map Prod.fst).Nodup) {label : NamedCall} (hlabel : label ∈ t.labels)
    (hcall : label.1 ∈ state.2) : Table.classify label ∈ state.1.columns := by
  rw [← h.calls] at hcall
  obtain ⟨c, hc, hcall⟩ := List.mem_map.1 hcall
  obtain ⟨label', hlabel', rfl⟩ := h.named c hc
  obtain rfl : label' = label := List.inj_on_of_nodup_map hnodup hlabel' hlabel hcall
  exact hc

/-- A call of the dictionary is one of the classifications. -/
lemma mem_labels_of_calls {name : String} {call : ModelCall} (h : t.calls.get? name = some call) :
    (call, name) ∈ t.labels := by
  unfold Table.calls at h
  generalize t.labels = labels at h ⊢
  induction labels using List.reverseRecOn with
  | nil => cases h
  | append_singleton labels label ih =>
    rw [List.foldl_append, List.foldl_cons, List.foldl_nil, Dict.get?_set] at h
    split_ifs at h with hname
    · obtain rfl := Option.some_inj.1 h
      exact List.mem_append_right _ (List.mem_singleton.2 (Prod.ext rfl hname.symm))
    · exact List.mem_append_left _ (ih h)

lemma contains_calls {name : String} : t.calls.contains name ↔ ∃ call, (call, name) ∈ t.labels := by
  constructor
  · intro h
    obtain ⟨call, hcall⟩ := Dict.contains_iff.1 h
    exact ⟨call, mem_labels_of_calls hcall⟩
  · rintro ⟨call, hcall⟩
    exact Dict.contains_iff_mem_keys.2 (Dict.mem_keys_foldl_set.2 (.inr ⟨(call, name), hcall, rfl⟩))

/-- Whatever a filter tests of the labels is classified below it. -/
lemma classifyTested_run {state : DocumentNode × List ModelCall}
    (hstack : Stack t scanConditions filters state.1) (hlabelled : Labelled t state) (names : List String) :
    let state' := names.foldl (classifyTested t.calls) state
    Stack t scanConditions filters state'.1 ∧ Labelled t state' ∧ (∀ call ∈ state.2, call ∈ state'.2) ∧
      ∀ name ∈ names, ∀ call, t.calls.get? name = some call → call ∈ state'.2 := by
  induction names generalizing state with
  | nil => exact ⟨hstack, hlabelled, fun _ h => h, fun _ h => nomatch h⟩
  | cons name names ih =>
    have hstep : Stack t scanConditions filters (classifyTested t.calls state name).1 ∧
        Labelled t (classifyTested t.calls state name) ∧
        (∀ call ∈ state.2, call ∈ (classifyTested t.calls state name).2) ∧
        ∀ call, t.calls.get? name = some call → call ∈ (classifyTested t.calls state name).2 := by
      unfold classifyTested
      cases hget : t.calls.get? name with
      | none => exact ⟨hstack, hlabelled, fun _ h => h, fun _ h => nomatch h⟩
      | some call =>
        simp only [Option.some_inj]
        split_ifs with hcall
        · exact ⟨hstack, hlabelled, fun _ h => h, fun call' h => h ▸ hcall⟩
        · refine ⟨hstack.column _, hlabelled.add (mem_labels_of_calls hget) hcall, fun c h => ?_, fun call' h => ?_⟩
          · exact List.mem_append_left _ h
          · exact List.mem_append_right _ (List.mem_singleton.2 h.symm)
    obtain ⟨hstack', hlabelled', hmono, hname⟩ := hstep
    obtain ⟨hstack'', hlabelled'', hmono', hnames⟩ := ih hstack' hlabelled'
    refine ⟨hstack'', hlabelled'', fun call h => hmono' call (hmono call h), ?_⟩
    exact List.forall_mem_cons.2 ⟨fun call h => hmono' call (hname call h), hnames⟩

/-- Whether a filter reads source columns and labels of the table. -/
def ReadsLabels (t : Table) (test : Hinted) : Prop :=
  ∀ ref ∈ test.1.references, ref.table = t.table ∧ (ref.column ∈ t.schema ∨ t.calls.contains ref.column)

/-- Whether a filter reads source columns of the table and columns its operators add. -/
def ReadsAnswers (t : Table) (test : Hinted) : Prop :=
  ∀ ref ∈ test.1.references, ref.table = t.table ∧
    (ref.column ∈ t.schema ∨ ∃ c ∈ t.columnOperators, ref.column ∈ c.addedColumns)

lemma mem_conditionColumns {condition : ColumnCondition} {column : String} :
    column ∈ conditionColumns condition ↔ ∃ ref ∈ condition.references, ref.column = column := by
  rw [conditionColumns, List.mem_eraseDups, List.mem_map]

/-- The label filters stand above the classifications they test. -/
lemma addLabelFilters_ok {listed : ColumnCondition → Bool} (ht : t ∈ r.tables) {tests : List Hinted}
    {state : DocumentNode × List ModelCall} (hreads : ∀ test ∈ tests, ReadsLabels t test)
    (h : tests.foldlM (addLabelFilter listed t.calls) (t.base scanConditions, []) = .ok state) :
    Stack t scanConditions (tests.map Prod.fst) state.1 ∧ Labelled t state := by
  refine foldlM_ok (fun past state => Stack t scanConditions (past.map Prod.fst) state.1 ∧ Labelled t state)
    ⟨Stack.base.1, ?_⟩ (fun past state state' test htest hpast hstep => ?_) h
  · refine ⟨?_, List.nodup_nil, fun c hc => ?_⟩
    · rw [Stack.base.2, List.map_nil]
    · rw [Stack.base.2] at hc
      cases hc
  obtain ⟨hstack, hlabelled⟩ := hpast
  obtain ⟨hstack', hlabelled', -, hcalls⟩ :=
    classifyTested_run hstack hlabelled (conditionColumns test.1)
  simp only [addLabelFilter] at hstep
  split_ifs at hstep
  obtain rfl := Except.ok.inj hstep
  rw [List.map_append]
  refine ⟨hstack'.filter fun ref href => ?_, ⟨hlabelled'.calls, hlabelled'.nodup, hlabelled'.named⟩⟩
  obtain ⟨htable, hcolumn⟩ := hreads test htest ref href
  rw [ColumnRef.key, htable]
  obtain hsource | hlabel := hcolumn
  · exact hstack'.source hsource
  · obtain ⟨call, hget⟩ := Dict.contains_iff.1 hlabel
    have hlabel := mem_labels_of_calls hget
    have hbelow := hcalls ref.column (mem_conditionColumns.2 ⟨ref, href, rfl⟩) call hget
    refine provides_added ht (List.mem_append_left _ (List.mem_map_of_mem hlabel))
      (hlabelled'.mem_columns (r.labels t ht) hlabel hbelow) (name_mem_addedColumns _)

/-- Every classification stands below, once. -/
lemma addLabels_run (hnodup : (t.labels.map Prod.fst).Nodup) {state : DocumentNode × List ModelCall}
    (hstack : Stack t scanConditions filters state.1) (hlabelled : Labelled t state) :
    Stack t scanConditions filters (t.labels.foldl addLabel state).1 ∧
      (t.labels.foldl addLabel state).1.columns.Perm (t.labels.map Table.classify) := by
  suffices hrun : ∀ labels : List NamedCall, (∀ label ∈ labels, label ∈ t.labels) →
      ∀ state : DocumentNode × List ModelCall, Stack t scanConditions filters state.1 → Labelled t state →
      Stack t scanConditions filters (labels.foldl addLabel state).1 ∧ Labelled t (labels.foldl addLabel state) ∧
        (∀ call ∈ state.2, call ∈ (labels.foldl addLabel state).2) ∧
        ∀ label ∈ labels, label.1 ∈ (labels.foldl addLabel state).2 by
    obtain ⟨hstack', hlabelled', -, hall⟩ := hrun t.labels (fun _ h => h) state hstack hlabelled
    refine ⟨hstack', (List.perm_ext_iff_of_nodup ?_ ?_).2 fun c => ?_⟩
    · exact .of_map _ (hlabelled'.calls ▸ hlabelled'.nodup)
    · refine .of_map SemanticColumn.call ?_
      rw [List.map_map]
      exact hnodup
    · constructor
      · intro hc
        obtain ⟨label, hlabel, rfl⟩ := hlabelled'.named c hc
        exact List.mem_map_of_mem hlabel
      · intro hc
        obtain ⟨label, hlabel, rfl⟩ := List.mem_map.1 hc
        exact hlabelled'.mem_columns hnodup hlabel (hall label hlabel)
  intro labels
  induction labels with
  | nil => exact fun _ state hstack hlabelled => ⟨hstack, hlabelled, fun _ h => h, fun _ h => nomatch h⟩
  | cons label labels ih =>
    intro hmem state hstack hlabelled
    obtain ⟨hlabel, hmem⟩ := List.forall_mem_cons.1 hmem
    have hstep : Stack t scanConditions filters (addLabel state label).1 ∧ Labelled t (addLabel state label) ∧
        (∀ call ∈ state.2, call ∈ (addLabel state label).2) ∧ label.1 ∈ (addLabel state label).2 := by
      unfold addLabel
      split_ifs with hcall
      · exact ⟨hstack, hlabelled, fun _ h => h, hcall⟩
      · exact ⟨hstack.column _, hlabelled.add hlabel hcall, fun _ h => List.mem_append_left _ h,
          List.mem_append_right _ (List.mem_singleton_self _)⟩
    obtain ⟨hstack', hlabelled', hmono, hin⟩ := hstep
    obtain ⟨hstack'', hlabelled'', hmono', hrest⟩ := ih hmem _ hstack' hlabelled'
    exact ⟨hstack'', hlabelled'', fun call h => hmono' call (hmono call h),
      List.forall_mem_cons.2 ⟨hmono' _ hin, hrest⟩⟩

/-! ### Column operators -/

/-- What an operator adds, a test may wait for. -/
lemma addedColumns_subset_answers {c : SemanticColumn} (hc : c ∈ t.columnOperators) {column : String}
    (h : column ∈ c.addedColumns) : column ∈ t.answers := by
  refine List.mem_flatMap.2 ⟨c, hc, ?_⟩
  unfold SemanticColumn.addedColumns at h
  split at h
  · -- a classification is no column operator
    rename_i hkind
    simp only [Table.columnOperators, List.mem_append, List.mem_map] at hc
    obtain (⟨call, _, rfl⟩ | ⟨call, _, rfl⟩) | ⟨call, _, rfl⟩ := hc <;> cases hkind
  · exact h
  · exact List.mem_cons.2 (.inl (List.mem_singleton.1 h))
  · exact List.mem_cons.2 (.inl (List.mem_singleton.1 h))

/-- The operators are stacked, each under the tests that read its columns last. -/
lemma addColumns_run (ht : t ∈ r.tables) {tests : List Hinted} (hreads : ∀ test ∈ tests, ReadsAnswers t test)
    (hstack : Stack t scanConditions filters node) (columns : List SemanticColumn)
    (hcolumns : ∀ c ∈ columns, c ∈ t.columnOperators) :
    let state := columns.foldl (addColumn t.answers) ⟨node, tests, []⟩
    state.node.columns = node.columns ++ columns ∧ state.done = columns.flatMap SemanticColumn.addedColumns ∧
      ∃ placed : List Hinted, Stack t scanConditions (filters ++ placed.map Prod.fst) state.node ∧
        (placed ++ state.tests).Perm tests := by
  induction columns using List.reverseRecOn with
  | nil =>
    refine ⟨(List.append_nil _).symm, rfl, [], ?_, .rfl⟩
    rwa [List.map_nil, List.append_nil]
  | append_singleton past column ih =>
    obtain ⟨hbelow, hdone, placed, hplaced, hperm⟩ := ih fun c hc => hcolumns c (List.mem_append_left _ hc)
    rw [List.foldl_append, List.foldl_cons, List.foldl_nil]
    set state := past.foldl (addColumn t.answers) ⟨node, tests, []⟩ with hstate
    set done := state.done ++ column.addedColumns with hdone'
    have hdones : done = (past ++ [column]).flatMap SemanticColumn.addedColumns := by
      rw [hdone', hdone, List.flatMap_append, List.flatMap_singleton]
    have hcolumn : (DocumentNode.over (.column column) state.node).columns = node.columns ++ (past ++ [column]) := by
      rw [← List.append_assoc, ← hbelow]
      rfl
    -- a test that is ready reads what stands below
    have hready : ∀ test ∈ state.tests.filter (ready t.answers done), ∀ ref ∈ test.1.references,
        (DocumentNode.over (.column column) state.node).Provides ref.key := by
      intro test htest ref href
      obtain ⟨htest, hready⟩ := List.mem_filter.1 htest
      obtain ⟨htable, hread⟩ := hreads test (hperm.mem_iff.1 (List.mem_append_right _ htest)) ref href
      rw [ColumnRef.key, htable]
      obtain hsource | ⟨c, hc, hadded⟩ := hread
      · exact (hplaced.column column).source hsource
      · have hcond := List.all_eq_true.1 hready ref.column (mem_conditionColumns.2 ⟨ref, href, rfl⟩)
        rw [Bool.or_eq_true, decide_eq_true_iff, decide_eq_true_iff] at hcond
        have hin := hcond.resolve_left (not_not.2 (addedColumns_subset_answers hc hadded))
        rw [hdones] at hin
        obtain ⟨c', hc', hadded'⟩ := List.mem_flatMap.1 hin
        refine provides_added ht (List.mem_append_right _ (hcolumns c' hc')) ?_ hadded'
        rw [hcolumn]
        exact List.mem_append_right _ hc'
    obtain ⟨hstack', hcolumns'⟩ := (hplaced.column column).filterAll hready
    refine ⟨hcolumns'.trans hcolumn, hdones, placed ++ state.tests.filter (ready t.answers done), ?_, ?_⟩
    · rw [List.map_append, ← List.append_assoc]
      exact hstack'
    · rw [List.append_assoc]
      exact ((List.filter_append_perm _ _).append_left _).trans hperm

/-- What `add_scan` gives a table. -/
lemma addScan_ok {listed : ColumnCondition → Bool} (ht : t ∈ r.tables) {tests : List Hinted}
    (hreads : ∀ test ∈ tests,
      if (conditionColumns test.1).any (t.calls.contains ·) then ReadsLabels t test else ReadsAnswers t test)
    (h : addScan listed t scanConditions tests = .ok node) :
    node.scans = [t.scan scanConditions] ∧ node.filters.Perm (tests.map Prod.fst) ∧
      node.columns.Perm (t.labels.map Table.classify ++ t.columnOperators) ∧ node.Wired := by
  simp only [addScan] at h
  obtain ⟨state, hstate, h⟩ := bind_eq_ok h
  set testsLabel := fun test : Hinted => (conditionColumns test.1).any (t.calls.contains ·) with htestsLabel
  have hlabel : ∀ test ∈ tests.filter testsLabel, ReadsLabels t test := fun test htest => by
    obtain ⟨hmem, hcond⟩ := List.mem_filter.1 htest
    have hread := hreads test hmem
    rwa [if_pos hcond] at hread
  have hanswer : ∀ test ∈ tests.filter (fun test => !testsLabel test), ReadsAnswers t test := fun test htest => by
    obtain ⟨hmem, hcond⟩ := List.mem_filter.1 htest
    have hread := hreads test hmem
    rw [Bool.not_eq_true'] at hcond
    rwa [if_neg (ne_true_of_eq_false hcond)] at hread
  obtain ⟨hstack, hlabelled⟩ := addLabelFilters_ok ht hlabel hstate
  obtain ⟨hstack', hlabels⟩ := addLabels_run (r.labels t ht) hstack hlabelled
  obtain ⟨hcolumns, -, placed, hplaced, hperm⟩ :=
    addColumns_run ht hanswer hstack' t.columnOperators fun _ hc => hc
  set columns := t.columnOperators.foldl (addColumn t.answers) _
  cases hleft : columns.tests with
  | cons test rest =>
    rw [hleft] at h
    cases h
  | nil =>
    rw [hleft] at h
    obtain rfl := Except.ok.inj h
    refine ⟨hplaced.scans, ?_, ?_, hplaced.wired⟩
    · rw [hleft, List.append_nil] at hperm
      rw [hplaced.filters, ← List.map_append]
      exact (((hperm.append_left _).trans (List.filter_append_perm _ _))).map _
    · rw [hcolumns]
      exact hlabels.append_right _

/-- A test that is placed above the operators of a table reads what they and the table provide. -/
lemma reads_of_place (ht : t ∈ r.tables) {test : Hinted}
    (hplace : place r.computed r.unnested test.1 = .computed t.table)
    (hresolves : ∀ ref ∈ test.1.references, r.Resolves ref) :
    if (conditionColumns test.1).any (t.calls.contains ·) then ReadsLabels t test else ReadsAnswers t test := by
  obtain ⟨hunnested, kind, ⟨tested, htested, name, howner⟩, hrefs⟩ := place_computed hplace
  have hkey : ∀ ref ∈ test.1.references, ref.key = (t.table, ref.column) := fun ref href =>
    Prod.ext (hrefs ref href).1 rfl
  have hsource : ∀ ref ∈ test.1.references, r.computed ref.key = none → ref.column ∈ t.schema := by
    intro ref href hnone
    obtain hin | hsome | ⟨t', ht', htable, hcolumn⟩ := hresolves ref href
    · exact absurd ((hrefs ref href).1 ▸ hin) hunnested
    · rw [hnone] at hsome
      cases hsome
    · obtain rfl := Relation.eq_of_table ht' ht (htable.trans (hrefs ref href).1)
      exact hcolumn
  have hlabels : (conditionColumns test.1).any (t.calls.contains ·) ↔ kind = .label := by
    constructor
    · intro hany
      obtain ⟨column, hcolumn, hcontains⟩ := List.any_eq_true.1 hany
      obtain ⟨ref, href, rfl⟩ := mem_conditionColumns.1 hcolumn
      obtain ⟨call, hcall⟩ := contains_calls.1 hcontains
      have hlabel := Relation.computed_of_label ht hcall
      obtain hnone | ⟨name', hsome⟩ := (hrefs ref href).2
      · rw [hkey ref href, hlabel] at hnone
        cases hnone
      · rw [hkey ref href, hlabel] at hsome
        exact (Prod.mk.inj (Option.some_inj.1 hsome)).1.symm
    · rintro rfl
      rw [hkey tested htested] at howner
      obtain ⟨call, hcall⟩ := Relation.computed_label ht howner
      exact List.any_eq_true.2 ⟨tested.column, mem_conditionColumns.2 ⟨tested, htested, rfl⟩,
        contains_calls.2 ⟨call, hcall⟩⟩
  split_ifs with hany
  · obtain rfl := hlabels.1 hany
    refine fun ref href => ⟨(hrefs ref href).1, ?_⟩
    obtain hnone | ⟨name', hsome⟩ := (hrefs ref href).2
    · exact .inl (hsource ref href hnone)
    · rw [hkey ref href] at hsome
      exact .inr (contains_calls.2 (Relation.computed_label ht hsome))
  · refine fun ref href => ⟨(hrefs ref href).1, ?_⟩
    obtain hnone | ⟨name', hsome⟩ := (hrefs ref href).2
    · exact .inl (hsource ref href hnone)
    · rw [hkey ref href] at hsome
      exact .inr (Relation.computed_operator ht hsome fun hkind => hany (hlabels.2 hkind))

end

/-! ## Joined tables -/

section
variable {nodes : Dict String DocumentNode} {root root' : DocumentNode} {names : List String}
  {labels : List NamedCall}

/-- A relation that holds the named tables, and classifications of their pairs. -/
structure Joined (nodes : Dict String DocumentNode) (names : List String) (labels : List NamedCall)
    (root : DocumentNode) : Prop where
  scans : root.scans.Perm (names.flatMap fun name => (nodes.get? name).elim [] DocumentNode.scans)
  filters : root.filters.Perm (names.flatMap fun name => (nodes.get? name).elim [] DocumentNode.filters)
  columns : root.columns.Perm
    (names.flatMap (fun name => (nodes.get? name).elim [] DocumentNode.columns) ++ labels.map Table.classify)
  wired : root.Wired

lemma Joined.first {name : String} (h : nodes.get? name = some root) (hwired : root.Wired) :
    Joined nodes [name] [] root := by
  refine ⟨?_, ?_, ?_, hwired⟩
  all_goals simp [h]

/-- One more table. -/
lemma Joined.table (hnodes : ∀ name node, nodes.get? name = some node → node.Wired)
    (h : Joined nodes names [] root) {name : String} (hjoin : joinTable nodes root name = .ok root') :
    Joined nodes (names ++ [name]) [] root' := by
  unfold joinTable at hjoin
  cases hget : nodes.get? name with
  | none =>
    rw [hget] at hjoin
    cases hjoin
  | some node =>
    rw [hget] at hjoin
    obtain rfl := Except.ok.inj hjoin
    refine ⟨?_, ?_, ?_, h.wired, hnodes name node hget⟩
    · rw [List.flatMap_append, List.flatMap_singleton, hget]
      exact h.scans.append_right _
    · rw [List.flatMap_append, List.flatMap_singleton, hget]
      exact h.filters.append_right _
    · have hcolumns := h.columns
      rw [List.map_nil, List.append_nil] at hcolumns ⊢
      rw [List.flatMap_append, List.flatMap_singleton, hget]
      exact hcolumns.append_right _

/-- Several more tables. -/
lemma Joined.tables (hnodes : ∀ name node, nodes.get? name = some node → node.Wired)
    (h : Joined nodes names [] root) {more : List String} (hjoin : more.foldlM (joinTable nodes) root = .ok root') :
    Joined nodes (names ++ more) [] root' := by
  refine foldlM_ok (fun past root => Joined nodes (names ++ past) [] root) ?_ ?_ hjoin
  · rwa [List.append_nil]
  · intro past b b' name _ hpast hstep
    rw [← List.append_assoc]
    exact hpast.table hnodes hstep

lemma Joined.onLast (h : Joined nodes names [] root) {on : List Equality} (hon : Quail.Logical.onLast on root = .ok root') :
    Joined nodes names [] root' := by
  unfold Quail.Logical.onLast at hon
  simp only at hon
  split_ifs at hon
  · obtain rfl := Except.ok.inj hon
    exact h
  · cases root with
    | join left right on' =>
      obtain rfl := Except.ok.inj hon
      exact ⟨h.scans, h.filters, h.columns, h.wired⟩
    | scan s => cases hon
    | «over» op input => cases hon

/-- A join with its tables. -/
lemma Joined.join (hnodes : ∀ name node, nodes.get? name = some node → node.Wired)
    (h : Joined nodes names [] root) {join : JoinSpec} (hjoin : addJoin nodes root join = .ok root') :
    Joined nodes (names ++ join.tables) [] root' := by
  obtain ⟨joined, htables, hjoin⟩ := bind_eq_ok hjoin
  obtain ⟨last, hlast, hjoin⟩ := bind_eq_ok hjoin
  obtain rfl := Except.ok.inj hjoin
  have hjoined := (h.tables hnodes htables).onLast hlast
  exact ⟨hjoined.scans, hjoined.filters, hjoined.columns, hjoined.wired⟩

/-- A classification goes above the join of its pair, and changes nothing else. -/
lemma insertClassify_ok {call : ModelCall} {name : String} {node node' : DocumentNode}
    (h : insertClassify call name node = .ok node') :
    node'.scans = node.scans ∧ node'.filters = node.filters ∧
      node'.columns.Perm (node.columns ++ [Table.classify (call, name)]) ∧ (node.Wired → node'.Wired) := by
  induction node generalizing node' with
  | scan s => cases h
  | join left right on ihl ihr =>
    obtain ⟨left', hleft, h⟩ := bind_eq_ok h
    obtain rfl := Except.ok.inj h
    obtain ⟨hscans, hfilters, hcolumns, hwired⟩ := ihl hleft
    refine ⟨congrArg (· ++ right.scans) hscans, congrArg (· ++ right.filters) hfilters, ?_,
      fun hw => ⟨hwired hw.1, hw.2⟩⟩
    refine (hcolumns.append_right right.columns).trans ?_
    show (left.columns ++ [_] ++ right.columns).Perm (left.columns ++ right.columns ++ [_])
    rw [List.append_assoc, List.append_assoc]
    exact List.perm_append_comm.append_left _
  | «over» op input ih =>
    cases op with
    | semanticFilter predicates stopKey => cases h
    | filter condition => cases h
    | column c =>
      unfold insertClassify at h
      split_ifs at h
      · obtain ⟨input', hinput, h⟩ := bind_eq_ok h
        obtain rfl := Except.ok.inj h
        obtain ⟨hscans, hfilters, hcolumns, hwired⟩ := ih hinput
        refine ⟨hscans, hfilters, ?_, hwired⟩
        refine (hcolumns.append_right [c]).trans ?_
        show (input.columns ++ [_] ++ [c]).Perm (input.columns ++ [c] ++ [_])
        rw [List.append_assoc, List.append_assoc]
        exact List.perm_append_comm.append_left _
    | semanticJoin predicate semantics anchor =>
      unfold insertClassify at h
      split_ifs at h
      · obtain rfl := Except.ok.inj h
        exact ⟨rfl, rfl, .rfl, fun hw => hw⟩
      · obtain ⟨input', hinput, h⟩ := bind_eq_ok h
        obtain rfl := Except.ok.inj h
        obtain ⟨hscans, hfilters, hcolumns, hwired⟩ := ih hinput
        exact ⟨hscans, hfilters, hcolumns, hwired⟩

/-- A classification of joined pairs. -/
lemma Joined.classify (h : Joined nodes names labels root) {label : NamedCall}
    (hlabel : addClassify root label = .ok root') : Joined nodes names (labels ++ [label]) root' := by
  unfold addClassify at hlabel
  split_ifs at hlabel
  obtain ⟨hscans, hfilters, hcolumns, hwired⟩ := insertClassify_ok hlabel
  refine ⟨hscans ▸ h.scans, hfilters ▸ h.filters, ?_, hwired h.wired⟩
  rw [List.map_append, ← List.append_assoc]
  exact hcolumns.trans (h.columns.append_right _)

end

/-! ## The relation of documents -/

section
variable {r : Relation} {listed : ColumnCondition → Bool} {placed : PlacedConditions}

/-- What a relation of documents holds: every table's Scan with its conditions, its Filters and its operators. -/
structure Built (r : Relation) (placed : PlacedConditions) (root : DocumentNode) : Prop where
  scans : root.scans.Perm (r.tables.map fun t => t.scan ((placed.scans.get? t.table).getD []))
  filters : root.filters.Perm (r.tables.flatMap fun t => ((placed.computed.get? t.table).getD []).map Prod.fst)
  columns : root.columns.Perm
    (r.tables.flatMap (fun t => t.labels.map Table.classify ++ t.columnOperators) ++
      r.pairLabels.map Table.classify)
  wired : root.Wired

/-- The tables' nodes. -/
lemma addScans_ok {nodes : Dict String DocumentNode}
    (hreads : ∀ t ∈ r.tables, ∀ test ∈ (placed.computed.get? t.table).getD [],
      if (conditionColumns test.1).any (t.calls.contains ·) then ReadsLabels t test else ReadsAnswers t test)
    (h : r.tables.foldlM (addScans listed placed) Dict.empty = .ok nodes) :
    (∀ t ∈ r.tables, ∃ node, nodes.get? t.table = some node ∧
      node.scans = [t.scan ((placed.scans.get? t.table).getD [])] ∧
      node.filters.Perm (((placed.computed.get? t.table).getD []).map Prod.fst) ∧
      node.columns.Perm (t.labels.map Table.classify ++ t.columnOperators)) ∧
      ∀ name node, nodes.get? name = some node → node.Wired := by
  refine foldlM_ok (fun past nodes => (∀ t ∈ past, ∃ node, nodes.get? t.table = some node ∧
      node.scans = [t.scan ((placed.scans.get? t.table).getD [])] ∧
      node.filters.Perm (((placed.computed.get? t.table).getD []).map Prod.fst) ∧
      node.columns.Perm (t.labels.map Table.classify ++ t.columnOperators)) ∧
      ∀ name node, nodes.get? name = some node → node.Wired)
    ⟨fun _ h => (nomatch h), fun _ _ h => nomatch h⟩ (fun past nodes nodes' t ht hpast hstep => ?_) h
  unfold addScans at hstep
  split_ifs at hstep with hnew
  obtain ⟨node, hnode, hstep⟩ := bind_eq_ok hstep
  obtain rfl := Except.ok.inj hstep
  obtain ⟨hscans, hfilters, hcolumns, hwired⟩ := addScan_ok ht (hreads t ht) hnode
  rw [Bool.not_eq_true, Dict.contains_eq_false] at hnew
  refine ⟨fun t' ht' => ?_, fun name node' hget => ?_⟩
  · obtain ht' | ht' := List.mem_append.1 ht'
    · obtain ⟨node', hget, hnode'⟩ := hpast.1 t' ht'
      have hne : t.table ≠ t'.table := by
        intro heq
        rw [heq, hget] at hnew
        cases hnew
      exact ⟨node', by rw [Dict.get?_set_ne hne, hget], hnode'⟩
    · obtain rfl := List.mem_singleton.1 ht'
      exact ⟨node, Dict.get?_set_self, hscans, hfilters, hcolumns⟩
  · rw [Dict.get?_set] at hget
    split_ifs at hget
    · obtain rfl := Option.some_inj.1 hget
      exact hwired
    · exact hpast.2 name node' hget

/-- What `place_relation` builds. -/
lemma buildRelation_ok {root : DocumentNode}
    (hreads : ∀ t ∈ r.tables, ∀ test ∈ (placed.computed.get? t.table).getD [],
      if (conditionColumns test.1).any (t.calls.contains ·) then ReadsLabels t test else ReadsAnswers t test)
    (h : buildRelation listed r placed = .ok root) : Built r placed root := by
  obtain ⟨nodes, hnodes, h⟩ := bind_eq_ok h
  obtain ⟨htables, hwired⟩ := addScans_ok hreads hnodes
  cases hfirst : r.tables.head?.bind fun t => nodes.get? t.table with
  | none =>
    rw [hfirst] at h
    cases h
  | some first =>
    rw [hfirst] at h
    obtain ⟨joined, hjoins, h⟩ := bind_eq_ok h
    obtain ⟨crossed, hcrossed, hlabels⟩ := bind_eq_ok h
    obtain ⟨t, ht, hget⟩ := Option.bind_eq_some_iff.1 hfirst
    have hjoined : Joined nodes ([t.table] ++ r.joins.flatMap JoinSpec.tables) [] joined := by
      refine foldlM_ok (fun past root => Joined nodes ([t.table] ++ past.flatMap JoinSpec.tables) [] root)
        (.first hget (hwired _ _ hget)) (fun past b b' join _ hpast hstep => ?_) hjoins
      rw [List.flatMap_append, List.flatMap_singleton, ← List.append_assoc]
      exact hpast.join hwired hstep
    have hall := hjoined.tables hwired hcrossed
    have hlabelled : Joined nodes ([t.table] ++ r.joins.flatMap JoinSpec.tables ++ r.crossed) r.pairLabels root :=
      foldlM_ok (fun past root => Joined nodes _ past root) hall
        (fun past b b' label _ hpast hstep => hpast.classify hstep) hlabels
    have hnames : ([t.table] ++ r.joins.flatMap JoinSpec.tables ++ r.crossed).Perm (r.tables.map Table.table) := by
      obtain ⟨rest, hrest⟩ : ∃ rest, r.tables = t :: rest := by
        cases htables' : r.tables with
        | nil =>
          rw [htables'] at ht
          cases ht
        | cons t' rest =>
          rw [htables'] at ht
          obtain rfl := Option.some_inj.1 ht
          exact ⟨rest, rfl⟩
      have hbrought := r.brought
      rw [hrest, List.map_cons, List.tail_cons] at hbrought
      rw [hrest, List.map_cons, List.append_assoc]
      exact hbrought.cons _
    refine ⟨?_, ?_, ?_, hlabelled.wired⟩
    · refine hlabelled.scans.trans ((hnames.flatMap_right _).trans ?_)
      rw [List.flatMap_map, List.map_eq_flatMap]
      refine List.Perm.flatMap_left _ fun t' ht' => ?_
      obtain ⟨node, hnode, hscans, -⟩ := htables t' ht'
      rw [hnode]
      exact .of_eq hscans
    · refine hlabelled.filters.trans ((hnames.flatMap_right _).trans ?_)
      rw [List.flatMap_map]
      refine List.Perm.flatMap_left _ fun t' ht' => ?_
      obtain ⟨node, hnode, -, hfilters, -⟩ := htables t' ht'
      rw [hnode]
      exact hfilters
    · refine hlabelled.columns.trans (((hnames.flatMap_right _).trans ?_).append_right _)
      rw [List.flatMap_map]
      refine List.Perm.flatMap_left _ fun t' ht' => ?_
      obtain ⟨node, hnode, -, -, hcolumns⟩ := htables t' ht'
      rw [hnode]
      exact hcolumns

end

/-! ## Result rows -/

/-- The Filters on result rows, each with the rows it reads. -/
def RowNode.filters : RowNode → List (ColumnCondition × RowNode)
  | .project _ _ _ => []
  | .over (.filter condition) input => input.filters ++ [(condition, input)]
  | .over _ input => input.filters

/-- The rows over the same documents, with more Filters that read the rows below them. -/
structure Tested (node : RowNode) (tests : List ColumnCondition) (node' : RowNode) : Prop where
  documents : node'.documents = node.documents
  filters : (node'.filters.map Prod.fst).Perm (node.filters.map Prod.fst ++ tests)
  readable : (∀ f ∈ node.filters, ∀ name ∈ resultColumnsRead f.1, name ∈ f.2.readableColumns) →
    ∀ f ∈ node'.filters, ∀ name ∈ resultColumnsRead f.1, name ∈ f.2.readableColumns

lemma Tested.refl (node : RowNode) : Tested node [] node := ⟨rfl, by rw [List.append_nil], fun h => h⟩

lemma Tested.trans {node node' node'' : RowNode} {tests tests' : List ColumnCondition}
    (h : Tested node tests node') (h' : Tested node' tests' node'') : Tested node (tests ++ tests') node'' := by
  refine ⟨h'.documents.trans h.documents, ?_, fun hread => h'.readable (h.readable hread)⟩
  rw [← List.append_assoc]
  exact h'.filters.trans (h.filters.append_right _)

/-- Filters over rows that hold what they read. -/
lemma Tested.filterAll {node : RowNode} {tests : List ColumnCondition}
    (h : ∀ test ∈ tests, ∀ name ∈ resultColumnsRead test, name ∈ node.readableColumns) :
    Tested node tests (tests.foldl (fun node test => .over (.filter test) node) node) := by
  induction tests generalizing node with
  | nil => exact .refl node
  | cons test tests ih =>
    obtain ⟨htest, htests⟩ := List.forall_mem_cons.1 h
    -- a Filter leaves the readable columns as they are
    have hrest : Tested (.over (.filter test) node) tests _ := ih htests
    have hfirst : Tested node [test] (.over (.filter test) node) := by
      refine ⟨rfl, ?_, fun hread f hf => ?_⟩
      · rw [RowNode.filters, List.map_append]
        rfl
      · obtain hf | hf := List.mem_append.1 hf
        · exact hread f hf
        · obtain rfl := List.mem_singleton.1 hf
          exact htest
    exact hfirst.trans hrest

lemma placeRowTests_ok {node node' : RowNode} {tests tests' : List ColumnCondition}
    (h : placeRowTests node tests = (node', tests')) :
    ∃ done, Tested node done node' ∧ (done ++ tests').Perm tests := by
  obtain ⟨rfl, rfl⟩ := Prod.mk.inj h
  refine ⟨_, .filterAll fun test htest name hname => ?_, List.filter_append_perm _ _⟩
  have hready := List.all_eq_true.1 (List.mem_filter.1 htest).2 name hname
  exact of_decide_eq_true hready

lemma addUnnests_ok {unnests : List (List String × Bool)} {node node' : RowNode}
    {tests tests' : List ColumnCondition} (h : addUnnests node tests unnests = .ok (node', tests')) :
    ∃ done, Tested node done node' ∧ (done ++ tests').Perm tests := by
  induction unnests generalizing node tests with
  | nil =>
    obtain ⟨rfl, rfl⟩ := Prod.mk.inj (Except.ok.inj h)
    exact ⟨[], .refl _, .rfl⟩
  | cons unnest unnests ih =>
    obtain ⟨columns, outer⟩ := unnest
    rw [addUnnests] at h
    split_ifs at h
    cases hplace : placeRowTests (.over (.unnest columns outer) node) tests with
    | mk middle left =>
      rw [hplace] at h
      obtain ⟨done, htested, hperm⟩ := placeRowTests_ok hplace
      obtain ⟨done', htested', hperm'⟩ := ih h
      have hunnest : Tested node [] (.over (.unnest columns outer) node) :=
        ⟨rfl, by rw [List.append_nil]; rfl, fun h => h⟩
      refine ⟨done ++ done', (hunnest.trans htested).trans htested', ?_⟩
      rw [List.append_assoc]
      exact (hperm'.append_left done).trans hperm

lemma unnestedRows_ok {node node' : RowNode} {unnests : List (List String × Bool)} {tests : List ColumnCondition}
    (h : unnestedRows node unnests tests = .ok node') : ∃ done, Tested node done node' ∧ done.Perm tests := by
  unfold unnestedRows at h
  cases hplace : placeRowTests node tests with
  | mk middle left =>
    simp only [hplace] at h
    obtain ⟨⟨last, rest⟩, hadd, h⟩ := bind_eq_ok h
    obtain ⟨done, htested, hperm⟩ := placeRowTests_ok hplace
    obtain ⟨done', htested', hperm'⟩ := addUnnests_ok hadd
    cases rest with
    | cons test rest => cases h
    | nil =>
      obtain rfl := Except.ok.inj h
      rw [List.append_nil] at hperm'
      exact ⟨done ++ done', htested.trans htested', (hperm'.append_left done).trans hperm⟩

/-- The nodes above the tested rows test nothing. -/
lemma above_eq (p : Projection) (returned : List String) (rowTests : List ColumnCondition) (node : RowNode) :
    (p.above returned rowTests node).documents = node.documents ∧
      (p.above returned rowTests node).filters = node.filters := by
  unfold Projection.above
  cases p.aggregation with
  | none =>
    simp only [Option.elim_none]
    split_ifs <;> exact ⟨rfl, rfl⟩
  | some aggregation =>
    simp only [Option.elim_some]
    split_ifs <;> exact ⟨rfl, rfl⟩

/-- The result rows test every part that is left for them, where the rows below hold what it reads. -/
lemma project_ok {root : DocumentNode} {p : Projection} {rowTests : List ColumnCondition} {rows : RowNode}
    (h : project root p rowTests = .ok rows) :
    rows.documents = root ∧
      (rows.filters.map Prod.fst).Perm
        (rowTests.map (resultRowCondition · (p.structs.flatMap ExtractStruct.packing))) ∧
      ∀ f ∈ rows.filters, ∀ name ∈ resultColumnsRead f.1, name ∈ f.2.readableColumns := by
  unfold project at h
  split_ifs at h
  obtain ⟨node, hnode, h⟩ := bind_eq_ok h
  obtain rfl := Except.ok.inj h
  obtain ⟨done, htested, hperm⟩ := unnestedRows_ok hnode
  obtain ⟨hdocuments, hfilters⟩ := above_eq p _ rowTests node
  rw [hdocuments, hfilters]
  refine ⟨htested.documents, ?_, htested.readable fun f hf => nomatch hf⟩
  exact htested.filters.trans hperm

/-! ## The plan -/

/-- A list by the values of a key. -/
lemma perm_flatMap_filter {α κ : Type} [DecidableEq κ] (key : α → κ) {keys : List κ} {xs : List α}
    (hnodup : keys.Nodup) (hall : ∀ x ∈ xs, key x ∈ keys) :
    xs.Perm (keys.flatMap fun k => xs.filter fun x => key x = k) := by
  induction xs with
  | nil => simp
  | cons x xs ih =>
    obtain ⟨hx, hxs⟩ := List.forall_mem_cons.1 hall
    obtain ⟨before, after, rfl⟩ := List.append_of_mem hx
    have hbefore : key x ∉ before := fun h =>
      (List.nodup_append.1 hnodup).2.2 _ h _ List.mem_cons_self rfl
    have hafter : key x ∉ after := (List.nodup_cons.1 (List.nodup_append.1 hnodup).2.1).1
    -- of the keys, only the element's own keeps it
    have hother : ∀ ks : List κ, key x ∉ ks → (ks.flatMap fun k => (x :: xs).filter fun y => key y = k) =
        ks.flatMap fun k => xs.filter fun y => key y = k := fun ks hks =>
      List.flatMap_congr fun k hk => List.filter_cons_of_neg (by
        rw [decide_eq_true_iff]
        rintro rfl
        exact hks hk)
    have hown : ((x :: xs).filter fun y => key y = key x) = x :: xs.filter fun y => key y = key x :=
      List.filter_cons_of_pos (decide_eq_true rfl)
    have hperm := ih hxs
    rw [List.flatMap_append, List.flatMap_cons] at hperm ⊢
    rw [hother before hbefore, hother after hafter, hown]
    exact (hperm.cons x).trans List.perm_middle.symm

section
variable {r : Relation}

lemma mem_references {condition : ColumnCondition} {ref : ColumnRef} :
    ref ∈ condition.references ↔ ∃ e ∈ condition.expressions, ref ∈ e.columnReferences := by
  rw [Condition.references, List.mem_flatMap]
  constructor
  · rintro ⟨test, htest, href⟩
    exact ⟨_, List.mem_map_of_mem htest, href⟩
  · rintro ⟨e, he, href⟩
    obtain ⟨test, htest, rfl⟩ := List.mem_map.1 he
    exact ⟨test, htest, href⟩

/-- A part reads what its condition does. -/
lemma references_partsOf {condition part : Hinted} (hpart : part ∈ partsOf condition) {ref : ColumnRef}
    (href : ref ∈ part.1.references) : ref ∈ condition.1.references := by
  obtain ⟨e, he, href⟩ := mem_references.1 href
  refine mem_references.2 ⟨e, mem_expressions_normalForm.1 ?_, href⟩
  unfold partsOf at hpart
  split at hpart
  · obtain ⟨conjunct, hconjunct, rfl⟩ := List.mem_map.1 hpart
    exact mem_expressions_conjuncts hconjunct he
  · obtain rfl := List.mem_singleton.1 hpart
    exact he

/-- A condition is true when its parts are. -/
lemma holds_partsOf {a : Assignment Expression Literal} {condition : Hinted} (hvalid : Valid condition.1) :
    Holds a condition.1 ↔ ∀ part ∈ partsOf condition, Holds a part.1 := by
  obtain ⟨v, hv⟩ := hvalid.evaluate_isSome (a := a)
  have hform := evaluate_normalForm hv
  have hholds : Holds a condition.1 ↔ Holds a condition.1.normalForm := by
    rw [Holds, Holds, hv, hform]
  rw [hholds]
  unfold partsOf
  split
  · rw [holds_conjuncts hform, List.forall_mem_map]
  · rw [List.forall_mem_singleton]

/-- A computed column belongs to a table of the relation. -/
lemma table_of_computed {key : ColumnKey} {owner : ComputedKind × String} (h : r.computed key = some owner) :
    ∃ t ∈ r.tables, t.table = key.1 := by
  have hmem := Relation.mem_entries_of_computed h
  simp only [Relation.entries, List.mem_append, List.mem_flatMap, Table.extracted, Table.computedBy,
    List.mem_map] at hmem
  obtain ((⟨t, ht, _, _, _, _, heq⟩ | ⟨t, ht, _, _, heq⟩) | ⟨t, ht, _, _, heq⟩) | ⟨t, ht, _, _, heq⟩ := hmem
  all_goals exact ⟨t, ht, congrArg (fun e => e.1.1) heq⟩

/-- Every part goes to the scan or above the operators of a table of the relation, or to the result rows. -/
lemma place_mem {part : ColumnCondition} (hresolves : ∀ ref ∈ part.references, r.Resolves ref) :
    place r.computed r.unnested part ∈
      r.tables.map (Place.scan ·.table) ++ r.tables.map (Place.computed ·.table) ++ [.rows] := by
  simp only [List.mem_append, List.mem_map, List.mem_singleton]
  cases hplace : place r.computed r.unnested part with
  | scan table =>
    obtain ⟨hunnested, hne, hrefs⟩ := place_scan hplace
    obtain ⟨ref, href⟩ := List.exists_mem_of_ne_nil _ hne
    obtain ⟨rfl, hnone⟩ := hrefs ref href
    obtain hin | hsome | ⟨t, ht, htable, -⟩ := hresolves ref href
    · exact absurd hin hunnested
    · rw [hnone] at hsome
      cases hsome
    · exact .inl (.inl ⟨t, ht, congrArg Place.scan htable⟩)
  | computed table =>
    obtain ⟨-, kind, ⟨ref, href, name, howner⟩, hrefs⟩ := place_computed hplace
    obtain ⟨rfl, -⟩ := hrefs ref href
    obtain ⟨t, ht, htable⟩ := table_of_computed howner
    exact .inl (.inr ⟨t, ht, congrArg Place.computed htable⟩)
  | rows => exact .inr rfl

lemma nodup_places : (r.tables.map (Place.scan ·.table) ++ r.tables.map (Place.computed ·.table) ++
    [Place.rows]).Nodup := by
  have hscan : (r.tables.map (Place.scan ·.table)).Nodup := by
    have h := r.aliases.map (f := Place.scan) fun _ _ h => Place.scan.inj h
    rwa [List.map_map] at h
  have hcomputed : (r.tables.map (Place.computed ·.table)).Nodup := by
    have h := r.aliases.map (f := Place.computed) fun _ _ h => Place.computed.inj h
    rwa [List.map_map] at h
  refine List.nodup_append.2 ⟨List.nodup_append.2 ⟨hscan, hcomputed, ?_⟩, List.nodup_singleton _, ?_⟩
  · rintro a ha b hb rfl
    obtain ⟨t, _, rfl⟩ := List.mem_map.1 ha
    obtain ⟨t', _, heq⟩ := List.mem_map.1 hb
    cases heq
  · rintro a ha b hb rfl
    obtain rfl := List.mem_singleton.1 hb
    obtain ha | ha := List.mem_append.1 ha
    all_goals
      obtain ⟨t, _, heq⟩ := List.mem_map.1 ha
      cases heq

/-- The operators of the tables and of the joined pairs are all different. -/
lemma nodup_operators : (r.tables.flatMap (fun t => t.labels.map Table.classify ++ t.columnOperators) ++
    r.pairLabels.map Table.classify).Nodup := by
  have hclassify : Function.Injective Table.classify := fun a b h =>
    Prod.ext (congrArg SemanticColumn.call h) (congrArg SemanticColumn.name h)
  refine List.nodup_append.2 ⟨List.nodup_flatMap.2 ⟨fun t ht => ?_, ?_⟩, r.pairs.map hclassify, ?_⟩
  · refine List.nodup_append.2 ⟨(List.Nodup.of_map _ (r.labels t ht)).map hclassify, r.operators t ht, ?_⟩
    rintro c hc c' hc' rfl
    obtain ⟨label, _, rfl⟩ := List.mem_map.1 hc
    simp only [Table.columnOperators, List.mem_append, List.mem_map] at hc'
    obtain (⟨_, _, h⟩ | ⟨_, _, h⟩) | ⟨_, _, h⟩ := hc'
    all_goals exact absurd (congrArg SemanticColumn.kind h) nofun
  · refine (List.pairwise_map.1 r.aliases).imp_of_mem fun {t t'} ht ht' hne => ?_
    refine List.disjoint_left.2 ?_
    intro c hc hc'
    have heq := (r.oneTable t ht c hc).symm.trans (r.oneTable t' ht' c hc')
    exact hne (List.singleton_inj.1 heq)
  · rintro c hc c' hc' rfl
    obtain ⟨t, ht, hc⟩ := List.mem_flatMap.1 hc
    obtain ⟨label, hlabel, rfl⟩ := List.mem_map.1 hc'
    have hone := congrArg List.length (r.oneTable t ht _ hc)
    have htwo := r.twoTables label hlabel
    rw [Table.classify, htwo] at hone
    cases hone

/-- A column that resolves is provided by the relation built, unless it is a field of an unnested list. -/
lemma Built.provides {placed : PlacedConditions} {root : DocumentNode} (h : Built r placed root) {ref : ColumnRef}
    (hresolves : r.Resolves ref) : ref.table ∈ r.unnested ∨ root.Provides ref.key := by
  obtain hin | hsome | ⟨t, ht, htable, hcolumn⟩ := hresolves
  · exact .inl hin
  · refine .inr ?_
    obtain ⟨⟨kind, name⟩, howner⟩ := Option.isSome_iff_exists.1 hsome
    obtain ⟨t, ht, htable⟩ := table_of_computed howner
    have hkey : ref.key = (t.table, ref.column) := Prod.ext htable.symm rfl
    rw [hkey] at howner ⊢
    have hmem : ∀ c ∈ t.labels.map Table.classify ++ t.columnOperators, c ∈ root.columns := fun c hc =>
      h.columns.mem_iff.2 (List.mem_append_left _ (List.mem_flatMap.2 ⟨t, ht, hc⟩))
    by_cases hkind : kind = .label
    · subst hkind
      obtain ⟨call, hcall⟩ := Relation.computed_label ht howner
      have hc := List.mem_append_left t.columnOperators (List.mem_map_of_mem (f := Table.classify) hcall)
      exact provides_added ht hc (hmem _ hc) (name_mem_addedColumns _)
    · obtain ⟨c, hc, hadded⟩ := Relation.computed_operator ht howner hkind
      have hc := List.mem_append_right (t.labels.map Table.classify) hc
      exact provides_added ht hc (hmem _ hc) hadded
  · refine .inr (.inl ⟨_, h.scans.mem_iff.2 (List.mem_map_of_mem ht), htable, hcolumn⟩)

/-- A wired relation's Filters stand above what they read. -/
lemma DocumentNode.Wired.provides {node below : DocumentNode} {condition : ColumnCondition} (h : node.Wired)
    (hwalk : .over (.filter condition) below ∈ node.walk) : ∀ ref ∈ condition.references, below.Provides ref.key := by
  induction node with
  | scan s =>
    have heq := List.mem_singleton.1 hwalk
    cases heq
  | join left right on ihl ihr =>
    rw [walk, List.mem_append, List.mem_append, List.mem_singleton] at hwalk
    obtain (hwalk | hwalk) | heq := hwalk
    · exact ihl h.1 hwalk
    · exact ihr h.2 hwalk
    · cases heq
  | «over» op input ih =>
    rw [walk, List.mem_append, List.mem_singleton] at hwalk
    obtain hwalk | heq := hwalk
    · refine ih ?_ hwalk
      cases op with
      | filter condition => exact h.1
      | _ => exact h
    · cases heq
      exact h.2

/-- What the loop over the parts leaves holds for every part of the conditions. -/
lemma buildPlan_ok {valid listed : ColumnCondition → Bool} {conditions : List (BoundCondition r)} {p : Projection}
    {placed : PlacedConditions} {rows : RowNode}
    (h : buildPlan valid listed r (conditions.map BoundCondition.hinted) p = .ok (placed, rows)) :
    PlacedAs r.computed r.unnested ((conditions.map BoundCondition.hinted).flatMap partsOf) placed ∧
      (∀ part ∈ (conditions.map BoundCondition.hinted).flatMap partsOf,
        ∀ ref ∈ part.1.references, r.Resolves ref) ∧
      Built r placed rows.documents ∧ project rows.documents p placed.rows = .ok rows := by
  obtain ⟨placed', hplaced, h⟩ := bind_eq_ok h
  obtain ⟨root, hroot, h⟩ := bind_eq_ok h
  obtain ⟨rows', hrows, h⟩ := bind_eq_ok h
  obtain ⟨rfl, rfl⟩ := Prod.mk.inj (Except.ok.inj h)
  have hplaced : placeConditions valid r.computed r.unnested (conditions.map BoundCondition.hinted) = .ok placed' := by
    cases hcase : placeConditions valid r.computed r.unnested (conditions.map BoundCondition.hinted) with
    | error e =>
      rw [hcase] at hplaced
      cases hplaced
    | ok found =>
      rw [hcase] at hplaced
      obtain rfl := Except.ok.inj hplaced
      rfl
  have hparts := placeConditions_ok hplaced
  have hresolves : ∀ part ∈ (conditions.map BoundCondition.hinted).flatMap partsOf,
      ∀ ref ∈ part.1.references, r.Resolves ref := by
    intro part hpart ref href
    obtain ⟨hinted, hhinted, hpart⟩ := List.mem_flatMap.1 hpart
    obtain ⟨condition, -, rfl⟩ := List.mem_map.1 hhinted
    exact condition.resolves ref (references_partsOf hpart href)
  have hbuilt : Built r placed' root := by
    refine buildRelation_ok (fun t ht test htest => ?_) hroot
    rw [hparts.tested, List.mem_filter, decide_eq_true_iff] at htest
    exact reads_of_place ht htest.2 (hresolves test htest.1)
  obtain ⟨hdocuments, -⟩ := project_ok hrows
  rw [hdocuments]
  exact ⟨hparts, hresolves, hbuilt, hrows⟩

/-- Every part runs once: at a scan, in a Filter over documents, or on the result rows. -/
lemma PlacedAs.perm {parts : List Hinted} {placed : PlacedConditions} {root : DocumentNode}
    (h : PlacedAs r.computed r.unnested parts placed)
    (hresolves : ∀ part ∈ parts, ∀ ref ∈ part.1.references, r.Resolves ref) (hbuilt : Built r placed root) :
    (root.scans.flatMap Scan.predicates ++ root.filters ++ placed.rows).Perm (parts.map Prod.fst) := by
  have hperm := perm_flatMap_filter (fun part : Hinted => place r.computed r.unnested part.1)
    nodup_places fun part hpart => place_mem (hresolves part hpart)
  refine .trans ?_ (hperm.map Prod.fst).symm
  rw [List.flatMap_append, List.flatMap_append, List.flatMap_map, List.flatMap_map, List.flatMap_singleton,
    List.map_append, List.map_append, List.map_flatMap, List.map_flatMap, ← h.rows]
  refine .append (.append ?_ ?_) .rfl
  · refine (hbuilt.scans.flatMap_right _).trans (.of_eq ?_)
    rw [List.flatMap_map]
    exact List.flatMap_congr fun t _ => h.scans t.table
  · refine hbuilt.filters.trans (.of_eq ?_)
    exact List.flatMap_congr fun t _ => congrArg (List.map Prod.fst) (h.tested t.table)

end

/-- The plan of a query's conditions: its scans, Filters and result rows test every part once, and together
they are true when the conditions are; a scan tests source columns of its own, a Filter over documents stands
above all that provides what it tests, and a Filter on result rows reads columns of the rows below; and every
classification, extraction, feature call and map is computed by one operator. -/
theorem buildPlan_places {r : Relation} {valid listed : ColumnCondition → Bool}
    {conditions : List (BoundCondition r)} {p : Projection} {placed : PlacedConditions} {rows : RowNode}
    (h : buildPlan valid listed r (conditions.map BoundCondition.hinted) p = .ok (placed, rows)) :
    (∀ a : Assignment Expression Literal, (∀ c ∈ conditions, Holds a c.hinted.1) ↔
      ∀ part ∈ rows.documents.scans.flatMap Scan.predicates ++ rows.documents.filters ++ placed.rows,
        Holds a part) ∧
    (rows.documents.scans.flatMap Scan.predicates ++ rows.documents.filters ++ placed.rows).Perm
      (((conditions.map BoundCondition.hinted).flatMap partsOf).map Prod.fst) ∧
    (rows.filters.map Prod.fst).Perm
      (placed.rows.map (resultRowCondition · (p.structs.flatMap ExtractStruct.packing))) ∧
    (∀ scan ∈ rows.documents.scans, ∀ part ∈ scan.predicates, ∀ ref ∈ part.references,
      ref.table = scan.table ∧ ref.column ∈ scan.schema.getD []) ∧
    (∀ part below, .over (.filter part) below ∈ rows.documents.walk →
      ∀ ref ∈ part.references, below.Provides ref.key) ∧
    (∀ part below, (part, below) ∈ rows.filters → ∀ name ∈ resultColumnsRead part, name ∈ below.readableColumns) ∧
    (∀ part ∈ placed.rows, ∀ ref ∈ part.references, ref.table ∈ r.unnested ∨ rows.documents.Provides ref.key) ∧
    rows.documents.columns.Nodup ∧
    rows.documents.columns.Perm
      (r.tables.flatMap (fun t => t.labels.map Table.classify ++ t.columnOperators) ++
        r.pairLabels.map Table.classify) := by
  obtain ⟨hparts, hresolves, hbuilt, hproject⟩ := buildPlan_ok h
  have hperm := hparts.perm hresolves hbuilt
  obtain ⟨-, hrows, hreadable⟩ := project_ok hproject
  refine ⟨fun a => ?_, hperm, hrows, ?_, fun part below hwalk => hbuilt.wired.provides hwalk,
    fun part below hmem => hreadable _ hmem, ?_, hbuilt.columns.nodup_iff.2 nodup_operators, hbuilt.columns⟩
  · calc (∀ c ∈ conditions, Holds a c.hinted.1)
        ↔ ∀ c ∈ conditions, ∀ part ∈ partsOf c.hinted, Holds a part.1 :=
          forall₂_congr fun c _ => holds_partsOf c.valid
      _ ↔ ∀ part ∈ ((conditions.map BoundCondition.hinted).flatMap partsOf).map Prod.fst, Holds a part := by
          rw [List.forall_mem_map]
          constructor
          · intro hall part hpart
            obtain ⟨hinted, hhinted, hpart⟩ := List.mem_flatMap.1 hpart
            obtain ⟨c, hc, rfl⟩ := List.mem_map.1 hhinted
            exact hall c hc part hpart
          · intro hall c hc part hpart
            exact hall part (List.mem_flatMap.2 ⟨_, List.mem_map_of_mem hc, hpart⟩)
      _ ↔ _ := forall_congr' fun part => imp_congr_left hperm.mem_iff.symm
  · intro scan hscan part hpart ref href
    obtain ⟨t, ht, rfl⟩ := List.mem_map.1 (hbuilt.scans.mem_iff.1 hscan)
    have hpart : part ∈ (placed.scans.get? t.table).getD [] := hpart
    rw [hparts.scans] at hpart
    obtain ⟨hinted, hhinted, rfl⟩ := List.mem_map.1 hpart
    obtain ⟨hhinted, hplace⟩ := List.mem_filter.1 hhinted
    obtain ⟨hunnested, -, hrefs⟩ := place_scan (of_decide_eq_true hplace)
    obtain ⟨htable, hnone⟩ := hrefs ref href
    refine ⟨htable, ?_⟩
    obtain hin | hsome | ⟨t', ht', htable', hcolumn⟩ := hresolves hinted hhinted ref href
    · exact absurd (htable ▸ hin) hunnested
    · rw [hnone] at hsome
      cases hsome
    · obtain rfl := Relation.eq_of_table ht' ht (htable'.trans htable)
      exact hcolumn
  · intro part hpart ref href
    rw [hparts.rows] at hpart
    obtain ⟨hinted, hhinted, rfl⟩ := List.mem_map.1 hpart
    exact hbuilt.provides (hresolves hinted (List.mem_filter.1 hhinted).1 ref href)

/-- The reviews table, whose topic is classified. -/
def reviews : Table where
  table := "r"
  provider := "reviews"
  column := .name "review"
  schema := ["review", "stars"]
  predicates := []
  labels := [(⟨⟨"", [.column ⟨"r", "reviews", "review"⟩]⟩, .label, ["good", "bad"], false, "", "", 0⟩, "topic")]
  extracts := []
  saeFeatures := []
  maps := []

/-- A query over the reviews alone. -/
def reviewsAlone : Relation where
  tables := [reviews]
  joins := []
  crossed := []
  pairLabels := []
  unnested := []
  aliases := by decide
  brought := .rfl
  labels t ht := by
    obtain rfl := List.mem_singleton.1 ht
    exact List.nodup_singleton _
  operators t ht := by
    obtain rfl := List.mem_singleton.1 ht
    exact List.nodup_nil
  oneTable t ht c hc := by
    obtain rfl := List.mem_singleton.1 ht
    obtain rfl := List.mem_singleton.1 hc
    rfl
  pairs := List.nodup_nil
  twoTables label hlabel := by cases hlabel

/-- The star test of a review. -/
def starsTest : ColumnCondition := .test ⟨.column ⟨"r", "reviews", "stars"⟩, .greater, some ⟨"3"⟩⟩

/-- The label test of a review. -/
def topicTest : ColumnCondition := .test ⟨.column ⟨"r", "reviews", "topic"⟩, .equal, some ⟨"'good'"⟩⟩

/-- `r.stars > 3 AND topic = 'good'` runs at the scan and above the classification. -/
theorem buildPlan_places_reviews :
    ∃ placed rows, buildPlan (fun _ => true) (fun _ => true) reviewsAlone
        [(.connect .and [starsTest, topicTest], none)]
        ⟨[.value (.column ⟨"r", "reviews", "stars"⟩)], [], [], none, false, [], []⟩ = .ok (placed, rows) ∧
      (rows.documents.scans.flatMap Scan.predicates ++ rows.documents.filters ++ placed.rows).Perm
        [starsTest, topicTest] := by
  let condition : BoundCondition reviewsAlone :=
    { hinted := (.connect .and [starsTest, topicTest], none)
      valid := by
        refine .connect _ _ (by decide) fun c hc => ?_
        obtain rfl | hc := List.mem_cons.1 hc
        · exact .test _
        · obtain rfl := List.mem_singleton.1 hc
          exact .test _
      resolves := fun ref href => by
        obtain rfl | href := List.mem_cons.1 href
        · exact .inr (.inr ⟨reviews, List.mem_singleton_self _, rfl, by decide⟩)
        · obtain rfl := List.mem_singleton.1 href
          exact .inr (.inl rfl) }
  refine ⟨_, _, rfl, ?_⟩
  exact (@buildPlan_places reviewsAlone (fun _ => true) (fun _ => true) [condition]
    ⟨[.value (.column ⟨"r", "reviews", "stars"⟩)], [], [], none, false, [], []⟩ _ _ rfl).2.1

end Quail.Logical
