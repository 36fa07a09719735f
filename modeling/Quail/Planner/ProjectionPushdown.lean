import Quail.Logical.Nodes

/-!
# Projection pushdown

`push_down_projection` of `planner/rules/tree_transforms.py`. One pass from the root carries down the columns
the expressions on the way name, and a Scan keeps those of its table. A column the document text comes from
is kept as a value only for one of a list of reasons, collected beforehand over the whole plan.

The list leaves out three readers: a Filter that tests the document's column beside a computed one, a stop
key, and a projection that computes something of the column. The file proves that the pass keeps every value
read if and only if their reads have one of the listed reasons too, and no column operator below a reader
adds a column under the name read.
-/

namespace Quail.Planner
open Quail.Logical

/-! ## The rule -/

/-- `_column_refs` of a result column: a model call names the columns of its prompt. -/
def columnRefs : ResultColumn → List ColumnRef
  | .value e => e.columnReferences
  | .call c _ => c.references
  | .name _ => []

/-- The columns the expressions of an operator name. -/
def operatorRefs : DocumentOperator → List ColumnRef
  | .semanticFilter predicates _ => predicates.flatMap fun p => p.modelCall.references
  | .filter condition => condition.references
  | .column c => c.call.references
  | .semanticJoin predicate _ _ => predicate.modelCall.references

/-- The columns the expressions of an operator over result rows name. -/
def rowRefs : RowOperator → List ColumnRef
  | .filter condition => condition.references
  | .project columns _ => columns.flatMap columnRefs
  | .unnest .. | .aggregate .. | .window .. => []

/-- The columns a Scan's conditions name. -/
def scanRefs (scan : Scan) : List ColumnRef := scan.predicates.flatMap Condition.references

/-- The columns an operator adds to its input. -/
def addedColumns : DocumentOperator → List ColumnKey
  | .column c => c.added
  | _ => []

/-- The topmost Project. -/
def topProject : RowNode → RowNode
  | .project input columns structs => .project input columns structs
  | .over (.project columns structs) input => .over (.project columns structs) input
  | .over _ input => topProject input

/-- The columns of the topmost Project. -/
def topColumns : RowNode → List ResultColumn
  | .project _ columns _ => columns
  | .over (.project columns _) _ => columns
  | .over _ input => topColumns input

/-- The columns a node of the walk reads as values. -/
def valueRefs : DocumentNode → List ColumnRef
  | .join _ _ on => on.flatMap Equality.references
  | .over (.column c) _ => if c.kind = .extract ∨ c.kind = .map then c.call.references else []
  | .scan s => scanRefs s
  | .over _ _ => []

/-- `valued`: the columns kept as values even where the document text comes from them. -/
def valued (plan : LogicalPlan) : List ColumnKey :=
  ((topProject plan.rows).outputSchema ++
    plan.order.flatMap (fun key => columnRefs key.expression) ++
    ((topColumns plan.rows).filter fun column => column.aliasedCall.isSome).flatMap columnRefs ++
    plan.rows.documents.walk.flatMap valueRefs).map ColumnRef.key

/-- Adds the columns of some references to those needed, in first use order. -/
def need (needed : List ColumnKey) (refs : List ColumnRef) : List ColumnKey :=
  refs.foldl (fun needed ref => if ref.key ∈ needed then needed else needed ++ [ref.key]) needed

/-- The columns a Scan keeps of those needed. -/
def keptColumns (valued : List ColumnKey) (scan : Scan) (needed : List ColumnKey) : List String :=
  ((needed.filter fun key => key.1 = scan.table).map Prod.snd).filter fun column =>
    column ∉ scan.column.sourceColumns ∨ (scan.table, column) ∈ valued

/-- `descend`, below the Project. A column operator takes the columns it adds out of those needed. -/
def descend (valued : List ColumnKey) : DocumentNode → List ColumnKey → DocumentNode
  | .scan s, needed => .scan { s with columns := keptColumns valued s (need needed (scanRefs s)) }
  | .over op input, needed =>
    .over op (descend valued input ((need needed (operatorRefs op)).filter (· ∉ addedColumns op)))
  | .join left right on, needed =>
    let needed := need needed (on.flatMap Equality.references)
    .join (descend valued left needed) (descend valued right needed) on

/-- `descend`, above the documents. -/
def descendRows (valued : List ColumnKey) : RowNode → List ColumnKey → RowNode
  | .project input columns structs, needed =>
    .project (descend valued input (need needed (columns.flatMap columnRefs))) columns structs
  | .over op input, needed => .over op (descendRows valued input (need needed (rowRefs op)))

/-- `push_down_projection`. -/
def pushDownProjection (plan : LogicalPlan) : LogicalPlan :=
  { plan with
    rows := descendRows (valued plan) plan.rows
      (need [] (plan.order.flatMap fun key => columnRefs key.expression)) }

/-! ## What a plan reads when it runs -/

/-- A node on the way from the Project to a Scan. -/
inductive Layer
  | operator (op : DocumentOperator)
  | join (on : List Equality)

namespace Layer

/-- The columns the layer's expressions name. -/
def refs : Layer → List ColumnRef
  | operator op => operatorRefs op
  | join on => on.flatMap Equality.references

/-- The columns the layer adds. -/
def added : Layer → List ColumnKey
  | operator op => addedColumns op
  | join _ => []

/-- The columns a layer computes of one table alone, which a Filter above it reads in place of a source
column. -/
def computed : Layer → List ColumnKey
  | operator (.column c) => if c.call.aliases.length = 1 then c.added else []
  | _ => []

/-- The source columns a layer reads that none of the listed reasons covers: a document Filter's, which are
those no operator below computes, and a stop key's. -/
def unlistedReads (below : List Layer) : Layer → List ColumnKey
  | operator (.filter condition) =>
    (condition.references.map ColumnRef.key).filter fun key => ∀ layer ∈ below, key ∉ layer.computed
  | operator (.semanticFilter predicates stopKey) =>
    stopKey.map ((predicates.head?.elim "" fun p => p.modelCall.aliases.headD ""), ·)
  | _ => []

/-- The source columns a layer reads as values: beside those above, the columns of a join equality, and the
documents an extraction locates its answers in and a map writes from. -/
def valueReads (below : List Layer) (layer : Layer) : List ColumnKey :=
  layer.unlistedReads below ++
    match layer with
    | operator (.column c) =>
      if c.kind = .extract ∨ c.kind = .map then c.call.references.map ColumnRef.key else []
    | operator _ => []
    | join on => (on.flatMap Equality.references).map ColumnRef.key

end Layer

/-- The ways from a relation down to its Scans. -/
def branches : DocumentNode → List (List Layer × Scan)
  | .scan s => [([], s)]
  | .over op input => (branches input).map fun branch => (.operator op :: branch.1, branch.2)
  | .join left right on =>
    (branches left ++ branches right).map fun branch => (.join on :: branch.1, branch.2)

/-- What the layers on a way read. -/
def layerReads : List Layer → List ColumnKey
  | [] => []
  | layer :: below => layer.valueReads below ++ layerReads below

/-- What the layers on a way read with no listed reason. -/
def unlistedLayerReads : List Layer → List ColumnKey
  | [] => []
  | layer :: below => layer.unlistedReads below ++ unlistedLayerReads below

/-- The source columns the Project over the documents reads: those its value expressions compute with and
the arguments of the scores it returns. Any other model call's answer comes from its column operator. -/
def projectionReads (plan : LogicalPlan) : List ColumnKey :=
  (plan.rows.projection.flatMap fun column =>
    match column with
    | .call c _ => if c.kind = .score then c.references else []
    | column => column.columnReferences).map ColumnRef.key

/-- The source columns the sort keys read. -/
def orderReads (plan : LogicalPlan) : List ColumnKey :=
  (plan.order.flatMap fun key => key.expression.columnReferences).map ColumnRef.key

/-- Every source column a node above a Scan, or the Scan itself, reads as a value. -/
def valuesRead (plan : LogicalPlan) (path : List Layer) (scan : Scan) : List ColumnKey :=
  orderReads plan ++ projectionReads plan ++ layerReads path ++ (scanRefs scan).map ColumnRef.key

/-- Every Scan keeps the columns of its table that are read. -/
def KeepsValues (plan : LogicalPlan) : Prop :=
  ∀ path scan, (path, scan) ∈ branches plan.rows.documents →
    ∀ column, (scan.table, column) ∈ valuesRead plan path scan → column ∈ scan.columns

/-! ## When the pass keeps them -/

/-- The columns the layers on a way add. -/
def addedOn (path : List Layer) : List ColumnKey := path.flatMap Layer.added

/-- A layer names the column, and no layer from there down adds a column under that name. -/
def NamedOn (key : ColumnKey) : List Layer → Prop
  | [] => False
  | layer :: below =>
    key ∈ layer.refs.map ColumnRef.key ∧ key ∉ addedOn (layer :: below) ∨ NamedOn key below

/-- The columns the expressions above the documents name. -/
def namedAbove : RowNode → List ColumnRef
  | .project _ columns _ => columns.flatMap columnRefs
  | .over op input => rowRefs op ++ namedAbove input

/-- An expression of the plan names the column with no operator below it that adds one under that name. -/
def Named (plan : LogicalPlan) (path : List Layer) (scan : Scan) (key : ColumnKey) : Prop :=
  key ∈ (plan.order.flatMap (fun key => columnRefs key.expression) ++ namedAbove plan.rows).map
      ColumnRef.key ∧ key ∉ addedOn path ∨
    NamedOn key path ∨ key ∈ (scanRefs scan).map ColumnRef.key

/-- The listed reasons to keep a column as a value. -/
inductive Listed (plan : LogicalPlan) : ColumnKey → Prop
  | returned {ref} : ref ∈ (topProject plan.rows).outputSchema → Listed plan ref.key
  | sorted {key : SortKey} {ref} : key ∈ plan.order → ref ∈ columnRefs key.expression →
    Listed plan ref.key
  | called {call name ref} : .call call name ∈ topColumns plan.rows → ref ∈ call.references →
    Listed plan ref.key
  | joined {left right on equality ref} : .join left right on ∈ plan.rows.documents.walk →
    equality ∈ on → ref ∈ equality.references → Listed plan ref.key
  | answered {c input ref} : .over (.column c) input ∈ plan.rows.documents.walk →
    c.kind = .extract ∨ c.kind = .map → ref ∈ c.call.references → Listed plan ref.key
  | scanned {scan ref} : .scan scan ∈ plan.rows.documents.walk → ref ∈ scanRefs scan →
    Listed plan ref.key

/-- Every column read is named under no operator that hides it, and a column of the document that a Filter
tests, a stop key holds or the projection reads has a listed reason as well. -/
structure ReadsListed (plan : LogicalPlan) : Prop where
  named : ∀ path scan, (path, scan) ∈ branches plan.rows.documents →
    ∀ column, (scan.table, column) ∈ valuesRead plan path scan → Named plan path scan (scan.table, column)
  listed : ∀ path scan, (path, scan) ∈ branches plan.rows.documents →
    ∀ column ∈ scan.column.sourceColumns,
      (scan.table, column) ∈ projectionReads plan ++ unlistedLayerReads path →
        Listed plan (scan.table, column)

/-! ## What is needed at a Scan -/

lemma mem_need {needed : List ColumnKey} {refs : List ColumnRef} {key : ColumnKey} :
    key ∈ need needed refs ↔ key ∈ needed ∨ key ∈ refs.map ColumnRef.key := by
  unfold need
  induction refs generalizing needed with
  | nil => simp
  | cons ref refs ih =>
    rw [List.foldl_cons, ih, List.map_cons, List.mem_cons]
    split_ifs with hmem
    · constructor
      · rintro (h | h)
        · exact .inl h
        · exact .inr (.inr h)
      · rintro (h | rfl | h)
        · exact .inl h
        · exact .inl hmem
        · exact .inr h
    · rw [List.mem_append, List.mem_singleton, or_assoc]

/-- The columns needed below the layers of a way. -/
def neededBelow (needed : List ColumnKey) : List Layer → List ColumnKey
  | [] => needed
  | layer :: below => neededBelow ((need needed layer.refs).filter (· ∉ layer.added)) below

/-- What is needed at the end of a way was needed at its start or named on it, and is added nowhere between
there and the end. -/
lemma mem_neededBelow {needed : List ColumnKey} {path : List Layer} {key : ColumnKey} :
    key ∈ neededBelow needed path ↔ key ∈ needed ∧ key ∉ addedOn path ∨ NamedOn key path := by
  induction path generalizing needed with
  | nil => simp [neededBelow, addedOn, NamedOn]
  | cons layer below ih =>
    have hadded : key ∉ addedOn (layer :: below) ↔ key ∉ layer.added ∧ key ∉ addedOn below := by
      rw [addedOn, List.flatMap_cons, List.mem_append, not_or]
      exact Iff.rfl
    rw [neededBelow, ih, NamedOn, hadded, List.mem_filter, mem_need, decide_eq_true_iff]
    constructor
    · rintro (⟨⟨hneeded | hnamed, hlayer⟩, hbelow⟩ | hbelow)
      · exact .inl ⟨hneeded, hlayer, hbelow⟩
      · exact .inr (.inl ⟨hnamed, hlayer, hbelow⟩)
      · exact .inr (.inr hbelow)
    · rintro (⟨hneeded, hlayer, hbelow⟩ | ⟨hnamed, hlayer, hbelow⟩ | hbelow)
      · exact .inl ⟨⟨.inl hneeded, hlayer⟩, hbelow⟩
      · exact .inl ⟨⟨.inr hnamed, hlayer⟩, hbelow⟩
      · exact .inr hbelow

/-- The columns needed at the relation of documents. -/
def neededAbove (needed : List ColumnKey) : RowNode → List ColumnKey
  | .project _ columns _ => need needed (columns.flatMap columnRefs)
  | .over op input => neededAbove (need needed (rowRefs op)) input

lemma mem_neededAbove {needed : List ColumnKey} {rows : RowNode} {key : ColumnKey} :
    key ∈ neededAbove needed rows ↔ key ∈ needed ∨ key ∈ (namedAbove rows).map ColumnRef.key := by
  induction rows generalizing needed with
  | project => exact mem_need
  | «over» op input ih => rw [neededAbove, ih, mem_need, namedAbove, List.map_append, List.mem_append, or_assoc]

lemma mem_keptColumns {valued needed : List ColumnKey} {scan : Scan} {column : String} :
    column ∈ keptColumns valued scan needed ↔ (scan.table, column) ∈ needed ∧
      (column ∈ scan.column.sourceColumns → (scan.table, column) ∈ valued) := by
  rw [keptColumns, List.mem_filter, decide_eq_true_iff, ← imp_iff_not_or, List.mem_map]
  refine and_congr_left fun _ => ⟨?_, fun h => ⟨_, List.mem_filter.2 ⟨h, decide_eq_true rfl⟩, rfl⟩⟩
  rintro ⟨⟨table, _⟩, hmem, rfl⟩
  obtain ⟨hmem, htable⟩ := List.mem_filter.1 hmem
  rwa [← of_decide_eq_true htable]

/-! ## What the pass leaves at a Scan -/

/-- The pass keeps the ways to the Scans, and changes nothing of a Scan but its columns. -/
lemma mem_branches_descend {valued needed : List ColumnKey} {d : DocumentNode} {path : List Layer}
    {scan : Scan} :
    (path, scan) ∈ branches (descend valued d needed) ↔ ∃ s, (path, s) ∈ branches d ∧
      scan = { s with
        columns := keptColumns valued s (need (neededBelow needed path) (scanRefs s)) } := by
  induction d generalizing needed path with
  | scan s =>
    simp only [descend, branches, List.mem_singleton, Prod.mk.injEq]
    constructor
    · rintro ⟨rfl, rfl⟩
      exact ⟨s, ⟨rfl, rfl⟩, rfl⟩
    · rintro ⟨_, ⟨rfl, rfl⟩, rfl⟩
      exact ⟨rfl, rfl⟩
  | «over» op input ih =>
    simp only [descend, branches, List.mem_map, Prod.exists, Prod.mk.injEq]
    constructor
    · rintro ⟨below, scan, hmem, rfl, rfl⟩
      obtain ⟨s, hs, rfl⟩ := ih.1 hmem
      exact ⟨s, ⟨below, s, hs, rfl, rfl⟩, rfl⟩
    · rintro ⟨_, ⟨below, s, hs, rfl, rfl⟩, rfl⟩
      exact ⟨below, _, ih.2 ⟨s, hs, rfl⟩, rfl, rfl⟩
  | join left right on ihl ihr =>
    -- a join hides no column: filtering by the columns it adds changes nothing
    have hneeded : ∀ below, neededBelow needed (.join on :: below) =
        neededBelow (need needed (on.flatMap Equality.references)) below := fun below => by
      rw [neededBelow, Layer.added, List.filter_eq_self.2 fun _ _ => decide_eq_true List.not_mem_nil]
      rfl
    simp only [descend, branches, List.mem_map, Prod.exists, Prod.mk.injEq, List.mem_append]
    constructor
    · rintro ⟨below, scan, hmem | hmem, rfl, rfl⟩
      · obtain ⟨s, hs, rfl⟩ := ihl.1 hmem
        exact ⟨s, ⟨below, s, .inl hs, rfl, rfl⟩, by rw [hneeded]⟩
      · obtain ⟨s, hs, rfl⟩ := ihr.1 hmem
        exact ⟨s, ⟨below, s, .inr hs, rfl, rfl⟩, by rw [hneeded]⟩
    · rintro ⟨_, ⟨below, s, hs | hs, rfl, rfl⟩, rfl⟩
      · exact ⟨below, _, .inl (ihl.2 ⟨s, hs, by rw [hneeded]⟩), rfl, rfl⟩
      · exact ⟨below, _, .inr (ihr.2 ⟨s, hs, by rw [hneeded]⟩), rfl, rfl⟩

lemma documents_descendRows {valued needed : List ColumnKey} {rows : RowNode} :
    (descendRows valued rows needed).documents = descend valued rows.documents (neededAbove needed rows) := by
  induction rows generalizing needed with
  | project => rfl
  | «over» op input ih => exact ih

lemma projection_descendRows {valued needed : List ColumnKey} {rows : RowNode} :
    (descendRows valued rows needed).projection = rows.projection := by
  induction rows generalizing needed with
  | project => rfl
  | «over» op input ih => exact ih

/-- The columns needed at a Scan are those the plan names for it. -/
lemma mem_needed_iff {plan : LogicalPlan} {path : List Layer} {scan : Scan} {key : ColumnKey} :
    key ∈ need (neededBelow (neededAbove
        (need [] (plan.order.flatMap fun key => columnRefs key.expression)) plan.rows) path)
      (scanRefs scan) ↔ Named plan path scan key := by
  rw [mem_need, mem_neededBelow, mem_neededAbove, mem_need, Named, List.map_append, List.mem_append,
    or_assoc]
  simp only [List.not_mem_nil, false_or]

/-- The pass keeps what is read if and only if whatever is read is named, and kept on the list where the
document text comes from it. -/
lemma keepsValues_iff {plan : LogicalPlan} :
    KeepsValues (pushDownProjection plan) ↔
      ∀ path scan, (path, scan) ∈ branches plan.rows.documents →
        ∀ column, (scan.table, column) ∈ valuesRead plan path scan →
          Named plan path scan (scan.table, column) ∧
            (column ∈ scan.column.sourceColumns → (scan.table, column) ∈ valued plan) := by
  have hreads : ∀ path scan, valuesRead (pushDownProjection plan) path scan = valuesRead plan path scan :=
    fun path scan => by
      simp only [valuesRead, orderReads, projectionReads, pushDownProjection, projection_descendRows]
  constructor
  · intro h path scan hscan column hread
    have hkept := h path _ (by
      rw [pushDownProjection, documents_descendRows]
      exact mem_branches_descend.2 ⟨scan, hscan, rfl⟩) column (by rw [hreads]; exact hread)
    obtain ⟨hneeded, hvalued⟩ := mem_keptColumns.1 hkept
    exact ⟨mem_needed_iff.1 hneeded, hvalued⟩
  · intro h path scan hscan column hread
    rw [pushDownProjection, documents_descendRows] at hscan
    obtain ⟨s, hs, rfl⟩ := mem_branches_descend.1 hscan
    rw [hreads] at hread
    obtain ⟨hnamed, hvalued⟩ := h path s hs column hread
    exact mem_keptColumns.2 ⟨mem_needed_iff.2 hnamed, hvalued⟩

/-! ## The listed reasons -/

/-- The list collected over the plan holds exactly the columns with a listed reason. -/
lemma mem_valued {plan : LogicalPlan} {key : ColumnKey} : key ∈ valued plan ↔ Listed plan key := by
  constructor
  · intro h
    simp only [valued, List.mem_map, List.mem_append, List.mem_flatMap, List.mem_filter] at h
    obtain ⟨ref, ((href | ⟨key, hkey, href⟩) | ⟨column, ⟨hcolumn, hcall⟩, href⟩) | ⟨node, hnode, href⟩, rfl⟩ :=
      h
    · exact .returned href
    · exact .sorted hkey href
    · cases column with
      | call call name => exact .called hcolumn href
      | value => cases hcall
      | name => cases hcall
    · cases node with
      | scan s => exact .scanned hnode href
      | join left right on =>
        obtain ⟨equality, hon, href⟩ := List.mem_flatMap.1 href
        exact .joined hnode hon href
      | «over» op input =>
        cases op with
        | column c =>
          rw [valueRefs] at href
          split_ifs at href with hkind
          · exact .answered hnode hkind href
          · cases href
        | semanticFilter => cases href
        | filter => cases href
        | semanticJoin => cases href
  · intro h
    refine List.mem_map.2 ?_
    simp only [List.mem_append, List.mem_flatMap, List.mem_filter]
    cases h with
    | returned href => exact ⟨_, .inl (.inl (.inl href)), rfl⟩
    | sorted hkey href => exact ⟨_, .inl (.inl (.inr ⟨_, hkey, href⟩)), rfl⟩
    | called hcolumn href => exact ⟨_, .inl (.inr ⟨_, ⟨hcolumn, rfl⟩, href⟩), rfl⟩
    | joined hnode hon href => exact ⟨_, .inr ⟨_, hnode, List.mem_flatMap.2 ⟨_, hon, href⟩⟩, rfl⟩
    | answered hnode hkind href =>
      exact ⟨_, .inr ⟨_, hnode, by rw [valueRefs, if_pos hkind]; exact href⟩, rfl⟩
    | scanned hnode href => exact ⟨_, .inr ⟨_, hnode, href⟩, rfl⟩

/-- A Scan at the end of a way is a node of the walk. -/
lemma scan_mem_walk {d : DocumentNode} {path : List Layer} {scan : Scan} (h : (path, scan) ∈ branches d) :
    .scan scan ∈ d.walk := by
  induction d generalizing path with
  | scan s =>
    cases List.mem_singleton.1 h
    exact List.mem_singleton_self _
  | «over» op input ih =>
    obtain ⟨⟨below, _⟩, hmem, heq⟩ := List.mem_map.1 h
    cases heq
    exact List.mem_append_left _ (ih hmem)
  | join left right on ihl ihr =>
    obtain ⟨⟨below, _⟩, hmem, heq⟩ := List.mem_map.1 h
    cases heq
    obtain hmem | hmem := List.mem_append.1 hmem
    · exact List.mem_append_left _ (List.mem_append_left _ (ihl hmem))
    · exact List.mem_append_left _ (List.mem_append_right _ (ihr hmem))

/-- What a layer reads beside its unlisted reads, a node of the walk reads. -/
lemma layerReads_listed {d : DocumentNode} {path : List Layer} {scan : Scan} {key : ColumnKey}
    (h : (path, scan) ∈ branches d) (hread : key ∈ layerReads path) :
    key ∈ unlistedLayerReads path ∨ ∃ node ∈ d.walk, key ∈ (valueRefs node).map ColumnRef.key := by
  induction d generalizing path with
  | scan s =>
    cases List.mem_singleton.1 h
    cases hread
  | «over» op input ih =>
    obtain ⟨⟨below, _⟩, hmem, heq⟩ := List.mem_map.1 h
    cases heq
    obtain hlayer | hbelow := List.mem_append.1 hread
    · obtain hunlisted | hlisted := List.mem_append.1 hlayer
      · exact .inl (List.mem_append_left _ hunlisted)
      · refine .inr ⟨.over op input, List.mem_append_right _ (List.mem_singleton_self _), ?_⟩
        cases op with
        | column c =>
          dsimp only at hlisted
          rw [valueRefs]
          split_ifs at hlisted ⊢
          · exact hlisted
          · cases hlisted
        | semanticFilter => cases hlisted
        | filter => cases hlisted
        | semanticJoin => cases hlisted
    · obtain h | ⟨node, hnode, hkey⟩ := ih hmem hbelow
      · exact .inl (List.mem_append_right _ h)
      · exact .inr ⟨node, List.mem_append_left _ hnode, hkey⟩
  | join left right on ihl ihr =>
    obtain ⟨⟨below, _⟩, hmem, heq⟩ := List.mem_map.1 h
    cases heq
    obtain hlayer | hbelow := List.mem_append.1 hread
    · exact .inr ⟨.join left right on, List.mem_append_right _ (List.mem_singleton_self _), hlayer⟩
    · obtain hmem | hmem := List.mem_append.1 hmem
      · obtain h | ⟨node, hnode, hkey⟩ := ihl hmem hbelow
        · exact .inl (List.mem_append_right _ h)
        · exact .inr ⟨node, List.mem_append_left _ (List.mem_append_left _ hnode), hkey⟩
      · obtain h | ⟨node, hnode, hkey⟩ := ihr hmem hbelow
        · exact .inl (List.mem_append_right _ h)
        · exact .inr ⟨node, List.mem_append_left _ (List.mem_append_right _ hnode), hkey⟩

lemma unlisted_subset {path : List Layer} {key : ColumnKey} (h : key ∈ unlistedLayerReads path) :
    key ∈ layerReads path := by
  induction path with
  | nil => cases h
  | cons layer below ih =>
    obtain h | h := List.mem_append.1 h
    · exact List.mem_append_left _ (List.mem_append_left _ h)
    · exact List.mem_append_right _ (ih h)

/-- The columns a sort key reads are among those it names. -/
lemma columnReferences_subset {column : ResultColumn} {ref : ColumnRef}
    (h : ref ∈ column.columnReferences) : ref ∈ columnRefs column := by
  cases column with
  | value e => exact h
  | call => cases h
  | name => cases h

/-- Whatever is read has a listed reason, or is among the reads no listed reason covers. -/
lemma listed_of_read {plan : LogicalPlan} {path : List Layer} {scan : Scan} {key : ColumnKey}
    (h : (path, scan) ∈ branches plan.rows.documents) (hread : key ∈ valuesRead plan path scan) :
    Listed plan key ∨ key ∈ projectionReads plan ++ unlistedLayerReads path := by
  rw [valuesRead, List.mem_append, List.mem_append, List.mem_append] at hread
  obtain ((hread | hread) | hread) | hread := hread
  · obtain ⟨ref, href, rfl⟩ := List.mem_map.1 hread
    obtain ⟨key, hkey, href⟩ := List.mem_flatMap.1 href
    exact .inl (.sorted hkey (columnReferences_subset href))
  · exact .inr (List.mem_append_left _ hread)
  · obtain hread | ⟨node, hnode, hkey⟩ := layerReads_listed h hread
    · exact .inr (List.mem_append_right _ hread)
    · refine .inl (mem_valued.1 ?_)
      rw [valued, List.map_append, List.mem_append]
      obtain ⟨ref, href, rfl⟩ := List.mem_map.1 hkey
      exact .inr (List.mem_map_of_mem (List.mem_flatMap.2 ⟨node, hnode, href⟩))
  · obtain ⟨ref, href, rfl⟩ := List.mem_map.1 hread
    exact .inl (.scanned (scan_mem_walk h) href)

/-! ## The pass keeps the columns read -/

/-- After the pass every Scan keeps the columns read above it if and only if none of them is hidden by a
column operator, and every column of the document that a Filter tests, a stop key holds or the projection
reads has one of the listed reasons too. -/
theorem pushDownProjection_keeps (plan : LogicalPlan) :
    KeepsValues (pushDownProjection plan) ↔ ReadsListed plan := by
  rw [keepsValues_iff]
  constructor
  · intro h
    refine ⟨fun path scan hscan column hread => (h path scan hscan column hread).1, ?_⟩
    intro path scan hscan column hdocument hread
    have hvalue : (scan.table, column) ∈ valuesRead plan path scan := by
      rw [valuesRead, List.mem_append, List.mem_append, List.mem_append]
      obtain hread | hread := List.mem_append.1 hread
      · exact .inl (.inl (.inr hread))
      · exact .inl (.inr (unlisted_subset hread))
    exact mem_valued.1 ((h path scan hscan column hvalue).2 hdocument)
  · rintro ⟨hnamed, hlisted⟩ path scan hscan column hread
    refine ⟨hnamed path scan hscan column hread, fun hdocument => mem_valued.2 ?_⟩
    obtain h | h := listed_of_read hscan hread
    · exact h
    · exact hlisted path scan hscan column hdocument h

/-- `SELECT r.id`, from the reviews classified `billing` or longer than twenty characters: the Filter tests
the label beside the document's own column. -/
def labelledOrLong : LogicalPlan :=
  let review : Expression := .column ⟨"r", "reviews", "review"⟩
  let topic : ModelCall := ⟨⟨"topic of {0}", [review]⟩, .label, ["billing", "other"], false, "", "", 0⟩
  let scan : Scan := ⟨"reviews", "r", .expression review, [], [], some ["id", "review"]⟩
  let condition : ColumnCondition := .connect .or [
    .test ⟨.column ⟨"r", "reviews", "topic"⟩, .equal, some ⟨"'billing'"⟩⟩,
    .test ⟨.scalarFunction "length" [review], .greater, some ⟨"20"⟩⟩]
  { rows := .project (.over (.filter condition) (.over (.column ⟨.classify, topic, "topic"⟩) (.scan scan)))
      [.value (.column ⟨"r", "reviews", "id"⟩)] []
    order := [] }

/-- The Scan of the reviews loses the column the Filter measures. -/
theorem pushDownProjection_keeps_labelled : ¬ KeepsValues (pushDownProjection labelledOrLong) := by
  intro h
  have hkept := h _ _ (List.mem_singleton_self _) "review" (by decide)
  exact absurd hkept (by decide)

end Quail.Planner
