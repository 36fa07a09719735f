import Quail.Logical.Nodes
import Quail.Lib.Fallible
import Quail.Lib.Python

/-!
# Filter pushdown

`push_down_filters` of `planner/rules/tree_transforms.py`: every Filter on one table moves below the joins above
its table, past what lets it through. The rule keeps the plan valid and its rows, in their order, and leaves no
Filter that it would move again.

What a plan's rows are is said for any fixed answers of the model and any contents of the tables. A gate, an exists
or anti join, is any function of its input rows that names no new table: no Filter moves past one.
-/

namespace Quail.Planner.Pushdown
open Quail.Logical

/-! ## The rule -/

/-- `Condition.aliases`: the tables the tests read, in order. -/
def conditionAliases (condition : ColumnCondition) : List String :=
  (condition.references.map ColumnRef.table).eraseDups

/-- `Filter.alias`: the one table a Filter tests. -/
def filterAlias (condition : ColumnCondition) : Except PyError String :=
  match conditionAliases condition with
  | [] => .error (.value "not enough values to unpack (expected 1, got 0)")
  | [table] => .ok table
  | _ => .error (.value "too many values to unpack (expected 1)")

/-- The tables of a node's output schema. -/
def fieldAliases (node : DocumentNode) : List String := node.outputSchema.map ColumnRef.table

/-- Whether a filter on one table may move below an operator (`_lets_through`). -/
def letsThrough (table : String) : DocumentOperator → Except PyError Bool
  | .semanticJoin _ semantics _ => .ok (semantics == .full)
  | .column c => .ok (c.call.aliases.length == 2 || c.table != table)
  | .filter condition => do return (← filterAlias condition) != table
  | .semanticFilter predicates _ => .ok (predicates.all fun p => p.modelCall.aliases.headD "" != table)

/-- Put a one-table filter below the joins above its table (`_place_filter`). -/
def placeFilter (condition : ColumnCondition) (table : String) : DocumentNode → Except PyError (Option DocumentNode)
  | .scan _ => .ok none
  | .join left right on =>
    if table ∈ fieldAliases left then do
      let placed ← placeFilter condition table left
      return some (.join (placed.getD (.over (.filter condition) left)) right on)
    else do
      let placed ← placeFilter condition table right
      return some (.join left (placed.getD (.over (.filter condition) right)) on)
  | .over op input => do
    if ← letsThrough table op then
      let placed ← placeFilter condition table input
      return placed.map (.over op)
    else return none

/-- A node after its children: a Filter is placed where it goes, and any other node stays. -/
def visitOver (op : DocumentOperator) (input : DocumentNode) (moved : Bool) : Except PyError (DocumentNode × Bool) :=
  match op with
  | .filter condition => do
    let table ← filterAlias condition
    match ← placeFilter condition table input with
    | none => return (.over op input, moved)
    | some placed => return (placed, true)
  | _ => .ok (.over op input, moved)

/-- `visit`: the tree with its Filters moved, and whether one did. -/
def visit : DocumentNode → Except PyError (DocumentNode × Bool)
  | .scan s => .ok (.scan s, false)
  | .join left right on => do
    let (left, moved) ← visit left
    let (right, moved') ← visit right
    return (.join left right on, moved || moved')
  | .over op input => do
    let (input, moved) ← visit input
    visitOver op input moved

/-- Move every Filter on one table below the joins above its table; none when no Filter moved. -/
def pushDownFilters (plan : LogicalPlan) : Except PyError (Option LogicalPlan) := do
  let (documents, moved) ← visit plan.rows.documents
  return if moved then some { plan with rows := plan.rows.withDocuments documents } else none

/-! ## Valid plans -/

/-- The columns that the one-table column operators below add (`computed_columns`). -/
def computedColumns (node : DocumentNode) : List ColumnKey :=
  (node.columns.filter fun c => c.call.aliases.length == 1).flatMap SemanticColumn.added

/-- The source columns of the table an alias names, below a node (`scan_columns`). -/
def scanColumns (table : String) : DocumentNode → List String
  | .scan s => if s.table = table then s.schema.getD [] else []
  | .over _ input => if table ∈ fieldAliases input then scanColumns table input else []
  | .join left right _ =>
    if table ∈ fieldAliases left then scanColumns table left
    else if table ∈ fieldAliases right then scanColumns table right
    else []

/-- The predicates of the SemanticJoins of a relation. -/
def joinPredicates : DocumentNode → List ModelPredicate
  | .scan _ => []
  | .over (.semanticJoin predicate _ _) input => joinPredicates input ++ [predicate]
  | .over _ input => joinPredicates input
  | .join left right _ => joinPredicates left ++ joinPredicates right

/-- `validate` of an operator over its input. A stop key is set only in a plan without Filters. -/
def OperatorValid (input : DocumentNode) : DocumentOperator → Prop
  | .semanticFilter predicates stopKey =>
    stopKey = [] ∧ predicates ≠ [] ∧ ∀ p ∈ predicates, p.modelCall.aliases.length = 1
  | .filter condition => (∃ table, conditionAliases condition = [table]) ∧ ∀ ref ∈ condition.references,
    ref.key ∈ computedColumns input ∨ ref.column ∈ scanColumns ref.table input
  | .column c => (c.call.aliases.length = 1 ∨ c.call.aliases.length = 2 ∧ ∃ p ∈ joinPredicates input,
      ∀ table, table ∈ p.modelCall.aliases ↔ table ∈ c.call.aliases) ∧
    (∀ table ∈ c.call.aliases, table ∈ fieldAliases input) ∧
    ∀ field ∈ input.outputSchema, field.table = c.table → field.column ∉ c.addedColumns
  | .semanticJoin predicate _ _ => ∀ table ∈ predicate.modelCall.aliases, table ∈ fieldAliases input

/-- The tables of the Scans. -/
def scanAliases (node : DocumentNode) : List String := node.scans.map Scan.table

/-- `Join.validate`: a condition names two tables, one on each side. -/
def OnValid (left right : DocumentNode) (e : Equality) : Prop :=
  let sides := (e.references.map ColumnRef.table).eraseDups
  sides.length = 2 ∧ (∃ table ∈ sides, table ∈ fieldAliases left) ∧ ∃ table ∈ sides, table ∈ fieldAliases right

/-- `validate` of every node; no table is scanned twice, and every scanned table has a column. -/
def Valid : DocumentNode → Prop
  | .scan s => s.outputSchema ≠ []
  | .over op input => Valid input ∧ OperatorValid input op
  | .join left right on => Valid left ∧ Valid right ∧ (∀ table ∈ scanAliases left, table ∉ scanAliases right) ∧
    ∀ e ∈ on, OnValid left right e

/-! ## Tables of a valid plan -/

section

variable {condition : ColumnCondition} {table : String} {node : DocumentNode}

lemma mem_conditionAliases {table : String} : table ∈ conditionAliases condition ↔
    ∃ ref ∈ condition.references, ref.table = table := by
  rw [conditionAliases, List.mem_eraseDups, List.mem_map]

/-- Every column that a one-table condition reads is of its table. -/
lemma table_eq (hone : conditionAliases condition = [table]) {ref : ColumnRef} (href : ref ∈ condition.references) :
    ref.table = table := by
  have hmem := mem_conditionAliases.2 ⟨ref, href, rfl⟩
  rwa [hone, List.mem_singleton] at hmem

lemma filterAlias_eq (hone : conditionAliases condition = [table]) : filterAlias condition = .ok table := by
  rw [filterAlias, hone]

/-- A Join produces the columns of both sides. -/
lemma mem_foldl_fields {fields : List ColumnRef} : ∀ {start : List ColumnRef} {field : ColumnRef},
    field ∈ fields.foldl (fun kept field => if field ∈ kept then kept else kept ++ [field]) start ↔
      field ∈ start ∨ field ∈ fields := by
  induction fields with
  | nil => simp
  | cons f fields ih =>
    intro start field
    rw [List.foldl_cons, ih]
    split
    · rename_i hf
      constructor
      · exact Or.imp_right (List.mem_cons_of_mem f)
      · rintro (h | h)
        · exact .inl h
        · obtain rfl | h := List.mem_cons.1 h
          · exact .inl hf
          · exact .inr h
    · simp [or_assoc]

lemma mem_fieldAliases_join {left right : DocumentNode} {on : List Equality} :
    table ∈ fieldAliases (.join left right on) ↔ table ∈ fieldAliases left ∨ table ∈ fieldAliases right := by
  simp only [fieldAliases, DocumentNode.outputSchema, List.mem_map, mem_foldl_fields]
  constructor
  · rintro ⟨field, h | h, rfl⟩
    · exact .inl ⟨field, h, rfl⟩
    · exact .inr ⟨field, h, rfl⟩
  · rintro (⟨field, h, rfl⟩ | ⟨field, h, rfl⟩)
    · exact ⟨field, .inl h, rfl⟩
    · exact ⟨field, .inr h, rfl⟩

/-- An operator over a relation produces its input's columns. -/
lemma fieldAliases_over {op : DocumentOperator} (h : table ∈ fieldAliases node) : table ∈ fieldAliases (.over op node) := by
  obtain ⟨field, hfield, rfl⟩ := List.mem_map.1 h
  refine List.mem_map.2 ⟨field, ?_, rfl⟩
  cases op with
  | column c => exact List.mem_append_left _ hfield
  | semanticFilter => exact hfield
  | filter => exact hfield
  | semanticJoin => exact hfield

/-- A column operator of a valid plan is on a table of its input. -/
lemma column_table {c : SemanticColumn} (h : OperatorValid node (.column c)) :
    c.table ∈ c.call.aliases ∧ c.table ∈ fieldAliases node := by
  obtain ⟨hlength, hpresent, -⟩ := h
  have hmem : c.table ∈ c.call.aliases := by
    rw [SemanticColumn.table]
    cases haliases : c.call.aliases with
    | nil => simp [haliases] at hlength
    | cons first rest => exact List.mem_cons_self
  exact ⟨hmem, hpresent _ hmem⟩

/-- An operator over a relation of a valid plan produces columns of its input's tables. -/
lemma mem_fieldAliases_over {op : DocumentOperator} (hvalid : OperatorValid node op) :
    table ∈ fieldAliases (.over op node) ↔ table ∈ fieldAliases node := by
  refine ⟨fun h => ?_, fieldAliases_over⟩
  cases op with
  | column c =>
    obtain ⟨field, hfield, rfl⟩ := List.mem_map.1 h
    obtain hfield | hfield := List.mem_append.1 hfield
    · exact List.mem_map_of_mem hfield
    · obtain ⟨name, -, rfl⟩ := List.mem_map.1 hfield
      exact (column_table hvalid).2
  | semanticFilter => exact h
  | filter => exact h
  | semanticJoin => exact h

/-- The tables of a valid plan's columns are those it scans. -/
theorem mem_fieldAliases (hvalid : Valid node) : table ∈ fieldAliases node ↔ table ∈ scanAliases node := by
  induction node with
  | scan s =>
    rw [scanAliases, DocumentNode.scans, List.map_singleton, List.mem_singleton]
    constructor
    · intro h
      obtain ⟨field, hfield, rfl⟩ := List.mem_map.1 h
      obtain ⟨column, -, rfl⟩ := List.mem_map.1 hfield
      rfl
    · rintro rfl
      obtain ⟨field, hfield⟩ := List.exists_mem_of_ne_nil _ hvalid
      have hcolumn := hfield
      obtain ⟨column, -, rfl⟩ := List.mem_map.1 hcolumn
      exact List.mem_map.2 ⟨_, hfield, rfl⟩
  | «over» op input ih => rw [mem_fieldAliases_over hvalid.2, ih hvalid.1]; rfl
  | join left right on ihl ihr =>
    rw [mem_fieldAliases_join, ihl hvalid.1, ihr hvalid.2.1]
    simp only [scanAliases, DocumentNode.scans, List.map_append, List.mem_append]

/-- A table of one side of a join is not of the other. -/
lemma fieldAliases_disjoint {left right : DocumentNode} {on : List Equality} (hvalid : Valid (.join left right on))
    (h : table ∈ fieldAliases left) : table ∉ fieldAliases right := by
  obtain ⟨hleft, hright, hdisjoint, -⟩ := hvalid
  rw [mem_fieldAliases hleft] at h
  rw [mem_fieldAliases hright]
  exact hdisjoint table h

/-- A table with a source column below a node is one of the node's tables. -/
lemma source_table (hvalid : Valid node) (hnone : table ∉ fieldAliases node) : scanColumns table node = [] := by
  cases node with
  | scan s =>
    rw [scanColumns, if_neg]
    rintro rfl
    refine hnone ((mem_fieldAliases hvalid).2 ?_)
    rw [scanAliases, DocumentNode.scans, List.map_singleton]
    exact List.mem_cons_self
  | «over» op input => rw [scanColumns, if_neg fun h => hnone (fieldAliases_over h)]
  | join left right on =>
    rw [mem_fieldAliases_join, not_or] at hnone
    rw [scanColumns, if_neg hnone.1, if_neg hnone.2]

lemma computedColumns_over {c : SemanticColumn} : computedColumns (.over (.column c) node) =
    computedColumns node ++ if c.call.aliases.length = 1 then c.added else [] := by
  rw [computedColumns, DocumentNode.columns, List.filter_append, List.flatMap_append]
  congr 1
  by_cases hone : c.call.aliases.length = 1
  · simp [hone]
  · simp [hone]

lemma computedColumns_join {left right : DocumentNode} {on : List Equality} :
    computedColumns (.join left right on) = computedColumns left ++ computedColumns right := by
  rw [computedColumns, DocumentNode.columns, List.filter_append, List.flatMap_append]
  rfl

/-- A computed column is of a table of the node. -/
lemma computed_table (hvalid : Valid node) {key : ColumnKey} (h : key ∈ computedColumns node) :
    key.1 ∈ fieldAliases node := by
  induction node with
  | scan s => cases h
  | «over» op input ih =>
    cases op with
    | column c =>
      rw [computedColumns_over, List.mem_append] at h
      obtain h | h := h
      · exact fieldAliases_over (ih hvalid.1 h)
      · split at h
        · obtain ⟨name, -, rfl⟩ := List.mem_map.1 h
          exact fieldAliases_over (column_table hvalid.2).2
        · cases h
    | semanticFilter => exact fieldAliases_over (ih hvalid.1 h)
    | filter => exact fieldAliases_over (ih hvalid.1 h)
    | semanticJoin => exact fieldAliases_over (ih hvalid.1 h)
  | join left right on ihl ihr =>
    rw [computedColumns_join, List.mem_append] at h
    exact mem_fieldAliases_join.2 (h.imp (ihl hvalid.1) (ihr hvalid.2.1))

/-- A Filter of a valid plan tests a table of its input. -/
lemma filter_table (hvalid : Valid node) (htested : OperatorValid node (.filter condition))
    (hone : conditionAliases condition = [table]) : table ∈ fieldAliases node := by
  obtain ⟨ref, href, htable⟩ := mem_conditionAliases.1 (hone ▸ List.mem_singleton_self table)
  obtain h | h := htested.2 ref href
  · exact htable ▸ computed_table hvalid h
  · by_contra hnone
    rw [htable, source_table hvalid hnone] at h
    cases h

end

/-! ## Relations of one shape -/

/-- What a node says about a relation to the operators above it. -/
structure Alike (node node' : DocumentNode) : Prop where
  schema : node'.outputSchema = node.outputSchema
  columns : node'.columns = node.columns
  scans : node'.scans = node.scans
  predicates : joinPredicates node' = joinPredicates node
  sources : ∀ table, scanColumns table node' = scanColumns table node

namespace Alike

variable {node node' left left' right right' : DocumentNode} {on : List Equality} {op : DocumentOperator}

lemma refl : Alike node node := ⟨rfl, rfl, rfl, rfl, fun _ => rfl⟩

lemma trans {last : DocumentNode} (h : Alike node node') (h' : Alike node' last) : Alike node last :=
  ⟨h'.schema.trans h.schema, h'.columns.trans h.columns, h'.scans.trans h.scans, h'.predicates.trans h.predicates,
    fun table => (h'.sources table).trans (h.sources table)⟩

lemma fieldAliases (h : Alike node node') : fieldAliases node' = fieldAliases node := by
  rw [Pushdown.fieldAliases, Pushdown.fieldAliases, h.schema]

lemma computedColumns (h : Alike node node') : computedColumns node' = computedColumns node := by
  rw [Pushdown.computedColumns, Pushdown.computedColumns, h.columns]

lemma scanAliases (h : Alike node node') : scanAliases node' = scanAliases node := by
  rw [Pushdown.scanAliases, Pushdown.scanAliases, h.scans]

/-- A Filter adds nothing that the operators above it read. -/
lemma filter {condition : ColumnCondition} (hvalid : Valid node) : Alike node (.over (.filter condition) node) where
  schema := rfl
  columns := rfl
  scans := rfl
  predicates := rfl
  sources table := by
    rw [scanColumns]
    split
    · rfl
    · rename_i hnone
      rw [source_table hvalid hnone]

lemma above (h : Alike node node') : Alike (.over op node) (.over op node') where
  schema := by cases op <;> simp only [DocumentNode.outputSchema, h.schema]
  columns := by cases op <;> simp only [DocumentNode.columns, h.columns]
  scans := h.scans
  predicates := by cases op <;> simp only [joinPredicates, h.predicates]
  sources table := by rw [scanColumns, scanColumns, h.fieldAliases, h.sources]

lemma join (hl : Alike left left') (hr : Alike right right') : Alike (.join left right on) (.join left' right' on) where
  schema := by simp only [DocumentNode.outputSchema, hl.schema, hr.schema]
  columns := by simp only [DocumentNode.columns, hl.columns, hr.columns]
  scans := by simp only [DocumentNode.scans, hl.scans, hr.scans]
  predicates := by simp only [joinPredicates, hl.predicates, hr.predicates]
  sources table := by simp only [scanColumns, hl.fieldAliases, hr.fieldAliases, hl.sources, hr.sources]

/-- An operator is valid over any relation of the same shape. -/
lemma operatorValid (h : Alike node node') (hvalid : OperatorValid node op) : OperatorValid node' op := by
  cases op with
  | semanticFilter => exact hvalid
  | filter condition => simpa only [OperatorValid, h.computedColumns, h.sources] using hvalid
  | column c => simpa only [OperatorValid, h.predicates, h.fieldAliases, h.schema] using hvalid
  | semanticJoin => simpa only [OperatorValid, h.fieldAliases] using hvalid

lemma valid_over (h : Alike node node') (hnode : Valid node') (hvalid : Valid (.over op node)) :
    Valid (.over op node') :=
  ⟨hnode, h.operatorValid hvalid.2⟩

lemma valid_join (hl : Alike left left') (hr : Alike right right') (hleft : Valid left') (hright : Valid right')
    (hvalid : Valid (.join left right on)) : Valid (.join left' right' on) := by
  obtain ⟨-, -, hdisjoint, hon⟩ := hvalid
  refine ⟨hleft, hright, ?_, fun e he => ?_⟩
  · rwa [hl.scanAliases, hr.scanAliases]
  · simpa only [OnValid, hl.fieldAliases, hr.fieldAliases] using hon e he

end Alike

/-! ## Where a Filter goes -/

/-- No join stands between a node and what stops a Filter on a table: the Filter stays above the node. -/
inductive Stuck (table : String) : DocumentNode → Prop
  | scan {s : Scan} : Stuck table (.scan s)
  | stopped {op : DocumentOperator} {input : DocumentNode} : letsThrough table op = .ok false → Stuck table (.over op input)
  | under {op : DocumentOperator} {input : DocumentNode} : letsThrough table op = .ok true → Stuck table input →
      Stuck table (.over op input)

/-- A node with a Filter on one table put below its joins, above what stops it. -/
inductive Placed (condition : ColumnCondition) (table : String) : DocumentNode → DocumentNode → Prop
  | left {left right : DocumentNode} {on : List Equality} : table ∈ fieldAliases left → Stuck table left →
      Placed condition table (.join left right on) (.join (.over (.filter condition) left) right on)
  | leftBelow {left left' right : DocumentNode} {on : List Equality} : table ∈ fieldAliases left →
      Placed condition table left left' → Placed condition table (.join left right on) (.join left' right on)
  | right {left right : DocumentNode} {on : List Equality} : table ∉ fieldAliases left → Stuck table right →
      Placed condition table (.join left right on) (.join left (.over (.filter condition) right) on)
  | rightBelow {left right right' : DocumentNode} {on : List Equality} : table ∉ fieldAliases left →
      Placed condition table right right' → Placed condition table (.join left right on) (.join left right' on)
  | past {op : DocumentOperator} {input input' : DocumentNode} : letsThrough table op = .ok true →
      Placed condition table input input' → Placed condition table (.over op input) (.over op input')

section

variable {condition : ColumnCondition} {table : String} {node node' : DocumentNode}

/-- Every operator of a valid plan stops a Filter or lets it through. -/
lemma letsThrough_ok {op : DocumentOperator} (hvalid : OperatorValid node op) :
    letsThrough table op = .ok true ∨ letsThrough table op = .ok false := by
  have hbool : ∀ b : Bool, (.ok b : Except PyError Bool) = .ok true ∨ (.ok b : Except PyError Bool) = .ok false := by
    intro b
    cases b
    · exact .inr rfl
    · exact .inl rfl
  cases op with
  | semanticFilter predicates stopKey => exact hbool _
  | filter tested =>
    obtain ⟨⟨own, hone⟩, -⟩ := hvalid
    rw [letsThrough, filterAlias_eq hone]
    exact hbool (own != table)
  | column c => exact hbool _
  | semanticJoin predicate semantics anchor => exact hbool _

/-- A Filter moves past the Filters of other tables. -/
lemma letsThrough_filter {tested : ColumnCondition} (h : letsThrough table (.filter tested) = .ok true) :
    ∃ other ≠ table, filterAlias tested = .ok other := by
  rw [letsThrough] at h
  obtain ⟨other, hother, hne⟩ := bind_eq_ok h
  refine ⟨other, ?_, hother⟩
  simpa using Except.ok.inj hne

/-- `_place_filter` returns on a valid plan: the Filter is put below a join, or it is stuck. -/
theorem placeFilter_spec (hvalid : Valid node) :
    placeFilter condition table node = .ok none ∧ Stuck table node ∨
      ∃ placed, placeFilter condition table node = .ok (some placed) ∧ Placed condition table node placed := by
  induction node with
  | scan s => exact .inl ⟨rfl, .scan⟩
  | «over» op input ih =>
    rw [placeFilter]
    obtain hlets | hlets := @letsThrough_ok table _ _ hvalid.2
    · rw [hlets]
      obtain ⟨hrun, hstuck⟩ | ⟨placed, hrun, hplaced⟩ := ih hvalid.1
      · exact .inl ⟨by simp [hrun], .under hlets hstuck⟩
      · exact .inr ⟨.over op placed, by simp [hrun], .past hlets hplaced⟩
    · rw [hlets]
      exact .inl ⟨rfl, .stopped hlets⟩
  | join left right on ihl ihr =>
    rw [placeFilter]
    refine .inr ?_
    split
    · rename_i hleft
      obtain ⟨hrun, hstuck⟩ | ⟨placed, hrun, hplaced⟩ := ihl hvalid.1
      · exact ⟨_, by rw [hrun]; rfl, .left hleft hstuck⟩
      · exact ⟨_, by rw [hrun]; rfl, .leftBelow hleft hplaced⟩
    · rename_i hleft
      obtain ⟨hrun, hstuck⟩ | ⟨placed, hrun, hplaced⟩ := ihr hvalid.2.1
      · exact ⟨_, by rw [hrun]; rfl, .right hleft hstuck⟩
      · exact ⟨_, by rw [hrun]; rfl, .rightBelow hleft hplaced⟩

/-- A stuck Filter is not placed. -/
lemma Stuck.placeFilter (h : Stuck table node) : placeFilter condition table node = .ok none := by
  induction h with
  | scan => rfl
  | stopped hlets => rw [Pushdown.placeFilter, hlets]; rfl
  | under hlets _ ih => rw [Pushdown.placeFilter, hlets, ok_bind, if_pos rfl, ih]; rfl

/-- A Filter is stuck where one on another table was, once that one is placed further down. -/
lemma Placed.stuck {other : String} (h : Placed condition table node node') (hstuck : Stuck other node) :
    Stuck other node' := by
  induction h with
  | left => cases hstuck
  | leftBelow => cases hstuck
  | right => cases hstuck
  | rightBelow => cases hstuck
  | past _ _ ih =>
    cases hstuck with
    | stopped hlets => exact .stopped hlets
    | under hlets hinput => exact .under hlets (ih hinput)

/-- A placed Filter leaves the shape of the relation. -/
theorem Placed.alike (h : Placed condition table node node') (hvalid : Valid node) : Alike node node' := by
  induction h with
  | left => exact .join (.filter hvalid.1) .refl
  | leftBelow _ _ ih => exact .join (ih hvalid.1) .refl
  | right => exact .join .refl (.filter hvalid.2.1)
  | rightBelow _ _ ih => exact .join .refl (ih hvalid.2.1)
  | past _ _ ih => exact .above (ih hvalid.1)

/-! ## A placed Filter is valid -/

/-- What a Filter tests is below a join's left side, when its table is. -/
lemma filterValid_left {left right : DocumentNode} {on : List Equality} (hvalid : Valid (.join left right on))
    (hone : conditionAliases condition = [table]) (hleft : table ∈ fieldAliases left)
    (h : OperatorValid (.join left right on) (.filter condition)) : OperatorValid left (.filter condition) := by
  refine ⟨h.1, fun ref href => ?_⟩
  have htable := table_eq hone href
  obtain hcomputed | hsource := h.2 ref href
  · rw [computedColumns_join, List.mem_append] at hcomputed
    refine .inl (hcomputed.resolve_right fun hright => fieldAliases_disjoint hvalid hleft ?_)
    exact htable ▸ computed_table hvalid.2.1 hright
  · rw [scanColumns, if_pos (htable ▸ hleft)] at hsource
    exact .inr hsource

/-- What a Filter tests is below a join's right side, when its table is not on the left. -/
lemma filterValid_right {left right : DocumentNode} {on : List Equality} (hvalid : Valid (.join left right on))
    (hone : conditionAliases condition = [table]) (hleft : table ∉ fieldAliases left)
    (h : OperatorValid (.join left right on) (.filter condition)) : OperatorValid right (.filter condition) := by
  refine ⟨h.1, fun ref href => ?_⟩
  have htable := table_eq hone href
  obtain hcomputed | hsource := h.2 ref href
  · rw [computedColumns_join, List.mem_append] at hcomputed
    exact .inl (hcomputed.resolve_left fun h => hleft (htable ▸ computed_table hvalid.1 h))
  · rw [scanColumns, htable, if_neg hleft] at hsource
    split at hsource
    · exact .inr (htable ▸ hsource)
    · cases hsource

/-- What a Filter tests is below an operator that lets it through: a one-table column operator of another table
adds none of it. -/
lemma filterValid_input {op : DocumentOperator} (hone : conditionAliases condition = [table])
    (hlets : letsThrough table op = .ok true) (h : OperatorValid (.over op node) (.filter condition)) :
    OperatorValid node (.filter condition) := by
  refine ⟨h.1, fun ref href => ?_⟩
  have htable := table_eq hone href
  obtain hcomputed | hsource := h.2 ref href
  · refine .inl ?_
    cases op with
    | column c =>
      rw [computedColumns_over, List.mem_append] at hcomputed
      refine hcomputed.resolve_right fun hadded => ?_
      split at hadded
      · rename_i hlength
        obtain ⟨name, -, hkey⟩ := List.mem_map.1 hadded
        have hown : c.table = table := (congrArg Prod.fst hkey).trans htable
        simp [letsThrough, hlength, hown] at hlets
      · cases hadded
    | semanticFilter => exact hcomputed
    | filter => exact hcomputed
    | semanticJoin => exact hcomputed
  · rw [scanColumns] at hsource
    split at hsource
    · exact .inr hsource
    · cases hsource

/-- A valid plan stays valid with a Filter placed. -/
theorem Placed.valid (h : Placed condition table node node') (hvalid : Valid node)
    (hone : conditionAliases condition = [table]) (hfilter : OperatorValid node (.filter condition)) : Valid node' := by
  induction h with
  | left hleft =>
    have hchild := filterValid_left hvalid hone hleft hfilter
    exact Alike.valid_join (.filter hvalid.1) .refl ⟨hvalid.1, hchild⟩ hvalid.2.1 hvalid
  | leftBelow hleft hbelow ih =>
    have hchild := filterValid_left hvalid hone hleft hfilter
    exact Alike.valid_join (hbelow.alike hvalid.1) .refl (ih hvalid.1 hchild) hvalid.2.1 hvalid
  | right hleft =>
    have hchild := filterValid_right hvalid hone hleft hfilter
    exact Alike.valid_join .refl (.filter hvalid.2.1) hvalid.1 ⟨hvalid.2.1, hchild⟩ hvalid
  | rightBelow hleft hbelow ih =>
    have hchild := filterValid_right hvalid hone hleft hfilter
    exact Alike.valid_join .refl (hbelow.alike hvalid.2.1) hvalid.1 (ih hvalid.2.1 hchild) hvalid
  | past hlets hbelow ih =>
    have hchild := filterValid_input hone hlets hfilter
    exact Alike.valid_over (hbelow.alike hvalid.1) (ih hvalid.1 hchild) hvalid

end

/-! ## The rows of a plan -/

/-- A combination of documents, one of each table it names. -/
abbrev Combination (D : Type) := List (String × D)

/-- The document of a table. -/
def Combination.document {D : Type} (row : Combination D) (table : String) : Option D :=
  (row.find? fun e => e.1 = table).map Prod.snd

/-- The contents of the tables and the fixed answers of the model. -/
structure World (D : Type) where
  /-- The documents of a Scan that pass its conditions, in the table's order. -/
  documents : Scan → List D
  /-- A condition on the documents whose columns it reads, source and computed. -/
  test : ColumnCondition → (String → Option D) → Bool
  test_local : ∀ condition f g, (∀ table ∈ conditionAliases condition, f table = g table) →
    test condition f = test condition g
  /-- The model's answer to a predicate. -/
  answer : ModelPredicate → (String → Option D) → Bool
  equal : Equality → (String → Option D) → Bool
  /-- What an exists or anti join keeps of its input rows. -/
  gate : ModelPredicate → Semantics → Option String → List (Combination D) → List (Combination D)
  gate_names : ∀ predicate semantics anchor rows, ∀ row ∈ gate predicate semantics anchor rows, ∀ table,
    (row.document table).isSome = true → ∃ row' ∈ rows, (row'.document table).isSome = true

variable {D : Type}

/-- The rows of an operator over its input rows. A column operator adds answers, which the documents determine. -/
def World.apply (w : World D) (rows : List (Combination D)) : DocumentOperator → List (Combination D)
  | .semanticFilter predicates _ => rows.filter fun row => predicates.all fun p => w.answer p row.document
  | .filter condition => rows.filter fun row => w.test condition row.document
  | .column _ => rows
  | .semanticJoin predicate .full _ => rows.filter fun row => w.answer predicate row.document
  | .semanticJoin predicate semantics anchor => w.gate predicate semantics anchor rows

/-- The rows of a relation. -/
def World.rows (w : World D) : DocumentNode → List (Combination D)
  | .scan s => (w.documents s).map fun d => [(s.table, d)]
  | .over op input => w.apply (w.rows input) op
  | .join left right on => (w.rows left).flatMap fun a =>
    ((w.rows right).map (a ++ ·)).filter fun row => on.all fun e => w.equal e row.document

/-! ## The rows of a placed Filter -/

/-- Combined rows name the tables of both. -/
lemma Combination.document_append {a b : Combination D} {table : String} :
    Combination.document (a ++ b) table = (a.document table).or (b.document table) := by
  rw [Combination.document, List.find?_append]
  unfold Combination.document
  cases a.find? fun e => e.1 = table with
  | none => rfl
  | some e => rfl

section

variable {condition : ColumnCondition} {table : String} {node node' : DocumentNode} (w : World D)

/-- The rows of a relation name tables that it scans. -/
lemma World.document_scans {row : Combination D} (hrow : row ∈ w.rows node) (h : (row.document table).isSome = true) :
    table ∈ scanAliases node := by
  induction node generalizing row with
  | scan s =>
    obtain ⟨d, -, rfl⟩ := List.mem_map.1 hrow
    by_contra hne
    have hother : s.table ≠ table := fun heq => hne (heq ▸ List.mem_singleton_self s.table)
    simp [Combination.document, hother] at h
  | «over» op input ih =>
    have hinput : ∃ row' ∈ w.rows input, (row'.document table).isSome = true := by
      cases op with
      | semanticFilter => exact ⟨row, List.mem_of_mem_filter hrow, h⟩
      | filter => exact ⟨row, List.mem_of_mem_filter hrow, h⟩
      | column => exact ⟨row, hrow, h⟩
      | semanticJoin predicate semantics anchor =>
        cases semantics with
        | full => exact ⟨row, List.mem_of_mem_filter hrow, h⟩
        | _ => exact w.gate_names _ _ _ _ row hrow table h
    obtain ⟨row', hrow', h'⟩ := hinput
    exact ih hrow' h'
  | join left right on ihl ihr =>
    obtain ⟨a, ha, hpairs⟩ := List.mem_flatMap.1 hrow
    obtain ⟨b, hb, rfl⟩ := List.mem_map.1 (List.mem_of_mem_filter hpairs)
    rw [scanAliases, DocumentNode.scans, List.map_append, List.mem_append]
    rw [Combination.document_append] at h
    cases hdocument : a.document table with
    | some d => exact .inl (ihl ha (by rw [hdocument]; rfl))
    | none =>
      rw [hdocument, Option.none_or] at h
      exact .inr (ihr hb h)

/-- A relation that does not scan a table has no document of it. -/
lemma World.document_none (hvalid : Valid node) (hnone : table ∉ fieldAliases node) {row : Combination D}
    (hrow : row ∈ w.rows node) : row.document table = none := by
  rw [mem_fieldAliases hvalid] at hnone
  rw [← Option.not_isSome_iff_eq_none]
  exact fun h => hnone (w.document_scans hrow h)

/-- A condition on a table of the left side tests a pair by its left row. -/
lemma World.test_left {left right : DocumentNode} {on : List Equality} (hvalid : Valid (.join left right on))
    (hone : conditionAliases condition = [table]) (hleft : table ∈ fieldAliases left) {a b : Combination D}
    (hb : b ∈ w.rows right) : w.test condition (Combination.document (a ++ b)) = w.test condition a.document := by
  refine w.test_local condition _ _ fun other hother => ?_
  rw [hone, List.mem_singleton] at hother
  have hnone := w.document_none hvalid.2.1 (fieldAliases_disjoint hvalid hleft) hb
  rw [hother, Combination.document_append, hnone, Option.or_none]

/-- A condition on a table that the left side does not have tests a pair by its right row. -/
lemma World.test_right {left right : DocumentNode} {on : List Equality} (hvalid : Valid (.join left right on))
    (hone : conditionAliases condition = [table]) (hleft : table ∉ fieldAliases left) {a b : Combination D}
    (ha : a ∈ w.rows left) : w.test condition (Combination.document (a ++ b)) = w.test condition b.document := by
  refine w.test_local condition _ _ fun other hother => ?_
  rw [hone, List.mem_singleton] at hother
  rw [hother, Combination.document_append, w.document_none hvalid.1 hleft ha, Option.none_or]

/-- A test of the rows commutes with what lets a Filter through. -/
lemma World.apply_filter {op : DocumentOperator} (hlets : letsThrough table op = .ok true)
    (rows : List (Combination D)) (p : Combination D → Bool) :
    w.apply (rows.filter p) op = (w.apply rows op).filter p := by
  cases op with
  | semanticFilter => exact List.filter_comm _ _ _
  | filter => exact List.filter_comm _ _ _
  | column => rfl
  | semanticJoin predicate semantics anchor =>
    cases semantics with
    | full => exact List.filter_comm _ _ _
    | _ => cases hlets

/-- A test of the left rows of a join is a test of its pairs. -/
lemma filter_flatMap_left {α β : Type} {p : α → Bool} {q : β → Bool} {f : α → List β} : ∀ {as : List α},
    (∀ a ∈ as, ∀ b ∈ f a, q b = p a) → (as.filter p).flatMap f = (as.flatMap f).filter q
  | [], _ => rfl
  | a :: as, h => by
    obtain ⟨ha, has⟩ := List.forall_mem_cons.1 h
    rw [List.filter_cons, List.flatMap_cons, List.filter_append, ← filter_flatMap_left has]
    split
    · rename_i hp
      rw [List.flatMap_cons, List.filter_eq_self.2 fun b hb => (ha b hb).trans hp]
    · rename_i hp
      have hnone : (f a).filter q = [] := List.filter_eq_nil_iff.2 fun b hb => by rwa [ha b hb]
      rw [hnone, List.nil_append]

/-- A test of the right rows of a join is a test of its pairs. -/
lemma filter_flatMap_right {p : Combination D → Bool} {q r : Combination D → Bool} {as bs : List (Combination D)}
    (h : ∀ a ∈ as, ∀ b ∈ bs, q (a ++ b) = p b) :
    (as.flatMap fun a => ((bs.filter p).map (a ++ ·)).filter r) =
      (as.flatMap fun a => (bs.map (a ++ ·)).filter r).filter q := by
  rw [List.filter_flatMap]
  refine List.flatMap_congr fun a ha => ?_
  have htested : (bs.map (a ++ ·)).filter q = (bs.filter p).map (a ++ ·) := by
    rw [List.filter_map]
    exact congrArg (List.map (a ++ ·)) (List.filter_congr fun b hb => h a ha b hb)
  rw [← htested, List.filter_comm]

/-- A placed Filter tests the rows of the node it moved below. -/
theorem Placed.rows (h : Placed condition table node node') (hvalid : Valid node)
    (hone : conditionAliases condition = [table]) :
    w.rows node' = (w.rows node).filter fun row => w.test condition row.document := by
  induction h with
  | left hleft =>
    refine filter_flatMap_left fun a _ row hrow => ?_
    obtain ⟨b, hb, rfl⟩ := List.mem_map.1 (List.mem_of_mem_filter hrow)
    exact w.test_left hvalid hone hleft hb
  | leftBelow hleft _ ih =>
    rw [World.rows, ih hvalid.1]
    refine filter_flatMap_left fun a _ row hrow => ?_
    obtain ⟨b, hb, rfl⟩ := List.mem_map.1 (List.mem_of_mem_filter hrow)
    exact w.test_left hvalid hone hleft hb
  | right hleft => exact filter_flatMap_right fun a ha b _ => w.test_right hvalid hone hleft ha
  | rightBelow hleft _ ih =>
    rw [World.rows, ih hvalid.2.1]
    exact filter_flatMap_right fun a ha b _ => w.test_right hvalid hone hleft ha
  | past hlets _ ih => rw [World.rows, ih hvalid.1, w.apply_filter hlets]; rfl

end

/-! ## The order of the Filters -/

/-- The Filters on one table, in the order the planner reads them. -/
def filtersOn (table : String) (node : DocumentNode) : List ColumnCondition :=
  node.filters.filter fun condition => conditionAliases condition = [table]

section

variable {condition : ColumnCondition} {table other : String} {node node' : DocumentNode}

/-- A Filter of a valid plan tests a table of the plan. -/
lemma filtersOn_eq_nil (hvalid : Valid node) (hnone : table ∉ fieldAliases node) : filtersOn table node = [] := by
  refine List.filter_eq_nil_iff.2 fun condition hmem hone => hnone ?_
  replace hone := of_decide_eq_true hone
  clear hnone
  induction node with
  | scan => cases hmem
  | «over» op input ih =>
    refine fieldAliases_over ?_
    cases op with
    | filter tested =>
      obtain h | h := List.mem_append.1 hmem
      · exact ih hvalid.1 h
      · obtain rfl := List.mem_singleton.1 h
        exact filter_table hvalid.1 hvalid.2 hone
    | semanticFilter => exact ih hvalid.1 hmem
    | column => exact ih hvalid.1 hmem
    | semanticJoin => exact ih hvalid.1 hmem
  | join left right on ihl ihr =>
    rw [mem_fieldAliases_join]
    exact (List.mem_append.1 hmem).imp (ihl hvalid.1) (ihr hvalid.2.1)

lemma filtersOn_filter : filtersOn other (.over (.filter condition) node) =
    filtersOn other node ++ if conditionAliases condition = [other] then [condition] else [] := by
  rw [filtersOn, DocumentNode.filters, List.filter_append]
  congr 1
  by_cases hone : conditionAliases condition = [other]
  · simp [hone]
  · simp [hone]

lemma filtersOn_join {left right : DocumentNode} {on : List Equality} :
    filtersOn other (.join left right on) = filtersOn other left ++ filtersOn other right :=
  List.filter_append ..

/-- A placed Filter keeps its place among the Filters on its table. -/
theorem Placed.filtersOn (h : Placed condition table node node') (hvalid : Valid node)
    (hone : conditionAliases condition = [table]) (hfilter : OperatorValid node (.filter condition)) :
    filtersOn other node' = filtersOn other (.over (.filter condition) node) := by
  induction h with
  | @left left right on hleft =>
    rw [filtersOn_join, filtersOn_filter, filtersOn_filter, filtersOn_join]
    split
    · rename_i hown
      obtain rfl : table = other := by simpa [hone] using hown
      have hnone := filtersOn_eq_nil hvalid.2.1 (fieldAliases_disjoint hvalid hleft)
      rw [hnone, List.append_nil, List.append_nil]
    · rw [List.append_nil, List.append_nil]
  | @leftBelow left left' right on hleft hbelow ih =>
    have hchild := filterValid_left hvalid hone hleft hfilter
    rw [filtersOn_join, ih hvalid.1 hchild, filtersOn_filter, filtersOn_filter, filtersOn_join]
    split
    · rename_i hown
      obtain rfl : table = other := by simpa [hone] using hown
      have hnone := filtersOn_eq_nil hvalid.2.1 (fieldAliases_disjoint hvalid hleft)
      rw [hnone, List.append_nil, List.append_nil]
    · rw [List.append_nil, List.append_nil]
  | right hleft => rw [filtersOn_join, filtersOn_filter, filtersOn_filter, filtersOn_join, List.append_assoc]
  | rightBelow hleft hbelow ih =>
    have hchild := filterValid_right hvalid hone hleft hfilter
    rw [filtersOn_join, ih hvalid.2.1 hchild, filtersOn_filter, filtersOn_filter, filtersOn_join, List.append_assoc]
  | @past op input input' hlets hbelow ih =>
    have hchild := filterValid_input hone hlets hfilter
    have hbelow := ih hvalid.1 hchild
    cases op with
    | filter tested =>
      obtain ⟨passed, hne, hpassed⟩ := letsThrough_filter hlets
      obtain ⟨⟨own, hown⟩, -⟩ := hvalid.2
      obtain rfl := Except.ok.inj ((filterAlias_eq hown).symm.trans hpassed)
      rw [filtersOn_filter, hbelow, filtersOn_filter, filtersOn_filter, filtersOn_filter, hone, hown]
      simp only [List.cons.injEq, and_true]
      split
      · rename_i htable
        rw [if_neg fun h => hne (h.trans htable.symm), List.append_nil, List.append_nil]
      · rw [List.append_nil, List.append_nil]
    | semanticFilter => rw [filtersOn_filter] at hbelow ⊢; exact hbelow
    | column => rw [filtersOn_filter] at hbelow ⊢; exact hbelow
    | semanticJoin => rw [filtersOn_filter] at hbelow ⊢; exact hbelow

end

/-! ## The rewritten plan -/

/-- A relation where no Filter moves: each stands above what stops it. -/
def Settled : DocumentNode → Prop
  | .scan _ => True
  | .over op input => Settled input ∧
    ∀ condition table, op = .filter condition → filterAlias condition = .ok table → Stuck table input
  | .join left right _ => Settled left ∧ Settled right

/-- What the rule keeps of a relation, and what it makes of its Filters. -/
structure Pushed (node node' : DocumentNode) : Prop where
  alike : Alike node node'
  valid : Valid node'
  settled : Settled node'
  filters : ∀ table, filtersOn table node' = filtersOn table node
  rows : ∀ (D : Type) (w : World D), w.rows node' = w.rows node

section

variable {condition : ColumnCondition} {table : String} {node node' : DocumentNode}

/-- A Filter put where it is stuck leaves a settled relation settled. -/
lemma Placed.settled (h : Placed condition table node node') (hown : filterAlias condition = .ok table)
    (hsettled : Settled node) : Settled node' := by
  have hstuck : ∀ {child : DocumentNode}, Stuck table child → ∀ tested other,
      DocumentOperator.filter condition = .filter tested → filterAlias tested = .ok other → Stuck other child := by
    intro child hchild tested other hop hother
    cases hop
    obtain rfl := Except.ok.inj (hown.symm.trans hother)
    exact hchild
  induction h with
  | left _ hleft => exact ⟨⟨hsettled.1, hstuck hleft⟩, hsettled.2⟩
  | leftBelow _ _ ih => exact ⟨ih hsettled.1, hsettled.2⟩
  | right _ hright => exact ⟨hsettled.1, hsettled.2, hstuck hright⟩
  | rightBelow _ _ ih => exact ⟨hsettled.1, ih hsettled.2⟩
  | past _ hbelow ih =>
    refine ⟨ih hsettled.1, fun tested other hop hother => ?_⟩
    exact hbelow.stuck (hsettled.2 tested other hop hother)

/-- An operator stays above a rewritten relation. -/
lemma Pushed.above {op : DocumentOperator} (h : Pushed node node') (hvalid : Valid (.over op node))
    (hstuck : ∀ condition table, op = .filter condition → filterAlias condition = .ok table → Stuck table node') :
    Pushed (.over op node) (.over op node') where
  alike := h.alike.above
  valid := h.alike.valid_over h.valid hvalid
  settled := ⟨h.settled, hstuck⟩
  filters table := by
    cases op with
    | filter tested => rw [filtersOn_filter, filtersOn_filter, h.filters]
    | semanticFilter => exact h.filters table
    | column => exact h.filters table
    | semanticJoin => exact h.filters table
  rows D w := by rw [World.rows, World.rows, h.rows]

lemma Pushed.join {left left' right right' : DocumentNode} {on : List Equality} (hl : Pushed left left')
    (hr : Pushed right right') (hvalid : Valid (.join left right on)) :
    Pushed (.join left right on) (.join left' right' on) where
  alike := hl.alike.join hr.alike
  valid := hl.alike.valid_join hr.alike hl.valid hr.valid hvalid
  settled := ⟨hl.settled, hr.settled⟩
  filters table := by rw [filtersOn_join, filtersOn_join, hl.filters, hr.filters]
  rows D w := by rw [World.rows, World.rows, hl.rows, hr.rows]

/-- A Filter is placed below a rewritten relation. -/
lemma Pushed.placed {placed : DocumentNode} (h : Pushed node node') (hplaced : Placed condition table node' placed)
    (hvalid : Valid (.over (.filter condition) node)) (hone : conditionAliases condition = [table]) :
    Pushed (.over (.filter condition) node) placed where
  alike := (Alike.above h.alike).trans <| by
    have hfilter := @Alike.filter _ condition h.valid
    have hbelow := hplaced.alike h.valid
    exact ⟨hbelow.schema, hbelow.columns, hbelow.scans, hbelow.predicates,
      fun other => (hbelow.sources other).trans (hfilter.sources other).symm⟩
  valid := hplaced.valid h.valid hone (h.alike.operatorValid hvalid.2)
  settled := hplaced.settled (filterAlias_eq hone) h.settled
  filters other := by
    rw [hplaced.filtersOn h.valid hone (h.alike.operatorValid hvalid.2), filtersOn_filter, filtersOn_filter, h.filters]
  rows D w := by rw [hplaced.rows w h.valid hone, h.rows, World.rows, World.apply]

/-- A node after its children, over a rewritten input. -/
lemma visitOver_spec {op : DocumentOperator} (h : Pushed node node') (hvalid : Valid (.over op node)) (moved : Bool) :
    ∃ rewritten moved', visitOver op node' moved = .ok (rewritten, moved') ∧ Pushed (.over op node) rewritten := by
  cases op with
  | filter condition =>
    obtain ⟨⟨table, hone⟩, -⟩ := hvalid.2
    rw [visitOver, filterAlias_eq hone, ok_bind]
    obtain ⟨hrun, hstuck⟩ | ⟨placed, hrun, hplaced⟩ := @placeFilter_spec condition table _ h.valid
    · refine ⟨_, _, by rw [hrun]; rfl, h.above hvalid fun tested other hop hother => ?_⟩
      cases hop
      obtain rfl := Except.ok.inj ((filterAlias_eq hone).symm.trans hother)
      exact hstuck
    · exact ⟨_, _, by rw [hrun]; rfl, h.placed hplaced hvalid hone⟩
  | semanticFilter => exact ⟨_, _, rfl, h.above hvalid fun _ _ hop => by cases hop⟩
  | column => exact ⟨_, _, rfl, h.above hvalid fun _ _ hop => by cases hop⟩
  | semanticJoin => exact ⟨_, _, rfl, h.above hvalid fun _ _ hop => by cases hop⟩

/-- The rule returns on a valid relation, with its rows and its shape kept. -/
theorem visit_spec (hvalid : Valid node) : ∃ node' moved, visit node = .ok (node', moved) ∧ Pushed node node' := by
  induction node with
  | scan s => exact ⟨_, _, rfl, .refl, hvalid, trivial, fun _ => rfl, fun _ _ => rfl⟩
  | «over» op input ih =>
    obtain ⟨input', moved, hrun, h⟩ := ih hvalid.1
    obtain ⟨rewritten, moved', hover, hpushed⟩ := visitOver_spec h hvalid moved
    exact ⟨rewritten, moved', by rw [visit, hrun]; exact hover, hpushed⟩
  | join left right on ihl ihr =>
    obtain ⟨left', movedl, hrunl, hl⟩ := ihl hvalid.1
    obtain ⟨right', movedr, hrunr, hr⟩ := ihr hvalid.2.1
    exact ⟨_, _, by rw [visit, hrunl, hrunr]; rfl, hl.join hr hvalid⟩

/-- The rule moves no Filter of a settled relation. -/
lemma visit_settled (hvalid : Valid node) (hsettled : Settled node) : visit node = .ok (node, false) := by
  induction node with
  | scan s => rfl
  | «over» op input ih =>
    rw [visit, ih hvalid.1 hsettled.1, ok_bind]
    cases op with
    | filter condition =>
      obtain ⟨⟨table, hone⟩, -⟩ := hvalid.2
      have hstuck := hsettled.2 condition table rfl (filterAlias_eq hone)
      show visitOver _ _ _ = _
      rw [visitOver, filterAlias_eq hone, ok_bind, hstuck.placeFilter]
      rfl
    | semanticFilter => rfl
    | column => rfl
    | semanticJoin => rfl
  | join left right on ihl ihr => rw [visit, ihl hvalid.1 hsettled.1, ihr hvalid.2.1 hsettled.2]; rfl

end

lemma documents_withDocuments {d : DocumentNode} {rows : RowNode} : (rows.withDocuments d).documents = d := by
  induction rows with
  | project => rfl
  | «over» op input ih => exact ih

/-- The rule rewrites only the relation of documents of a valid plan. It keeps the plan valid, the columns and the
rows, in their order, whatever the tables hold and the model answers, and the order of the Filters on each table;
a second application moves no Filter. -/
theorem pushDownFilters_spec (plan : LogicalPlan) (hvalid : Valid plan.rows.documents) :
    ∃ result, pushDownFilters plan = .ok result ∧ ∀ plan' ∈ result,
      plan' = { plan with rows := plan.rows.withDocuments plan'.rows.documents } ∧ Valid plan'.rows.documents ∧
      plan'.rows.documents.outputSchema = plan.rows.documents.outputSchema ∧
      (∀ (D : Type) (w : World D), w.rows plan'.rows.documents = w.rows plan.rows.documents) ∧
      (∀ table, filtersOn table plan'.rows.documents = filtersOn table plan.rows.documents) ∧
      pushDownFilters plan' = .ok none := by
  obtain ⟨documents, moved, hrun, h⟩ := visit_spec hvalid
  refine ⟨_, by rw [pushDownFilters, hrun]; rfl, fun plan' hplan' => ?_⟩
  cases moved with
  | false => cases hplan'
  | true =>
    obtain rfl := Option.some.inj hplan'
    simp only [documents_withDocuments, true_and]
    refine ⟨h.valid, h.alike.schema, h.rows, h.filters, ?_⟩
    rw [pushDownFilters, documents_withDocuments, visit_settled h.valid h.settled]
    rfl

/-- `SELECT r.id FROM reviews r, items i WHERE r.stars = 5`, with the Filter above the join. -/
def starsPlan : LogicalPlan where
  rows := .project (.over (.filter (.test ⟨.column ⟨"r", "reviews", "stars"⟩, .equal, some ⟨"5"⟩⟩))
    (.join (.scan ⟨"reviews", "r", .name "text", [], [], some ["id", "text", "stars"]⟩)
      (.scan ⟨"items", "i", .name "text", [], [], some ["id", "text"]⟩) []))
    [.value (.column ⟨"r", "reviews", "id"⟩)] []
  order := []

theorem pushDownFilters_spec_stars : ∃ plan', pushDownFilters starsPlan = .ok (some plan') ∧
    (∀ (D : Type) (w : World D), w.rows plan'.rows.documents = w.rows starsPlan.rows.documents) ∧
    pushDownFilters plan' = .ok none := by
  have hvalid : Valid starsPlan.rows.documents := by
    have hscans : ∀ table ∈ ["r"], table ∉ ["i"] := by decide
    refine ⟨⟨List.cons_ne_nil _ _, List.cons_ne_nil _ _, hscans, fun e he => (by cases he)⟩, ⟨"r", by decide⟩, ?_⟩
    refine fun ref href => .inr ?_
    obtain rfl := List.mem_singleton.1 href
    decide
  obtain ⟨result, hrun, hresult⟩ := pushDownFilters_spec starsPlan hvalid
  cases result with
  | none => cases hrun
  | some plan' =>
    obtain ⟨-, -, -, hrows, -, hagain⟩ := hresult plan' rfl
    exact ⟨plan', hrun, hrows, hagain⟩

end Quail.Planner.Pushdown
