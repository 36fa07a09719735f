import Quail.Copies.Expansion
import Quail.Copies.Reduced

/-!
# Answers over one table

A filter and an inference over one table, run over the key documents and expanded, answer every document
as its key. The lemmas about one node and its ports are those of every operator.
-/

namespace Quail.Copies
open Arrays

variable {γ : Type} {context : Context}

/-! ## Key lists -/

lemma lt_size {ids : List ℕ} {x : ℕ} (h : x ∈ ids) : x < (ids.map (· + 1)).foldr max 0 := by
  induction ids with
  | nil => cases h
  | cons y ids ih =>
    rw [List.map_cons, List.foldr_cons]
    cases List.mem_cons.1 h with
    | inl heq => exact lt_of_lt_of_le (heq ▸ Nat.lt_succ_self y) (le_max_left ..)
    | inr hin => exact lt_of_lt_of_le (ih hin) (le_max_right ..)

/-- Every id the answers or the pairs name has its key listed. -/
lemma keysOf_spec {d : Deduplicated γ} (hkeys : KeysOf context d.keys) (hctx : context.WellFormed)
    (pairs : Option (Table (List γ))) {aliases : List Alias} {a : Alias} (ha : a ∈ aliases) :
    ∃ kl, (d.keysOf aliases pairs).get? a = some kl ∧
      ∀ x ∈ d.known pairs a, context.InTable a x → kl[x]? = some (keyIn d.keys a x) := by
  let entry : Alias → List ℕ := fun a =>
    (d.keys.get? a).getD (List.range (((d.known pairs a).map (· + 1)).foldr max 0))
  have hentry : ∀ x ∈ d.known pairs a, context.InTable a x →
      (entry a)[x]? = some (keyIn d.keys a x) := by
    intro x hx hin
    simp only [entry]
    cases hget : d.keys.get? a with
    | some documents => exact hkeys.keyList hctx hget hin
    | none => rw [keyIn_of_none hget, Option.getD_none, List.getElem?_range (lt_size hx)]
  have hkeysOf : d.keysOf aliases pairs = aliases.foldl (fun keys a => keys.set a (entry a)) Dict.empty := by
    refine List.foldl_ext _ _ _ fun keys a _ => ?_
    simp only [entry]
    cases d.keys.get? a with
    | some documents => rfl
    | none => rfl
  have hfold : ∀ (aliases : List Alias) (start : Dict Alias (List ℕ)),
      (aliases.foldl (fun keys a => keys.set a (entry a)) start).get? a =
        if a ∈ aliases then some (entry a) else start.get? a := by
    intro aliases
    induction aliases with
    | nil => exact fun start => rfl
    | cons b aliases ih =>
      intro start
      rw [List.foldl_cons, ih]
      by_cases hin : a ∈ aliases
      · rw [if_pos hin, if_pos (List.mem_cons_of_mem _ hin)]
      · rw [if_neg hin]
        by_cases hb : a = b
        · subst hb
          rw [if_pos (List.mem_cons_self ..)]
          exact Dict.get?_set_self
        · rw [if_neg fun h => (List.mem_cons.1 h).elim hb hin]
          exact Dict.get?_set_ne (Ne.symm hb)
  exact ⟨entry a, hkeysOf ▸ (hfold aliases Dict.empty).trans (if_pos ha), hentry⟩

/-! ## One node -/

section node

variable {join : List ℕ → List ℕ → List (ℕ × ℕ)} {d : Deduplicated γ} {node : Node}
  {result : NodeResult γ}

/-- A group of one node: its outputs are those of the loop over its ports. -/
lemma expanded_one (hnodes : d.nodes = [node]) {pairs : Option (Table (List γ))}
    {outputs : Dict PortName (Value γ)} {e : Expanding γ} {metrics : Metrics}
    (hpairs : d.pairsRead node [] = .ok pairs)
    (hports : ((node.outputs.filter fun port => port.valueType = .joinAnswers) ++
      node.outputs.filter fun port => port.valueType ≠ .joinAnswers).foldlM
        (d.expandPort join node pairs d.every result) (Dict.empty, ⟨d.every, Dict.empty, []⟩) =
          .ok (outputs, e))
    (hexpanded : e.expanded = Dict.empty)
    (hmetrics : d.expandMetrics node pairs outputs result.metrics = .ok metrics) :
    d.expanded join (Dict.empty.set node.nodeId result) =
      .ok (Dict.empty.set node.nodeId ⟨outputs, metrics⟩) := by
  rw [Deduplicated.expanded, hnodes, List.foldlM_cons, Deduplicated.expandNode,
    lookup_eq Dict.get?_set_self]
  simp only [ok_bind, hpairs, hports, hmetrics, List.foldlM_nil, pure, Except.pure, hexpanded]

/-- An output over deduplicated tables is expanded. -/
lemma expandPort_expanded {pairs : Option (Table (List γ))} {read : Dict Alias (List ℕ)}
    {s : Dict PortName (Value γ) × Expanding γ} {port : OutputPort} {value value' : Value γ}
    {aliases : List Alias} (hvalue : result.outputs.get? port.name = some value)
    (haliases : Deduplicated.aliasesOf node port value = .ok aliases)
    (hcopies : aliases.any d.keys.contains = true)
    (hexpand : d.expandOutput join node pairs read s.1 port value aliases = .ok value')
    (hnext : ∃ current, Deduplicated.readNext port aliases value' s.2.current = .ok current) :
    ∃ e', d.expandPort join node pairs read result s port = .ok (s.1.set port.name value', e') ∧
      e'.expanded = s.2.expanded := by
  obtain ⟨current, hnext⟩ := hnext
  refine ⟨{ s.2 with
    current := current
    earlierOutputs := ((node.nodeId, port.name), value') :: s.2.earlierOutputs }, ?_, rfl⟩
  rw [Deduplicated.expandPort, Deduplicated.outputAt, hvalue]
  simp only [ok_bind, haliases, hcopies, not_true_eq_false, if_false, hexpand, hnext]
  rfl

/-- Rows are expanded as a table, but for those of a join. -/
lemma expandOutput_rows (hkind : ∀ anchor partners anti, node.kind ≠ .aiJoin anchor partners anti)
    {pairs : Option (Table (List γ))} {read : Dict Alias (List ℕ)}
    {outputs : Dict PortName (Value γ)} {name : PortName} {t : Table (List γ)} {a : Alias}
    {aliases : List Alias} :
    d.expandOutput join node pairs read outputs ⟨name, .rows⟩ (.rows t) (a :: aliases) = (do
      return .rows (← expandedTable join t (a :: aliases) read (d.keysOf (a :: aliases) pairs)
        (if (a :: aliases).length = 2 then pairs else none))) := by
  obtain ⟨id, kind, inputs, ports⟩ := node
  cases kind with
  | aiJoin anchor partners anti => exact absurd rfl (hkind anchor partners anti)
  | aiFilter b => rfl
  | aiInference => rfl
  | filter aliases => rfl

/-- An output over tables without copies stays as it is. -/
lemma expandPort_passed {pairs : Option (Table (List γ))} {read : Dict Alias (List ℕ)}
    {s : Dict PortName (Value γ) × Expanding γ} {port : OutputPort} {value : Value γ}
    {aliases : List Alias} (hvalue : result.outputs.get? port.name = some value)
    (haliases : Deduplicated.aliasesOf node port value = .ok aliases)
    (hcopies : aliases.any d.keys.contains = false) :
    d.expandPort join node pairs read result s port = .ok (s.1.set port.name value, s.2) := by
  rw [Deduplicated.expandPort, Deduplicated.outputAt, hvalue]
  simp only [ok_bind, haliases, hcopies, Bool.false_eq_true, not_false_eq_true, if_true]
  rfl

end node

/-! ## Operators over one table -/

section table

variable {join : List ℕ → List ℕ → List (ℕ × ℕ)} {node : Node} {a : Alias}
  {documents : List ℕ} {d : Deduplicated γ} {reduced : Inputs γ}

lemma TableReady.keysOf (h : TableReady context node a documents d reduced) :
    KeysOf context d.keys := keysOf_of_get? h.keys

lemma TableReady.contains (h : TableReady context node a documents d reduced)
    (hctx : context.WellFormed) : d.keys.contains a = true := by
  obtain ⟨keys, hcolumn, _⟩ := hctx.column h.found
  refine Dict.contains_iff.2 ⟨keys, (h.keys a).trans ?_⟩
  rw [if_pos ⟨List.mem_singleton_self a, h.found⟩, hcolumn]

lemma TableReady.keyIn_eq (h : TableReady context node a documents d reduced) (x : ℕ) :
    keyIn d.keys a x = context.keyOf a x := keyIn_eq_keyOf h.keys (List.mem_singleton_self a) x

/-- The answers of the key documents, expanded, are those of the documents. `f` is what of an answer
row counts. -/
lemma TableReady.expandedTable {τ σ : Type} (h : TableReady context node a documents d reduced)
    (hctx : context.WellFormed) (hjoin : IsInnerJoin join) (hnodup : documents.Nodup)
    (hin : ∀ x ∈ documents, context.InTable a x) {t : Table τ} (ht : t.aliases = [a]) (f : τ → σ)
    {answer : ℕ → Option σ} (hanswer : ∀ x ∈ documents, answer (context.keyOf a x) = answer x)
    (hrows : (t.rows.map fun row => (row.1 a, f row.2)).Perm
      ((documentsAt reduced "left").filterMap fun q => (answer q).map fun v => (q, v))) :
    ∃ t', Copies.expandedTable join t [a] d.every (d.keysOf [a] none)
        (none : Option (Table (List γ))) = .ok t' ∧ t'.aliases = [a] ∧
      (t'.rows.map fun row => (row.1 a, f row.2)) =
        documents.filterMap fun x => (answer x).map fun v => (x, v) := by
  obtain ⟨kl, hkl, hlist⟩ := keysOf_spec h.keysOf hctx none (List.mem_singleton_self a)
  have hlisted : KeyList (context.keyOf a) documents kl := by
    intro x hx
    rw [← h.keyIn_eq]
    refine hlist x ?_ (hin x hx)
    rw [Deduplicated.known, h.every]
    exact List.mem_append_left _ hx
  obtain ⟨t', hrun, haliases, _, hexact⟩ := expandedTable_one hjoin
    (ht ▸ List.mem_singleton_self a : a ∈ t.aliases) h.every hkl hlisted none
  have hasked : ((documentsAt reduced "left").map id).Nodup := by
    rw [List.map_id, h.documents]
    exact nodup_keyDocuments hnodup
  have hids : (t.rows.map fun row => row.1 a).Nodup := by
    have h := nodup_answered hrows hasked
    rw [List.map_map] at h
    exact h
  refine ⟨t', hrun, haliases.trans ht, ?_⟩
  have hout := congrArg (List.map fun e : ℕ × τ => (e.1, f e.2)) (hexact hids)
  rw [List.map_map, List.map_flatMap] at hout
  simp only [List.map_map] at hout
  refine hout.trans ((flatMap_answered (fun row : (Alias → ℕ) × τ => f row.2)
    (k := context.keyOf a) hrows hasked (fun x : ℕ => x) fun x hx => ?_).trans
    (List.filterMap_congr fun x hx => ?_))
  · rw [h.documents]
    exact mem_keyDocuments.2 ⟨x, hx, rfl⟩
  · rw [hanswer x hx]

/-- A node whose first rows port carries documents the group read knows how many. -/
lemma expandMetrics_ok {pairs : Option (Table (List γ))} {n : Option ℕ}
    (h : d.rowsRead node pairs = .ok n) (outputs : Dict PortName (Value γ)) (metrics : Metrics) :
    ∃ metrics', d.expandMetrics node pairs outputs metrics = .ok metrics' := by
  rw [Deduplicated.expandMetrics, h]
  exact ⟨_, rfl⟩

lemma rowsRead_documents {source : NodeId} {name : String} {ports : List InputPort}
    (hports : node.inputs = Operator.documentsPort source name a :: ports)
    (hevery : d.every.get? a = some documents) :
    d.rowsRead node none = .ok (some documents.length) := by
  rw [Deduplicated.rowsRead, hports]
  simp only [Deduplicated.rowsReadAt, Operator.documentsPort, if_true, PortName.afterColon, ok_bind,
    hevery]
  rfl

lemma pairsRead_none (hpairs : d.pairs.get? node.nodeId = none)
    (hports : ∀ port ∈ node.inputs, port.valueType ≠ .joinAnswers) :
    d.pairsRead node [] = .ok none := by
  have hfind : (node.inputs.find? fun port =>
      port.valueType = .joinAnswers ∧ port.sourceNode ∈ d.inside) = none := by
    refine List.find?_eq_none.2 fun port hport => ?_
    simp [hports port hport]
  rw [Deduplicated.pairsRead, hpairs, hfind]
  rfl

lemma TableReady.pairsRead (h : TableReady context node a documents d reduced) {source : NodeId}
    (hports : node.inputs = [Operator.documentsPort source "left" a]) :
    d.pairsRead node [] = .ok none := by
  refine pairsRead_none ?_ fun port hport => ?_
  · rw [h.pairs]
    rfl
  · rw [hports] at hport
    rw [List.mem_singleton.1 hport]
    exact fun h => by cases h

/-- The rows port of an operator that is no join. -/
lemma TableReady.expandPort_rows {result : NodeResult γ}
    (h : TableReady context node a documents d reduced) (hctx : context.WellFormed)
    (hkind : ∀ anchor partners anti, node.kind ≠ .aiJoin anchor partners anti) {t t' : Table (List γ)}
    (hout : result.outputs.get? (.rows a) = some (.rows t)) (ht : t.aliases = [a])
    (htable : Copies.expandedTable join t [a] d.every (d.keysOf [a] none)
      (none : Option (Table (List γ))) = .ok t') (ht' : t'.aliases = [a])
    (s : Dict PortName (Value γ) × Expanding γ) :
    ∃ e', d.expandPort join node none d.every result s ⟨.rows a, .rows⟩ =
        .ok (s.1.set (.rows a) (.rows t'), e') ∧ e'.expanded = s.2.expanded := by
  have haliases : Deduplicated.aliasesOf node ⟨.rows a, .rows⟩ (.rows t : Value γ) = .ok [a] := by
    rw [Deduplicated.aliasesOf, Value.rowAliases, ht]
  have hcopies : [a].any d.keys.contains = true := by
    rw [List.any_cons, h.contains hctx, Bool.true_or]
  have hexpand : d.expandOutput join node none d.every s.1 ⟨.rows a, .rows⟩ (.rows t) [a] =
      .ok (.rows t') := by
    rw [expandOutput_rows hkind]
    simp only [List.length_singleton, if_neg (show ¬1 = 2 by decide), htable, ok_bind]
    rfl
  refine expandPort_expanded hout haliases hcopies hexpand ?_
  exact ⟨s.2.current.set a (t'.rows.map fun row => row.1 a), by
    simp only [Deduplicated.readNext, Value.documentIds, ht',
      column_eq (ht' ▸ List.mem_singleton_self a : a ∈ t'.aliases), ok_bind]
    rfl⟩

/-- The answers of a filter. -/
lemma TableReady.expandPort_filterAnswers {result : NodeResult γ}
    (h : TableReady context node a documents d reduced) (hctx : context.WellFormed)
    {t t' : Table (ℕ × Bool)} (hout : result.outputs.get? (.filterAnswers a) = some (.filterAnswers t))
    (hkind : node.kind = .aiFilter a)
    (htable : Copies.expandedTable join t [a] d.every (d.keysOf [a] none)
      (none : Option (Table (List γ))) = .ok t')
    (s : Dict PortName (Value γ) × Expanding γ) :
    ∃ e', d.expandPort join node none d.every result s ⟨.filterAnswers a, .filterAnswers⟩ =
        .ok (s.1.set (.filterAnswers a) (.filterAnswers t'), e') ∧ e'.expanded = s.2.expanded := by
  have haliases : Deduplicated.aliasesOf node ⟨.filterAnswers a, .filterAnswers⟩
      (.filterAnswers t : Value γ) = .ok [a] := by
    rw [Deduplicated.aliasesOf, hkind]
    rfl
  have hcopies : [a].any d.keys.contains = true := by
    rw [List.any_cons, h.contains hctx, Bool.true_or]
  have hexpand : d.expandOutput join node none d.every s.1 ⟨.filterAnswers a, .filterAnswers⟩
      (.filterAnswers t) [a] = .ok (.filterAnswers t') := by
    obtain ⟨nodeId, kind, inputs, ports⟩ := node
    obtain rfl : kind = .aiFilter a := hkind
    exact congrArg (· >>= fun t => pure (Value.filterAnswers t)) htable
  exact expandPort_expanded hout haliases hcopies hexpand ⟨_, rfl⟩

/-- What running an operator over one table needs: its inputs are reduced, and its ports give the answers
of the documents whenever they gave those of the key documents. -/
lemma expands_table [DecidableEq γ] {op : Operator} {nodeId source : NodeId} (hsource : source ≠ nodeId)
    (hctx : context.WellFormed) {inputs : Inputs γ}
    (hmodel : (op.node nodeId source).isModel = true) (hjoins : (op.node nodeId source).joinsSeveral = false)
    (hid : (op.node nodeId source).nodeId = nodeId)
    (hports : (op.node nodeId source).inputs = [Operator.documentsPort source "left" a])
    {value : Value γ} (hvalue : inputs.get? "left" = some value) (hdocuments : IsDocuments context a value)
    (hanswers : ∀ (d : Deduplicated γ) (reduced : Inputs γ) (model : Model γ) (result : NodeResult γ),
      TableReady context (op.node nodeId source) a (documentsOf value) d reduced →
      op.Answered false (model.byKey context op) reduced result.outputs →
      ∃ outputs e, (((op.node nodeId source).outputs.filter fun port => port.valueType = .joinAnswers) ++
        (op.node nodeId source).outputs.filter fun port => port.valueType ≠ .joinAnswers).foldlM
          (d.expandPort join (op.node nodeId source) none d.every result)
          (Dict.empty, ⟨d.every, Dict.empty, []⟩) = .ok (outputs, e) ∧
        e.expanded = Dict.empty ∧
        op.Answered true (model.byKey context op) inputs outputs) :
    Expands join op nodeId source context inputs := by
  have hdedup := deduplicate_table hctx hmodel hjoins (hid.symm ▸ hsource) hports
    hvalue hdocuments
  rw [hid] at hdedup
  rw [Expands]
  obtain hnone | ⟨d, reduced, hrun, h⟩ := hdedup
  · rw [hnone]
    trivial
  · rw [hrun]
    refine ⟨reduced, hid ▸ h.reads, fun model result hanswered => ?_⟩
    obtain ⟨outputs, e, hloop, he, hout⟩ := hanswers d reduced model result h hanswered
    obtain ⟨metrics, hmetrics⟩ :=
      expandMetrics_ok (rowsRead_documents hports h.every) outputs result.metrics
    have hexpanded := expanded_one h.nodes (h.pairsRead hports) hloop he hmetrics
    rw [hid] at hexpanded
    exact ⟨_, _, hexpanded, Dict.get?_set_self, hout⟩

/-- An inference over one table answers every document as its key. -/
theorem expands_inference [DecidableEq γ] (hjoin : IsInnerJoin join) {nodeId source : NodeId}
    (hsource : source ≠ nodeId) (hctx : context.WellFormed) {inputs : Inputs γ}
    (hreads : (Operator.inference a).Reads context inputs) :
    Expands join (.inference a) nodeId source context inputs := by
  obtain ⟨value, hvalue, hdocuments⟩ := hreads
  refine expands_table hsource hctx rfl rfl rfl rfl hvalue hdocuments
    fun d reduced model result h hanswered => ?_
  obtain ⟨t, hout, ht, hrows⟩ := hanswered
  have hperm : (t.rows.map fun row => (row.1 a, id row.2)).Perm ((documentsAt reduced "left").filterMap
      fun q => (model.row (context.keyOf a q)).map fun v => (q, v)) := hrows
  have hkey : ∀ x ∈ documentsOf value,
      context.keyOf a (context.keyOf a x) = context.keyOf a x := fun x hx =>
    hctx.keyOf_keyOf (hdocuments.inTable x hx)
  obtain ⟨t', htable, ht', hrows'⟩ := h.expandedTable hctx hjoin hdocuments.nodup hdocuments.inTable ht
    id (fun x hx => by rw [hkey x hx]) hperm
  obtain ⟨e, hport, he⟩ := h.expandPort_rows hctx (fun _ _ _ h => by cases h) hout ht htable ht'
    (Dict.empty, ⟨d.every, Dict.empty, []⟩)
  refine ⟨Dict.empty.set (.rows a) (.rows t'), e, ?_, he, t', Dict.get?_set_self, ht', ?_⟩
  · exact (congrArg (· >>= fun s => pure s) hport :)
  · rw [documentsAt_of_get? hvalue]
    exact hrows'

/-- Answers that only say which documents pass. -/
lemma filter_answers (documents : List ℕ) (passes : ℕ → Bool) :
    ((documents.filter passes).map fun x => (x, ())) =
      documents.filterMap fun x => (if passes x then some () else none).map fun v => (x, v) := by
  induction documents with
  | nil => rfl
  | cons x documents ih =>
    cases h : passes x with
    | true => simp [h, ih]
    | false => simp [h, ih]

/-- A filter keeps the documents whose keys pass, and answers for every document. -/
theorem expands_filter [DecidableEq γ] (hjoin : IsInnerJoin join) {nodeId source : NodeId}
    (hsource : source ≠ nodeId) (hctx : context.WellFormed) {position : ℕ} {inputs : Inputs γ}
    (hreads : (Operator.filter a position).Reads context inputs) :
    Expands join (.filter a position) nodeId source context inputs := by
  obtain ⟨value, hvalue, hdocuments⟩ := hreads
  refine expands_table hsource hctx rfl rfl rfl rfl hvalue hdocuments
    fun d reduced model result h hanswered => ?_
  obtain ⟨⟨t, hout, ht, hrows⟩, answers, houta, hta, hrowsa⟩ := hanswered
  have hkept : (t.rows.map fun row => (row.1 a, ())).Perm ((documentsAt reduced "left").filterMap
      fun q => (if model.passes (context.keyOf a q) then some () else none).map fun v => (q, v)) := by
    rw [← filter_answers]
    have h := List.Perm.map (fun x => (x, ())) hrows
    rw [List.map_map] at h
    exact h
  have hanswers : (answers.rows.map fun row => (row.1 a, id row.2)).Perm
      ((documentsAt reduced "left").filterMap fun q =>
        (some (position, model.passes (context.keyOf a q))).map fun v => (q, v)) := by
    rw [show (fun q => (some (position, model.passes (context.keyOf a q))).map fun v => (q, v)) =
      some ∘ fun q => (q, position, model.passes (context.keyOf a q)) from rfl, List.filterMap_eq_map]
    exact hrowsa
  have hkey : ∀ x ∈ documentsOf value,
      context.keyOf a (context.keyOf a x) = context.keyOf a x := fun x hx =>
    hctx.keyOf_keyOf (hdocuments.inTable x hx)
  obtain ⟨t', htable, ht', hrows'⟩ := h.expandedTable hctx hjoin hdocuments.nodup hdocuments.inTable ht
    (fun _ => ()) (fun x hx => by rw [hkey x hx]) hkept
  obtain ⟨answers', htable', hta', hrowsa'⟩ := h.expandedTable hctx hjoin hdocuments.nodup
    hdocuments.inTable hta id (fun x hx => by rw [hkey x hx]) hanswers
  obtain ⟨e, hport, he⟩ := h.expandPort_rows hctx (fun _ _ _ h => by cases h) hout ht htable ht'
    (Dict.empty, ⟨d.every, Dict.empty, []⟩)
  obtain ⟨e', hport', he'⟩ := h.expandPort_filterAnswers hctx houta rfl htable'
    (Dict.empty.set (.rows a) (.rows t'), e)
  refine ⟨(Dict.empty.set (.rows a) (.rows t')).set (.filterAnswers a) (.filterAnswers answers'), e', ?_,
    he'.trans he, ⟨t', ?_, ht', ?_⟩, answers', Dict.get?_set_self, hta', ?_⟩
  · refine (congrArg (· >>= fun s => d.expandPort join ((Operator.filter a position).node nodeId source)
      none d.every result s ⟨.filterAnswers a, .filterAnswers⟩ >>= fun s => pure s) hport).trans ?_
    exact (congrArg (· >>= fun s => pure s) hport' :)
  · rw [Dict.get?_set_ne (fun h => by cases h)]
    exact Dict.get?_set_self
  · rw [documentsAt_of_get? hvalue]
    rw [← filter_answers] at hrows'
    have h := congrArg (List.map Prod.fst) hrows'
    rw [List.map_map, List.map_map] at h
    exact h.trans (List.map_id _)
  · rw [documentsAt_of_get? hvalue]
    refine hrowsa'.trans ?_
    exact congrFun List.filterMap_eq_map _

end table

end Quail.Copies
