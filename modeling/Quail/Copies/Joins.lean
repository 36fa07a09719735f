import Quail.Copies.Pairs

/-!
# Answers of joins

The answers of a join are those of its pairs. Its anchor rows come from the expanded answers where the
anchor's table is deduplicated. Where only the partner's table is, the rows of the reduced join pass
through: a listed pair whose partner was not read, but has the key of one that was, is then asked about
for the anchor all the same.
-/

namespace Quail.Copies
open Arrays

variable {γ : Type} {context : Context}

/-! ## Conditions -/

/-- The join runs over key documents: a table is deduplicated, copies carry the same values, and the
listed pairs carry none. -/
structure RunsOverKeys (context : Context) (inputs : Inputs γ) (a b : Alias) (listed : Bool) :
    Prop where
  found : a ∈ context.deduplicate ∨ b ∈ context.deduplicate
  left : ∀ value, inputs.get? "left" = some value → Agree context a value
  right : ∀ value, inputs.get? "right" = some value → Agree context b value
  pairs : listed = true → ∀ table, inputs.get? "pairs" = some (.pairs table) → table.columns = 0

/-- Every listed pair of an anchor read with a copy of a partner read has, among the pairs of this
anchor, one whose partner was read and has the same key. -/
def ListedCovers (context : Context) (inputs : Inputs γ) (a b : Alias) : Prop :=
  ∀ p ∈ listedPairs inputs a b, p.1 ∈ documentsAt inputs "left" →
    (∃ y ∈ documentsAt inputs "right", context.keyOf b p.2 = context.keyOf b y) →
      ∃ p' ∈ listedPairs inputs a b, p'.1 = p.1 ∧ p'.2 ∈ documentsAt inputs "right" ∧
        context.keyOf b p'.2 = context.keyOf b p.2

/-- Where the anchors of a join over listed pairs are no copies but its partners are, the listed pairs
cover the partners read. -/
def Operator.AnchorsCovered (context : Context) (inputs : Inputs γ) : Operator → Prop
  | join anchor partner _ true _ =>
    anchor ∉ context.deduplicate → RunsOverKeys context inputs anchor partner true →
      ListedCovers context inputs anchor partner
  | _ => True

/-! ## One join -/

section join

variable {join : List ℕ → List ℕ → List (ℕ × ℕ)} {node : Node} {a b : Alias} {anti listed : Bool}
  {position : ℕ} {inputs reduced : Inputs γ} {d : Deduplicated γ} {nodeId source : NodeId}

/-- What a group of one join keeps. -/
structure JoinReady (context : Context) (node : Node) (a b : Alias) (listed : Bool) (inputs : Inputs γ)
    (d : Deduplicated γ) (reduced : Inputs γ) : Prop where
  ready : PairsReady context node a b (Operator.joinPairing listed) inputs (documentsAt inputs "left")
    (documentsAt inputs "right") d reduced
  both : BothReady context a b (Operator.joinPairing listed) inputs d reduced

lemma deduplicate_join [DecidableEq γ] (hctx : context.WellFormed) (hmodel : node.isModel = true)
    (hjoins : node.joinsSeveral = false) (hsource : source ≠ node.nodeId) (hab : a ≠ b)
    (hports : node.inputs = Operator.pairPorts source a b (Operator.joinPairing listed))
    (hreads : ReadsPairs context inputs a b (Operator.joinPairing listed)) :
    (RunsOverKeys context inputs a b listed → ∃ d reduced,
      deduplicate [node] (Dict.empty.set node.nodeId inputs) context = .ok (some d) ∧
        JoinReady context node a b listed inputs d reduced) ∧
    (¬RunsOverKeys context inputs a b listed →
      deduplicate [node] (Dict.empty.set node.nodeId inputs) context = .ok none) := by
  cases listed with
  | false =>
    obtain ⟨⟨left, hleft, hl⟩, right, hright, hr⟩ := hreads
    obtain ⟨hsome, hnone⟩ := deduplicate_product hctx hmodel hjoins hsource hab hports hleft hright hl hr
    constructor
    · intro h
      obtain ⟨d, reduced, hrun, hready, hboth⟩ := hsome ⟨h.left left hleft, h.right right hright, h.found⟩
      exact ⟨d, reduced, hrun, hready, hboth⟩
    · refine fun hnot => hnone fun h => hnot ⟨h.2.2, ?_, ?_, fun h => (by cases h)⟩
      · rw [hleft]
        exact fun value heq => Option.some.inj heq ▸ h.1
      · rw [hright]
        exact fun value heq => Option.some.inj heq ▸ h.2.1
  | true =>
    obtain ⟨⟨left, hleft, hl⟩, ⟨right, hright, hr⟩, table, hpairs, htable⟩ := hreads
    obtain ⟨hsome, hnone⟩ := deduplicate_listed hctx hmodel hjoins hsource hab hports hleft hright hpairs
      hl hr htable
    constructor
    · intro h
      obtain ⟨d, reduced, hrun, hready, hboth⟩ :=
        hsome ⟨h.left left hleft, h.right right hright, h.pairs rfl table hpairs, h.found⟩
      exact ⟨d, reduced, hrun, hready, hboth⟩
    · refine fun hnot => hnone fun h => hnot ⟨h.2.2.2, ?_, ?_, fun _ table' heq => ?_⟩
      · rw [hleft]
        exact fun value heq => Option.some.inj heq ▸ h.1
      · rw [hright]
        exact fun value heq => Option.some.inj heq ▸ h.2.1
      · rw [hpairs] at heq
        cases heq
        exact h.2.2.1

lemma mem_askedPairs {inputs : Inputs γ} {q : ℕ × ℕ} :
    q ∈ askedPairs inputs a b (Operator.joinPairing listed) ↔
      (listed = true → q ∈ listedPairs inputs a b) ∧ q.1 ∈ documentsAt inputs "left" ∧
        q.2 ∈ documentsAt inputs "right" := by
  cases listed with
  | false =>
    refine Iff.trans List.mem_product ⟨fun h => ⟨fun h => (by cases h), h⟩, And.right⟩
  | true =>
    show q ∈ List.filter _ _ ↔ _
    rw [List.mem_filter, decide_eq_true_iff]
    exact and_congr_left fun _ => ⟨fun h _ => h, fun h => h rfl⟩

/-- The pairs the reduced join is asked about. -/
lemma JoinReady.mem_reduced (h : JoinReady context node a b listed inputs d reduced) {q : ℕ × ℕ} :
    q ∈ askedPairs reduced a b (Operator.joinPairing listed) ↔
      (listed = true → ∃ p ∈ listedPairs inputs a b, q = (context.keyOf a p.1, context.keyOf b p.2)) ∧
        (∃ x ∈ documentsAt inputs "left", q.1 = context.keyOf a x) ∧
        ∃ y ∈ documentsAt inputs "right", q.2 = context.keyOf b y := by
  rw [mem_askedPairs, h.both.left, h.both.right, mem_keyDocuments, mem_keyDocuments]
  refine and_congr_left fun _ => ?_
  cases listed with
  | false => exact ⟨fun _ h => (by cases h), fun _ h => (by cases h)⟩
  | true => rw [h.both.listed rfl]

/-- An anchor without copies is asked about the keys of the partners that it is listed with, where the
listed pairs cover the partners read. -/
lemma JoinReady.matches_iff (h : JoinReady context node a b listed inputs d reduced)
    (hctx : context.WellFormed) (ha : a ∉ context.deduplicate)
    (hcovers : listed = true → ListedCovers context inputs a b) {relates : ℕ → ℕ → Bool} (x : ℕ) :
    (∃ q ∈ askedPairs reduced a b (Operator.joinPairing listed), q.1 = x ∧
        relates (context.keyOf a q.1) (context.keyOf b q.2) = true) ↔
      ∃ p ∈ askedPairs inputs a b (Operator.joinPairing listed), p.1 = x ∧
        relates (context.keyOf a p.1) (context.keyOf b p.2) = true := by
  constructor
  · rintro ⟨q, hq, hx, hrelates⟩
    obtain ⟨hlist, ⟨x', hx', hqx⟩, y, hy, hqy⟩ := h.mem_reduced.1 hq
    rw [Context.keyOf_of_not_mem ha] at hqx
    rw [hqy, hctx.keyOf_keyOf (h.ready.inRight y hy)] at hrelates
    cases hlisted : listed with
    | false =>
      subst hlisted
      exact ⟨(q.1, y), mem_askedPairs.2 ⟨fun h => (by cases h), hqx ▸ hx', hy⟩, hx, hrelates⟩
    | true =>
      obtain ⟨p, hp, rfl⟩ := hlist hlisted
      dsimp only at hx hqx hqy hrelates
      rw [Context.keyOf_of_not_mem ha] at hx hqx hrelates
      obtain ⟨p', hp', hp1, hp2, hkey⟩ := hcovers hlisted p hp (hqx ▸ hx') ⟨y, hy, hqy⟩
      subst hlisted
      refine ⟨p', mem_askedPairs.2 ⟨fun _ => hp', ?_, hp2⟩, hp1.trans hx, ?_⟩
      · rw [hp1, hqx]
        exact hx'
      · rw [hkey, hqy, hp1]
        exact hrelates
  · rintro ⟨p, hp, hx, hrelates⟩
    obtain ⟨hlist, hpx, hpy⟩ := mem_askedPairs.1 hp
    refine ⟨(context.keyOf a p.1, context.keyOf b p.2), h.mem_reduced.2
      ⟨fun hlisted => ⟨p, hlist hlisted, rfl⟩, ⟨p.1, hpx, rfl⟩, p.2, hpy, rfl⟩, ?_, ?_⟩
    · exact (Context.keyOf_of_not_mem ha p.1).trans hx
    · dsimp only
      rw [Context.keyOf_of_not_mem ha, Context.keyOf_of_not_mem ha,
        hctx.keyOf_keyOf (h.ready.inRight _ hpy)]
      rwa [Context.keyOf_of_not_mem ha] at hrelates

/-- The anchors that the expanded answers keep. -/
def keptAnchors (anti : Bool) (a : Alias) (documents : List ℕ) (answers : Table Bool) : List ℕ :=
  (documents.insertionSort (· ≤ ·)).filter fun x =>
    keeps anti (decide (x ∈ (answers.rows.filter Prod.snd).map fun row => row.1 a))

lemma joinRows_eq (position : ℕ) {answers : Table Bool} (ha : a ∈ answers.aliases) {read : Dict Alias (List ℕ)}
    {documents : List ℕ} (hread : read.get? a = some documents) :
    Deduplicated.joinRows anti [a] read
      ((Dict.empty : Dict PortName (Value γ)).set (.joinAnswers position) (.joinAnswers answers)) =
        .ok (.rows (Table.ofIds a (keptAnchors anti a documents answers) [])) := by
  have hcolumn : (trueAnswerRows (γ := γ) answers).column a =
      .ok ((answers.rows.filter Prod.snd).map fun row => row.1 a) := by
    rw [column_eq (show a ∈ (trueAnswerRows (γ := γ) answers).aliases from ha), trueAnswerRows,
      List.map_map]
    rfl
  show (do
    let documents ← lookup read a
    let answered ← (trueAnswerRows (γ := γ) answers).column a
    pure (Value.rows (Table.ofIds a ((documents.insertionSort (· ≤ ·)).filter fun x =>
      keeps anti (decide (x ∈ answered))) []))) = _
  rw [lookup_eq hread, ok_bind, hcolumn]
  rfl

/-- Join answers are expanded as a table. -/
lemma expandOutput_answers {pairs : Option (Table (List γ))} {read : Dict Alias (List ℕ)}
    {outputs : Dict PortName (Value γ)} {name : PortName} {value : Value γ} {t : Table Bool}
    (hvalue : answersTable value = .ok t) {aliases : List Alias} :
    d.expandOutput join node pairs read outputs ⟨name, .joinAnswers⟩ value aliases = (do
      return .joinAnswers (← expandedTable join t aliases read (d.keysOf aliases pairs) pairs)) := by
  cases value with
  | joinAnswers table =>
    cases hvalue
    rfl
  | joinRecord record =>
    rw [answersTable] at hvalue
    show (do return Value.joinAnswers (← expandedTable join (← record.table) aliases read
      (d.keysOf aliases pairs) pairs)) = _
    rw [hvalue]
    rfl
  | ids documents => cases hvalue
  | rows table => cases hvalue
  | pairs table => cases hvalue
  | filterAnswers table => cases hvalue

/-- What expanding a join returns: the answers of its pairs, and anchor rows from these or from the
reduced join. -/
lemma JoinReady.expanded
    (h : JoinReady context ((Operator.join a b anti listed position).node nodeId source) a b listed
      inputs d reduced)
    (hctx : context.WellFormed) (hjoin : IsInnerJoin join) (hab : a ≠ b) {model : Model γ}
    {result : NodeResult γ} (hanswered : (Operator.join a b anti listed position).Answered false
      (model.byKey context (.join a b anti listed position)) reduced result.outputs) :
    ∃ answers rows metrics, d.expanded join (Dict.empty.set nodeId result) = .ok (Dict.empty.set nodeId
        ⟨(Dict.empty.set (.joinAnswers position) (.joinAnswers answers)).set (.rows a) rows, metrics⟩) ∧
      answers.aliases = [a, b] ∧
      Same listed (answers.rows.map fun row => ((row.1 a, row.1 b), row.2))
        ((askedPairs inputs a b (Operator.joinPairing listed)).map fun p =>
          (p, model.relates (context.keyOf a p.1) (context.keyOf b p.2))) ∧
      (a ∈ context.deduplicate → rows = .rows (Table.ofIds a
        (keptAnchors anti a (documentsAt inputs "left") answers) [])) ∧
      (a ∉ context.deduplicate → result.outputs.get? (.rows a) = some rows) := by
  obtain ⟨⟨value, t, hout, hvalue, ht, hrows⟩, kept, houtr, hkept, _⟩ := hanswered
  have hperm : (t.rows.map fun row => ((row.1 a, row.1 b), row.2)).Perm
      ((askedPairs reduced a b (Operator.joinPairing listed)).filterMap fun q =>
        (some (model.relates (context.keyOf a q.1) (context.keyOf b q.2))).map fun v => (q, v)) := by
    rw [show (fun q : ℕ × ℕ => (some (model.relates (context.keyOf a q.1) (context.keyOf b q.2))).map
        fun v => (q, v)) = some ∘ fun q => (q, model.relates (context.keyOf a q.1) (context.keyOf b q.2))
      from rfl, List.filterMap_eq_map]
    exact hrows
  obtain ⟨answers, htable, hanswers, hsame⟩ := h.ready.expandedTable hctx hjoin hab ht
    (fun p hp => by rw [(h.ready.answer_key hctx hp).1, (h.ready.answer_key hctx hp).2]) hperm
  obtain ⟨pairs, n, hpairs, hread, rfl⟩ := h.ready.pairsRead rfl
  have haliases : Deduplicated.aliasesOf ((Operator.join a b anti listed position).node nodeId source)
      ⟨.joinAnswers position, .joinAnswers⟩ value = .ok [a, b] := by
    cases value with
    | rows table => cases hvalue
    | _ => rfl
  have hexpand : d.expandOutput join ((Operator.join a b anti listed position).node nodeId source)
      (d.pairs.get? nodeId) d.every Dict.empty ⟨.joinAnswers position, .joinAnswers⟩ value [a, b] =
        .ok (.joinAnswers answers) := by
    rw [expandOutput_answers hvalue]
    exact congrArg (· >>= fun t => pure (Value.joinAnswers t)) htable
  obtain ⟨e, hport, he⟩ := expandPort_expanded (s := (Dict.empty, ⟨d.every, Dict.empty, []⟩)) hout
    haliases h.ready.anyCopies hexpand ⟨_, rfl⟩
  have hrowaliases : Deduplicated.aliasesOf ((Operator.join a b anti listed position).node nodeId source)
      ⟨.rows a, .rows⟩ (.rows kept : Value γ) = .ok [a] := by
    rw [Deduplicated.aliasesOf, Value.rowAliases, hkept]
  have hrowsOut : a ∈ context.deduplicate →
      d.expandOutput join ((Operator.join a b anti listed position).node nodeId source)
        (d.pairs.get? nodeId) d.every (Dict.empty.set (.joinAnswers position) (.joinAnswers answers))
        ⟨.rows a, .rows⟩ (.rows kept) [a] =
          .ok (.rows (Table.ofIds a (keptAnchors anti a (documentsAt inputs "left") answers) [])) :=
    fun _ => joinRows_eq position (hanswers ▸ List.mem_cons_self ..) h.ready.everyLeft
  obtain ⟨rows, e', hport', he', hin, hnotin⟩ : ∃ rows e',
      d.expandPort join ((Operator.join a b anti listed position).node nodeId source)
        (d.pairs.get? nodeId) d.every result
        (Dict.empty.set (.joinAnswers position) (.joinAnswers answers), e) ⟨.rows a, .rows⟩ =
          .ok ((Dict.empty.set (.joinAnswers position) (.joinAnswers answers)).set (.rows a) rows, e') ∧
      e'.expanded = e.expanded ∧
      (a ∈ context.deduplicate → rows = .rows (Table.ofIds a
        (keptAnchors anti a (documentsAt inputs "left") answers) [])) ∧
      (a ∉ context.deduplicate → result.outputs.get? (.rows a) = some rows) := by
    by_cases ha : a ∈ context.deduplicate
    · have hcontains : [a].any d.keys.contains = true := by
        obtain ⟨documents, hcolumn, _⟩ := hctx.column ha
        rw [List.any_cons, Dict.contains_iff.2 ⟨documents, by
          rw [h.both.keys, if_pos ⟨List.mem_cons_self .., ha⟩, hcolumn]⟩, Bool.true_or]
      obtain ⟨e', hport', he'⟩ := expandPort_expanded
        (s := (Dict.empty.set (.joinAnswers position) (.joinAnswers answers), e)) houtr hrowaliases
        hcontains (hrowsOut ha) ⟨_, congrArg (· >>= fun ids => pure (e.current.set a ids))
          (column_eq (List.mem_singleton_self a))⟩
      exact ⟨_, e', hport', he', fun _ => rfl, fun hnot => absurd ha hnot⟩
    · have hcontains : [a].any d.keys.contains = false := by
        rw [List.any_cons, List.any_nil, Bool.or_false, Dict.contains, h.both.keys,
          if_neg fun h => ha h.2]
        rfl
      exact ⟨_, e, expandPort_passed houtr hrowaliases hcontains, rfl, fun h => absurd h ha,
        fun _ => houtr⟩
  obtain ⟨metrics, hmetrics⟩ := expandMetrics_ok hread
    ((Dict.empty.set (.joinAnswers position) (.joinAnswers answers)).set (.rows a) rows) result.metrics
  have hloop := (congrArg (· >>= fun s => d.expandPort join
    ((Operator.join a b anti listed position).node nodeId source) (d.pairs.get? nodeId) d.every result s
      ⟨.rows a, .rows⟩ >>= fun s => pure s) hport).trans (congrArg (· >>= fun s => pure s) hport')
  refine ⟨answers, rows, metrics, expanded_one h.ready.nodes hpairs hloop (he'.trans he) hmetrics, hanswers,
    ?_, hin, hnotin⟩
  have hall : (askedPairs inputs a b (Operator.joinPairing listed)).filterMap (fun p =>
      (some (model.relates (context.keyOf a p.1) (context.keyOf b p.2))).map fun v => (p, v)) =
        (askedPairs inputs a b (Operator.joinPairing listed)).map fun p =>
          (p, model.relates (context.keyOf a p.1) (context.keyOf b p.2)) :=
    congrFun List.filterMap_eq_map _
  rw [hall] at hsame
  cases listed with
  | false => exact hsame
  | true => exact hsame

/-- The anchors that the expanded answers keep are those whose pairs say so. -/
lemma keptAnchors_asRead {answers : Table Bool} {asked : List (ℕ × ℕ)} {relates : ℕ × ℕ → Bool}
    (hrows : (answers.rows.map fun row => ((row.1 a, row.1 b), row.2)).Perm
      (asked.map fun p => (p, relates p))) (documents : List ℕ) :
    AsRead documents (keptAnchors anti a documents answers)
      (documents.filter fun x => keeps anti (asked.any fun p => decide (p.1 = x) && relates p)) := by
  have hmatched : ∀ x, decide (x ∈ (answers.rows.filter Prod.snd).map fun row => row.1 a) =
      asked.any fun p => decide (p.1 = x) && relates p := by
    intro x
    rw [Bool.eq_iff_iff, decide_eq_true_iff, List.any_eq_true]
    constructor
    · intro hx
      obtain ⟨row, hrow, rfl⟩ := List.mem_map.1 hx
      obtain ⟨hrow, htrue⟩ := List.mem_filter.1 hrow
      obtain ⟨p, hp, heq⟩ := List.mem_map.1 (hrows.mem_iff.1 (List.mem_map_of_mem hrow))
      rw [Prod.ext_iff] at heq
      obtain ⟨heq, hanswer⟩ := heq
      dsimp only at heq hanswer
      refine ⟨p, hp, ?_⟩
      rw [hanswer, heq, decide_eq_true rfl, htrue]
      rfl
    · rintro ⟨p, hp, hboth⟩
      rw [Bool.and_eq_true, decide_eq_true_iff] at hboth
      obtain ⟨row, hrow, heq⟩ := List.mem_map.1 (hrows.mem_iff.2 (List.mem_map_of_mem hp))
      rw [Prod.ext_iff] at heq
      obtain ⟨heq, hanswer⟩ := heq
      dsimp only at heq hanswer
      refine List.mem_map.2 ⟨row, List.mem_filter.2 ⟨hrow, hanswer.trans hboth.2⟩, ?_⟩
      rw [← hboth.1, ← heq]
  rw [keptAnchors]
  simp only [hmatched]
  refine ⟨(List.perm_insertionSort ..).filter _, fun hsorted => ?_⟩
  rw [(hsorted.imp fun h => Nat.le_of_lt h).insertionSort_eq]

/-- A join can answer whatever the model says. -/
lemma exists_answered (anti : Bool) (hab : a ≠ b) (model : Model γ) (reduced : Inputs γ) :
    ∃ result : NodeResult γ, (Operator.join a b anti listed position).Answered false model reduced
      result.outputs := by
  let asked := askedPairs reduced a b (Operator.joinPairing listed)
  let answers : Table Bool := ⟨[a, b], 1, asked.map fun p =>
    (fun c => if c = a then p.1 else p.2, model.relates p.1 p.2)⟩
  let kept := (documentsAt reduced "left").filter fun x => keeps anti (asked.any fun p =>
    decide (p.1 = x) && model.relates p.1 p.2)
  have hids : (Table.ofIds a kept ([] : List γ)).rows.map (fun row => row.1 a) = kept := by
    rw [Table.ofIds, List.map_map]
    exact List.map_id' kept
  refine ⟨⟨(Dict.empty.set (.rows a) (.rows (Table.ofIds a kept []))).set (.joinAnswers position)
    (.joinAnswers answers), ⟨0, 0⟩⟩, ⟨_, answers, Dict.get?_set_self, rfl, rfl, ?_⟩,
    Table.ofIds a kept [], ?_, rfl, ?_⟩
  · have hrows : answers.rows.map (fun row => ((row.1 a, row.1 b), row.2)) =
        asked.map fun p => (p, model.relates p.1 p.2) := by
      simp only [answers, List.map_map]
      refine List.map_congr_left fun p _ => ?_
      simp only [Function.comp_apply, if_true, if_neg (Ne.symm hab)]
    exact List.Perm.of_eq hrows
  · exact (Dict.get?_set_ne fun h => by cases h).trans Dict.get?_set_self
  · exact ⟨List.Perm.of_eq hids, fun _ => hids⟩

/-- The rows that a join's anchors keep tell whether each anchor has a match. -/
lemma asRead_iff {documents ids : List ℕ} {matched : ℕ → Bool}
    (h : AsRead documents ids (documents.filter fun x => keeps anti (matched x))) {x : ℕ}
    (hx : x ∈ documents) : x ∈ ids ↔ keeps anti (matched x) = true := by
  rw [h.1.mem_iff, List.mem_filter]
  exact and_iff_right hx

/-- A join's anchor has a match among the pairs. -/
lemma any_match {asked : List (ℕ × ℕ)} {relates : ℕ × ℕ → Bool} {x : ℕ} :
    (asked.any fun p => decide (p.1 = x) && relates p) = true ↔
      ∃ p ∈ asked, p.1 = x ∧ relates p = true := by
  simp only [List.any_eq_true, Bool.and_eq_true, decide_eq_true_iff]

lemma JoinReady.documents (h : JoinReady context node a b listed inputs d reduced)
    (ha : a ∉ context.deduplicate) : documentsAt reduced "left" = documentsAt inputs "left" := by
  rw [h.both.left, keyDocuments, if_neg ha]

/-- Where the listed pairs cover the partners read, the expanded join is the join over all documents. -/
lemma JoinReady.answered
    (h : JoinReady context ((Operator.join a b anti listed position).node nodeId source) a b listed
      inputs d reduced)
    (hctx : context.WellFormed) (hjoin : IsInnerJoin join) (hab : a ≠ b)
    (hcovers : a ∉ context.deduplicate → listed = true → ListedCovers context inputs a b)
    {model : Model γ} {result : NodeResult γ}
    (hanswered : (Operator.join a b anti listed position).Answered false
      (model.byKey context (.join a b anti listed position)) reduced result.outputs) :
    ∃ results expanded, d.expanded join (Dict.empty.set nodeId result) = .ok results ∧
      results.get? nodeId = some expanded ∧ (Operator.join a b anti listed position).Answered true
        (model.byKey context (.join a b anti listed position)) inputs expanded.outputs := by
  obtain ⟨answers, rows, metrics, hexpanded, hanswers, hsame, hin, hnotin⟩ :=
    h.expanded hctx hjoin hab hanswered
  have hanswersOut : ((Dict.empty.set (.joinAnswers position) (.joinAnswers answers)).set (.rows a) rows :
      Dict PortName (Value γ)).get? (.joinAnswers position) = some (.joinAnswers answers) :=
    (Dict.get?_set_ne fun h => by cases h).trans Dict.get?_set_self
  have hrows : ∃ table, rows = .rows table ∧ table.aliases = [a] ∧
      AsRead (documentsAt inputs "left") (table.rows.map fun row => row.1 a)
        ((documentsAt inputs "left").filter fun x => keeps anti
          ((askedPairs inputs a b (Operator.joinPairing listed)).any fun p =>
            decide (p.1 = x) && model.relates (context.keyOf a p.1) (context.keyOf b p.2))) := by
    by_cases ha : a ∈ context.deduplicate
    · refine ⟨_, hin ha, rfl, ?_⟩
      have hperm : (answers.rows.map fun row => ((row.1 a, row.1 b), row.2)).Perm
          ((askedPairs inputs a b (Operator.joinPairing listed)).map fun p =>
            (p, model.relates (context.keyOf a p.1) (context.keyOf b p.2))) := by
        cases listed with
        | false => exact hsame
        | true => exact List.Perm.of_eq hsame
      have hids : (Table.ofIds a (keptAnchors anti a (documentsAt inputs "left") answers)
          ([] : List γ)).rows.map (fun row => row.1 a) =
            keptAnchors anti a (documentsAt inputs "left") answers := by
        rw [Table.ofIds, List.map_map]
        exact List.map_id' _
      rw [hids]
      exact keptAnchors_asRead hperm _
    · obtain ⟨_, kept, houtr, haliases, hkept⟩ := hanswered
      refine ⟨kept, Option.some.inj ((hnotin ha).symm.trans houtr), haliases, ?_⟩
      rw [h.documents ha] at hkept
      have hsameMatch : ∀ x, ((askedPairs reduced a b (Operator.joinPairing listed)).any fun p =>
          decide (p.1 = x) && model.relates (context.keyOf a p.1) (context.keyOf b p.2)) =
          (askedPairs inputs a b (Operator.joinPairing listed)).any fun p =>
            decide (p.1 = x) && model.relates (context.keyOf a p.1) (context.keyOf b p.2) := by
        intro x
        rw [Bool.eq_iff_iff, any_match, any_match]
        exact h.matches_iff hctx ha (hcovers ha) x
      have hfilter : ((documentsAt inputs "left").filter fun x => keeps anti
          ((askedPairs reduced a b (Operator.joinPairing listed)).any fun p =>
            decide (p.1 = x) && model.relates (context.keyOf a p.1) (context.keyOf b p.2))) =
          (documentsAt inputs "left").filter fun x => keeps anti
            ((askedPairs inputs a b (Operator.joinPairing listed)).any fun p =>
              decide (p.1 = x) && model.relates (context.keyOf a p.1) (context.keyOf b p.2)) :=
        List.filter_congr fun x _ => by rw [hsameMatch x]
      rw [← hfilter]
      exact hkept
  obtain ⟨table, rfl, haliases, hkept⟩ := hrows
  refine ⟨_, _, hexpanded, Dict.get?_set_self, ⟨_, answers, hanswersOut, rfl, hanswers, ?_⟩, table,
    Dict.get?_set_self, haliases, hkept⟩
  cases listed with
  | false => exact hsame
  | true => exact hsame

lemma keeps_injective {x y : Bool} (h : keeps anti x = true ↔ keeps anti y = true) : x = y := by
  revert h
  cases anti <;> cases x <;> cases y <;> decide

/-- An anchor without copies whose listed pairs do not cover the partners read is asked about a key
that none of its pairs has. -/
lemma JoinReady.covered
    (h : JoinReady context ((Operator.join a b anti true position).node nodeId source) a b true
      inputs d reduced)
    (hctx : context.WellFormed) (hjoin : IsInnerJoin join) (hab : a ≠ b) (ha : a ∉ context.deduplicate)
    (hexpands : ∀ (model : Model γ) (result : NodeResult γ),
      (Operator.join a b anti true position).Answered false
        (model.byKey context (.join a b anti true position)) reduced result.outputs →
      ∃ results expanded, d.expanded join (Dict.empty.set nodeId result) = .ok results ∧
        results.get? nodeId = some expanded ∧ (Operator.join a b anti true position).Answered true
          (model.byKey context (.join a b anti true position)) inputs expanded.outputs) :
    ListedCovers context inputs a b := by
  intro p hp hx hy
  let model : Model γ := ⟨fun _ => false, fun _ => none, fun _ _ => none,
    fun u v => decide (u = p.1) && decide (v = context.keyOf b p.2)⟩
  obtain ⟨result, hanswered⟩ := exists_answered anti hab
    (model.byKey context (.join a b anti true position)) reduced
  obtain ⟨answers, rows, metrics, hexpanded, _, _, _, hnotin⟩ := h.expanded hctx hjoin hab hanswered
  obtain ⟨results, expanded, hresults, hget, hanswered'⟩ := hexpands model result hanswered
  rw [hexpanded] at hresults
  obtain rfl := Except.ok.inj hresults
  rw [Dict.get?_set_self] at hget
  obtain rfl := Option.some.inj hget
  obtain ⟨_, kept, houtr, haliases, hkept⟩ := hanswered
  obtain ⟨_, kept', houtr', haliases', hkept'⟩ := hanswered'
  have hrows : (Value.rows kept' : Value γ) = .rows kept := by
    rw [Dict.get?_set_self] at houtr'
    exact (Option.some.inj houtr').symm.trans (Option.some.inj ((hnotin ha).symm.trans houtr))
  cases hrows
  rw [h.documents ha] at hkept
  have hmatch := keeps_injective ((asRead_iff hkept hx).symm.trans (asRead_iff hkept' hx))
  obtain ⟨y, hyin, hkey⟩ := hy
  have hasked : (askedPairs reduced a b (Operator.joinPairing true)).any (fun q =>
      decide (q.1 = p.1) &&
        (model.byKey context (.join a b anti true position)).relates q.1 q.2) = true := by
    refine any_match.2 ⟨(context.keyOf a p.1, context.keyOf b p.2),
      h.mem_reduced.2 ⟨fun _ => ⟨p, hp, rfl⟩, ⟨p.1, hx, rfl⟩, y, hyin, hkey⟩,
      Context.keyOf_of_not_mem ha p.1, ?_⟩
    simp only [Model.byKey, model, Context.keyOf_of_not_mem ha, hkey,
      hctx.keyOf_keyOf (h.ready.inRight y hyin), decide_true, Bool.and_self]
  rw [hasked] at hmatch
  obtain ⟨p', hp', heq, hrelates⟩ := any_match.1 hmatch.symm
  obtain ⟨hlist, _, hright⟩ := mem_askedPairs.1 hp'
  simp only [Model.byKey, model, Bool.and_eq_true, decide_eq_true_iff] at hrelates
  exact ⟨p', hlist rfl, heq, hright, hrelates.2⟩

/-- Expanding a join gives the answers of every pair; its anchor rows are right exactly when an anchor
without copies is listed with the partners that the reduced join asks it about. -/
lemma expands_join [DecidableEq γ] (hjoin : IsInnerJoin join) (hsource : source ≠ nodeId)
    (hctx : context.WellFormed) (hreads : (Operator.join a b anti listed position).Reads context inputs) :
    Expands join (.join a b anti listed position) nodeId source context inputs ↔
      (Operator.join a b anti listed position).AnchorsCovered context inputs := by
  obtain ⟨hab, hreads⟩ := hreads
  have hdedup : (RunsOverKeys context inputs a b listed → ∃ d reduced,
      deduplicate [(Operator.join a b anti listed position).node nodeId source]
        (Dict.empty.set nodeId inputs) context = .ok (some d) ∧
      JoinReady context ((Operator.join a b anti listed position).node nodeId source) a b listed inputs d
        reduced) ∧
      (¬RunsOverKeys context inputs a b listed →
        deduplicate [(Operator.join a b anti listed position).node nodeId source]
          (Dict.empty.set nodeId inputs) context = .ok none) :=
    deduplicate_join hctx rfl rfl hsource hab rfl hreads
  obtain ⟨hsome, hnone⟩ := hdedup
  rw [Expands]
  by_cases hkeys : RunsOverKeys context inputs a b listed
  swap
  · rw [hnone hkeys]
    refine iff_of_true trivial ?_
    cases listed with
    | false => trivial
    | true => exact fun _ h => absurd h hkeys
  obtain ⟨d, reduced, hrun, h⟩ := hsome hkeys
  rw [hrun]
  constructor
  · rintro ⟨reduced', hget, hexpands⟩
    obtain rfl : reduced = reduced' := Option.some.inj (h.ready.reads.symm.trans hget)
    cases listed with
    | false => trivial
    | true => exact fun ha _ => h.covered hctx hjoin hab ha hexpands
  · intro hcovered
    refine ⟨reduced, h.ready.reads, fun model result => h.answered hctx hjoin hab fun ha hlisted => ?_⟩
    subst hlisted
    exact hcovered ha hkeys

end join

/-- The second document of `b` is a copy of the first. -/
def partnerCopies : Context where
  deduplicate := ["b"]
  firstDocument := fun a => if a = "b" then some [0, 0] else none

/-- One anchor, listed with the copy of the partner read. -/
def uncoveredInputs : Inputs Unit :=
  ((Dict.empty.set "left" (.ids [0])).set "right" (.ids [0])).set "pairs"
    (.pairs ⟨["a", "b"], 0, [(fun a => if a = "b" then 1 else 0, [])]⟩)

lemma partnerCopies_wellFormed : partnerCopies.WellFormed := by
  intro a ha
  obtain rfl := List.mem_singleton.1 ha
  exact ⟨[0, 0], [0, 0], by decide, rfl⟩

lemma uncoveredInputs_reads :
    (Operator.join "a" "b" false true 0).Reads partnerCopies uncoveredInputs := by
  have hin : ∀ a, partnerCopies.InTable a 0 := by
    intro a
    refine ⟨by decide, fun ha => ?_⟩
    obtain rfl := List.mem_singleton.1 ha
    decide
  have hids : ∀ a, IsDocuments partnerCopies a (.ids [0] : Value Unit) := fun a =>
    ⟨.inl ⟨[0], rfl⟩, List.nodup_singleton 0, fun d hd => List.mem_singleton.1 hd ▸ hin a⟩
  refine ⟨by decide, ⟨.ids [0], rfl, hids "a"⟩, ⟨.ids [0], rfl, hids "b"⟩, _, rfl, .inl rfl, ?_, ?_⟩
  · intro row hrow
    rw [List.mem_singleton.1 hrow]
    exact hin "a"
  · intro row hrow
    rw [List.mem_singleton.1 hrow]
    exact ⟨by decide, fun _ => by decide⟩

end Quail.Copies
