import Quail.Copies.Operators
import Mathlib.Data.List.ProdSigma

/-!
# What deduplication returns

For each kind of input, what `deduplicate` makes of it: the documents become their distinct keys, the
pairs their distinct pairs of keys, and the group keeps what it read. Where copies carry different
values the group runs without deduplication.
-/

namespace Quail.Copies
open Arrays

variable {γ : Type}

/-! ## Keys -/

lemma firstDocuments_eq {groups documents : List ℕ} (h : firstDocuments groups = .ok documents) :
    documents = groups.map groups.idxOf := by
  rw [firstDocuments, pick_first_inverse] at h
  exact (Except.ok.inj h).symm

/-- A key is a document of its own group, no later than the document. -/
lemma firstDocuments_spec {groups documents : List ℕ} (h : firstDocuments groups = .ok documents)
    {d : ℕ} (hd : d < documents.length) :
    ∃ k, documents[d]? = some k ∧ k ≤ d ∧ documents[k]? = some k := by
  rw [firstDocuments_eq h] at hd ⊢
  rw [List.length_map] at hd
  have hle : groups.idxOf groups[d] ≤ d := by
    by_contra hlt
    have hne := List.not_of_lt_findIdx (Nat.lt_of_not_le hlt)
    simp at hne
  refine ⟨groups.idxOf groups[d], ?_, hle, ?_⟩
  · rw [List.getElem?_map, List.getElem?_eq_getElem hd]
    rfl
  · rw [List.getElem?_map, List.getElem?_idxOf (List.getElem_mem hd)]
    rfl

namespace Context

variable {context : Context} {a : Alias}

lemma keyOf_of_not_mem (h : a ∉ context.deduplicate) (d : ℕ) : context.keyOf a d = d := if_neg h

/-- The alias's column of first documents lists each document's key. -/
lemma WellFormed.column (hctx : context.WellFormed) (ha : a ∈ context.deduplicate) :
    ∃ documents, context.firstDocument a = some documents ∧
      ∀ d, context.InTable a d → documents[d]? = some (context.keyOf a d) ∧ context.keyOf a d ≤ d ∧
        documents[context.keyOf a d]? = some (context.keyOf a d) := by
  obtain ⟨groups, documents, hfirst, hcolumn⟩ := hctx a ha
  refine ⟨documents, hcolumn, fun d hd => ?_⟩
  have hlt := hd.2 ha
  rw [hcolumn, Option.getD_some] at hlt
  obtain ⟨k, hk, hle, hfix⟩ := firstDocuments_spec hfirst hlt
  have hkey : context.keyOf a d = k := by
    rw [keyOf, if_pos ha, hcolumn, Option.getD_some, List.getD_eq_getElem?_getD, hk, Option.getD_some]
  rw [hkey]
  exact ⟨hk, hle, hfix⟩

lemma WellFormed.inTable_keyOf (hctx : context.WellFormed) {d : ℕ} (hd : context.InTable a d) :
    context.InTable a (context.keyOf a d) := by
  by_cases ha : a ∈ context.deduplicate
  · obtain ⟨documents, hcolumn, hkeys⟩ := hctx.column ha
    obtain ⟨_, hle, hfix⟩ := hkeys d hd
    refine ⟨hle.trans_lt hd.1, fun _ => ?_⟩
    rw [hcolumn]
    exact (List.getElem?_eq_some_iff.1 hfix).1
  · rwa [keyOf_of_not_mem ha]

/-- A key document is its own key. -/
lemma WellFormed.keyOf_keyOf (hctx : context.WellFormed) {d : ℕ} (hd : context.InTable a d) :
    context.keyOf a (context.keyOf a d) = context.keyOf a d := by
  by_cases ha : a ∈ context.deduplicate
  · obtain ⟨documents, hcolumn, hkeys⟩ := hctx.column ha
    obtain ⟨_, _, hfix⟩ := hkeys d hd
    have hagain := (hkeys _ (hctx.inTable_keyOf hd)).1
    rw [hfix] at hagain
    exact (Option.some.inj hagain).symm
  · rw [keyOf_of_not_mem ha]

end Context

/-! ## The documents of one table -/

/-- The documents of a value. -/
def documentsOf (value : Value γ) : List ℕ := value.documentIds.toOption.getD []

variable {context : Context} {a : Alias} {value : Value γ}

lemma IsDocuments.documentIds (h : IsDocuments context a value) :
    value.documentIds = .ok (documentsOf value) := by
  cases h.form with
  | inl hids =>
    obtain ⟨documents, rfl⟩ := hids
    rfl
  | inr hrows =>
    obtain ⟨table, rfl, haliases⟩ := hrows
    have hcolumn : (Value.rows table).documentIds = table.column a := by
      rw [Value.documentIds, haliases]
    rw [documentsOf, hcolumn, Table.column, if_pos (haliases ▸ List.mem_singleton.2 rfl)]
    rfl

/-- Copies carry the same values as their key. -/
def CopiesAgree (context : Context) (a : Alias) (value : Value γ) : Prop :=
  ∀ table, value = .rows table → table.columns ≠ 0 → ∀ row ∈ table.rows, ∀ row' ∈ table.rows,
    context.keyOf a (row.1 a) = context.keyOf a (row'.1 a) → row.2 = row'.2

lemma documentsOf_rows {table : Table (List γ)} (h : table.aliases = [a]) :
    documentsOf (.rows table) = table.rows.map fun row => row.1 a := by
  have hcolumn : (Value.rows table).documentIds = table.column a := by rw [Value.documentIds, h]
  rw [documentsOf, hcolumn, Table.column, if_pos (h ▸ List.mem_singleton.2 rfl)]
  rfl

lemma documentsOf_ofIds {documents : List ℕ} : documentsOf (.rows (Table.ofIds a documents ([] : List γ))) =
    documents := by
  rw [documentsOf_rows rfl, Table.ofIds, List.map_map]
  exact List.map_id' documents

/-- The documents of one table become their distinct keys, unless copies carry different values. -/
lemma reducedRows_spec [DecidableEq γ] (hctx : context.WellFormed) (ha : a ∈ context.deduplicate)
    (h : IsDocuments context a value) {keys : List ℕ} (hkeys : context.firstDocument a = some keys) :
    (CopiesAgree context a value → ∃ value',
      reducedRows value a (documentsOf value) keys = .ok (some value') ∧
        documentsOf value' = unique ((documentsOf value).map (context.keyOf a))) ∧
      (¬CopiesAgree context a value → reducedRows value a (documentsOf value) keys = .ok none) := by
  obtain ⟨keys', hcolumn, hlist⟩ := hctx.column ha
  rw [hkeys] at hcolumn
  obtain rfl := Option.some.inj hcolumn
  have hmapped : pick keys (documentsOf value) = .ok ((documentsOf value).map (context.keyOf a)) := by
    have hpick : pick keys ((documentsOf value).map id) =
        .ok ((documentsOf value).map fun d => context.keyOf a d) :=
      pick_map fun d hd => (hlist d (h.inTable d hd)).1
    rwa [List.map_id] at hpick
  cases h.form with
  | inl hids =>
    obtain ⟨documents, rfl⟩ := hids
    refine ⟨fun _ => ⟨.ids (unique ((documentsOf (.ids documents : Value γ)).map (context.keyOf a))),
      ?_, rfl⟩, fun hnot => ?_⟩
    · rw [reducedRows, hmapped]
      rfl
    · exact absurd (fun table heq => by cases heq) hnot
  | inr hrows =>
    obtain ⟨table, rfl, haliases⟩ := hrows
    rw [documentsOf_rows haliases] at hmapped ⊢
    by_cases hcolumns : table.columns = 0
    · refine ⟨fun _ => ⟨.rows (Table.ofIds a _ []), ?_, documentsOf_ofIds⟩,
        fun hnot => ?_⟩
      · rw [reducedRows, hmapped]
        simp only [ok_bind, hcolumns, ne_eq, not_true_eq_false, if_false]
        rfl
      · refine absurd (fun table' heq hne => ?_) hnot
        cases heq
        exact absurd hcolumns hne
    · -- the row a key document's values are taken from is the first with that key
      let mapped := (table.rows.map fun row => row.1 a).map (context.keyOf a)
      let firstRow : ℕ → Option ((Alias → ℕ) × List γ) := fun k => table.rows[mapped.idxOf k]?
      have hfirst : ∀ row ∈ table.rows, ∃ row' ∈ table.rows,
          firstRow (context.keyOf a (row.1 a)) = some row' ∧
            context.keyOf a (row'.1 a) = context.keyOf a (row.1 a) := by
        intro row hrow
        have hmem : context.keyOf a (row.1 a) ∈ mapped :=
          List.mem_map_of_mem (List.mem_map_of_mem hrow)
        have hget := List.getElem?_idxOf hmem
        simp only [mapped, List.getElem?_map, Option.map_map] at hget
        obtain ⟨row', hrow', hkey⟩ := Option.map_eq_some_iff.1 hget
        exact ⟨row', List.mem_of_getElem? hrow', hrow', hkey⟩
      have hcopied : pick (table.rows.map Prod.snd) (mapped.map mapped.idxOf) =
          .ok (table.rows.map fun row =>
            ((firstRow (context.keyOf a (row.1 a))).map Prod.snd).getD []) := by
        have hposition : mapped.map mapped.idxOf = table.rows.map fun row =>
            mapped.idxOf (context.keyOf a (row.1 a)) := by
          simp only [mapped, List.map_map, Function.comp_def]
        rw [hposition]
        refine pick_map fun row hrow => ?_
        obtain ⟨row', _, hrow', _⟩ := hfirst row hrow
        rw [List.getElem?_map]
        simp only [firstRow] at hrow' ⊢
        rw [hrow']
        rfl
      have hagree : (table.rows.map fun row =>
          ((firstRow (context.keyOf a (row.1 a))).map Prod.snd).getD []) = table.rows.map Prod.snd ↔
          CopiesAgree context a (.rows table) := by
        rw [List.map_inj_left]
        constructor
        · intro heq table' htable _ row hrow row' hrow' hkey
          cases htable
          rw [← heq row hrow, ← heq row' hrow', hkey]
        · intro hcopies row hrow
          obtain ⟨row', hmem, hrow', hkey⟩ := hfirst row hrow
          rw [hrow']
          exact hcopies table rfl hcolumns row' hmem row hrow hkey
      have hrun : reducedRows (.rows table) a (table.rows.map fun row => row.1 a) keys =
          if (table.rows.map fun row =>
            ((firstRow (context.keyOf a (row.1 a))).map Prod.snd).getD []) ≠ table.rows.map Prod.snd then
            .ok none
          else do
            let rows ← table.take (uniqueFirst mapped)
            return some (.rows { rows with
              aliases := [a]
              rows := (unique mapped).zipWith (fun document row => (fun _ => document, row.2))
                rows.rows }) := by
        rw [reducedRows, hmapped, ok_bind]
        simp only [hcolumns, ne_eq, not_false_eq_true, if_true]
        rw [pick_first_inverse, ok_bind]
        simp only [mapped] at hcopied
        rw [hcopied, ok_bind]
        rfl
      have htake : table.take (uniqueFirst mapped) = .ok ⟨table.aliases, table.columns,
          (unique mapped).map fun k => (firstRow k).getD (fun _ => 0, [])⟩ := by
        rw [Table.take, uniqueFirst, pick_map (f := fun k => (firstRow k).getD (fun _ => 0, []))]
        · rfl
        · intro k hk
          rw [mem_unique] at hk
          obtain ⟨d, hd, rfl⟩ := List.mem_map.1 hk
          obtain ⟨row, hrow, rfl⟩ := List.mem_map.1 hd
          obtain ⟨row', _, hrow', _⟩ := hfirst row hrow
          rw [hrow']
          exact hrow'
      constructor
      · intro hcopies
        rw [hrun, if_neg (not_not.2 (hagree.2 hcopies)), htake]
        refine ⟨_, rfl, ?_⟩
        rw [documentsOf_rows rfl]
        dsimp only
        rw [List.zipWith_map_right, List.zipWith_self, List.map_map]
        exact List.map_id' _
      · intro hnot
        rw [hrun, if_pos (fun heq => hnot (hagree.1 heq))]

/-- What the operator is asked in place of the documents of one table. -/
def keyDocuments (context : Context) (a : Alias) (documents : List ℕ) : List ℕ :=
  if a ∈ context.deduplicate then unique (documents.map (context.keyOf a)) else documents

lemma IsDocuments.not_isPairs (h : IsDocuments context a value) {source : NodeId} {name : String} :
    isPairs (Operator.documentsPort source name a) value = false := by
  cases h.form with
  | inl hids =>
    obtain ⟨documents, rfl⟩ := hids
    rfl
  | inr hrows =>
    obtain ⟨table, rfl, haliases⟩ := hrows
    simp [isPairs, Value.rowAliases, haliases, Operator.documentsPort]

/-- Reading the documents of a table that no port has named before. -/
lemma readInput_documents [DecidableEq γ] (hctx : context.WellFormed) (h : IsDocuments context a value)
    (node : Node) (source : NodeId) (name : String) {r : Reading γ} (hevery : r.every.get? a = none)
    (hkeys : r.keys.get? a = none) {inputs : Inputs γ}
    (hinputs : r.reduced.get? node.nodeId = some inputs) :
    (a ∉ context.deduplicate →
      readInput context node (Operator.documentsPort source name a) value r =
        .ok (some { r with every := r.every.set a (documentsOf value) })) ∧
    (a ∈ context.deduplicate → ¬CopiesAgree context a value →
      readInput context node (Operator.documentsPort source name a) value r = .ok none) ∧
    (a ∈ context.deduplicate → CopiesAgree context a value → ∃ keys value',
      context.firstDocument a = some keys ∧
      documentsOf value' = keyDocuments context a (documentsOf value) ∧
      readInput context node (Operator.documentsPort source name a) value r = .ok (some { r with
        every := r.every.set a (documentsOf value)
        keys := r.keys.set a keys
        reduced := r.reduced.set node.nodeId (inputs.set name value') })) := by
  have halias : aliasAt (Operator.documentsPort source name a) value = .ok a := by
    cases h.form with
    | inl hids =>
      obtain ⟨documents, rfl⟩ := hids
      rfl
    | inr hrows =>
      obtain ⟨table, rfl, haliases⟩ := hrows
      rw [aliasAt, Value.rowAliases, haliases]
  have hrun : readInput context node (Operator.documentsPort source name a) value r =
      readDocuments context node (Operator.documentsPort source name a) value a (documentsOf value) r := by
    rw [readInput, h.not_isPairs, halias]
    simp only [Bool.false_eq_true, if_false, ok_bind, h.documentIds, hevery]
    rfl
  rw [hrun, readDocuments]
  refine ⟨fun ha => ?_, fun ha hnot => ?_, fun ha hcopies => ?_⟩
  · rw [loadKey, if_pos ha]
    rfl
  · obtain ⟨keys, hcolumn, _⟩ := hctx.column ha
    have hnone := (reducedRows_spec hctx ha h hcolumn).2 hnot
    have hload : loadKey context a r.keys = .ok (true, r.keys.set a keys) := by
      rw [loadKey, if_neg (not_not.2 ha), if_neg (by rw [Dict.contains, hkeys]; exact Bool.false_ne_true),
        hcolumn]
    rw [hload]
    simp only [ok_bind, Bool.not_true, Bool.false_eq_true, if_false, lookup, Dict.get?_set_self, hnone]
    rfl
  · obtain ⟨keys, hcolumn, _⟩ := hctx.column ha
    obtain ⟨value', hsome, hdocuments⟩ := (reducedRows_spec hctx ha h hcolumn).1 hcopies
    have hload : loadKey context a r.keys = .ok (true, r.keys.set a keys) := by
      rw [loadKey, if_neg (not_not.2 ha), if_neg (by rw [Dict.contains, hkeys]; exact Bool.false_ne_true),
        hcolumn]
    refine ⟨keys, value', hcolumn, ?_, ?_⟩
    · rw [keyDocuments, if_pos ha]
      exact hdocuments
    · rw [hload]
      simp only [ok_bind, Bool.not_true, Bool.false_eq_true, if_false, lookup, Dict.get?_set_self, hsome,
        Reading.setInput, hinputs]
      rfl

/-- Copies carry the same values, where the table is deduplicated. -/
def Agree (context : Context) (a : Alias) (value : Value γ) : Prop :=
  a ∈ context.deduplicate → CopiesAgree context a value

/-- What reading the documents of a table leaves behind. -/
structure ReadDocuments (context : Context) (node : Node) (a : Alias) (name : String)
    (documents : List ℕ) (r : Reading γ) (inputs : Inputs γ) (r' : Reading γ) (inputs' : Inputs γ) :
    Prop where
  every : r'.every = r.every.set a documents
  pairs : r'.pairs = r.pairs
  key : r'.keys.get? a = if a ∈ context.deduplicate then context.firstDocument a else none
  keys : ∀ b, b ≠ a → r'.keys.get? b = r.keys.get? b
  reduced : r'.reduced.get? node.nodeId = some inputs'
  documents : documentsAt inputs' name = keyDocuments context a documents
  others : ∀ name', name' ≠ name → inputs'.get? name' = inputs.get? name'

lemma documentsAt_of_get? {inputs : Inputs γ} {name : String} (h : inputs.get? name = some value) :
    documentsAt inputs name = documentsOf value := by
  rw [documentsAt, h]
  rfl

lemma readInput_agree [DecidableEq γ] (hctx : context.WellFormed) (h : IsDocuments context a value)
    (node : Node) (source : NodeId) (name : String) {r : Reading γ} (hevery : r.every.get? a = none)
    (hkeys : r.keys.get? a = none) {inputs : Inputs γ} (hname : inputs.get? name = some value)
    (hinputs : r.reduced.get? node.nodeId = some inputs) :
    (¬Agree context a value →
      readInput context node (Operator.documentsPort source name a) value r = .ok none) ∧
    (Agree context a value → ∃ r' inputs',
      readInput context node (Operator.documentsPort source name a) value r = .ok (some r') ∧
        ReadDocuments context node a name (documentsOf value) r inputs r' inputs') := by
  obtain ⟨hout, hnone, hsome⟩ := readInput_documents hctx h node source name hevery hkeys hinputs
  constructor
  · intro hnot
    rw [Agree, Classical.not_imp] at hnot
    exact hnone hnot.1 hnot.2
  · intro hagree
    by_cases ha : a ∈ context.deduplicate
    · obtain ⟨keys, value', hcolumn, hdocuments, hrun⟩ := hsome ha (hagree ha)
      refine ⟨_, inputs.set name value', hrun, ⟨rfl, rfl, ?_, ?_, Dict.get?_set_self, ?_, ?_⟩⟩
      · rw [if_pos ha, hcolumn]
        exact Dict.get?_set_self
      · exact fun b hb => Dict.get?_set_ne hb.symm
      · rw [documentsAt_of_get? Dict.get?_set_self, hdocuments]
      · exact fun name' hne => Dict.get?_set_ne hne.symm
    · refine ⟨_, inputs, hout ha, ⟨rfl, rfl, ?_, fun _ _ => rfl, hinputs, ?_, fun _ _ => rfl⟩⟩
      · rw [if_neg ha]
        exact hkeys
      · rw [documentsAt_of_get? hname, keyDocuments, if_neg ha]

/-- The key of each document is asked about, and nothing else. -/
lemma mem_keyDocuments {documents : List ℕ} {k : ℕ} :
    k ∈ keyDocuments context a documents ↔ ∃ d ∈ documents, k = context.keyOf a d := by
  rw [keyDocuments]
  split_ifs with ha
  · rw [mem_unique, List.mem_map]
    exact exists_congr fun d => and_congr_right fun _ => eq_comm
  · constructor
    · intro hk
      exact ⟨k, hk, (Context.keyOf_of_not_mem ha k).symm⟩
    · rintro ⟨d, hd, heq⟩
      rwa [heq, Context.keyOf_of_not_mem ha]

lemma nodup_keyDocuments {documents : List ℕ} (h : documents.Nodup) :
    (keyDocuments context a documents).Nodup := by
  rw [keyDocuments]
  split_ifs
  · exact nodup_unique _
  · exact h

/-! ## Pairs -/

lemma pairKey_left {x y : ℕ} (hy : y < 2 ^ 32) : pairKey x y >>> 32 = x := by
  rw [pairKey, Nat.shiftLeft_eq, Nat.shiftRight_eq_div_pow]
  omega

lemma pairKey_right {x y : ℕ} (hy : y < 2 ^ 32) : pairKey x y &&& 0xFFFFFFFF = y := by
  rw [pairKey, Nat.shiftLeft_eq, show (0xFFFFFFFF : ℕ) = 2 ^ 32 - 1 from rfl,
    Nat.and_two_pow_sub_one_eq_mod]
  omega

lemma pairKey_injective {x y x' y' : ℕ} (hy : y < 2 ^ 32) (hy' : y' < 2 ^ 32)
    (h : pairKey x y = pairKey x' y') : x = x' ∧ y = y' := by
  have hleft := congrArg (· >>> 32) h
  have hright := congrArg (· &&& 0xFFFFFFFF) h
  simp only [pairKey_left hy, pairKey_left hy'] at hleft
  simp only [pairKey_right hy, pairKey_right hy'] at hright
  exact ⟨hleft, hright⟩

/-- The key document under the keys loaded so far. -/
def keyIn (keys : Dict Alias (List ℕ)) (a : Alias) (document : ℕ) : ℕ :=
  match keys.get? a with
  | some documents => documents.getD document document
  | none => document

/-- The keys loaded are those of the context. -/
def KeysOf (context : Context) (keys : Dict Alias (List ℕ)) : Prop :=
  ∀ a documents, keys.get? a = some documents →
    a ∈ context.deduplicate ∧ context.firstDocument a = some documents

section keys

variable {keys : Dict Alias (List ℕ)}

lemma KeysOf.keyIn_eq (h : KeysOf context keys) {documents : List ℕ} (hget : keys.get? a = some documents)
    (d : ℕ) : keyIn keys a d = context.keyOf a d := by
  obtain ⟨ha, hcolumn⟩ := h a documents hget
  rw [keyIn, hget, Context.keyOf, if_pos ha, hcolumn]
  rfl

lemma keyIn_of_none (hget : keys.get? a = none) (d : ℕ) : keyIn keys a d = d := by
  rw [keyIn, hget]

/-- Whether or not its keys are loaded, a document's stand-in has its key. -/
lemma KeysOf.keyOf_keyIn (h : KeysOf context keys) (hctx : context.WellFormed) {d : ℕ}
    (hd : context.InTable a d) : context.keyOf a (keyIn keys a d) = context.keyOf a d := by
  cases hget : keys.get? a with
  | none => rw [keyIn_of_none hget]
  | some documents => rw [h.keyIn_eq hget, hctx.keyOf_keyOf hd]

lemma KeysOf.inTable_keyIn (h : KeysOf context keys) (hctx : context.WellFormed) {d : ℕ}
    (hd : context.InTable a d) : context.InTable a (keyIn keys a d) := by
  cases hget : keys.get? a with
  | none => rwa [keyIn_of_none hget]
  | some documents =>
    rw [h.keyIn_eq hget]
    exact hctx.inTable_keyOf hd

lemma KeysOf.keyList (h : KeysOf context keys) (hctx : context.WellFormed) {documents : List ℕ}
    (hget : keys.get? a = some documents) {d : ℕ} (hd : context.InTable a d) :
    documents[d]? = some (keyIn keys a d) := by
  obtain ⟨ha, hcolumn⟩ := h a documents hget
  obtain ⟨documents', hcolumn', hlist⟩ := hctx.column ha
  rw [hcolumn] at hcolumn'
  obtain rfl := Option.some.inj hcolumn'
  rw [h.keyIn_eq hget]
  exact (hlist d hd).1

lemma KeysOf.mappedSide (h : KeysOf context keys) (hctx : context.WellFormed) {table : Table (List γ)}
    (ha : a ∈ table.aliases) (hin : ∀ row ∈ table.rows, context.InTable a (row.1 a)) :
    Copies.mappedSide table keys a = .ok (table.rows.map fun row => keyIn keys a (row.1 a)) := by
  rw [Copies.mappedSide, Table.column, if_pos ha, ok_bind]
  cases hget : keys.get? a with
  | none =>
    simp only [keyIn_of_none hget]
    rfl
  | some documents => exact pick_map fun row hrow => h.keyList hctx hget (hin row hrow)

end keys

/-- The numbers of the pairs of keys. -/
def pairNumbers (keys : Dict Alias (List ℕ)) (left right : Alias) (table : Table (List γ)) : List ℕ :=
  unique (table.rows.map fun row =>
    pairKey (keyIn keys left (row.1 left)) (keyIn keys right (row.1 right)))

/-- Reading a pair table: one pair for each pair of keys. -/
lemma readPairs_spec (hctx : context.WellFormed) {left right : Alias} {table : Table (List γ)}
    (haliases : table.aliases = [left, right])
    (hleft : ∀ row ∈ table.rows, context.InTable left (row.1 left))
    (hright : ∀ row ∈ table.rows, context.InTable right (row.1 right)) (node : Node) (port : InputPort)
    {r : Reading γ} {every keys : Dict Alias (List ℕ)} (hkeys : KeysOf context keys)
    (hevery : (do readSide table (← readSide table r.every left) right) = Except.ok every)
    (hload : loadAnyKey context [left, right] r.keys = .ok (true, keys)) {inputs : Inputs γ}
    (hinputs : r.reduced.get? node.nodeId = some inputs) :
    readPairs context left right table node port r = .ok {
      every := every
      keys := keys
      pairs := r.pairs.set node.nodeId table
      reduced := r.reduced.set node.nodeId (inputs.set port.name
        (if port.valueType = .rows then .rows (pairIdsTable left right (pairNumbers keys left right table))
          else .pairs (pairIdsTable left right (pairNumbers keys left right table)))) } := by
  have hml := hkeys.mappedSide hctx (haliases ▸ List.mem_cons_self ..) hleft
  have hmr := hkeys.mappedSide hctx
    (haliases ▸ List.mem_cons_of_mem _ (List.mem_cons_self ..)) hright
  cases hside : readSide table r.every left with
  | error e =>
    rw [hside] at hevery
    cases hevery
  | ok every' =>
    rw [hside, ok_bind] at hevery
    simp only [readPairs, hside, hevery, hload, ok_bind, Bool.not_true, Bool.false_eq_true, if_false, hml,
      hmr, Reading.setInput, lookup, hinputs, List.zipWith_map, List.zipWith_self]
    rfl

/-! ## One operator -/

section operator

variable [DecidableEq γ] {node : Node} {inputs : Inputs γ}

/-- The reading a group of one node starts with. -/
def startReading (node : Node) (inputs : Inputs γ) : Reading γ :=
  ⟨Dict.empty, Dict.empty, Dict.empty, Dict.empty.set node.nodeId inputs⟩

/-- What a group of one node keeps of a reading. -/
def Reading.toDeduplicated (node : Node) (r : Reading γ) : Deduplicated γ :=
  ⟨r.reduced, r.keys, r.every, r.pairs, [node.nodeId], [node]⟩

/-- A group of one node reads its inputs, the rows ports first. -/
lemma deduplicate_one (hmodel : node.isModel = true) (hjoins : node.joinsSeveral = false)
    (hdedup : context.deduplicate ≠ []) {outside : List (Node × InputPort × Value γ)}
    (hout : outsideInputs [node] (Dict.empty.set node.nodeId inputs) = .ok outside) :
    deduplicate [node] (Dict.empty.set node.nodeId inputs) context = (do
      match ← readInputs context ((outside.filter fun e => !isPairs e.2.1 e.2.2) ++
          outside.filter fun e => isPairs e.2.1 e.2.2) (startReading node inputs) with
      | none => return none
      | some r => if r.keys.entries = [] then return none else return some (r.toDeduplicated node)) := by
  have hstart : [node].foldl (fun reduced node' =>
      reduced.set node'.nodeId (((Dict.empty.set node.nodeId inputs).get? node'.nodeId).getD Dict.empty))
      Dict.empty = Dict.empty.set node.nodeId inputs := by
    rw [List.foldl_cons, List.foldl_nil, Dict.get?_set_self, Option.getD_some]
  rw [deduplicate, hstart, hout]
  simp only [hdedup, hmodel, hjoins, List.any_cons, List.any_nil, Bool.or_false, not_true_eq_false,
    or_false, if_false, Bool.false_eq_true, ok_bind]
  rfl

omit [DecidableEq γ] in
/-- The inputs of a node that reads other nodes only. -/
lemma outsideInputs_one (values : InputPort → Value γ)
    (hsource : ∀ port ∈ node.inputs, port.sourceNode ≠ node.nodeId) (hvalues : ∀ port ∈ node.inputs, inputs.get? port.name =
      some (values port)) :
    outsideInputs [node] (Dict.empty.set node.nodeId inputs) =
      .ok (node.inputs.map fun port => (node, port, values port)) := by
  have hports : (node.inputs.filter fun port => port.sourceNode ∉ [node].map Node.nodeId) =
      node.inputs :=
    List.filter_eq_self.2 fun port hport => by simpa using hsource port hport
  rw [outsideInputs, List.flatMap_cons, List.flatMap_nil, List.append_nil, hports, List.mapM_map]
  clear hports hsource
  generalize node.inputs = ports at hvalues
  induction ports with
  | nil => rfl
  | cons port ports ih =>
    rw [List.mapM_cons, ih fun port' hport' => hvalues port' (List.mem_cons_of_mem _ hport')]
    simp only [Function.comp_apply, lookup, Dict.get?_set_self, hvalues port (List.mem_cons_self ..),
      ok_bind]
    rfl

lemma deduplicate_nil (h : context.deduplicate = []) :
    deduplicate [node] (Dict.empty.set node.nodeId inputs) context = .ok none := by
  rw [deduplicate, if_pos (.inl h)]
  rfl

omit [DecidableEq γ] in
/-- The group runs over key documents when any keys are loaded. -/
lemma keys_entries {keys : Dict Alias (List ℕ)} {aliases : List Alias}
    (hkeys : ∀ a, keys.get? a = if a ∈ aliases ∧ a ∈ context.deduplicate then context.firstDocument a
      else none) (hctx : context.WellFormed) :
    keys.entries = [] ↔ ∀ a ∈ aliases, a ∉ context.deduplicate := by
  rw [Dict.entries_eq_nil_iff]
  constructor
  · intro hnone a ha hdedup
    obtain ⟨documents, hcolumn, _⟩ := hctx.column hdedup
    have hget := hkeys a
    rw [hnone a, if_pos ⟨ha, hdedup⟩, hcolumn] at hget
    cases hget
  · intro hout a
    rw [hkeys a, if_neg]
    intro h
    exact hout a h.1 h.2

omit [DecidableEq γ] in
lemma keysOf_of_get? {keys : Dict Alias (List ℕ)} {aliases : List Alias}
    (hkeys : ∀ a, keys.get? a = if a ∈ aliases ∧ a ∈ context.deduplicate then context.firstDocument a
      else none) : KeysOf context keys := by
  intro a documents hget
  rw [hkeys a] at hget
  split_ifs at hget with h
  exact ⟨h.2, hget⟩

/-- What a group keeps of an operator over one table. -/
structure TableReady (context : Context) (node : Node) (a : Alias) (documents : List ℕ)
    (d : Deduplicated γ) (reduced : Inputs γ) : Prop where
  nodes : d.nodes = [node]
  inside : d.inside = [node.nodeId]
  pairs : d.pairs = Dict.empty
  keys : ∀ b, d.keys.get? b =
    if b ∈ [a] ∧ b ∈ context.deduplicate then context.firstDocument b else none
  found : a ∈ context.deduplicate
  every : d.every.get? a = some documents
  reads : d.inputs.get? node.nodeId = some reduced
  documents : documentsAt reduced "left" = keyDocuments context a documents

/-- An operator over one table runs over the key documents, or over all of them. -/
lemma deduplicate_table (hctx : context.WellFormed) (hmodel : node.isModel = true)
    (hjoins : node.joinsSeveral = false) {source : NodeId} (hsource : source ≠ node.nodeId)
    (hports : node.inputs = [Operator.documentsPort source "left" a])
    (hvalue : inputs.get? "left" = some value) (h : IsDocuments context a value) :
    deduplicate [node] (Dict.empty.set node.nodeId inputs) context = .ok none ∨
      ∃ d reduced, deduplicate [node] (Dict.empty.set node.nodeId inputs) context = .ok (some d) ∧
        TableReady context node a (documentsOf value) d reduced := by
  by_cases hdedup : context.deduplicate = []
  · exact .inl (deduplicate_nil hdedup)
  have hout : outsideInputs [node] (Dict.empty.set node.nodeId inputs) =
      .ok [(node, Operator.documentsPort source "left" a, value)] := by
    rw [outsideInputs_one fun _ => value, hports]
    · rfl
    · intro port hport
      rw [hports] at hport
      rw [List.mem_singleton.1 hport]
      exact hsource
    · intro port hport
      rw [hports] at hport
      rw [List.mem_singleton.1 hport]
      exact hvalue
  rw [deduplicate_one hmodel hjoins hdedup hout]
  simp only [List.filter_cons, h.not_isPairs, Bool.not_false, if_true, Bool.false_eq_true, if_false,
    List.filter_nil, List.append_nil]
  obtain ⟨hnone, hsome⟩ := readInput_agree hctx h node source "left" (r := startReading node inputs)
    Dict.get?_empty Dict.get?_empty hvalue Dict.get?_set_self
  by_cases hagree : Agree context a value
  · obtain ⟨r, reduced, hrun, hread⟩ := hsome hagree
    rw [readInputs, hrun]
    simp only [ok_bind, readInputs]
    have hkeys : ∀ b, r.keys.get? b =
        if b ∈ [a] ∧ b ∈ context.deduplicate then context.firstDocument b else none := by
      intro b
      by_cases hb : b = a
      · subst hb
        simp only [hread.key, List.mem_singleton, true_and]
      · rw [hread.keys b hb, if_neg fun h => hb (List.mem_singleton.1 h.1)]
        rfl
    by_cases ha : a ∈ context.deduplicate
    · rw [if_neg fun hnil => (keys_entries hkeys hctx).1 hnil a (List.mem_singleton_self a) ha]
      refine .inr ⟨_, reduced, rfl, ⟨rfl, rfl, hread.pairs, hkeys, ha, ?_, hread.reduced,
        hread.documents⟩⟩
      show r.every.get? a = _
      rw [hread.every]
      exact Dict.get?_set_self
    · rw [if_pos ((keys_entries hkeys hctx).2 fun b hb => by rwa [List.mem_singleton.1 hb])]
      exact .inl rfl
  · rw [readInputs, hnone hagree]
    exact .inl rfl

/-- What reading the documents of two tables leaves behind. -/
structure BothRead (context : Context) (node : Node) (a b : Alias) (inputs : Inputs γ) (r : Reading γ)
    (reduced : Inputs γ) : Prop where
  pairs : r.pairs = Dict.empty
  keys : ∀ c, r.keys.get? c =
    if c ∈ [a, b] ∧ c ∈ context.deduplicate then context.firstDocument c else none
  everyLeft : r.every.get? a = some (documentsAt inputs "left")
  everyRight : r.every.get? b = some (documentsAt inputs "right")
  reads : r.reduced.get? node.nodeId = some reduced
  left : documentsAt reduced "left" = keyDocuments context a (documentsAt inputs "left")
  right : documentsAt reduced "right" = keyDocuments context b (documentsAt inputs "right")

/-- Reading the documents of two tables. -/
lemma readInputs_both (hctx : context.WellFormed) (node : Node) {b : Alias} (hab : a ≠ b) {left right : Value γ}
    (hleft : inputs.get? "left" = some left) (hright : inputs.get? "right" = some right)
    (hl : IsDocuments context a left) (hr : IsDocuments context b right) (source : NodeId)
    (rest : List (Node × InputPort × Value γ)) :
    (¬(Agree context a left ∧ Agree context b right) →
      readInputs context ((node, Operator.documentsPort source "left" a, left) ::
        (node, Operator.documentsPort source "right" b, right) :: rest) (startReading node inputs) =
          .ok none) ∧
    (Agree context a left ∧ Agree context b right → ∃ r reduced,
      readInputs context ((node, Operator.documentsPort source "left" a, left) ::
        (node, Operator.documentsPort source "right" b, right) :: rest) (startReading node inputs) =
          readInputs context rest r ∧ BothRead context node a b inputs r reduced) := by
  obtain ⟨hnone, hsome⟩ := readInput_agree hctx hl node source "left" (r := startReading node inputs)
    Dict.get?_empty Dict.get?_empty hleft Dict.get?_set_self
  by_cases hal : Agree context a left
  · obtain ⟨r, reduced, hrun, hread⟩ := hsome hal
    have hevery : r.every.get? b = none := by
      rw [hread.every, Dict.get?_set_ne hab]
      rfl
    have hkey : r.keys.get? b = none := hread.keys b hab.symm
    have hname : reduced.get? "right" = some right :=
      (hread.others "right" (by decide)).trans hright
    obtain ⟨hnone', hsome'⟩ := readInput_agree hctx hr node source "right" hevery hkey hname hread.reduced
    simp only [readInputs, hrun, ok_bind]
    by_cases har : Agree context b right
    · obtain ⟨r', reduced', hrun', hread'⟩ := hsome' har
      refine ⟨fun hnot => absurd ⟨hal, har⟩ hnot, fun _ => ⟨r', reduced', ?_, ?_⟩⟩
      · rw [hrun', ok_bind]
      · refine ⟨hread'.pairs.trans hread.pairs, ?_, ?_, ?_, hread'.reduced, ?_, ?_⟩
        · intro c
          by_cases hca : c = a
          · subst hca
            simp only [hread'.keys c hab, hread.key, List.mem_cons, true_or, true_and]
          · by_cases hcb : c = b
            · subst hcb
              simp only [hread'.key, List.mem_cons, or_true, true_or, true_and]
            · rw [hread'.keys c hcb, hread.keys c hca, if_neg]
              · rfl
              · simp only [List.mem_cons, List.not_mem_nil, hca, hcb, or_self, false_and, not_false_eq_true]
        · rw [hread'.every, Dict.get?_set_ne hab.symm, hread.every, Dict.get?_set_self,
            documentsAt_of_get? hleft]
        · rw [hread'.every, Dict.get?_set_self, documentsAt_of_get? hright]
        · rw [documentsAt, hread'.others "left" (by decide), ← documentsAt, hread.documents,
            documentsAt_of_get? hleft]
        · rw [hread'.documents, documentsAt_of_get? hright]
    · rw [hnone' har]
      exact ⟨fun _ => rfl, fun h => absurd h.2 har⟩
  · rw [readInputs, hnone hal]
    exact ⟨fun _ => rfl, fun h => absurd h.1 hal⟩

omit [DecidableEq γ] in
lemma lt_of_inTable {d : ℕ} (h : context.InTable a d) : d < 2 ^ 32 := h.1.trans (by decide)

omit [DecidableEq γ] in
/-- The pairs a table of pair numbers lists: those of the keys, each once. -/
lemma numbered_pairs (hctx : context.WellFormed) {left right : Alias} (hne : left ≠ right)
    {keys : Dict Alias (List ℕ)} (hkeys : KeysOf context keys) {table : Table (List γ)}
    (hright : ∀ row ∈ table.rows, context.InTable right (row.1 right)) :
    let rows := (pairIdsTable left right (pairNumbers keys left right table) : Table (List γ)).rows
    (∀ x y, (∃ row ∈ rows, row.1 left = x ∧ row.1 right = y) ↔
      ∃ row ∈ table.rows, x = keyIn keys left (row.1 left) ∧ y = keyIn keys right (row.1 right)) ∧
    rows.Pairwise fun row row' => ¬(row.1 left = row'.1 left ∧ row.1 right = row'.1 right) := by
  have hrow : ∀ k ∈ pairNumbers keys left right table, ∃ row ∈ table.rows,
      k = pairKey (keyIn keys left (row.1 left)) (keyIn keys right (row.1 right)) ∧
      k >>> 32 = keyIn keys left (row.1 left) ∧ k &&& 0xFFFFFFFF = keyIn keys right (row.1 right) := by
    intro k hk
    rw [pairNumbers, mem_unique] at hk
    obtain ⟨row, hrow, rfl⟩ := List.mem_map.1 hk
    have hlt := lt_of_inTable (hkeys.inTable_keyIn hctx (hright row hrow))
    exact ⟨row, hrow, rfl, pairKey_left hlt, pairKey_right hlt⟩
  constructor
  · intro x y
    constructor
    · rintro ⟨row, hmem, hx, hy⟩
      obtain ⟨k, hk, rfl⟩ := List.mem_map.1 hmem
      obtain ⟨row, hrow, _, hl, hr⟩ := hrow k hk
      simp only [if_true, hl, hne.symm, if_false, hr] at hx hy
      exact ⟨row, hrow, hx.symm, hy.symm⟩
    · rintro ⟨row, hmem, hx, hy⟩
      have hlt := lt_of_inTable (hkeys.inTable_keyIn hctx (hright row hmem))
      refine ⟨_, List.mem_map_of_mem (mem_unique.2 (List.mem_map_of_mem hmem)), ?_, ?_⟩
      · simp only [if_true, pairKey_left hlt, hx]
      · simp only [hne.symm, if_false, pairKey_right hlt, hy]
  · rw [pairIdsTable]
    refine List.pairwise_map.2 ((nodup_unique _).imp_of_mem fun hk hk' hdiffer heq => hdiffer ?_)
    simp only [if_true, hne.symm, if_false] at heq
    obtain ⟨row, _, hk1, hl, hr⟩ := hrow _ hk
    obtain ⟨row', _, hk1', hl', hr'⟩ := hrow _ hk'
    rw [hk1, hk1', ← hl, ← hl', ← hr, ← hr', heq.1, heq.2]

omit [DecidableEq γ] in
/-- The reduced pairs of an input: the pairs of keys of the listed ones, each once. -/
lemma reduced_pairs (hctx : context.WellFormed) {b : Alias} (hab : a ≠ b) {keys : Dict Alias (List ℕ)}
    (hkeys : KeysOf context keys) {table : Table (List γ)} (htable : IsPairs context a b table)
    {left right : Alias} (haliases : table.aliases = [left, right]) {reduced : Inputs γ}
    (hreduced : reduced.get? "pairs" =
        some (.rows (pairIdsTable left right (pairNumbers keys left right table))) ∨
      reduced.get? "pairs" =
        some (.pairs (pairIdsTable left right (pairNumbers keys left right table)))) :
    (∀ q, q ∈ listedPairs reduced a b ↔
      ∃ row ∈ table.rows, q = (keyIn keys a (row.1 a), keyIn keys b (row.1 b))) ∧
    (listedPairs reduced a b).Nodup := by
  have hlisted : listedPairs reduced a b = (pairIdsTable left right
      (pairNumbers keys left right table) : Table (List γ)).rows.map fun row => (row.1 a, row.1 b) := by
    cases hreduced with
    | inl h => rw [listedPairs, h]
    | inr h => rw [listedPairs, h]
  rw [hlisted]
  have hsides : (left = a ∧ right = b) ∨ (left = b ∧ right = a) := by
    cases htable.aliases with
    | inl h =>
      rw [haliases] at h
      simp only [List.cons.injEq, and_true] at h
      exact .inl h
    | inr h =>
      rw [haliases] at h
      simp only [List.cons.injEq, and_true] at h
      exact .inr h
  cases hsides with
  | inl h =>
    obtain ⟨rfl, rfl⟩ := h
    obtain ⟨hmem, hpair⟩ := numbered_pairs hctx hab hkeys htable.right
    refine ⟨fun q => ?_, List.pairwise_map.2 (hpair.imp fun hne heq => hne (Prod.mk.inj heq))⟩
    rw [List.mem_map]
    refine Iff.trans ?_ ((hmem q.1 q.2).trans ?_)
    · exact exists_congr fun row => and_congr_right fun _ => Prod.ext_iff
    · refine exists_congr fun row => and_congr_right fun _ => ?_
      rw [Prod.ext_iff]
  | inr h =>
    obtain ⟨rfl, rfl⟩ := h
    obtain ⟨hmem, hpair⟩ := numbered_pairs hctx hab.symm hkeys htable.left
    refine ⟨fun q => ?_, List.pairwise_map.2 (hpair.imp fun hne heq => hne (Prod.mk.inj heq).symm)⟩
    rw [List.mem_map]
    refine Iff.trans ?_ ((hmem q.2 q.1).trans ?_)
    · exact exists_congr fun row => and_congr_right fun _ => Prod.ext_iff.trans and_comm
    · refine exists_congr fun row => and_congr_right fun _ => ?_
      rw [Prod.ext_iff]
      exact and_comm

/-- What a group keeps of an operator over two tables, whose documents `left` and `right` it read. -/
structure PairsReady (context : Context) (node : Node) (a b : Alias) (pairing : Pairing)
    (inputs : Inputs γ) (left right : List ℕ) (d : Deduplicated γ) (reduced : Inputs γ) : Prop where
  nodes : d.nodes = [node]
  inside : d.inside = [node.nodeId]
  keys : KeysOf context d.keys
  found : d.keys.contains a = true ∨ d.keys.contains b = true
  reads : d.inputs.get? node.nodeId = some reduced
  everyLeft : d.every.get? a = some left
  everyRight : d.every.get? b = some right
  inLeft : ∀ x ∈ left, context.InTable a x
  inRight : ∀ y ∈ right, context.InTable b y
  pairs : (pairing = .product ∧ d.pairs.get? node.nodeId = none ∧
      askedPairs inputs a b pairing = left ×ˢ right) ∨
    (pairing ≠ .product ∧ ∃ table, d.pairs.get? node.nodeId = some table ∧
      IsPairs context a b table ∧
      askedPairs inputs a b pairing = (table.rows.filter fun row =>
        decide (row.1 a ∈ left) && decide (row.1 b ∈ right)).map fun row => (row.1 a, row.1 b))
  bounded : ∀ q ∈ askedPairs reduced a b pairing, context.InTable a q.1 ∧ context.InTable b q.2
  wanted : ∀ p ∈ askedPairs inputs a b pairing,
    (keyIn d.keys a p.1, keyIn d.keys b p.2) ∈ askedPairs reduced a b pairing
  nodup : (askedPairs reduced a b pairing).Nodup

/-- What a group keeps of two tables whose documents it read, besides. -/
structure BothReady (context : Context) (a b : Alias) (pairing : Pairing) (inputs : Inputs γ)
    (d : Deduplicated γ) (reduced : Inputs γ) : Prop where
  keys : ∀ c, d.keys.get? c =
    if c ∈ [a, b] ∧ c ∈ context.deduplicate then context.firstDocument c else none
  left : documentsAt reduced "left" = keyDocuments context a (documentsAt inputs "left")
  right : documentsAt reduced "right" = keyDocuments context b (documentsAt inputs "right")
  listed : pairing = .listed → ∀ q, q ∈ listedPairs reduced a b ↔
    ∃ p ∈ listedPairs inputs a b, q = (context.keyOf a p.1, context.keyOf b p.2)

omit [DecidableEq γ] in
lemma keyIn_eq_keyOf {aliases : List Alias} {keys : Dict Alias (List ℕ)}
    (hkeys : ∀ c, keys.get? c =
      if c ∈ aliases ∧ c ∈ context.deduplicate then context.firstDocument c else none)
    (ha : a ∈ aliases) (d : ℕ) : keyIn keys a d = context.keyOf a d := by
  cases hget : keys.get? a with
  | some documents => exact (keysOf_of_get? hkeys).keyIn_eq hget d
  | none =>
    rw [keyIn_of_none hget, Context.keyOf]
    split_ifs with hdedup
    · rw [hkeys a, if_pos ⟨ha, hdedup⟩] at hget
      rw [hget]
      rfl
    · rfl

omit [DecidableEq γ] in
lemma inTable_documentsAt {name : String} (hget : inputs.get? name = some value)
    (h : IsDocuments context a value) : ∀ x ∈ documentsAt inputs name, context.InTable a x := by
  rw [documentsAt_of_get? hget]
  exact h.inTable

omit [DecidableEq γ] in
lemma nodup_documentsAt {name : String} (hget : inputs.get? name = some value)
    (h : IsDocuments context a value) : (documentsAt inputs name).Nodup := by
  rw [documentsAt_of_get? hget]
  exact h.nodup

/-- An operator over every combination of the documents of two tables. -/
lemma deduplicate_product (hctx : context.WellFormed) (hmodel : node.isModel = true)
    (hjoins : node.joinsSeveral = false) {source : NodeId} (hsource : source ≠ node.nodeId) {b : Alias}
    (hab : a ≠ b) (hports : node.inputs = Operator.pairPorts source a b .product) {left right : Value γ}
    (hleft : inputs.get? "left" = some left) (hright : inputs.get? "right" = some right)
    (hl : IsDocuments context a left) (hr : IsDocuments context b right) :
    (Agree context a left ∧ Agree context b right ∧
        (a ∈ context.deduplicate ∨ b ∈ context.deduplicate) →
      ∃ d reduced, deduplicate [node] (Dict.empty.set node.nodeId inputs) context = .ok (some d) ∧
        PairsReady context node a b .product inputs (documentsAt inputs "left")
          (documentsAt inputs "right") d reduced ∧
        BothReady context a b .product inputs d reduced) ∧
    (¬(Agree context a left ∧ Agree context b right ∧
        (a ∈ context.deduplicate ∨ b ∈ context.deduplicate)) →
      deduplicate [node] (Dict.empty.set node.nodeId inputs) context = .ok none) := by
  by_cases hdedup : context.deduplicate = []
  · refine ⟨fun h => ?_, fun _ => deduplicate_nil hdedup⟩
    rw [hdedup] at h
    cases h.2.2 with
    | inl h => cases h
    | inr h => cases h
  have hout : outsideInputs [node] (Dict.empty.set node.nodeId inputs) =
      .ok [(node, Operator.documentsPort source "left" a, left),
        (node, Operator.documentsPort source "right" b, right)] := by
    rw [outsideInputs_one fun port => if port.name = "left" then left else right, hports]
    · rfl
    · intro port hport
      rw [hports] at hport
      simp only [Operator.pairPorts, List.mem_cons, List.not_mem_nil, or_false] at hport
      cases hport with
      | inl h => exact h ▸ hsource
      | inr h => exact h ▸ hsource
    · intro port hport
      rw [hports] at hport
      simp only [Operator.pairPorts, List.mem_cons, List.not_mem_nil, or_false] at hport
      cases hport with
      | inl h => exact h ▸ hleft
      | inr h => exact h ▸ hright
  rw [deduplicate_one hmodel hjoins hdedup hout]
  simp only [List.filter_cons, hl.not_isPairs, hr.not_isPairs, Bool.not_false, if_true,
    Bool.false_eq_true, if_false, List.filter_nil, List.append_nil]
  obtain ⟨hnone, hsome⟩ := readInputs_both hctx node hab hleft hright hl hr source []
  by_cases hagree : Agree context a left ∧ Agree context b right
  · obtain ⟨r, reduced, hrun, hread⟩ := hsome hagree
    rw [hrun]
    simp only [readInputs, ok_bind]
    have hfound : r.keys.entries = [] ↔ a ∉ context.deduplicate ∧ b ∉ context.deduplicate := by
      rw [keys_entries hread.keys hctx]
      simp only [List.mem_cons, List.not_mem_nil, or_false, forall_eq_or_imp, forall_eq]
    have hkeys := keysOf_of_get? hread.keys
    have hkeyA := keyIn_eq_keyOf hread.keys (List.mem_cons_self ..)
    have hkeyB := keyIn_eq_keyOf hread.keys (List.mem_cons_of_mem _ (List.mem_cons_self ..))
    have hasked : ∀ q, q ∈ askedPairs reduced a b .product ↔
        ∃ x ∈ documentsAt inputs "left", ∃ y ∈ documentsAt inputs "right",
          q = (context.keyOf a x, context.keyOf b y) := by
      intro q
      rw [askedPairs, hread.left, hread.right, List.mem_product, mem_keyDocuments, mem_keyDocuments]
      constructor
      · rintro ⟨⟨x, hx, hqx⟩, ⟨y, hy, hqy⟩⟩
        exact ⟨x, hx, y, hy, Prod.ext hqx hqy⟩
      · rintro ⟨x, hx, y, hy, hq⟩
        rw [hq]
        exact ⟨⟨x, hx, rfl⟩, ⟨y, hy, rfl⟩⟩
    refine ⟨fun h => ?_, fun h => ?_⟩
    · rw [if_neg fun hnil => ?_]
      · refine ⟨_, reduced, rfl, ⟨rfl, rfl, hkeys, ?_, hread.reads, hread.everyLeft, hread.everyRight,
          inTable_documentsAt hleft hl, inTable_documentsAt hright hr, .inl ⟨rfl, ?_, rfl⟩, ?_, ?_, ?_⟩,
          ⟨hread.keys, hread.left, hread.right, fun h => by cases h⟩⟩
        · refine h.2.2.imp (fun ha => ?_) fun hb => ?_
          · obtain ⟨documents, hcolumn, _⟩ := hctx.column ha
            refine Dict.contains_iff.2 ⟨documents, (hread.keys a).trans ?_⟩
            rw [if_pos ⟨List.mem_cons_self .., ha⟩, hcolumn]
          · obtain ⟨documents, hcolumn, _⟩ := hctx.column hb
            refine Dict.contains_iff.2 ⟨documents, (hread.keys b).trans ?_⟩
            rw [if_pos ⟨List.mem_cons_of_mem _ (List.mem_cons_self ..), hb⟩, hcolumn]
        · show r.pairs.get? node.nodeId = none
          rw [hread.pairs]
          rfl
        · intro q hq
          obtain ⟨x, hx, y, hy, rfl⟩ := (hasked q).1 hq
          exact ⟨hctx.inTable_keyOf (inTable_documentsAt hleft hl x hx),
            hctx.inTable_keyOf (inTable_documentsAt hright hr y hy)⟩
        · intro p hp
          obtain ⟨hx, hy⟩ := List.mem_product.1 hp
          refine (hasked _).2 ⟨p.1, hx, p.2, hy, ?_⟩
          rw [← hkeyA, ← hkeyB]
          rfl
        · rw [askedPairs, hread.left, hread.right]
          exact (nodup_keyDocuments (nodup_documentsAt hleft hl)).product
            (nodup_keyDocuments (nodup_documentsAt hright hr))
      · obtain ⟨ha, hb⟩ := hfound.1 hnil
        exact h.2.2.elim ha hb
    · rw [if_pos (hfound.2 ?_)]
      · rfl
      · by_contra hsomewhere
        rw [not_and_or, not_not, not_not] at hsomewhere
        exact h ⟨hagree.1, hagree.2, hsomewhere⟩
  · rw [hnone hagree]
    exact ⟨fun h => absurd ⟨h.1, h.2.1⟩ hagree, fun _ => rfl⟩

omit [DecidableEq γ] in
/-- Two tables' keys that are loaded already. -/
lemma loadAnyKey_loaded (hctx : context.WellFormed) {aliases : List Alias} {keys : Dict Alias (List ℕ)}
    (hkeys : ∀ c, keys.get? c =
      if c ∈ aliases ∧ c ∈ context.deduplicate then context.firstDocument c else none)
    {sides : List Alias} (hsides : ∀ c ∈ sides, c ∈ aliases) :
    loadAnyKey context sides keys = .ok (sides.any (· ∈ context.deduplicate), keys) := by
  induction sides with
  | nil => rfl
  | cons c sides ih =>
    rw [loadAnyKey, loadKey]
    by_cases hc : c ∈ context.deduplicate
    · obtain ⟨documents, hcolumn, _⟩ := hctx.column hc
      have hcontains : keys.contains c = true := Dict.contains_iff.2
        ⟨documents, by rw [hkeys c, if_pos ⟨hsides c (List.mem_cons_self ..), hc⟩, hcolumn]⟩
      rw [if_neg (not_not.2 hc), if_pos hcontains, List.any_cons, decide_eq_true hc, Bool.true_or]
      rfl
    · rw [if_pos hc, ok_bind, List.any_cons, decide_eq_false hc, Bool.false_or]
      exact ih fun c' hc' => hsides c' (List.mem_cons_of_mem _ hc')

/-- An operator over the listed pairs of the documents of two tables. -/
lemma deduplicate_listed (hctx : context.WellFormed) (hmodel : node.isModel = true)
    (hjoins : node.joinsSeveral = false) {source : NodeId} (hsource : source ≠ node.nodeId) {b : Alias}
    (hab : a ≠ b) (hports : node.inputs = Operator.pairPorts source a b .listed) {left right : Value γ}
    {table : Table (List γ)} (hleft : inputs.get? "left" = some left)
    (hright : inputs.get? "right" = some right) (hpairs : inputs.get? "pairs" = some (.pairs table))
    (hl : IsDocuments context a left) (hr : IsDocuments context b right)
    (htable : IsPairs context a b table) :
    (Agree context a left ∧ Agree context b right ∧ table.columns = 0 ∧
        (a ∈ context.deduplicate ∨ b ∈ context.deduplicate) →
      ∃ d reduced, deduplicate [node] (Dict.empty.set node.nodeId inputs) context = .ok (some d) ∧
        PairsReady context node a b .listed inputs (documentsAt inputs "left")
          (documentsAt inputs "right") d reduced ∧
        BothReady context a b .listed inputs d reduced) ∧
    (¬(Agree context a left ∧ Agree context b right ∧ table.columns = 0 ∧
        (a ∈ context.deduplicate ∨ b ∈ context.deduplicate)) →
      deduplicate [node] (Dict.empty.set node.nodeId inputs) context = .ok none) := by
  by_cases hdedup : context.deduplicate = []
  · refine ⟨fun h => ?_, fun _ => deduplicate_nil hdedup⟩
    rw [hdedup] at h
    cases h.2.2.2 with
    | inl h => cases h
    | inr h => cases h
  have hout : outsideInputs [node] (Dict.empty.set node.nodeId inputs) =
      .ok [(node, Operator.documentsPort source "left" a, left),
        (node, Operator.documentsPort source "right" b, right),
        (node, ⟨"pairs", .pairs, source, .pairs 0⟩, .pairs table)] := by
    rw [outsideInputs_one fun port => if port.name = "left" then left
      else if port.name = "right" then right else .pairs table, hports]
    · rfl
    · intro port hport
      rw [hports] at hport
      simp only [Operator.pairPorts, List.mem_cons, List.not_mem_nil, or_false] at hport
      obtain rfl | rfl | rfl := hport
      · exact hsource
      · exact hsource
      · exact hsource
    · intro port hport
      rw [hports] at hport
      simp only [Operator.pairPorts, List.mem_cons, List.not_mem_nil, or_false] at hport
      obtain rfl | rfl | rfl := hport
      · exact hleft
      · exact hright
      · exact hpairs
  have hpair : isPairs (⟨"pairs", .pairs, source, .pairs 0⟩ : InputPort) (.pairs table) = true := rfl
  rw [deduplicate_one hmodel hjoins hdedup hout]
  simp only [List.filter_cons, hl.not_isPairs, hr.not_isPairs, hpair, Bool.not_false, Bool.not_true,
    if_true, Bool.false_eq_true, if_false, List.filter_nil, List.cons_append, List.nil_append]
  obtain ⟨hnone, hsome⟩ := readInputs_both hctx node hab hleft hright hl hr source
    [(node, ⟨"pairs", .pairs, source, .pairs 0⟩, .pairs table)]
  by_cases hagree : Agree context a left ∧ Agree context b right
  swap
  · rw [hnone hagree]
    exact ⟨fun h => absurd ⟨h.1, h.2.1⟩ hagree, fun _ => rfl⟩
  obtain ⟨r, reduced, hrun, hread⟩ := hsome hagree
  rw [hrun]
  obtain ⟨tleft, tright, haliases⟩ : ∃ tleft tright, table.aliases = [tleft, tright] := by
    cases htable.aliases with
    | inl h => exact ⟨_, _, h⟩
    | inr h => exact ⟨_, _, h⟩
  have hsides : (tleft = a ∧ tright = b) ∨ (tleft = b ∧ tright = a) := by
    have h := htable.aliases
    rw [haliases] at h
    simpa only [List.cons.injEq, and_true] using h
  have hevery : (do readSide table (← readSide table r.every tleft) tright) = Except.ok r.every := by
    have hcl : r.every.contains tleft = true := by
      cases hsides with
      | inl h => exact h.1 ▸ Dict.contains_iff.2 ⟨_, hread.everyLeft⟩
      | inr h => exact h.1 ▸ Dict.contains_iff.2 ⟨_, hread.everyRight⟩
    have hcr : r.every.contains tright = true := by
      cases hsides with
      | inl h => exact h.2 ▸ Dict.contains_iff.2 ⟨_, hread.everyRight⟩
      | inr h => exact h.2 ▸ Dict.contains_iff.2 ⟨_, hread.everyLeft⟩
    rw [readSide, if_pos hcl, ok_bind, readSide, if_pos hcr]
  have hload : loadAnyKey context [tleft, tright] r.keys =
      .ok (decide (a ∈ context.deduplicate ∨ b ∈ context.deduplicate), r.keys) := by
    rw [loadAnyKey_loaded hctx hread.keys]
    · cases hsides with
      | inl h =>
        rw [h.1, h.2, Bool.decide_or]
        simp only [List.any_cons, List.any_nil, Bool.or_false]
      | inr h =>
        rw [h.1, h.2, Bool.decide_or, Bool.or_comm]
        simp only [List.any_cons, List.any_nil, Bool.or_false]
    · intro c hc
      simp only [List.mem_cons, List.not_mem_nil, or_false] at hc ⊢
      cases hsides with
      | inl h => rwa [h.1, h.2] at hc
      | inr h =>
        rw [h.1, h.2] at hc
        exact hc.symm
  have hread' : readInputs context [(node, ⟨"pairs", .pairs, source, .pairs 0⟩, .pairs table)] r =
      (do match ← (if table.columns = 0 then do
            return some (← readPairs context tleft tright table node ⟨"pairs", .pairs, source, .pairs 0⟩ r)
          else return none : Except PyError (Option (Reading γ))) with
        | none => return none
        | some r => return some r) := by
    rw [readInputs, readInput, hpair, if_pos rfl, pairTable, ok_bind, haliases]
    by_cases hcolumns : table.columns = 0
    · rw [hcolumns]
      rfl
    · rw [if_neg hcolumns]
      cases htc : table.columns with
      | zero => exact absurd htc hcolumns
      | succ n => rfl
  rw [hread']
  by_cases hcolumns : table.columns = 0
  swap
  · rw [if_neg hcolumns]
    exact ⟨fun h => absurd h.2.2.1 hcolumns, fun _ => rfl⟩
  rw [if_pos hcolumns]
  by_cases hfound : a ∈ context.deduplicate ∨ b ∈ context.deduplicate
  swap
  · rw [decide_eq_false hfound] at hload
    have hnil : r.keys.entries = [] := by
      refine (keys_entries hread.keys hctx).2 fun c hc => ?_
      rw [not_or] at hfound
      simp only [List.mem_cons, List.not_mem_nil, or_false] at hc
      cases hc with
      | inl h => exact h ▸ hfound.1
      | inr h => exact h ▸ hfound.2
    have hskip : readPairs context tleft tright table node ⟨"pairs", .pairs, source, .pairs 0⟩ r =
        .ok r := by
      cases hside : readSide table r.every tleft with
      | error e =>
        rw [hside] at hevery
        cases hevery
      | ok every' =>
        rw [hside, ok_bind] at hevery
        simp only [readPairs, hside, hevery, hload, ok_bind, Bool.not_false, if_true]
        rfl
    rw [hskip]
    refine ⟨fun h => absurd h.2.2.2 hfound, fun _ => ?_⟩
    simp only [ok_bind, pure, Except.pure, hnil, if_true]
  refine ⟨fun _ => ?_, fun h => absurd ⟨hagree.1, hagree.2, hcolumns, hfound⟩ h⟩
  rw [decide_eq_true hfound] at hload
  have hkeys := keysOf_of_get? hread.keys
  have hkeyA := keyIn_eq_keyOf hread.keys (List.mem_cons_self ..)
  have hkeyB := keyIn_eq_keyOf hread.keys (List.mem_cons_of_mem _ (List.mem_cons_self ..))
  have hinl : ∀ row ∈ table.rows, context.InTable tleft (row.1 tleft) := by
    cases hsides with
    | inl h => exact h.1 ▸ htable.left
    | inr h => exact h.1 ▸ htable.right
  have hinr : ∀ row ∈ table.rows, context.InTable tright (row.1 tright) := by
    cases hsides with
    | inl h => exact h.2 ▸ htable.right
    | inr h => exact h.2 ▸ htable.left
  rw [readPairs_spec hctx haliases hinl hinr node _ hkeys hevery hload hread.reads]
  have hne : r.keys.entries ≠ [] := by
    intro hnil
    have hout := (keys_entries hread.keys hctx).1 hnil
    exact hfound.elim (hout a (List.mem_cons_self ..))
      (hout b (List.mem_cons_of_mem _ (List.mem_cons_self ..)))
  simp only [ok_bind, pure, Except.pure, hne, if_false]
  refine ⟨_, reduced.set "pairs" (.pairs (pairIdsTable tleft tright
    (pairNumbers r.keys tleft tright table))), rfl, ?_⟩
  have hother : ∀ name, name ≠ "pairs" → documentsAt (reduced.set "pairs" (.pairs (pairIdsTable tleft
      tright (pairNumbers r.keys tleft tright table)))) name = documentsAt reduced name := by
    intro name hname
    rw [documentsAt, Dict.get?_set_ne hname.symm, ← documentsAt]
  obtain ⟨hmem, hnodup⟩ := reduced_pairs hctx hab hkeys htable haliases
    (.inr (Dict.get?_set_self (d := reduced) (k := "pairs")))
  have hlisted : listedPairs inputs a b = table.rows.map fun row => (row.1 a, row.1 b) := by
    rw [listedPairs, hpairs]
  have hmem' : ∀ q, q ∈ listedPairs (reduced.set "pairs" (.pairs (pairIdsTable tleft tright
      (pairNumbers r.keys tleft tright table)))) a b ↔
        ∃ p ∈ listedPairs inputs a b, q = (context.keyOf a p.1, context.keyOf b p.2) := by
    intro q
    rw [hmem q, hlisted]
    constructor
    · rintro ⟨row, hrow, hq⟩
      exact ⟨_, List.mem_map_of_mem hrow, by rw [hq, hkeyA, hkeyB]⟩
    · rintro ⟨p, hp, hq⟩
      obtain ⟨row, hrow, rfl⟩ := List.mem_map.1 hp
      exact ⟨row, hrow, by rw [hq, hkeyA, hkeyB]⟩
  have hasked : ∀ q, q ∈ askedPairs (reduced.set "pairs" (.pairs (pairIdsTable tleft tright
      (pairNumbers r.keys tleft tright table)))) a b .listed ↔
        (∃ p ∈ listedPairs inputs a b, q = (context.keyOf a p.1, context.keyOf b p.2)) ∧
          q.1 ∈ keyDocuments context a (documentsAt inputs "left") ∧
          q.2 ∈ keyDocuments context b (documentsAt inputs "right") := by
    intro q
    rw [askedPairs, List.mem_filter, hmem', hother "left" (by decide), hother "right" (by decide),
      hread.left, hread.right, decide_eq_true_iff]
  have hbound : ∀ p ∈ listedPairs inputs a b, context.InTable a p.1 ∧ context.InTable b p.2 := by
    intro p hp
    rw [hlisted] at hp
    obtain ⟨row, hrow, rfl⟩ := List.mem_map.1 hp
    exact ⟨htable.left row hrow, htable.right row hrow⟩
  refine ⟨⟨rfl, rfl, hkeys, ?_, Dict.get?_set_self, hread.everyLeft, hread.everyRight,
    inTable_documentsAt hleft hl, inTable_documentsAt hright hr,
    .inr ⟨by decide, table, Dict.get?_set_self, htable, ?_⟩, ?_, ?_, ?_⟩,
    ⟨hread.keys, (hother "left" (by decide)).trans hread.left,
      (hother "right" (by decide)).trans hread.right, fun _ => hmem'⟩⟩
  · refine hfound.imp (fun ha => ?_) fun hb => ?_
    · obtain ⟨documents, hcolumn, _⟩ := hctx.column ha
      refine Dict.contains_iff.2 ⟨documents, (hread.keys a).trans ?_⟩
      rw [if_pos ⟨List.mem_cons_self .., ha⟩, hcolumn]
    · obtain ⟨documents, hcolumn, _⟩ := hctx.column hb
      refine Dict.contains_iff.2 ⟨documents, (hread.keys b).trans ?_⟩
      rw [if_pos ⟨List.mem_cons_of_mem _ (List.mem_cons_self ..), hb⟩, hcolumn]
  · rw [askedPairs, hlisted, List.filter_map]
    refine congrArg (List.map _) (List.filter_congr fun row _ => ?_)
    rw [Function.comp_apply, Bool.decide_and]
  · intro q hq
    obtain ⟨⟨p, hp, rfl⟩, _, _⟩ := (hasked q).1 hq
    exact ⟨hctx.inTable_keyOf (hbound p hp).1, hctx.inTable_keyOf (hbound p hp).2⟩
  · intro p hp
    rw [askedPairs, List.mem_filter, decide_eq_true_iff] at hp
    obtain ⟨hp, hx, hy⟩ := hp
    refine (hasked _).2 ⟨⟨p, hp, ?_⟩, ?_, ?_⟩
    · rw [← hkeyA, ← hkeyB]
      rfl
    · exact mem_keyDocuments.2 ⟨p.1, hx, hkeyA _⟩
    · exact mem_keyDocuments.2 ⟨p.2, hy, hkeyB _⟩
  · exact hnodup.filter _

omit [DecidableEq γ] in
/-- The first of two tables that has keys: only its keys are loaded. -/
lemma loadAnyKey_fresh (hctx : context.WellFormed) (sides : List Alias) :
    (sides.any (· ∈ context.deduplicate) = false →
      loadAnyKey context sides Dict.empty = .ok (false, Dict.empty)) ∧
    (sides.any (· ∈ context.deduplicate) = true → ∃ c ∈ sides, ∃ keys,
      loadAnyKey context sides Dict.empty = .ok (true, keys) ∧ KeysOf context keys ∧
        keys.contains c = true) := by
  induction sides with
  | nil => exact ⟨fun _ => rfl, fun h => (by cases h)⟩
  | cons c sides ih =>
    rw [loadAnyKey, loadKey, List.any_cons]
    by_cases hc : c ∈ context.deduplicate
    · obtain ⟨documents, hcolumn, _⟩ := hctx.column hc
      rw [if_neg (not_not.2 hc), if_neg (by rw [Dict.contains_empty]; exact Bool.false_ne_true), hcolumn,
        decide_eq_true hc, Bool.true_or]
      refine ⟨fun h => (by cases h), fun _ => ⟨c, List.mem_cons_self .., _, rfl, ?_, ?_⟩⟩
      · intro b documents' hget
        rw [Dict.get?_set] at hget
        split_ifs at hget with hb
        · subst hb
          exact ⟨hc, hcolumn.trans hget⟩
        · cases hget
      · exact Dict.contains_iff.2 ⟨documents, Dict.get?_set_self⟩
    · rw [if_pos hc, ok_bind, decide_eq_false hc, Bool.false_or]
      refine ⟨ih.1, fun h => ?_⟩
      obtain ⟨c', hc', rest⟩ := ih.2 h
      exact ⟨c', List.mem_cons_of_mem _ hc', rest⟩

/-- An operator over the pairs of rows over two tables. -/
lemma deduplicate_rows (hctx : context.WellFormed) (hmodel : node.isModel = true)
    (hjoins : node.joinsSeveral = false) {source : NodeId} (hsource : source ≠ node.nodeId) {b : Alias}
    (hab : a ≠ b) (hports : node.inputs = Operator.pairPorts source a b .rows)
    {table : Table (List γ)} (hpairs : inputs.get? "pairs" = some (.rows table))
    (htable : IsPairs context a b table) :
    deduplicate [node] (Dict.empty.set node.nodeId inputs) context = .ok none ∨
      ∃ left right d reduced,
        deduplicate [node] (Dict.empty.set node.nodeId inputs) context = .ok (some d) ∧
        PairsReady context node a b .rows inputs left right d reduced := by
  by_cases hdedup : context.deduplicate = []
  · exact .inl (deduplicate_nil hdedup)
  have hout : outsideInputs [node] (Dict.empty.set node.nodeId inputs) =
      .ok [(node, ⟨"pairs", .rows, source, .allRows⟩, .rows table)] := by
    rw [outsideInputs_one fun _ => .rows table, hports]
    · rfl
    · intro port hport
      rw [hports] at hport
      rw [List.mem_singleton.1 hport]
      exact hsource
    · intro port hport
      rw [hports] at hport
      rw [List.mem_singleton.1 hport]
      exact hpairs
  obtain ⟨tleft, tright, haliases⟩ : ∃ tleft tright, table.aliases = [tleft, tright] := by
    cases htable.aliases with
    | inl h => exact ⟨_, _, h⟩
    | inr h => exact ⟨_, _, h⟩
  have hsides : (tleft = a ∧ tright = b) ∨ (tleft = b ∧ tright = a) := by
    have h := htable.aliases
    rw [haliases] at h
    simpa only [List.cons.injEq, and_true] using h
  have hne : tleft ≠ tright := by
    cases hsides with
    | inl h => exact h.1 ▸ h.2 ▸ hab
    | inr h => exact h.1 ▸ h.2 ▸ hab.symm
  have hpair : isPairs (⟨"pairs", .rows, source, .allRows⟩ : InputPort) (.rows table) = true := by
    rw [isPairs, Value.rowAliases, haliases]
    rfl
  rw [deduplicate_one hmodel hjoins hdedup hout]
  simp only [List.filter_cons, hpair, Bool.not_true, if_true, Bool.false_eq_true, if_false,
    List.filter_nil, List.nil_append]
  have hread : readInputs context [(node, ⟨"pairs", .rows, source, .allRows⟩, .rows table)]
      (startReading node inputs) =
      (do match ← (if table.columns = 0 then do
            return some (← readPairs context tleft tright table node ⟨"pairs", .rows, source, .allRows⟩
              (startReading node inputs))
          else return none : Except PyError (Option (Reading γ))) with
        | none => return none
        | some r => return some r) := by
    rw [readInputs, readInput, hpair, if_pos rfl, pairTable, ok_bind, haliases]
    by_cases hcolumns : table.columns = 0
    · rw [hcolumns]
      rfl
    · rw [if_neg hcolumns]
      cases htc : table.columns with
      | zero => exact absurd htc hcolumns
      | succ n => rfl
  rw [hread]
  by_cases hcolumns : table.columns = 0
  swap
  · rw [if_neg hcolumns]
    exact .inl rfl
  rw [if_pos hcolumns]
  have hevery : (do readSide table (← readSide table (startReading node inputs).every tleft) tright) =
      Except.ok ((Dict.empty.set tleft (unique (table.rows.map fun row => row.1 tleft))).set tright
        (unique (table.rows.map fun row => row.1 tright))) := by
    have hmeml : tleft ∈ table.aliases := haliases ▸ List.mem_cons_self ..
    have hmemr : tright ∈ table.aliases := haliases ▸ List.mem_cons_of_mem _ (List.mem_cons_self ..)
    have hfresh : ((Dict.empty.set tleft (unique (table.rows.map fun row => row.1 tleft)) :
        Dict Alias (List ℕ)).contains tright) = false := by
      rw [Dict.contains, Dict.get?_set_ne hne]
      rfl
    rw [readSide, if_neg (by rw [startReading, Dict.contains_empty]; exact Bool.false_ne_true),
      Table.column, if_pos hmeml]
    simp only [ok_bind, pure, Except.pure, startReading, readSide, hfresh, Bool.false_eq_true, if_false,
      Table.column, hmemr, if_true]
  obtain ⟨hnone, hsome⟩ := loadAnyKey_fresh hctx [tleft, tright]
  cases hfound : [tleft, tright].any (· ∈ context.deduplicate) with
  | false =>
    have hskip : (readPairs context tleft tright table node ⟨"pairs", .rows, source, .allRows⟩
        (startReading node inputs) : Except PyError (Reading γ)) = .ok { startReading node inputs with
          every := (Dict.empty.set tleft (unique (table.rows.map fun row => row.1 tleft))).set tright
            (unique (table.rows.map fun row => row.1 tright)) } := by
      cases hside : readSide table (startReading node inputs).every tleft with
      | error e =>
        rw [hside] at hevery
        cases hevery
      | ok every' =>
        rw [hside, ok_bind] at hevery
        have hload := hnone hfound
        simp only [readPairs, hside, hevery, ok_bind]
        rw [show (startReading node inputs).keys = Dict.empty from rfl, hload]
        rfl
    rw [hskip]
    exact .inl rfl
  | true =>
    obtain ⟨c, hc, keys, hload, hkeys, hcontains⟩ := hsome hfound
    have hinl : ∀ row ∈ table.rows, context.InTable tleft (row.1 tleft) := by
      cases hsides with
      | inl h => exact h.1 ▸ htable.left
      | inr h => exact h.1 ▸ htable.right
    have hinr : ∀ row ∈ table.rows, context.InTable tright (row.1 tright) := by
      cases hsides with
      | inl h => exact h.2 ▸ htable.right
      | inr h => exact h.2 ▸ htable.left
    rw [readPairs_spec hctx haliases hinl hinr node _ hkeys hevery hload Dict.get?_set_self]
    have hentries : keys.entries ≠ [] := by
      intro hnil
      obtain ⟨documents, hget⟩ := Dict.contains_iff.1 hcontains
      rw [Dict.entries_eq_nil_iff.1 hnil c] at hget
      cases hget
    simp only [ok_bind, pure, Except.pure, hentries, if_false]
    obtain ⟨hmem, hnodup⟩ := reduced_pairs hctx hab hkeys htable haliases
      (.inl (Dict.get?_set_self (d := inputs) (k := "pairs")))
    have hlisted : listedPairs inputs a b = table.rows.map fun row => (row.1 a, row.1 b) := by
      rw [listedPairs, hpairs]
    right
    refine ⟨unique (table.rows.map fun row => row.1 a), unique (table.rows.map fun row => row.1 b), _,
      inputs.set "pairs" (.rows (pairIdsTable tleft tright (pairNumbers keys tleft tright table))), rfl,
      ⟨rfl, rfl, hkeys, ?_, Dict.get?_set_self, ?_, ?_, ?_, ?_,
        .inr ⟨by decide, table, Dict.get?_set_self, htable, ?_⟩, ?_, ?_, hnodup⟩⟩
    · simp only [List.mem_cons, List.not_mem_nil, or_false] at hc
      obtain rfl | rfl := hc
      · cases hsides with
        | inl h => exact .inl (h.1 ▸ hcontains)
        | inr h => exact .inr (h.1 ▸ hcontains)
      · cases hsides with
        | inl h => exact .inr (h.2 ▸ hcontains)
        | inr h => exact .inl (h.2 ▸ hcontains)
    · show ((Dict.empty.set tleft _).set tright _).get? a = _
      cases hsides with
      | inl h =>
        obtain ⟨rfl, rfl⟩ := h
        rw [Dict.get?_set_ne hne.symm, Dict.get?_set_self]
      | inr h =>
        obtain ⟨rfl, rfl⟩ := h
        exact Dict.get?_set_self
    · show ((Dict.empty.set tleft _).set tright _).get? b = _
      cases hsides with
      | inl h =>
        obtain ⟨rfl, rfl⟩ := h
        exact Dict.get?_set_self
      | inr h =>
        obtain ⟨rfl, rfl⟩ := h
        rw [Dict.get?_set_ne hne.symm, Dict.get?_set_self]
    · intro x hx
      rw [mem_unique] at hx
      obtain ⟨row, hrow, rfl⟩ := List.mem_map.1 hx
      exact htable.left row hrow
    · intro y hy
      rw [mem_unique] at hy
      obtain ⟨row, hrow, rfl⟩ := List.mem_map.1 hy
      exact htable.right row hrow
    · rw [askedPairs, hlisted]
      refine congrArg (List.map _) (List.filter_eq_self.2 fun row hrow => ?_).symm
      rw [Bool.and_eq_true, decide_eq_true_iff, decide_eq_true_iff, mem_unique, mem_unique]
      exact ⟨List.mem_map_of_mem hrow, List.mem_map_of_mem hrow⟩
    · intro q hq
      obtain ⟨row, hrow, rfl⟩ := (hmem q).1 hq
      exact ⟨hkeys.inTable_keyIn hctx (htable.left row hrow),
        hkeys.inTable_keyIn hctx (htable.right row hrow)⟩
    · intro p hp
      rw [askedPairs, hlisted] at hp
      obtain ⟨row, hrow, rfl⟩ := List.mem_map.1 hp
      exact (hmem _).2 ⟨row, hrow, rfl⟩

end operator

end Quail.Copies
