import Quail.Copies.Operators

/-!
# What expanding a table returns

`expandedTable` gives each wanted document, or pair, the answer rows of its key. Where the answers are
one row at most for each key that was asked, each wanted document has the answer of its key.
-/

namespace Quail.Copies
open Arrays

variable {γ τ : Type}

/-! ## Answers by key -/

/-- A key that was asked once has its answer as its only row. -/
lemma filter_answered {δ κ : Type} [DecidableEq κ] {rows : List (δ × τ)} {asked : List δ}
    {answer : δ → Option τ} {c : δ → κ}
    (hrows : rows.Perm (asked.filterMap fun q => (answer q).map fun v => (q, v)))
    (hnodup : (asked.map c).Nodup) {p : δ} (hp : p ∈ asked) :
    (rows.filter fun row => c row.1 = c p) = ((answer p).map fun v => (p, v)).toList := by
  have hasked : ((asked.filterMap fun q => (answer q).map fun v => (q, v)).filter fun row =>
      c row.1 = c p) = ((answer p).map fun v => (p, v)).toList := by
    clear hrows
    have hskip : ∀ qs : List δ, (∀ q ∈ qs, c q ≠ c p) →
        ((qs.filterMap fun q => (answer q).map fun v => (q, v)).filter fun row => c row.1 = c p) =
          [] := by
      intro qs hqs
      refine List.filter_eq_nil_iff.2 fun row hrow => ?_
      obtain ⟨q, hq, hv⟩ := List.mem_filterMap.1 hrow
      obtain ⟨v, _, rfl⟩ := Option.map_eq_some_iff.1 hv
      simpa using hqs q hq
    induction asked with
    | nil => cases hp
    | cons q asked ih =>
      rw [List.map_cons, List.nodup_cons] at hnodup
      have hcons : ((q :: asked).filterMap fun q => (answer q).map fun v => (q, v)) =
          ((answer q).map fun v => (q, v)).toList ++
            asked.filterMap fun q => (answer q).map fun v => (q, v) := by
        cases h : answer q with
        | none => simp [h]
        | some v => simp [h]
      rw [hcons, List.filter_append]
      cases List.mem_cons.1 hp with
      | inl heq =>
        subst heq
        rw [hskip asked, List.append_nil]
        · refine List.filter_eq_self.2 fun row hrow => ?_
          rw [Option.mem_toList] at hrow
          obtain ⟨v, _, rfl⟩ := Option.map_eq_some_iff.1 hrow
          simp
        · intro q hq heq
          exact hnodup.1 (heq ▸ List.mem_map_of_mem hq)
      | inr hrest =>
        rw [ih hnodup.2 hrest]
        have hne : c q ≠ c p := fun heq => hnodup.1 (heq ▸ List.mem_map_of_mem hrest)
        have hnil : (((answer q).map fun v => (q, v)).toList.filter fun row => c row.1 = c p) = [] := by
          refine List.filter_eq_nil_iff.2 fun row hrow => ?_
          rw [Option.mem_toList] at hrow
          obtain ⟨v, _, rfl⟩ := Option.map_eq_some_iff.1 hrow
          simpa using hne
        rw [hnil, List.nil_append]
  have hperm := hrows.filter fun row => c row.1 = c p
  rw [hasked] at hperm
  cases h : answer p with
  | none =>
    rw [h] at hperm
    exact hperm.eq_nil
  | some v =>
    rw [h] at hperm
    exact List.perm_singleton.1 hperm

/-- The keys of the answer rows are distinct when those asked are. -/
lemma nodup_answered {δ κ : Type} {rows : List (δ × τ)} {asked : List δ} {answer : δ → Option τ}
    {c : δ → κ} (hrows : rows.Perm (asked.filterMap fun q => (answer q).map fun v => (q, v)))
    (hnodup : (asked.map c).Nodup) : (rows.map fun row => c row.1).Nodup := by
  have hsub : ((asked.filterMap fun q => (answer q).map fun v => (q, v)).map fun row =>
      c row.1).Sublist (asked.map c) := by
    clear hrows hnodup
    induction asked with
    | nil => exact List.Sublist.refl _
    | cons q asked ih =>
      cases h : answer q with
      | none =>
        rw [List.filterMap_cons_none (by rw [h]; rfl)]
        exact ih.cons _
      | some v =>
        rw [List.filterMap_cons_some (by rw [h]; rfl)]
        exact ih.cons_cons _
  exact ((hrows.map _).nodup_iff).2 (hnodup.sublist hsub)

/-- Giving out the rows of the keys asked gives everything wanted the answer of its key. -/
lemma flatMap_answered {ω δ κ ε ρ : Type} [DecidableEq κ] {rows : List ρ} {ids : ρ → δ} (val : ρ → τ)
    {asked : List δ} {answer : δ → Option τ} {c : δ → κ}
    (hrows : (rows.map fun row => (ids row, val row)).Perm
      (asked.filterMap fun q => (answer q).map fun v => (q, v)))
    (hnodup : (asked.map c).Nodup) {wanted : List ω} {k : ω → δ} (out : ω → ε)
    (hwanted : ∀ w ∈ wanted, k w ∈ asked) :
    (wanted.flatMap fun w => (rows.filter fun row => c (ids row) = c (k w)).map fun row =>
      (out w, val row)) = wanted.filterMap fun w => (answer (k w)).map fun v => (out w, v) := by
  induction wanted with
  | nil => rfl
  | cons w wanted ih =>
    have hone : ((rows.filter fun row => c (ids row) = c (k w)).map fun row => (out w, val row)) =
        ((answer (k w)).map fun v => (out w, v)).toList := by
      have h := congrArg (List.map fun e : δ × τ => (out w, e.2))
        (filter_answered hrows hnodup (hwanted w (List.mem_cons_self ..)))
      rw [List.filter_map, List.map_map] at h
      refine Eq.trans ?_ (h.trans ?_)
      · rfl
      · cases answer (k w) <;> rfl
    rw [List.flatMap_cons, hone, ih fun w' hw' => hwanted w' (List.mem_cons_of_mem _ hw')]
    cases h : answer (k w) with
    | none => simp [h]
    | some v => simp [h]

/-! ## Matches -/

/-- What `findMatches` finds: equal keys, by the left position. -/
lemma findMatches_spec {join : List ℕ → List ℕ → List (ℕ × ℕ)} (hjoin : IsInnerJoin join) {α β : Type}
    (key : α → ℕ) (key' : β → ℕ) (xs : List α) (ys : List β) :
    ∃ es, findMatches join (xs.map key) (ys.map key') = es.map Prod.fst ∧
      es.Perm (matched key key' xs ys) ∧
      ((ys.map key').Nodup → es = matched key key' xs ys) := by
  rw [findMatches]
  split_ifs with hempty
  · have hnil : matched key key' xs ys = [] := by
      cases hempty with
      | inl hys =>
        rw [List.map_eq_nil_iff.1 hys]
        exact List.flatMap_eq_nil_iff.2 fun x _ => rfl
      | inr hxs =>
        rw [List.map_eq_nil_iff.1 hxs]
        rfl
    exact ⟨[], rfl, hnil ▸ List.Perm.refl _, fun _ => hnil.symm⟩
  · exact matched_spec hjoin key key' xs ys

lemma column_eq {t : Table τ} {a : Alias} (h : a ∈ t.aliases) :
    t.column a = .ok (t.rows.map fun row => row.1 a) := by
  rw [Table.column, if_pos h]

lemma lookup_eq {κ β : Type} [DecidableEq κ] [ToString κ] {d : Dict κ β} {k : κ} {v : β}
    (h : d.get? k = some v) : lookup d k = .ok v := by
  rw [lookup, h]

/-- Each document's key is listed. -/
def KeyList (key : ℕ → ℕ) (documents keys : List ℕ) : Prop := ∀ d ∈ documents, keys[d]? = some (key d)

lemma KeyList.pick {key : ℕ → ℕ} {documents keys : List ℕ} (h : KeyList key documents keys) {α : Type}
    {es : List α} {f : α → ℕ} (hes : ∀ e ∈ es, f e ∈ documents) :
    Arrays.pick keys (es.map f) = .ok (es.map fun e => key (f e)) :=
  pick_map fun e he => h (f e) (hes e he)

/-- Setting a column of rows taken at matches. -/
lemma setColumn_map {α : Type} {es : List α} {aliases : List Alias} {columns : ℕ}
    {row : α → (Alias → ℕ) × τ} {a : Alias} {f : α → ℕ} :
    (Table.mk aliases columns (es.map row)).setColumn a (es.map f) =
      ⟨aliases, columns, es.map fun e => (fun b => if b = a then f e else (row e).1 b, (row e).2)⟩ := by
  rw [Table.setColumn, List.zipWith_map, List.zipWith_self]

/-! ## One table -/

/-- One turn of the loop over the aliases: `es` are the answer rows so far with what they go to. -/
lemma expandAlias_spec {join : List ℕ → List ℕ → List (ℕ × ℕ)} (hjoin : IsInnerJoin join) {t : Table τ}
    {a : Alias} (ha : a ∈ t.aliases) {every keys : Dict Alias (List ℕ)} {documents kl : List ℕ}
    {key : ℕ → ℕ} (hevery : every.get? a = some documents) (hkeys : keys.get? a = some kl)
    (hkl : KeyList key documents kl) {α : Type} (es : List α) (row : α → (Alias → ℕ) × τ)
    (at' : α → ℕ) (hat : ∀ e ∈ es, t.rows[at' e]? = some (row e)) (earlier : List (Alias × (α → ℕ))) :
    ∃ es' : List ((ℕ × ℕ) × ℕ × α),
      expandAlias join t every keys (es.map at', earlier.map fun e => (e.1, es.map e.2)) a =
        .ok (es'.map (fun e => at' e.2.2),
          (earlier.map fun e => (e.1, es'.map fun e' => e.2 e'.2.2)) ++ [(a, es'.map fun e => e.2.1)]) ∧
      es'.Perm (matched key (fun e => (row e).1 a) documents es) ∧
      ((es.map fun e => (row e).1 a).Nodup →
        es' = matched key (fun e => (row e).1 a) documents es) := by
  obtain ⟨es', hfound, hperm, hexact⟩ :=
    findMatches_spec hjoin key (fun e => (row e).1 a) documents es
  refine ⟨es', ?_, hperm, hexact⟩
  have hin : ∀ e ∈ es', documents[e.1.1]? = some e.2.1 ∧ es[e.1.2]? = some e.2.2 := fun e he =>
    getElem?_of_mem_matched (hperm.mem_iff.1 he)
  have hcolumn : pick (t.rows.map fun row => row.1 a) (es.map at') =
      .ok (es.map fun e => (row e).1 a) := pick_map fun e he => by
    rw [List.getElem?_map, hat e he]
    rfl
  have hwanted : pick kl documents = .ok (documents.map key) := by
    have h : pick kl (documents.map id) = .ok (documents.map fun d => key d) := hkl.pick fun _ => id
    rwa [List.map_id] at h
  have hright : ∀ f : α → ℕ, pick (es.map f) ((es'.map Prod.fst).map Prod.snd) =
      .ok (es'.map fun e => f e.2.2) := by
    intro f
    rw [List.map_map]
    refine pick_map fun e he => ?_
    rw [List.getElem?_map, Function.comp_apply, (hin e he).2]
    rfl
  have hleft : pick documents ((es'.map Prod.fst).map Prod.fst) = .ok (es'.map fun e => e.2.1) := by
    rw [List.map_map]
    exact pick_map fun e he => (hin e he).1
  have hearlier : ((earlier.map fun e => (e.1, es.map e.2)).mapM fun e => do
        return (e.1, ← pick e.2 ((es'.map Prod.fst).map Prod.snd)) : Except PyError _) =
      .ok (earlier.map fun e => (e.1, es'.map fun e' => e.2 e'.2.2)) := by
    induction earlier with
    | nil => rfl
    | cons e earlier ih =>
      rw [List.map_cons, List.mapM_cons, ih, hright]
      rfl
  simp only [expandAlias, lookup_eq hevery, lookup_eq hkeys, column_eq ha, hwanted, hcolumn, hfound,
    hright, hleft, hearlier, ok_bind]
  rfl

/-- The answer rows at the positions. -/
lemma take_eq {t : Table τ} {α : Type} {es : List α} {row : α → (Alias → ℕ) × τ} {at' : α → ℕ}
    (hat : ∀ e ∈ es, t.rows[at' e]? = some (row e)) :
    t.take (es.map at') = .ok ⟨t.aliases, t.columns, es.map row⟩ := by
  rw [Table.take, pick_map hat]
  rfl

lemma rows_zipIdx (t : Table τ) : List.range t.rows.length = t.rows.zipIdx.map Prod.snd := by
  rw [List.zipIdx_map_snd, List.range_eq_range']

/-- Forget the positions of the answer rows. -/
lemma filter_zipIdx {ρ β : Type} (rows : List ρ) (p : ρ → Bool) (f : ρ → β) :
    ((rows.zipIdx.filter fun e => p e.1).map fun e => f e.1) = (rows.filter p).map f := by
  conv_rhs => rw [← List.zipIdx_map_fst 0 rows, List.filter_map, List.map_map]
  rfl

/-- The answers of one table: each document gets the answer rows of its key, in order where each key
has one at most. -/
lemma expandedTable_one {join : List ℕ → List ℕ → List (ℕ × ℕ)} (hjoin : IsInnerJoin join) {t : Table τ}
    {a : Alias} (ha : a ∈ t.aliases) {every keys : Dict Alias (List ℕ)} {documents kl : List ℕ}
    {key : ℕ → ℕ} (hevery : every.get? a = some documents) (hkeys : keys.get? a = some kl)
    (hkl : KeyList key documents kl) (pairs : Option (Table (List γ))) :
    ∃ t', expandedTable join t [a] every keys pairs = .ok t' ∧ t'.aliases = t.aliases ∧
      (t'.rows.map fun row => (row.1 a, row.2)).Perm (documents.flatMap fun d =>
        (t.rows.filter fun row => row.1 a = key d).map fun row => (d, row.2)) ∧
      ((t.rows.map fun row => row.1 a).Nodup →
        (t'.rows.map fun row => (row.1 a, row.2)) = documents.flatMap fun d =>
          (t.rows.filter fun row => row.1 a = key d).map fun row => (d, row.2)) := by
  have hat : ∀ e ∈ t.rows.zipIdx, t.rows[e.2]? = some e.1 := fun e he =>
    List.mem_zipIdx_iff_getElem?.1 he
  obtain ⟨es, hloop, hperm, hexact⟩ :=
    expandAlias_spec hjoin ha hevery hkeys hkl t.rows.zipIdx Prod.fst Prod.snd hat []
  have hes : ∀ e ∈ es, t.rows[e.2.2.2]? = some e.2.2.1 := fun e he =>
    hat _ (List.mem_of_getElem? (getElem?_of_mem_matched (hperm.mem_iff.1 he)).2)
  have hrun : expandedTable join t [a] every keys pairs =
      .ok ⟨t.aliases, t.columns, es.map fun e =>
        (fun b => if b = a then e.2.1 else e.2.2.1.1 b, e.2.2.1.2)⟩ := by
    have hpairs : expandRows join t [a] every keys pairs =
        [a].foldlM (expandAlias join t every keys) (List.range t.rows.length, []) := by
      cases pairs <;> rfl
    rw [expandedTable, hpairs]
    simp only [rows_zipIdx, List.foldlM_cons, List.foldlM_nil]
    rw [show ([] : List (Alias × List ℕ)) = ([] : List (Alias × (((Alias → ℕ) × τ) × ℕ → ℕ))).map
      fun e => (e.1, t.rows.zipIdx.map e.2) from rfl, hloop]
    simp only [ok_bind, pure, Except.pure, take_eq hes, List.map_nil, List.nil_append, List.foldl_cons,
      List.foldl_nil, setColumn_map]
  have hcanonical : (matched key (fun e => e.1.1 a) documents t.rows.zipIdx).map
      (fun e => (e.2.1, e.2.2.1.2)) = documents.flatMap fun d =>
        (t.rows.filter fun row => row.1 a = key d).map fun row => (d, row.2) := by
    have h := congrArg (List.map fun e : ℕ × ((Alias → ℕ) × τ) × ℕ => (e.1, e.2.1.2))
      (map_snd_matched key (fun e => e.1.1 a) documents t.rows.zipIdx)
    rw [List.map_map, List.map_flatMap] at h
    refine h.trans ?_
    congr 1
    funext d
    rw [List.map_map]
    exact filter_zipIdx t.rows (fun row => decide (row.1 a = key d)) fun row => (d, row.2)
  have hrows : (es.map fun e => ((fun b => if b = a then e.2.1 else e.2.2.1.1 b : Alias → ℕ),
      e.2.2.1.2)).map (fun row => (row.1 a, row.2)) = es.map fun e => (e.2.1, e.2.2.1.2) := by
    rw [List.map_map]
    simp only [Function.comp_def, if_true]
  refine ⟨_, hrun, rfl, ?_, ?_⟩
  · dsimp only
    rw [hrows, ← hcanonical]
    exact hperm.map _
  · intro hnodup
    dsimp only
    rw [hrows, ← hcanonical, ← hexact]
    have h := congrArg (List.map fun row : (Alias → ℕ) × τ => row.1 a) (List.zipIdx_map_fst 0 t.rows)
    rw [List.map_map] at h
    exact h.symm ▸ hnodup

/-! ## Two tables -/

/-- The rows a full product of documents gets: first by the document of the second table. -/
lemma expandedTable_product {join : List ℕ → List ℕ → List (ℕ × ℕ)} (hjoin : IsInnerJoin join)
    {t : Table τ} {a b : Alias} (hab : a ≠ b) (ha : a ∈ t.aliases) (hb : b ∈ t.aliases)
    {every keys : Dict Alias (List ℕ)} {left right kl kr : List ℕ} {keyA keyB : ℕ → ℕ}
    (hleft : every.get? a = some left) (hright : every.get? b = some right)
    (hkeyA : keys.get? a = some kl) (hkeyB : keys.get? b = some kr)
    (hkl : KeyList keyA left kl) (hkr : KeyList keyB right kr) :
    ∃ t', expandedTable join t [a, b] every keys (none : Option (Table (List γ))) = .ok t' ∧
      t'.aliases = t.aliases ∧
      (t'.rows.map fun row => ((row.1 a, row.1 b), row.2)).Perm (right.flatMap fun y =>
        left.flatMap fun x => (t.rows.filter fun row => row.1 a = keyA x ∧ row.1 b = keyB y).map
          fun row => ((x, y), row.2)) := by
  have hat : ∀ e ∈ t.rows.zipIdx, t.rows[e.2]? = some e.1 := fun e he =>
    List.mem_zipIdx_iff_getElem?.1 he
  obtain ⟨es, hfirst, hperm, _⟩ :=
    expandAlias_spec hjoin ha hleft hkeyA hkl t.rows.zipIdx Prod.fst Prod.snd hat []
  have hes : ∀ e ∈ es, t.rows[e.2.2.2]? = some e.2.2.1 := fun e he =>
    hat _ (List.mem_of_getElem? (getElem?_of_mem_matched (hperm.mem_iff.1 he)).2)
  obtain ⟨es', hsecond, hperm', _⟩ :=
    expandAlias_spec hjoin hb hright hkeyB hkr es (fun e => e.2.2.1) (fun e => e.2.2.2) hes
      [(a, fun e => e.2.1)]
  have hes' : ∀ e ∈ es', t.rows[e.2.2.2.2.2]? = some e.2.2.2.2.1 := fun e he =>
    hes _ (List.mem_of_getElem? (getElem?_of_mem_matched (hperm'.mem_iff.1 he)).2)
  have hrun : expandedTable join t [a, b] every keys (none : Option (Table (List γ))) =
      .ok ⟨t.aliases, t.columns, es'.map fun e =>
        (fun c => if c = b then e.2.1 else if c = a then e.2.2.2.1 else e.2.2.2.2.1.1 c,
          e.2.2.2.2.1.2)⟩ := by
    have hpairs : expandRows join t [a, b] every keys (none : Option (Table (List γ))) =
        [a, b].foldlM (expandAlias join t every keys) (List.range t.rows.length, []) := rfl
    rw [expandedTable, hpairs]
    simp only [rows_zipIdx, List.foldlM_cons, List.foldlM_nil]
    rw [show ([] : List (Alias × List ℕ)) = ([] : List (Alias × (((Alias → ℕ) × τ) × ℕ → ℕ))).map
      fun e => (e.1, t.rows.zipIdx.map e.2) from rfl, hfirst]
    simp only [ok_bind, List.map_nil, List.nil_append]
    rw [show [(a, es.map fun e => e.2.1)] = [(a, fun e : (ℕ × ℕ) × ℕ × ((Alias → ℕ) × τ) × ℕ => e.2.1)].map
      fun e => (e.1, es.map e.2) from rfl, hsecond]
    simp only [ok_bind, pure, Except.pure, take_eq hes', List.map_cons, List.map_nil, List.cons_append,
      List.nil_append, List.foldl_cons, List.foldl_nil, setColumn_map]
  have hinner : (es.map fun e => (e.2.1, e.2.2.1)).Perm (left.flatMap fun x =>
      (t.rows.filter fun row => row.1 a = keyA x).map fun row => (x, row)) := by
    have h := congrArg (List.map fun e : ℕ × ((Alias → ℕ) × τ) × ℕ => (e.1, e.2.1))
      (map_snd_matched keyA (fun e => e.1.1 a) left t.rows.zipIdx)
    rw [List.map_map, List.map_flatMap] at h
    refine (hperm.map _).trans (List.Perm.of_eq (h.trans ?_))
    congr 1
    funext x
    rw [List.map_map]
    exact filter_zipIdx t.rows (fun row => decide (row.1 a = keyA x)) fun row => (x, row)
  refine ⟨_, hrun, rfl, ?_⟩
  have hrows : (es'.map fun e => ((fun c => if c = b then e.2.1 else if c = a then e.2.2.2.1
      else e.2.2.2.2.1.1 c : Alias → ℕ), e.2.2.2.2.1.2)).map
        (fun row => ((row.1 a, row.1 b), row.2)) =
      es'.map fun e => ((e.2.2.2.1, e.2.1), e.2.2.2.2.1.2) := by
    rw [List.map_map]
    simp only [Function.comp_def, if_true, if_neg hab]
  dsimp only
  rw [hrows]
  have h := congrArg (List.map fun e : ℕ × (ℕ × ℕ) × ℕ × ((Alias → ℕ) × τ) × ℕ =>
      ((e.2.2.1, e.1), e.2.2.2.1.2))
    (map_snd_matched keyB (fun e => e.2.2.1.1 b) right es)
  rw [List.map_map, List.map_flatMap] at h
  refine (hperm'.map _).trans ((List.Perm.of_eq h).trans ?_)
  refine List.Perm.flatMap_left _ fun y _ => ?_
  rw [List.map_map]
  have hfilter : ((es.filter fun e => e.2.2.1.1 b = keyB y).map
      ((fun e : ℕ × (ℕ × ℕ) × ℕ × ((Alias → ℕ) × τ) × ℕ => ((e.2.2.1, e.1), e.2.2.2.1.2)) ∘
        fun e => (y, e))) =
      (((es.map fun e => (e.2.1, e.2.2.1)).filter fun e => e.2.1 b = keyB y).map
        fun e => ((e.1, y), e.2.2)) := by
    rw [List.filter_map, List.map_map]
    rfl
  rw [hfilter]
  refine ((hinner.filter _).map _).trans (List.Perm.of_eq ?_)
  rw [List.filter_flatMap, List.map_flatMap]
  congr 1
  funext x
  rw [List.filter_map, List.map_map, List.filter_filter]
  refine congrArg (List.map _) (List.filter_congr fun row _ => ?_)
  simp only [Function.comp_apply, Bool.and_comm, Bool.decide_and]

lemma KeyList.lt {key : ℕ → ℕ} {documents keys : List ℕ} (h : KeyList key documents keys) :
    ∀ d ∈ documents, d < keys.length := fun d hd => (List.getElem?_eq_some_iff.1 (h d hd)).1

lemma isMember_eq {size : ℕ} {read documents : List ℕ} (hread : ∀ d ∈ read, d < size)
    (hdocuments : ∀ d ∈ documents, d < size) :
    isMember size read documents = .ok (documents.map fun d => decide (d ∈ read)) := by
  rw [isMember, if_pos ⟨hread, hdocuments⟩]

lemma compress_map {ρ : Type} (rows : List ρ) (f : ρ → ℕ) (p : ρ → Bool) :
    compress (rows.map f) (rows.map p) = (rows.filter p).map f := by
  rw [compress, List.zip_map', List.filter_map, List.map_map]
  rfl

/-- The listed pairs of documents that were read. -/
def readPairRows (pairs : Table (List γ)) (a b : Alias) (left right : List ℕ) :
    List ((Alias → ℕ) × List γ) :=
  pairs.rows.filter fun row => decide (row.1 a ∈ left) && decide (row.1 b ∈ right)

/-- The rows a list of pairs gets: each listed pair of documents read gets the answer rows of its key,
in order where each key has one at most. -/
lemma expandedTable_pairs {join : List ℕ → List ℕ → List (ℕ × ℕ)} (hjoin : IsInnerJoin join)
    {t : Table τ} {a b : Alias} (hab : a ≠ b) (ha : a ∈ t.aliases) (hb : b ∈ t.aliases)
    {every keys : Dict Alias (List ℕ)} {left right kl kr : List ℕ} {keyA keyB : ℕ → ℕ}
    (hleft : every.get? a = some left) (hright : every.get? b = some right)
    (hkeyA : keys.get? a = some kl) (hkeyB : keys.get? b = some kr)
    (hkl : KeyList keyA left kl) (hkr : KeyList keyB right kr) {pairs : Table (List γ)}
    (hpa : a ∈ pairs.aliases) (hpb : b ∈ pairs.aliases)
    (hpl : KeyList keyA (pairs.rows.map fun row => row.1 a) kl)
    (hpr : KeyList keyB (pairs.rows.map fun row => row.1 b) kr) :
    ∃ t', expandedTable join t [a, b] every keys (some pairs) = .ok t' ∧ t'.aliases = t.aliases ∧
      (t'.rows.map fun row => ((row.1 a, row.1 b), row.2)).Perm
        ((readPairRows pairs a b left right).flatMap fun p =>
          (t.rows.filter fun row => pairKey (row.1 a) (row.1 b) =
            pairKey (keyA (p.1 a)) (keyB (p.1 b))).map fun row => ((p.1 a, p.1 b), row.2)) ∧
      ((t.rows.map fun row => pairKey (row.1 a) (row.1 b)).Nodup →
        (t'.rows.map fun row => ((row.1 a, row.1 b), row.2)) =
          (readPairRows pairs a b left right).flatMap fun p =>
            (t.rows.filter fun row => pairKey (row.1 a) (row.1 b) =
              pairKey (keyA (p.1 a)) (keyB (p.1 b))).map fun row => ((p.1 a, p.1 b), row.2)) := by
  obtain ⟨es, hfound, hperm, hexact⟩ := findMatches_spec hjoin
    (fun p : (Alias → ℕ) × List γ => pairKey (keyA (p.1 a)) (keyB (p.1 b)))
    (fun row : (Alias → ℕ) × τ => pairKey (row.1 a) (row.1 b)) (readPairRows pairs a b left right) t.rows
  have hes : ∀ e ∈ es, (readPairRows pairs a b left right)[e.1.1]? = some e.2.1 ∧
      t.rows[e.1.2]? = some e.2.2 := fun e he => getElem?_of_mem_matched (hperm.mem_iff.1 he)
  have hkept : List.zipWith and (pairs.rows.map fun row => decide (row.1 a ∈ left))
      (pairs.rows.map fun row => decide (row.1 b ∈ right)) =
        pairs.rows.map fun row => decide (row.1 a ∈ left) && decide (row.1 b ∈ right) := by
    rw [List.zipWith_map, List.zipWith_self]
  have hpickA : pick kl ((readPairRows pairs a b left right).map fun row => row.1 a) =
      .ok ((readPairRows pairs a b left right).map fun row => keyA (row.1 a)) :=
    hpl.pick fun row hrow => List.mem_map_of_mem (List.mem_filter.1 hrow).1
  have hpickB : pick kr ((readPairRows pairs a b left right).map fun row => row.1 b) =
      .ok ((readPairRows pairs a b left right).map fun row => keyB (row.1 b)) :=
    hpr.pick fun row hrow => List.mem_map_of_mem (List.mem_filter.1 hrow).1
  have hback : ∀ f : (Alias → ℕ) × List γ → ℕ,
      pick ((readPairRows pairs a b left right).map f) ((es.map Prod.fst).map Prod.fst) =
        .ok (es.map fun e => f e.2.1) := by
    intro f
    rw [List.map_map]
    refine pick_map fun e he => ?_
    rw [List.getElem?_map, Function.comp_apply, (hes e he).1]
    rfl
  have hrows : expandPairs join t a b every keys pairs = .ok (es.map fun e => e.1.2,
      [(a, es.map fun e => e.2.1.1 a), (b, es.map fun e => e.2.1.1 b)]) := by
    simp only [expandPairs, column_eq ha, column_eq hb, column_eq hpa, column_eq hpb, lookup_eq hleft,
      lookup_eq hright, lookup_eq hkeyA, lookup_eq hkeyB, ok_bind,
      isMember_eq hkl.lt hpl.lt, isMember_eq hkr.lt hpr.lt, List.map_map, Function.comp_def, hkept,
      compress_map]
    rw [show (pairs.rows.filter fun row => decide (row.1 a ∈ left) && decide (row.1 b ∈ right)) =
      readPairRows pairs a b left right from rfl, hpickA, hpickB]
    simp only [ok_bind, List.zipWith_map, List.zipWith_self, hfound]
    rw [hback, hback]
    simp only [ok_bind, List.map_map]
    rfl
  have hrun : expandedTable join t [a, b] every keys (some pairs) =
      .ok ⟨t.aliases, t.columns, es.map fun e =>
        (fun c => if c = b then e.2.1.1 b else if c = a then e.2.1.1 a else e.2.2.1 c, e.2.2.2)⟩ := by
    rw [expandedTable, expandRows, hrows]
    simp only [ok_bind, pure, Except.pure, take_eq fun e he => (hes e he).2, List.foldl_cons,
      List.foldl_nil, setColumn_map]
  have hresult : (es.map fun e => ((fun c => if c = b then e.2.1.1 b else if c = a then e.2.1.1 a
      else e.2.2.1 c : Alias → ℕ), e.2.2.2)).map (fun row => ((row.1 a, row.1 b), row.2)) =
      es.map fun e => ((e.2.1.1 a, e.2.1.1 b), e.2.2.2) := by
    rw [List.map_map]
    simp only [Function.comp_def, if_true, if_neg hab]
  have hcanonical : (matched (fun p : (Alias → ℕ) × List γ => pairKey (keyA (p.1 a)) (keyB (p.1 b)))
      (fun row : (Alias → ℕ) × τ => pairKey (row.1 a) (row.1 b)) (readPairRows pairs a b left right)
      t.rows).map (fun e => ((e.2.1.1 a, e.2.1.1 b), e.2.2.2)) =
        (readPairRows pairs a b left right).flatMap fun p =>
          (t.rows.filter fun row => pairKey (row.1 a) (row.1 b) =
            pairKey (keyA (p.1 a)) (keyB (p.1 b))).map fun row => ((p.1 a, p.1 b), row.2) := by
    have h := congrArg (List.map fun e : ((Alias → ℕ) × List γ) × (Alias → ℕ) × τ =>
        ((e.1.1 a, e.1.1 b), e.2.2))
      (map_snd_matched (fun p : (Alias → ℕ) × List γ => pairKey (keyA (p.1 a)) (keyB (p.1 b)))
        (fun row : (Alias → ℕ) × τ => pairKey (row.1 a) (row.1 b)) (readPairRows pairs a b left right)
        t.rows)
    rw [List.map_map, List.map_flatMap] at h
    simp only [List.map_map] at h
    exact h
  refine ⟨_, hrun, rfl, ?_, ?_⟩
  · dsimp only
    rw [hresult, ← hcanonical]
    exact hperm.map _
  · intro hnodup
    dsimp only
    rw [hresult, ← hcanonical, hexact hnodup]

end Quail.Copies
