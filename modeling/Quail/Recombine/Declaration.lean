import Quail.Lib.NaturalJoin
import Quail.Lib.Dict

/-!
# The result's joins

`build_result_declaration` of `execution/result.py`: the relations of the joins are joined one by one on the
aliases they share, in an order their columns decide, and the result with the survivors of each alias.
-/

namespace Quail.Recombine
open NaturalJoin

abbrev Alias := String

/-- Relations of document ids, under their aliases. -/
abbrev Ids := Table Alias ℕ

/-- Why a result is refused. -/
inductive ResultError
  | noSharedAlias
  | missingKey (a : Alias)
  | disconnected
  | noSurvivors (a : Alias)
  deriving DecidableEq

variable {j : HashJoin Alias ℕ}

/-- Join two relations and keep one copy of each shared alias. -/
def innerJoin (j : HashJoin Alias ℕ) (left right : Ids) : Except ResultError Ids :=
  let shared := left.columns.filter fun name => decide (name ∈ right.columns)
  if shared.isEmpty then .error .noSharedAlias
  else .ok (left.join j right shared fun _ hleft hright =>
    List.mem_filter.2 ⟨hleft, decide_eq_true hright⟩)

/-- The first relation that shares an alias, and the others. -/
def takeShared (columns : List Alias) : List Ids → Option (Ids × List Ids)
  | [] => none
  | table :: pending =>
    if ∃ name ∈ columns, name ∈ table.columns then some (table, pending)
    else (takeShared columns pending).map fun found => (found.1, table :: found.2)

/-- Join the pending relations, each once it shares an alias. Each round joins one. -/
def joinPending (j : HashJoin Alias ℕ) : ℕ → Ids → List Ids → Except ResultError Ids
  | 0, table, _ => .ok table
  | fuel + 1, table, pending =>
    if pending.isEmpty then .ok table
    else match takeShared table.columns pending with
      | none => .error .disconnected
      | some (next, rest) => do
        let table ← innerJoin j table next
        joinPending j fuel table rest

/-- The relation of an alias's survivors. -/
def survivorTable (a : Alias) (ids : List ℕ) : Ids where
  columns := [a]
  rows := ids.map fun id => [id]
  nodup := List.nodup_singleton a
  aligned := by
    intro row hrow
    obtain ⟨id, -, rfl⟩ := List.mem_map.1 hrow
    rfl

/-- Keep the rows whose id under an alias survives. -/
def joinSurvivors (j : HashJoin Alias ℕ) (survivors : Dict Alias (List ℕ)) (table : Ids) (a : Alias) :
    Except ResultError Ids :=
  match survivors.get? a with
  | none => .error (.noSurvivors a)
  | some ids =>
    if a ∈ table.columns then
      .ok (table.join j (survivorTable a ids) [a] fun _ _ hright => hright)
    else .error (.missingKey a)

/-- The relations' join, or without relations the survivors of one alias. -/
def joinTables (j : HashJoin Alias ℕ) (tables : List Ids) (survivors : Dict Alias (List ℕ)) (base : Alias) :
    Except ResultError Ids :=
  match tables with
  | table :: pending => joinPending j pending.length table pending
  | [] =>
    match survivors.get? base with
    | none => .error (.noSurvivors base)
    | some ids => .ok (survivorTable base ids)

/-- Build the joins for the rows returned by the query. -/
def buildResultDeclaration (j : HashJoin Alias ℕ) (tables : List Ids) (survivors : Dict Alias (List ℕ))
    (base : Alias) : Except ResultError Ids := do
  let table ← joinTables j tables survivors base
  table.columns.foldlM (joinSurvivors j survivors) table

/-! ## The relations' join -/

/-- Relations that share an alias are joined. -/
lemma innerJoin_ok {left right : Ids} {tables : List Ids} (h : Joins tables left) (hs : Shares left right) :
    ∃ table, innerJoin j left right = .ok table ∧ Joins (right :: tables) table := by
  obtain ⟨name, hleft, hright⟩ := hs
  have hshared : name ∈ left.columns.filter fun name => decide (name ∈ right.columns) :=
    List.mem_filter.2 ⟨hleft, decide_eq_true hright⟩
  refine ⟨_, if_neg ?_, h.join fun k hk => ?_⟩
  · rw [List.isEmpty_iff]
    exact List.ne_nil_of_mem hshared
  · obtain ⟨hl, hr⟩ := List.mem_filter.1 hk
    exact ⟨hl, of_decide_eq_true hr⟩

/-- A relation that shares an alias is found. -/
lemma takeShared_some {columns : List Alias} {pending : List Ids} {next : Ids} {rest : List Ids}
    (h : takeShared columns pending = some (next, rest)) :
    (∃ name ∈ columns, name ∈ next.columns) ∧ pending.Perm (next :: rest) := by
  induction pending generalizing rest with
  | nil => cases h
  | cons table pending ih =>
    rw [takeShared] at h
    split_ifs at h with hshared
    · cases h
      exact ⟨hshared, .refl _⟩
    · obtain ⟨⟨found, left⟩, hfound, heq⟩ := Option.map_eq_some_iff.1 h
      cases heq
      obtain ⟨hname, hperm⟩ := ih hfound
      exact ⟨hname, (hperm.cons table).trans (.swap _ _ _)⟩

lemma takeShared_none {columns : List Alias} {pending : List Ids} (h : takeShared columns pending = none) :
    ∀ table ∈ pending, ¬∃ name ∈ columns, name ∈ table.columns := by
  induction pending with
  | nil => exact fun _ h => absurd h List.not_mem_nil
  | cons table pending ih =>
    rw [takeShared] at h
    split_ifs at h with hshared
    exact List.forall_mem_cons.2 ⟨hshared, ih (Option.map_eq_none_iff.1 h)⟩

/-- Connected relations are joined, whatever order they come in. -/
lemma joinPending_ok {fuel : ℕ} {done pending : List Ids} {table : Ids} (hfuel : pending.length ≤ fuel)
    (hdone : done ≠ []) (h : Joins done table) (hc : Connected (done ++ pending)) :
    ∃ result, joinPending j fuel table pending = .ok result ∧ Joins (done ++ pending) result := by
  induction fuel generalizing done pending table with
  | zero =>
    obtain rfl := List.eq_nil_of_length_eq_zero (Nat.le_zero.1 hfuel)
    exact ⟨table, rfl, by rwa [List.append_nil]⟩
  | succ fuel ih =>
    cases pending with
    | nil => exact ⟨table, rfl, by rwa [List.append_nil]⟩
    | cons first pending =>
      rw [joinPending, if_neg (by simp)]
      obtain ⟨x, hx⟩ := List.exists_mem_of_ne_nil _ hdone
      obtain ⟨y, hy, z, hz, name, hyname, hzname⟩ := hc.exists_shares hx List.mem_cons_self
      cases htake : takeShared table.columns (first :: pending) with
      | none => exact absurd ⟨name, (h.columns name).2 ⟨y, hy, hyname⟩, hzname⟩ (takeShared_none htake z hz)
      | some found =>
        obtain ⟨next, rest⟩ := found
        obtain ⟨hshared, hperm⟩ := takeShared_some htake
        obtain ⟨joined, hjoined, hjoins⟩ : ∃ joined, innerJoin j table next = .ok joined ∧
            Joins (next :: done) joined := innerJoin_ok h hshared
        have hall : (done ++ first :: pending).Perm (next :: done ++ rest) :=
          (hperm.append_left done).trans List.perm_middle
        have hrest : rest.length ≤ fuel := by
          have hlength := hperm.length_eq
          rw [List.length_cons (a := next)] at hlength
          omega
        obtain ⟨result, hresult, hjoins⟩ := ih hrest (List.cons_ne_nil _ _) hjoins (hc.perm hall)
        refine ⟨result, ?_, hjoins.perm hall.symm⟩
        dsimp only
        rw [hjoined]
        exact hresult

/-! ## The survivors -/

/-- The survivors of an alias. -/
def survivorsOf (survivors : Dict Alias (List ℕ)) (a : Alias) : List ℕ := (survivors.get? a).getD []

/-- The aliases of a result. -/
def aliasesOf (tables : List Ids) (base : Alias) : List Alias :=
  if tables.isEmpty then [base] else tables.flatMap (·.columns)

variable {survivors : Dict Alias (List ℕ)}

lemma holds_survivorTable {a : Alias} {ids : List ℕ} {f : Alias → ℕ} :
    (survivorTable a ids).Holds f ↔ f a ∈ ids := by
  change [f a] ∈ ids.map (fun id => [id]) ↔ f a ∈ ids
  simp

lemma nodup_survivorTable {a : Alias} {ids : List ℕ} (h : ids.Nodup) : (survivorTable a ids).rows.Nodup :=
  h.map fun _ _ heq => List.head_eq_of_cons_eq heq

/-- Aliases with survivors are limited to them, one by one. -/
lemma foldlM_joinSurvivors {names : List Alias} {tables : List Ids} {table : Ids} (h : Joins tables table)
    (hnames : ∀ a ∈ names, a ∈ table.columns ∧ survivors.contains a) :
    ∃ result, names.foldlM (joinSurvivors j survivors) table = .ok result ∧
      Joins ((names.map fun a => survivorTable a (survivorsOf survivors a)) ++ tables) result := by
  induction names generalizing tables table with
  | nil => exact ⟨table, rfl, h⟩
  | cons a names ih =>
    obtain ⟨⟨hcolumn, hcontains⟩, hnames⟩ := List.forall_mem_cons.1 hnames
    obtain ⟨ids, hids⟩ := Dict.contains_iff.1 hcontains
    have hids' : survivorsOf survivors a = ids := by rw [survivorsOf, hids, Option.getD_some]
    have hjoin : Joins (survivorTable a ids :: tables)
        (table.join j (survivorTable a ids) [a] fun _ _ hright => hright) :=
      h.join fun k hk => ⟨List.mem_singleton.1 hk ▸ hcolumn, hk⟩
    obtain ⟨result, hresult, hjoins⟩ := ih hjoin fun b hb =>
      ⟨(hjoin.columns b).2 (List.exists_mem_cons_of_exists ((h.columns b).1 (hnames b hb).1)),
        (hnames b hb).2⟩
    refine ⟨result, ?_, ?_⟩
    · rw [List.foldlM_cons, joinSurvivors, hids]
      dsimp only
      rw [if_pos hcolumn]
      exact hresult
    · rw [List.map_cons, hids']
      exact hjoins.perm List.perm_middle

/-- What the result of some relations and survivors is: the assignments of ids to aliases that are in every
relation and survive under every alias, once each. -/
structure Recombined (tables : List Ids) (survivors : Dict Alias (List ℕ)) (base : Alias) (result : Ids) :
    Prop where
  columns : ∀ a, a ∈ result.columns ↔ a ∈ aliasesOf tables base
  holds : ∀ f, result.Holds f ↔ (∀ t ∈ tables, t.Holds f) ∧
    ∀ a ∈ result.columns, f a ∈ survivorsOf survivors a
  once : (∀ t ∈ tables, t.rows.Nodup) → (∀ a ∈ result.columns, (survivorsOf survivors a).Nodup) →
    result.rows.Nodup

/-- The relations' join exists when they are connected. -/
lemma joinTables_ok {tables : List Ids} {base : Alias} (hc : tables = [] ∨ Connected tables)
    (hs : ∀ a ∈ aliasesOf tables base, survivors.contains a) :
    ∃ table, joinTables j tables survivors base = .ok table ∧
      (Joins tables table ∧ tables ≠ [] ∨
        tables = [] ∧ Joins [survivorTable base (survivorsOf survivors base)] table) := by
  cases tables with
  | nil =>
    obtain ⟨ids, hids⟩ := Dict.contains_iff.1 (hs base (by simp [aliasesOf]))
    refine ⟨survivorTable base ids, by rw [joinTables, hids], .inr ⟨rfl, ?_⟩⟩
    rw [survivorsOf, hids, Option.getD_some]
    exact .single _
  | cons table pending =>
    have hconnected : Connected ([table] ++ pending) := hc.resolve_left (List.cons_ne_nil _ _)
    obtain ⟨result, hresult, hjoins⟩ : ∃ result, joinPending j pending.length table pending = .ok result ∧
        Joins ([table] ++ pending) result :=
      joinPending_ok (Nat.le_refl _) (List.cons_ne_nil _ _) (.single table) hconnected
    exact ⟨result, hresult, .inl ⟨hjoins, List.cons_ne_nil _ _⟩⟩

/-- Connected relations, in any order, and the survivors of their aliases give the result. -/
lemma buildResultDeclaration_ok {tables : List Ids} {base : Alias} (hc : tables = [] ∨ Connected tables)
    (hs : ∀ a ∈ aliasesOf tables base, survivors.contains a) :
    ∃ result, buildResultDeclaration j tables survivors base = .ok result ∧
      Recombined tables survivors base result := by
  obtain ⟨table, htable, hjoins⟩ := joinTables_ok (j := j) hc hs
  have hcolumns : ∀ a, a ∈ table.columns ↔ a ∈ aliasesOf tables base := by
    intro a
    obtain ⟨hjoins, hne⟩ | ⟨rfl, hjoins⟩ := hjoins
    · rw [hjoins.columns, aliasesOf, if_neg (by simpa using hne), List.mem_flatMap]
    · rw [hjoins.columns, aliasesOf, if_pos List.isEmpty_nil]
      simp [survivorTable]
  obtain ⟨sources, hsources, hall, hnone⟩ : ∃ sources, Joins sources table ∧
      (∀ f : Alias → ℕ, (∀ a ∈ table.columns, f a ∈ survivorsOf survivors a) →
        ((∀ t ∈ sources, t.Holds f) ↔ ∀ t ∈ tables, t.Holds f)) ∧
      ((∀ t ∈ tables, t.rows.Nodup) → (∀ a ∈ table.columns, (survivorsOf survivors a).Nodup) →
        ∀ t ∈ sources, t.rows.Nodup) := by
    obtain ⟨hjoins, -⟩ | ⟨rfl, hjoins⟩ := hjoins
    · exact ⟨tables, hjoins, fun _ _ => Iff.rfl, fun h _ => h⟩
    · have hbase : base ∈ table.columns := (hcolumns base).2 (by simp [aliasesOf])
      refine ⟨_, hjoins, fun f hf => iff_of_true ?_ (fun _ h => absurd h List.not_mem_nil), fun _ h => ?_⟩
      · exact fun t ht => List.mem_singleton.1 ht ▸ holds_survivorTable.2 (hf base hbase)
      · exact fun t ht => List.mem_singleton.1 ht ▸ nodup_survivorTable (h base hbase)
  obtain ⟨result, hresult, hlimited⟩ := foldlM_joinSurvivors (j := j) hsources fun a ha =>
    ⟨ha, hs a ((hcolumns a).1 ha)⟩
  have hsame : ∀ a, a ∈ result.columns ↔ a ∈ table.columns := by
    intro a
    simp only [hlimited.columns, hsources.columns, List.mem_append, or_and_right, exists_or]
    rw [or_iff_right_iff_imp]
    rintro ⟨t, ht, hat⟩
    obtain ⟨b, hb, rfl⟩ := List.mem_map.1 ht
    exact (hsources.columns a).1 (List.mem_singleton.1 hat ▸ hb)
  refine ⟨result, ?_, fun a => (hsame a).trans (hcolumns a), fun f => ?_, fun hrows hids => ?_⟩
  · rw [buildResultDeclaration, htable]
    exact hresult
  · simp only [hlimited.holds, List.forall_mem_append, List.forall_mem_map, holds_survivorTable, hsame]
    rw [and_comm]
    exact and_congr_left fun hf => hall f hf
  · refine hlimited.nodup fun t ht => ?_
    obtain ht | ht := List.mem_append.1 ht
    · obtain ⟨a, ha, rfl⟩ := List.mem_map.1 ht
      exact nodup_survivorTable (hids a ((hsame a).2 ha))
    · exact hnone hrows (fun a ha => hids a ((hsame a).2 ha)) t ht

end Quail.Recombine
