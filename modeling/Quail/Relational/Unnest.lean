import Quail.Lib.Blocks
import Quail.Lib.Argsort
import Mathlib.Data.List.Lattice
import Mathlib.Data.List.MinMax

/-!
# Unnest

`unnest_batch` of `execution/runtimes/unnest.py`, which repeats each row by index arithmetic over a whole
batch, and the rows it makes of each row.
-/

namespace Quail.Relational
open Blocks

variable {V : Type}

/-- A cell of a result row: null, a value, or a list of structs by their fields. -/
inductive ResultCell (V : Type)
  | null
  | value (v : V)
  | list (elements : List (String → Option V))

/-- A result row: the cell of each column. -/
abbrev ResultRow (V : Type) := String → ResultCell V

namespace ResultCell

/-- The elements of a list; a null list has none. -/
def elements : ResultCell V → List (String → Option V)
  | list elements => elements
  | _ => []

/-- A field of an element, or null past the end of the list. -/
def ofField (element : Option (String → Option V)) (field : String) : ResultCell V :=
  match element.bind (· field) with
  | none => null
  | some v => value v

end ResultCell

open ResultCell

/-- What an Unnest node reads: its list columns, the fields of their structs, whether a row with no
elements returns a row of nulls, and the output columns. -/
structure UnnestSpec where
  lists : List String
  fields : String → List String
  outer : Bool
  columns : List String

namespace UnnestSpec

/-- The list column and field of an output column, if it is one: the last, where several have its name. -/
def fieldOf (node : UnnestSpec) (column : String) : Option (String × String) :=
  (node.lists.flatMap fun name => (node.fields name).map fun field => (name, field)).reverse.find?
    fun e => e.1 ++ "." ++ e.2 == column

/-- An output row: a row's other columns, and an element of each list. -/
def outputRow (node : UnnestSpec) (row : ResultRow V) (element : String → Option (String → Option V)) :
    ResultRow V := fun column =>
  if column ∈ node.columns then
    match node.fieldOf column with
    | some (name, field) => ofField (element name) field
    | none => row column
  else null

/-- How many rows a row returns: the length of its longest list, at least one with `outer`. -/
def longest (node : UnnestSpec) (row : ResultRow V) : ℕ :=
  let longest := (node.lists.map fun name => (row name).elements.length).foldr max 0
  if node.outer then max longest 1 else longest

/-- The element of a list column for each output row: its flattened values where each of its lists is the
longest of its row, else taken by their places, with a null past the end of a list. -/
def elementColumn (node : UnnestSpec) (batch : List (ResultRow V)) (name : String) :
    List (Option (String → Option V)) :=
  let values := batch.map fun row => (row name).elements
  let lengths := values.map List.length
  let longest := batch.map node.longest
  if lengths = longest then values.flatten.map some
  else
    List.zipWith (fun parent position =>
      if lengths.getD parent 0 ≤ position then none
      else values.flatten[(starts lengths).getD parent 0 + position]?)
    (repeatEach (List.range batch.length) longest) (positions longest)

/-- One row per element of the node's lists, zipped by position. -/
def unnestBatch (node : UnnestSpec) (batch : List (ResultRow V)) : List (ResultRow V) :=
  let parents := repeatEach (List.range batch.length) (batch.map node.longest)
  (Argsort.take batch parents).zipIdx.map fun e =>
    node.outputRow e.1 fun name => (node.elementColumn batch name).getD e.2 none

/-! ## The rows of a row -/

/-- The rows a row returns: one for each position below its longest list. -/
def unnestRow (node : UnnestSpec) (row : ResultRow V) : List (ResultRow V) :=
  (List.range (node.longest row)).map fun k =>
    node.outputRow row fun name => (row name).elements[k]?

variable {node : UnnestSpec} {batch : List (ResultRow V)}

lemma length_le_longest {row : ResultRow V} {name : String} (h : name ∈ node.lists) :
    (row name).elements.length ≤ node.longest row := by
  have hfold : (row name).elements.length ≤
      (node.lists.map fun name => (row name).elements.length).foldr max 0 :=
    List.le_max_of_le' 0 (List.mem_map_of_mem h) (Nat.le_refl _)
  unfold longest
  dsimp only
  split_ifs
  · exact hfold.trans (Nat.le_max_left _ _)
  · exact hfold

/-- An output row reads the elements of the node's lists. -/
lemma outputRow_congr {row : ResultRow V} {element element' : String → Option (String → Option V)}
    (h : ∀ name ∈ node.lists, element name = element' name) :
    node.outputRow row element = node.outputRow row element' := by
  funext column
  unfold outputRow
  split_ifs
  · cases hfield : node.fieldOf column with
    | none => rfl
    | some found =>
      obtain ⟨name, field⟩ := found
      have hmem := List.mem_reverse.1 (List.mem_of_find?_eq_some hfield)
      obtain ⟨other, hother, hmem⟩ := List.mem_flatMap.1 hmem
      obtain ⟨_, -, heq⟩ := List.mem_map.1 hmem
      cases heq
      dsimp only
      rw [h name hother]
  · rfl

/-- The blocks of the output rows, one for each row of the batch. -/
lemma parents_eq : repeatEach (List.range batch.length) (batch.map node.longest) =
    (indexFrom 0 (batch.map node.longest)).map Prod.fst := by
  have hrepeat : repeatEach (List.range' 0 (batch.map node.longest).length) (batch.map node.longest) =
      (indexFrom 0 (batch.map node.longest)).map Prod.fst := repeatEach_range 0
  rwa [List.length_map, ← List.range_eq_range'] at hrepeat

/-- Either way, an element column holds the element at each output row's place, or a null past the end. -/
lemma elementColumn_eq {name : String} :
    node.elementColumn batch name = (indexFrom 0 (batch.map node.longest)).map fun e =>
      (batch[e.1]?).bind fun row => (row name).elements[e.2]? := by
  unfold elementColumn
  dsimp only
  split_ifs with hsame
  · rw [flatten_eq_map, hsame]
    refine List.map_congr_left fun e _ => ?_
    rw [List.getElem?_map, Option.bind_map]
    rfl
  · rw [parents_eq, positions_eq, List.zipWith_map, List.zipWith_self]
    refine List.map_congr_left fun e he => ?_
    obtain ⟨-, hlt⟩ := mem_indexFrom he
    rw [List.length_map, Nat.zero_add] at hlt
    have hrow : batch[e.1]? = some batch[e.1] := List.getElem?_eq_getElem hlt
    rw [hrow, Option.bind_some]
    simp only [List.getD_eq_getElem?_getD, List.getElem?_map, hrow, Option.map_some, Option.getD_some]
    split_ifs with hpast
    · exact (List.getElem?_eq_none hpast).symm
    · rw [starts_eq, getElem?_startsFrom _ _ (by simpa using hlt), Nat.zero_add, Option.getD_some]
      exact getElem?_flatten (by rw [List.getElem?_map, hrow, Option.map_some]) (by omega)

/-- Unnesting a batch unnests each of its rows. -/
theorem unnestBatch_eq : node.unnestBatch batch = batch.flatMap node.unnestRow := by
  have hlt : ∀ p ∈ (indexFrom 0 (batch.map node.longest)).map Prod.fst, p < batch.length := by
    intro p hp
    obtain ⟨e, he, rfl⟩ := List.mem_map.1 hp
    simpa using (mem_indexFrom he).2
  refine List.map_injective_iff.2 (Option.some_injective _) ?_
  have hrows : (batch.flatMap node.unnestRow).map some =
      (indexFrom 0 (batch.map node.longest)).map fun e => (batch[e.1]?).bind fun row =>
        some (node.outputRow row fun name => (row name).elements[e.2]?) := by
    rw [← flatMap_eq_map batch node.longest fun row k =>
      some (node.outputRow row fun name => (row name).elements[k]?), List.map_flatMap]
    simp only [unnestRow, List.map_map, Function.comp_def]
  rw [hrows, unnestBatch, parents_eq]
  refine List.ext_getElem? fun j => ?_
  rw [List.getElem?_map, List.getElem?_map, List.getElem?_zipIdx, Argsort.getElem?_take hlt,
    List.getElem?_map, List.getElem?_map]
  cases he : (indexFrom 0 (batch.map node.longest))[j]? with
  | none => rfl
  | some e =>
    obtain ⟨row, hrow⟩ : ∃ row, batch[e.1]? = some row :=
      ⟨_, List.getElem?_eq_getElem (hlt _ (List.mem_map_of_mem (List.mem_of_getElem? he)))⟩
    simp only [Option.map_some, Option.bind_some, hrow]
    refine congrArg (fun row => some (some row)) (outputRow_congr fun name hname => ?_)
    rw [elementColumn_eq, List.getD_eq_getElem?_getD, Nat.zero_add, List.getElem?_map, he]
    simp only [Option.map_some, Option.getD_some, hrow, Option.bind_some]

/-! ## The rows of a batch -/

/-- The names of the field columns a list column becomes. -/
def fieldColumns (node : UnnestSpec) (name : String) : List String :=
  (node.fields name).map fun field => name ++ "." ++ field

/-- The columns of the result: the input's, with each list as its field columns. -/
def resultColumns (node : UnnestSpec) (below : List String) : List String :=
  below.flatMap fun column => if column ∈ node.lists then node.fieldColumns column else [column]

/-- What `Unnest.validate` checks of a node over the columns of its input. -/
structure Valid (node : UnnestSpec) (below : List String) : Prop where
  lists : node.lists ≠ []
  unique : node.lists.Nodup
  mem : ∀ name ∈ node.lists, name ∈ below
  names : (node.resultColumns below).Nodup

/-- The position `k` of a row is one of its rows where some list reaches it, or it is the row of nulls. -/
lemma lt_longest {row : ResultRow V} {k : ℕ} : k < node.longest row ↔
    (∃ name ∈ node.lists, k < (row name).elements.length) ∨ node.outer = true ∧ k = 0 := by
  have hfold : k < (node.lists.map fun name => (row name).elements.length).foldr max 0 ↔
      ∃ name ∈ node.lists, k < (row name).elements.length := by
    induction node.lists with
    | nil => simp
    | cons name lists ih => simp [ih]
  unfold longest
  dsimp only
  split_ifs with houter
  · rw [lt_max_iff, hfold, Nat.lt_one_iff]
    simp only [houter, true_and]
  · rw [hfold]
    simp only [houter, false_and, or_false, Bool.false_eq_true]

/-- The column of a field is read back as that field of its list. -/
lemma Valid.fieldOf {below : List String} (hv : node.Valid below) {name field : String}
    (hname : name ∈ node.lists) (hfield : field ∈ node.fields name) :
    node.fieldOf (name ++ "." ++ field) = some (name, field) := by
  have hmem : (name, field) ∈ node.lists.flatMap fun name =>
      (node.fields name).map fun field => (name, field) :=
    List.mem_flatMap.2 ⟨name, hname, List.mem_map_of_mem hfield⟩
  obtain ⟨found, hfound⟩ : ∃ found, node.fieldOf (name ++ "." ++ field) = some found :=
    Option.isSome_iff_exists.1 (List.find?_isSome.2 ⟨_, List.mem_reverse.2 hmem, beq_self_eq_true _⟩)
  have hbeq := List.find?_some hfound
  have heq : found.1 ++ "." ++ found.2 = name ++ "." ++ field := beq_iff_eq.1 hbeq
  obtain ⟨other, hother, hmem⟩ :=
    List.mem_flatMap.1 (List.mem_reverse.1 (List.mem_of_find?_eq_some hfound))
  obtain ⟨field', hfield', rfl⟩ := List.mem_map.1 hmem
  rw [hfound]
  obtain rfl | hne := eq_or_ne other name
  · rw [show field' = field from String.append_right_inj _ |>.1 heq]
  · -- the field columns of two lists share no name
    obtain ⟨-, hdisjoint⟩ := List.nodup_flatMap.1 hv.names
    have hsymm : Std.Symm (Function.onFun List.Disjoint fun column =>
        if column ∈ node.lists then node.fieldColumns column else [column]) := ⟨fun _ _ h => List.Disjoint.symm h⟩
    have hboth : List.Disjoint (if other ∈ node.lists then node.fieldColumns other else [other])
        (if name ∈ node.lists then node.fieldColumns name else [name]) :=
      hdisjoint.forall (hv.mem _ hother) (hv.mem _ hname) hne
    rw [if_pos hother, if_pos hname] at hboth
    refine absurd (List.mem_map.2 ⟨field, hfield, rfl⟩) (hboth (List.mem_map.2 ⟨field', hfield', heq⟩))

/-- A column that is not the field of a list is read from the row. -/
lemma fieldOf_other {column : String} (h : ∀ name ∈ node.lists, column ∉ node.fieldColumns name) :
    node.fieldOf column = none := by
  refine List.find?_eq_none.2 fun e he heq => ?_
  obtain ⟨name, hname, he⟩ := List.mem_flatMap.1 (List.mem_reverse.1 he)
  obtain ⟨field, hfield, rfl⟩ := List.mem_map.1 he
  exact h name hname (List.mem_map.2 ⟨field, hfield, beq_iff_eq.1 heq⟩)

/-- A batch returns, for each row in order and each position below the row's longest list (at least one
with `outer`), one row with the row's other columns, and each list's element there or null past its end. -/
theorem unnestBatch_rows {below : List String} (hv : node.Valid below) (batch : List (ResultRow V)) :
    ∃ out : ResultRow V → ℕ → ResultRow V,
      node.unnestBatch batch = batch.flatMap (fun row => (List.range (node.longest row)).map (out row)) ∧
      (∀ (row : ResultRow V) k, k < node.longest row ↔
        (∃ name ∈ node.lists, k < (row name).elements.length) ∨ node.outer = true ∧ k = 0) ∧
      (∀ row k, ∀ name ∈ node.lists, ∀ field ∈ node.fields name,
        name ++ "." ++ field ∈ node.columns →
          out row k (name ++ "." ++ field) = ofField (row name).elements[k]? field) ∧
      ∀ row k, ∀ column ∈ node.columns, (∀ name ∈ node.lists, column ∉ node.fieldColumns name) →
        out row k column = row column := by
  refine ⟨fun row k => node.outputRow row fun name => (row name).elements[k]?,
    unnestBatch_eq, fun _ _ => lt_longest, ?_, ?_⟩
  · intro row k name hname field hfield hcolumn
    simp only [outputRow, if_pos hcolumn, hv.fieldOf hname hfield]
  · intro row k column hcolumn hother
    simp only [outputRow, if_pos hcolumn, fieldOf_other hother]

/-- A row with two elements and a row with a null list return three rows with `outer`. -/
theorem unnestBatch_rows_outer :
    (unnestBatch (V := ℕ) ⟨["codes"], fun _ => ["feature"], true, ["id", "codes.feature"]⟩
      [fun column => if column = "codes" then .list [fun _ => some 3, fun _ => some 5] else .value 0,
        fun column => if column = "codes" then .null else .value 1]).length = 3 := by
  have hv : Valid ⟨["codes"], fun _ => ["feature"], true, ["id", "codes.feature"]⟩ ["id", "codes"] :=
    ⟨by decide, by decide, by decide, by decide⟩
  obtain ⟨out, hrows, -⟩ := unnestBatch_rows (V := ℕ) hv
    [fun column => if column = "codes" then .list [fun _ => some 3, fun _ => some 5] else .value 0,
      fun column => if column = "codes" then .null else .value 1]
  rw [hrows]
  rfl

end UnnestSpec

end Quail.Relational
