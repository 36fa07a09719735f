import Quail.Lib.Blocks
import Quail.Lib.Ragged
import Quail.Tokens.Concat

/-!
# Flattened suffixes

`Suffixes` of `backends/quail/executor/chunk.py`: suffix token sequences back to back with their lengths and
offsets. A take of some of them reads their rows by index arithmetic over the whole, or cuts one slice for a
range.
-/

namespace Quail.Tokens
open Blocks

/-! ## The source -/

/-- Every suffix's tokens back to back, the tokens per suffix, and where each suffix starts, with a final entry
equal to the total. -/
structure Suffixes where
  ids : List ℤ
  lengths : List ℕ
  offsets : List ℕ
  offsets_eq : offsets = cumulative lengths
  sum_lengths : lengths.sum = ids.length

/-- The indices of a take. -/
inductive Indices where
  | range (start stop step : ℤ)
  | array (indices : List ℤ)
  deriving Repr, DecidableEq

/-- `list(indices)`. -/
def Indices.iter : Indices → List ℤ
  | range start stop step => PySlice.range start stop step
  | array indices => indices

/-- The ends of a range of step one. -/
def Indices.ends : Indices → Option (ℤ × ℤ)
  | range start stop step => if step = 1 then some (start, stop) else none
  | array _ => none

lemma Indices.iter_of_ends {indices : Indices} {start stop : ℤ} (h : indices.ends = some (start, stop)) :
    indices.iter = PySlice.range start stop 1 := by
  cases indices with
  | range first last step =>
    rw [ends] at h
    split at h
    · rename_i hstep
      cases h
      rw [iter, hstep]
    · cases h
  | array indices => cases h

/-- A range with indices in a sequence has its ends among the positions. -/
lemma Indices.ends_mem {indices : Indices} {n : ℕ} {ends : ℤ × ℤ} (h : indices.ends = some ends)
    (hin : ∀ i ∈ indices.iter, 0 ≤ i ∧ i < n)
    (hempty : indices.iter = [] → (0 ≤ ends.1 ∧ ends.1 ≤ n) ∧ 0 ≤ ends.2 ∧ ends.2 ≤ n) :
    (0 ≤ ends.1 ∧ ends.1 ≤ n) ∧ 0 ≤ ends.2 ∧ ends.2 ≤ n := by
  obtain ⟨start, stop⟩ := ends
  rw [iter_of_ends h] at hin hempty
  rcases lt_or_ge start stop with hlt | hge
  · have hstart := hin start (PySlice.mem_range_one.2 ⟨le_rfl, hlt⟩)
    have hstop := hin (stop - 1) (PySlice.mem_range_one.2 ⟨by omega, by omega⟩)
    dsimp only
    omega
  · exact hempty (List.eq_nil_iff_forall_not_mem.2 fun i hi => by
      have := PySlice.mem_range_one.1 hi
      omega)

namespace Suffixes

/-- `Suffixes(ids, lengths)`. -/
def make (ids : List ℤ) (lengths : List ℕ) : Except PyError Suffixes :=
  if h : lengths.sum = ids.length then .ok ⟨ids, lengths, cumulative lengths, rfl, h⟩
  else .error (.value s!"{ids.length} suffix tokens for lengths summing to {lengths.sum}")

/-- `Suffixes.of`. -/
def of (sequences : List TokenSequence) : Except PyError Suffixes :=
  make (sequences.flatMap fun sequence => sequence.kept.flatMap TokenPart.iter) (sequences.map TokenSequence.length)

/-- `list(suffixes)`. -/
def iter (suffixes : Suffixes) : List (List ℤ) :=
  (suffixes.offsets.zip suffixes.offsets.tail).map fun bounds => (suffixes.ids.take bounds.2).drop bounds.1

/-- The lengths at some indices, in index order. -/
def lengthsAt (suffixes : Suffixes) (indices : Indices) : Except PyError (List ℕ) :=
  match indices.ends with
  | some ends => PySlice.get ⟨some ends.1, some ends.2, none⟩ suffixes.lengths
  | none => indices.iter.mapM (PySlice.item suffixes.lengths)

/-- The flat rows of some suffixes: each one's rows read from its start in `ids`. -/
def rows (begins lengths : List ℕ) : List ℤ :=
  List.zipWith (· + ·) (repeatEach (List.zipWith (fun s e : ℕ => (s : ℤ) - e) begins (starts lengths)) lengths)
    ((List.range lengths.sum).map Nat.cast)

/-- The suffixes at some indices, in index order. -/
def take (suffixes : Suffixes) (indices : Indices) : Except PyError Suffixes :=
  match indices.ends with
  | some ends => do
    let first ← PySlice.item suffixes.offsets ends.1
    let last ← PySlice.item suffixes.offsets ends.2
    let ids ← PySlice.get ⟨some (first : ℤ), some (last : ℤ), none⟩ suffixes.ids
    make ids (← PySlice.get ⟨some ends.1, some ends.2, none⟩ suffixes.lengths)
  | none => do
    let lengths ← indices.iter.mapM (PySlice.item suffixes.lengths)
    let begins ← indices.iter.mapM (PySlice.item suffixes.offsets)
    make (← (rows begins lengths).mapM (PySlice.item suffixes.ids)) lengths

/-! ## The sequences of a table of suffixes -/

variable {suffixes : Suffixes} {sequences picked : List (List ℤ)} {indices : Indices} {ends : ℤ × ℤ}

/-- A table of suffixes holds some sequences. -/
def Holds (suffixes : Suffixes) (sequences : List (List ℤ)) : Prop :=
  suffixes.ids = sequences.flatten ∧ suffixes.lengths = sequences.map List.length

lemma make_holds (sequences : List (List ℤ)) :
    ∃ suffixes, make sequences.flatten (sequences.map List.length) = .ok suffixes ∧ suffixes.Holds sequences := by
  have hsum : (sequences.map List.length).sum = sequences.flatten.length := List.length_flatten.symm
  rw [make, dif_pos hsum]
  exact ⟨_, rfl, rfl, rfl⟩

/-- Reading the suffixes gives the sequences. -/
lemma Holds.iter_eq (h : suffixes.Holds sequences) : suffixes.iter = sequences := by
  rw [iter, suffixes.offsets_eq, h.1, h.2]
  exact Ragged.cutRows_flatten sequences

lemma Holds.offsets_eq (h : suffixes.Holds sequences) : suffixes.offsets = cumulative (sequences.map List.length) := by
  rw [suffixes.offsets_eq, h.2]

/-- Every list of sequences makes a table of suffixes that holds it. -/
lemma of_holds (sequences : List TokenSequence) :
    ∃ suffixes, of sequences = .ok suffixes ∧ suffixes.Holds (sequences.map TokenSequence.iter) := by
  have hids : (sequences.flatMap fun sequence => sequence.kept.flatMap TokenPart.iter)
      = (sequences.map TokenSequence.iter).flatten := by
    rw [← List.flatMap_def]
    exact List.flatMap_congr fun sequence _ => sequence.kept_iter
  have hlengths : sequences.map TokenSequence.length = (sequences.map TokenSequence.iter).map List.length := by
    rw [List.map_map]
    exact List.map_congr_left fun sequence _ => sequence.length_eq
  rw [of, hids, hlengths]
  exact make_holds _

/-! ## Takes -/

lemma Holds.offset (h : suffixes.Holds sequences) {i : ℕ} (hi : i ≤ sequences.length) :
    suffixes.offsets[i]? = some ((sequences.map List.length).take i).sum := by
  rw [h.offsets_eq, Cumulative.getElem?_eq (by rwa [List.length_map])]

/-- The tokens between the starts of two suffixes are those of the suffixes between them. -/
lemma flatten_between {a b : ℕ} (sequences : List (List ℤ)) :
    (sequences.flatten.take ((sequences.map List.length).take b).sum).drop ((sequences.map List.length).take a).sum
      = ((sequences.take b).drop a).flatten := by
  rw [List.take_sum_flatten]
  rcases Nat.le_total a b with hab | hab
  · rw [← List.drop_sum_flatten, List.map_take, List.take_take, Nat.min_eq_left hab]
  · have hmono := Cumulative.sum_take_mono (l := sequences.map List.length) hab
    rw [List.drop_of_length_le, List.drop_of_length_le]
    · rfl
    · rw [List.length_take]
      omega
    · rw [List.length_flatten, List.map_take]
      exact hmono

/-- A range cuts one slice of the tokens. -/
lemma Holds.take_slice (h : suffixes.Holds sequences) {a b : ℕ} (hends : indices.ends = some ((a : ℤ), (b : ℤ)))
    (ha : a ≤ sequences.length) (hb : b ≤ sequences.length) :
    ∃ taken, suffixes.take indices = .ok taken ∧ taken.Holds ((sequences.take b).drop a) := by
  rw [take, hends]
  dsimp only
  rw [PySlice.item_natCast (h.offset ha), ok_bind, PySlice.item_natCast (h.offset hb), ok_bind, PySlice.get_natCast, ok_bind,
    PySlice.get_natCast, ok_bind, h.1, h.2, flatten_between, ← List.map_take, ← List.map_drop]
  exact make_holds _

lemma rows_items {index : List ℕ} (hindex : ∀ i ∈ index, i < sequences.length) :
    ((index.flatMap fun i => List.range' ((sequences.map List.length).take i).sum (sequences.getD i []).length).map
      (Nat.cast : ℕ → ℤ)).mapM (PySlice.item sequences.flatten)
      = .ok (index.map fun i => sequences.getD i []).flatten := by
  induction index with
  | nil => rfl
  | cons i index ih =>
    have hi := hindex i List.mem_cons_self
    have hnext : ((sequences.map List.length).take (i + 1)).sum
        = ((sequences.map List.length).take i).sum + (sequences.getD i []).length := by
      rw [List.take_succ_eq_append_getElem (by rwa [List.length_map]), List.sum_append, List.sum_singleton, List.getElem_map,
        List.getD_eq_getElem?_getD, List.getElem?_eq_getElem hi, Option.getD_some]
    have hblock : (sequences.flatten.drop ((sequences.map List.length).take i).sum).take (sequences.getD i []).length
        = sequences.getD i [] := by
      have hbetween := flatten_between (a := i) (b := i + 1) sequences
      rw [hnext, List.drop_take, Nat.add_sub_cancel_left] at hbetween
      rw [hbetween, List.drop_take, Nat.add_sub_cancel_left, List.drop_eq_getElem_cons hi, List.take_succ_cons,
        List.take_zero, List.flatten_singleton, List.getD_eq_getElem?_getD, List.getElem?_eq_getElem hi, Option.getD_some]
    have hend : ((sequences.map List.length).take i).sum + (sequences.getD i []).length ≤ sequences.flatten.length := by
      rw [← hnext, List.length_flatten]
      exact (List.take_sublist _ _).sum_le_sum fun _ _ => Nat.zero_le _
    rw [List.flatMap_cons, List.map_append, List.mapM_append, PySlice.mapM_item_range' hend, ok_bind,
      ih fun j hj => hindex j (List.mem_cons_of_mem i hj), ok_bind, hblock]
    rfl

/-- The flat rows pick each suffix's tokens. -/
lemma Holds.take_rows (h : suffixes.Holds sequences) {index : List ℕ} (hends : indices.ends = none)
    (hiter : indices.iter = index.map Nat.cast) (hindex : ∀ i ∈ index, i < sequences.length) :
    ∃ taken, suffixes.take indices = .ok taken ∧ taken.Holds (index.map fun i => sequences.getD i []) := by
  have hlengths : ∀ i ∈ index, suffixes.lengths[i]? = some (sequences.getD i []).length := by
    intro i hi
    rw [h.2, List.getElem?_map, List.getD_eq_getElem?_getD, List.getElem?_eq_getElem (hindex i hi)]
    rfl
  rw [take, hends]
  dsimp only
  rw [hiter, PySlice.mapM_item hlengths, ok_bind, PySlice.mapM_item fun i hi => h.offset (hindex i hi).le, ok_bind, rows,
    shifted_range_cast (by rw [List.length_map, List.length_map]), List.zip_map', List.flatMap_map, h.1,
    rows_items hindex, ok_bind]
  have hmap : (index.map fun i => (sequences.getD i []).length)
      = (index.map fun i => sequences.getD i []).map List.length := by rw [List.map_map]; rfl
  rw [hmap]
  exact make_holds _

lemma map_some_elements {positions : List ℤ} (h : ∀ i ∈ positions, 0 ≤ i ∧ i < sequences.length) :
    (PySlice.elements sequences positions).map some = positions.map fun i => sequences[i.toNat]? := by
  induction positions with
  | nil => rfl
  | cons i positions ih =>
    obtain ⟨hlow, hhigh⟩ := h i List.mem_cons_self
    have hget := List.getElem?_eq_getElem (l := sequences) (i := i.toNat) (by omega)
    have hrest := ih fun j hj => h j (List.mem_cons_of_mem i hj)
    rw [PySlice.elements] at hrest ⊢
    rw [List.filterMap_cons, List.map_cons, hget, List.map_cons, hrest]

/-- A take holds the sequences at its indices. A range of step one has its ends among the positions. -/
theorem Holds.take_holds (h : suffixes.Holds sequences) (hin : ∀ i ∈ indices.iter, 0 ≤ i ∧ i < sequences.length)
    (hends : ∀ ends, indices.ends = some ends →
      (0 ≤ ends.1 ∧ ends.1 ≤ sequences.length) ∧ 0 ≤ ends.2 ∧ ends.2 ≤ sequences.length) :
    ∃ taken, suffixes.take indices = .ok taken ∧ taken.Holds (PySlice.elements sequences indices.iter) := by
  cases hslice : indices.ends with
  | none =>
    have hiter : indices.iter = (indices.iter.map Int.toNat).map Nat.cast := by
      rw [List.map_map]
      exact ((List.map_congr_left fun i hi => Int.toNat_of_nonneg (hin i hi).1).trans (List.map_id _)).symm
    obtain ⟨taken, htaken, hholds⟩ := h.take_rows hslice hiter (by
      intro i hi
      obtain ⟨j, hj, rfl⟩ := List.mem_map.1 hi
      have := hin j hj
      omega)
    have helements : PySlice.elements sequences indices.iter
        = (indices.iter.map Int.toNat).map fun i => sequences.getD i [] := by
      rw [PySlice.elements, List.map_map]
      refine (List.filterMap_congr fun i hi => ?_).trans (congrFun List.filterMap_eq_map' _)
      have := hin i hi
      rw [Function.comp_apply, List.getD_eq_getElem?_getD, List.getElem?_eq_getElem (by omega), Option.getD_some]
    exact ⟨taken, htaken, helements ▸ hholds⟩
  | some ends =>
    obtain ⟨⟨hstart, ha⟩, hstop, hb⟩ := hends ends hslice
    obtain ⟨start, stop⟩ := ends
    obtain ⟨a, rfl⟩ := Int.eq_ofNat_of_zero_le hstart
    obtain ⟨b, rfl⟩ := Int.eq_ofNat_of_zero_le hstop
    obtain ⟨taken, htaken, hholds⟩ := h.take_slice hslice (Int.ofNat_le.1 ha) (Int.ofNat_le.1 hb)
    rw [Indices.iter_of_ends hslice, PySlice.elements_range_one hstart]
    exact ⟨taken, htaken, hholds⟩

end Suffixes

/-! ## Sequences of tokens read as lists -/

variable {arraySlice : (α : Type) → List α → ℤ → ℤ → Except PyError (List α)}

/-- Nested concatenations and every chain of their slices read as the list of the tokens, and a take of suffixes
reads the sequences at its indices. -/
theorem concat_and_take (harray : IsArraySlice arraySlice) :
    (∀ (children : List TokenTree) (slices : List PySlice),
      (TokenTree.node children).make.Forward arraySlice slices →
      ((TokenTree.node children).make.slices arraySlice slices).map TokenSequence.iter
        = listSlices slices (TokenTree.tokensAll children) ∧
      ∀ sequence, (TokenTree.node children).make.slices arraySlice slices = .ok sequence →
        sequence.length = sequence.iter.length ∧
          ∀ index, PySlice.SameItem (sequence.item index) (PySlice.item sequence.iter index)) ∧
    ∀ (sequences : List TokenSequence) (indices : Indices),
      (∀ i ∈ indices.iter, 0 ≤ i ∧ i < sequences.length) →
      (∀ ends, indices.ends = some ends → indices.iter = [] →
        (0 ≤ ends.1 ∧ ends.1 ≤ sequences.length) ∧ 0 ≤ ends.2 ∧ ends.2 ≤ sequences.length) →
      ∃ suffixes taken, Suffixes.of sequences = .ok suffixes ∧ suffixes.take indices = .ok taken ∧
        taken.iter.map some = indices.iter.map (fun i => (sequences.map TokenSequence.iter)[i.toNat]?) ∧
        taken.lengths = taken.iter.map List.length ∧ taken.offsets = cumulative taken.lengths := by
  constructor
  · intro children slices hforward
    refine ⟨?_, fun sequence _ => ⟨sequence.length_eq, sequence.item_iter⟩⟩
    rw [TokenSequence.slices_iter harray hforward, TokenTree.make_iter, TokenTree.tokens]
  · intro sequences indices hin hempty
    obtain ⟨suffixes, hof, hholds⟩ := Suffixes.of_holds sequences
    have hlength : (sequences.map TokenSequence.iter).length = sequences.length := List.length_map _
    have hin' : ∀ i ∈ indices.iter, 0 ≤ i ∧ i < (sequences.map TokenSequence.iter).length := by
      rw [hlength]
      exact hin
    obtain ⟨taken, htake, htaken⟩ := hholds.take_holds hin' (by
      rw [hlength]
      exact fun ends hends => Indices.ends_mem hends hin (hempty ends hends))
    refine ⟨suffixes, taken, hof, htake, ?_, ?_, taken.offsets_eq⟩
    · rw [htaken.iter_eq, Suffixes.map_some_elements hin']
    · rw [htaken.iter_eq, htaken.2]

/-- `Array.slice`, which takes no negative length. -/
def arrowSlice (α : Type) (xs : List α) (offset length : ℤ) : Except PyError (List α) :=
  if offset < 0 then .error (.index "Offset must be non-negative")
  else if length < 0 then .error (.value "Length must be non-negative")
  else .ok ((xs.drop offset.toNat).take length.toNat)

lemma isArraySlice_arrowSlice : IsArraySlice arrowSlice := by
  intro α xs i k hi hk
  rw [arrowSlice, if_neg (not_lt.2 hi), if_neg (not_lt.2 hk)]

lemma concat_and_take_nested :
    ((TokenTree.node [.leaf (.arrow ⟨[5, 6, 7], none⟩), .node [.leaf (.plain [8])]]).make.slices arrowSlice
      [⟨some 1, none, none⟩, ⟨none, none, some (-1)⟩]).map TokenSequence.iter = .ok [8, 7, 6] ∧
    ∃ suffixes taken, Suffixes.of [.single (.plain [1, 2]), .single (.plain [3])] = .ok suffixes ∧
      suffixes.take (.array [1, 0, 1]) = .ok taken ∧ taken.iter.map some = [some [3], some [1, 2], some [3]] := by
  have hspec := concat_and_take isArraySlice_arrowSlice
  constructor
  · have hforward : (TokenTree.node [.leaf (.arrow ⟨[5, 6, 7], none⟩), .node [.leaf (.plain [8])]]).make.Forward arrowSlice
        [⟨some 1, none, none⟩, ⟨none, none, some (-1)⟩] := by
      refine ⟨TokenSequence.not_reversed 1 4 (by decide +kernel) (by decide), fun cut hcut => ⟨?_, fun _ _ => trivial⟩⟩
      rintro ⟨start, stop, hindices, -⟩
      simp [PySlice.indices] at hindices
    exact (hspec.1 _ _ hforward).1.trans (by decide +kernel)
  · obtain ⟨suffixes, taken, hof, htake, hiter, -⟩ := hspec.2 [.single (.plain [1, 2]), .single (.plain [3])]
      (.array [1, 0, 1]) (by decide) (by decide)
    exact ⟨suffixes, taken, hof, htake, hiter.trans (by decide)⟩

/-- A view does not take a slice with its ends out of order, nor a range of no suffixes past the end. -/
theorem concat_and_take_past_end :
    ((TokenTree.node [.leaf (.arrow ⟨[5, 6, 7], none⟩)]).make.slices arrowSlice [⟨some 2, some 1, none⟩]).map
      TokenSequence.iter = .error (.value "Length must be non-negative") ∧
    listSlices [⟨some 2, some 1, none⟩] (TokenTree.tokensAll [.leaf (.arrow ⟨[5, 6, 7], none⟩)]) = .ok [] ∧
    (Indices.range 1 1 1).iter = [] ∧
    (Suffixes.of [] >>= fun suffixes => suffixes.take (.range 1 1 1)).map Suffixes.iter
      = .error (.index "list index out of range") := by
  decide +kernel

end Quail.Tokens
