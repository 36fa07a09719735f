import Quail.Sae.Slots
import Quail.Lib.Program
import Mathlib.Order.Lattice

/-!
# The maxima of a document

`Seen` is what the observed rows and the settlements of a run say about one document. In every run the
maxima that `settle` hands back are the strongest of what was seen (`settle_maxima`).
-/

set_option linter.unusedSectionVars false

namespace Quail.Sae
open Imperative

variable {κ α : Type} {width : ℕ} [DecidableEq κ] [LinearOrder α] [Zero α]

/-! ## Scattering -/

/-- The strengths of one feature. -/
def strengths (features : List (Fin width × α)) (f : Fin width) : List α :=
  (features.filter fun e => e.1 = f).map Prod.snd

/-- The strongest of the features' strengths, zero at least. -/
def strongest (features : List (Fin width × α)) : Vector width α := fun f =>
  (strengths features f).foldl max 0

@[simp] lemma strongest_nil : strongest ([] : List (Fin width × α)) = fun _ => 0 := rfl

lemma strengths_append {xs ys : List (Fin width × α)} {f : Fin width} :
    strengths (xs ++ ys) f = strengths xs f ++ strengths ys f := by
  rw [strengths, List.filter_append, List.map_append]
  rfl

lemma foldl_max_max {x y : α} {l : List α} : l.foldl max (max x y) = max x (l.foldl max y) := by
  induction l generalizing y with
  | nil => rfl
  | cons z l ih => rw [List.foldl_cons, List.foldl_cons, max_assoc, ih]

lemma le_foldl_max {x : α} {l : List α} : x ≤ l.foldl max x := by
  induction l generalizing x with
  | nil => exact le_rfl
  | cons y l ih => exact (le_max_left x y).trans ih

/-- The strongest of two documents' features together. -/
lemma strongest_append {xs ys : List (Fin width × α)} {f : Fin width} :
    strongest (xs ++ ys) f = max (strongest xs f) (strongest ys f) := by
  have hzero : (0 : α) ≤ strongest xs f := le_foldl_max
  rw [strongest, strengths_append, List.foldl_append]
  show (strengths ys f).foldl max (strongest xs f) = _
  rw [← max_eq_left hzero, foldl_max_max, max_eq_left hzero]
  rfl

lemma scatterRow_apply {matrix : ℕ → Vector width α} {slot a : ℕ} {features : List (Fin width × α)}
    {f : Fin width} : scatterRow matrix slot features a f =
      (if slot = a then strengths features f else []).foldl max (matrix a f) := by
  unfold scatterRow
  induction features generalizing matrix with
  | nil => split_ifs <;> rfl
  | cons e features ih =>
    rw [List.foldl_cons, ih]
    by_cases hslot : slot = a
    · subst hslot
      by_cases hf : e.1 = f
      · subst hf
        simp [scatterCell, strengths]
      · simp [scatterCell, strengths, hf, Function.update_of_ne (Ne.symm hf)]
    · simp [scatterCell, hslot, Function.update_of_ne (Ne.symm hslot)]

/-- A cell is the strongest of what it held and of what its rows bring. -/
lemma scatter_apply {matrix : ℕ → Vector width α} {rows : List (ℕ × Row width α)} {a : ℕ}
    {f : Fin width} : scatter matrix rows a f =
      (strengths ((rows.filter fun e => e.1 = a).flatMap fun e => e.2.features) f).foldl max
        (matrix a f) := by
  unfold scatter
  induction rows generalizing matrix with
  | nil => rfl
  | cons e rows ih =>
    rw [List.foldl_cons, ih, scatterRow_apply]
    by_cases hslot : e.1 = a
    · simp [hslot, strengths_append, List.foldl_append]
    · simp [hslot]

/-! ## The rows of a chunk -/

/-- The document rows and question rows of a chunk's spans, each with its key. -/
def Chunk.observed (chunk : Chunk κ width α) : List (κ × Row width α) :=
  chunk.rowSpans.flatMap fun span =>
    (List.range' span.first (span.stop - span.first)).map fun i => (span.key, chunk.row i)

variable {β γ δ ι : Type}

omit [DecidableEq κ] [LinearOrder α] [Zero α] in
lemma zipWith_flatMap {k : β → γ → δ} {f : ι → List β} {g : ι → List γ} {l : List ι}
    (h : ∀ x ∈ l, (f x).length = (g x).length) :
    List.zipWith k (l.flatMap f) (l.flatMap g) = l.flatMap fun x => List.zipWith k (f x) (g x) := by
  induction l with
  | nil => rfl
  | cons x l ih =>
    rw [List.flatMap_cons, List.flatMap_cons, List.flatMap_cons, List.zipWith_append, ih]
    · exact fun y hy => h y (List.mem_cons_of_mem _ hy)
    · exact h x List.mem_cons_self

lemma repeated_map {f : ι → β} {n : ι → ℕ} {l : List ι} :
    repeated (l.map f) (l.map n) = l.flatMap fun x => List.replicate (n x) (f x) := by
  rw [repeated, List.zip_map', List.flatMap_map]

lemma range'_flatMap {first stop : ι → ℕ} {l : List ι} {lo : ℕ}
    (hlo : ∀ x ∈ l.head?, first x = lo) (hlt : ∀ x ∈ l, first x < stop x)
    (hnext : (l.map first).tail = (l.map stop).dropLast) :
    (l.flatMap fun x => List.range' (first x) (stop x - first x)) =
      List.range' lo ((l.map fun x => stop x - first x).sum) := by
  induction l generalizing lo with
  | nil => rfl
  | cons x l ih =>
    obtain rfl := hlo x rfl
    have hx := hlt x List.mem_cons_self
    have hrest := @ih (stop x) (fun y hy => ?_) (fun y hy => hlt y (List.mem_cons_of_mem _ hy)) ?_
    · have hstop : first x + (stop x - first x) = stop x := by omega
      have happend := List.range'_append_1 (s := first x) (m := stop x - first x)
        (n := (l.map fun x => stop x - first x).sum)
      rw [hstop] at happend
      rw [List.flatMap_cons, hrest, List.map_cons, List.sum_cons, happend]
    · cases l with
      | nil => cases hy
      | cons z l =>
        obtain rfl := Option.some.inj hy
        simp only [List.map_cons, List.tail_cons, List.dropLast_cons_cons, List.cons.injEq] at hnext
        exact hnext.1
    · cases l with
      | nil => rfl
      | cons z l =>
        simp only [List.map_cons, List.tail_cons, List.dropLast_cons_cons, List.cons.injEq] at hnext
        exact hnext.2

lemma zipWith_replicate_range' {n a b : ℕ} :
    List.zipWith (· + ·) (List.replicate n ((a : ℤ) - b)) ((List.range' b n).map Nat.cast) =
      (List.range' a n).map Nat.cast := by
  induction n generalizing a b with
  | zero => rfl
  | succ n ih =>
    rw [List.replicate_succ, List.range'_succ, List.range'_succ, List.map_cons, List.map_cons,
      List.zipWith_cons_cons, ← @ih (a + 1) (b + 1)]
    have hshift : ((a + 1 : ℕ) : ℤ) - (b + 1 : ℕ) = a - b := by
      push_cast
      omega
    congr 1
    · omega
    · rw [hshift]

/-- The index formula lists the rows of each span. -/
lemma rowIndices_from {first n : ι → ℕ} {l : List ι} {b : ℕ} :
    List.zipWith (· + ·)
      (repeated (List.zipWith (· + ·)
        (List.zipWith (fun first sum : ℕ => (first : ℤ) - sum) (l.map first)
          ((l.map n).scanl (· + ·) b).tail)
        ((l.map n).map Nat.cast)) (l.map n))
      ((List.range' b (l.map n).sum).map Nat.cast) =
      (l.flatMap fun x => List.range' (first x) (n x)).map (Nat.cast : ℕ → ℤ) := by
  induction l generalizing b with
  | nil => rfl
  | cons x l ih =>
    simp only [List.map_cons, List.scanl_cons, List.tail_cons, List.sum_cons, List.flatMap_cons,
      List.map_append]
    rw [Cumulative.scanl_eq_cons, ← List.range'_append_1, List.map_append]
    simp only [List.zipWith_cons_cons, repeated, List.zip_cons_cons, List.flatMap_cons]
    rw [List.zipWith_append (by simp)]
    congr 1
    · rw [← @zipWith_replicate_range' (n x) (first x) b]
      congr 2
      push_cast
      omega
    · exact ih

lemma rowIndices_eq {first n : ι → ℕ} {l : List ι} :
    rowIndices (l.map first) (l.map n) (l.map n).sum =
      (l.flatMap fun x => List.range' (first x) (n x)).map Nat.cast := by
  rw [rowIndices, cumulative, List.range_eq_range', rowIndices_from]

/-- The spans of a chunk with rows. -/
def Chunk.spans (chunk : Chunk κ width α) : List (Span κ) :=
  chunk.rowSpans.filter fun span => span.stop > span.first

lemma Chunk.observed_eq {chunk : Chunk κ width α} : chunk.observed = chunk.spans.flatMap fun span =>
    (List.range' span.first (span.stop - span.first)).map fun i => (span.key, chunk.row i) := by
  unfold Chunk.observed Chunk.spans
  induction chunk.rowSpans with
  | nil => rfl
  | cons span spans ih =>
    by_cases hspan : span.stop > span.first
    · rw [List.filter_cons_of_pos (by simpa using hspan), List.flatMap_cons, List.flatMap_cons, ih]
    · have hnone : span.stop - span.first = 0 := by omega
      rw [List.filter_cons_of_neg (by simpa using hspan), List.flatMap_cons, ih, hnone]
      rfl

/-- The rows the scatter reads, whether or not the spans cover the chunk in order. -/
lemma observe_rows {chunk : Chunk κ width α} :
    let row0 := chunk.spans.map Span.first
    let row1 := chunk.spans.map Span.stop
    let lengths := List.zipWith (· - ·) row1 row0
    (if lengths.sum = chunk.numRows ∧ row0.head? = some 0 ∧ row0.tail = row1.dropLast then
        (List.range chunk.numRows).map chunk.row
      else (rowIndices row0 lengths lengths.sum).map fun row => chunk.row row.toNat) =
    chunk.spans.flatMap fun span =>
      (List.range' span.first (span.stop - span.first)).map chunk.row := by
  have hlengths : List.zipWith (· - ·) (chunk.spans.map Span.stop) (chunk.spans.map Span.first) =
      chunk.spans.map fun span => span.stop - span.first := by
    rw [List.zipWith_map, List.zipWith_self]
  dsimp only
  rw [hlengths]
  split_ifs with hcontiguous
  · obtain ⟨hsum, hhead, hnext⟩ := hcontiguous
    have hall := @range'_flatMap _ Span.first Span.stop chunk.spans 0 ?_ ?_ hnext
    · rw [← List.map_flatMap, hall, hsum, List.range_eq_range']
    · intro span hspan
      rw [List.head?_map, hspan] at hhead
      exact Option.some.inj hhead
    · intro span hspan
      simpa using (List.mem_filter.1 hspan).2
  · rw [rowIndices_eq, List.map_map, ← List.map_flatMap]
    exact List.map_congr_left fun i _ => rfl

lemma zipWith_replicate {k : β → γ → δ} {c : β} {l : List γ} {n : ℕ} (hn : n = l.length) :
    List.zipWith k (List.replicate n c) l = l.map (k c) := by
  subst hn
  induction l with
  | nil => rfl
  | cons x l ih => rw [List.length_cons, List.replicate_succ, List.zipWith_cons_cons, ih, List.map_cons]

/-- The owner a row folds into: its document inside the document's tokens, else the question. -/
def rowOwner (documentTokens : κ → ℤ) (e : κ × Row width α) : Owner κ :=
  (decide (e.2.position < documentTokens e.1), e.1)

/-- The rows of the scatter, each with the slot of its owner. -/
lemma observe_scattered {documentTokens : κ → ℤ} {chunk : Chunk κ width α} {dict other : Dict κ ℕ}
    {rows : List (Row width α)}
    (hrows : rows = chunk.spans.flatMap fun span =>
      (List.range' span.first (span.stop - span.first)).map chunk.row) :
    let keys := chunk.spans.map Span.key
    (List.zipWith (fun (per : ℕ × ℕ × ℤ) (row : Row width α) =>
        if row.position < per.2.2 then per.1 else per.2.1)
      (repeated ((keys.map fun k => (dict.get? k).getD 0).zip
          ((keys.map fun k => (other.get? k).getD 0).zip (keys.map documentTokens)))
        (chunk.spans.map fun span => span.stop - span.first)) rows).zip rows =
      chunk.observed.map fun e => ((owners true dict other (rowOwner documentTokens e)).getD 0, e.2) := by
  dsimp only
  rw [List.map_map, List.map_map, List.map_map, List.zip_map', List.zip_map', repeated_map, hrows,
    zipWith_flatMap (by simp), List.zip, zipWith_flatMap (by simp), Chunk.observed_eq, List.map_flatMap]
  refine congrArg (List.flatMap · chunk.spans) (funext fun span => ?_)
  rw [zipWith_replicate (by simp), List.map_map, List.zipWith_map, List.zipWith_self, List.map_map]
  refine List.map_congr_left fun i _ => ?_
  dsimp only [Function.comp_apply]
  by_cases hposition : (chunk.row i).position < documentTokens span.key
  · simp [rowOwner, owners, hposition]
  · simp [rowOwner, owners, hposition]

/-- What observing a chunk with rows leaves. -/
lemma observe_eq {documentTokens : κ → ℤ} {s : SaeMaxAccumulator κ width α} {chunk : Chunk κ width α}
    (hne : chunk.spans ≠ []) {documents tails : List ℕ} {dict other : Dict κ ℕ}
    {slots slots' : SlotMatrix width α}
    (hdocuments : slotsOf (chunk.spans.map Span.key) s.documentSlot s.slots = (documents, dict, slots))
    (htails : slotsOf (chunk.spans.map Span.key) s.tailSlot slots = (tails, other, slots'))
    (hfound : documents = (chunk.spans.map Span.key).map fun k => (dict.get? k).getD 0)
    (hfound' : tails = (chunk.spans.map Span.key).map fun k => (other.get? k).getD 0) :
    s.observe documentTokens chunk = { s with
      documentSlot := dict
      tailSlot := other
      slots := { slots' with
        matrix := scatter slots'.cleared (chunk.observed.map fun e =>
          ((owners true dict other (rowOwner documentTokens e)).getD 0, e.2))
        dirty := [] } } := by
  have hlengths : List.zipWith (· - ·) (chunk.spans.map Span.stop) (chunk.spans.map Span.first) =
      chunk.spans.map fun span => span.stop - span.first := by
    rw [List.zipWith_map, List.zipWith_self]
  have hmatrix : (if slots'.dirty = [] then slots'.matrix else zeroed slots'.matrix slots'.dirty) =
      slots'.cleared := by
    unfold SlotMatrix.cleared
    split_ifs with hdirty
    · rw [hdirty]
      funext slot
      simp [zeroed]
    · rfl
  have hspans : (chunk.rowSpans.filter fun span => decide (span.stop > span.first)) = chunk.spans := rfl
  unfold SaeMaxAccumulator.observe
  dsimp only
  rw [hspans, if_neg hne, hdocuments]
  dsimp only
  rw [htails]
  dsimp only
  rw [hmatrix, hlengths, ← observe_scattered observe_rows, ← hfound, ← hfound', hlengths]

/-! ## What was seen of a document -/

/-- A call of the accumulator. -/
inductive Event (κ : Type) (width : ℕ) (α : Type) where
  | observe (chunk : Chunk κ width α)
  | settle (key : κ) (collect : Bool)

/-- The features seen of a document: on its document rows while its document slot is live, and on its
question rows since it last settled. -/
structure Seen (width : ℕ) (α : Type) where
  live : Bool
  document : List (Fin width × α)
  question : List (Fin width × α)
  settled : ℕ

/-- Nothing seen. -/
def Seen.nothing : Seen width α := ⟨false, [], [], 0⟩

/-- The rows of a chunk with this owner. -/
def rowsOf (documentTokens : κ → ℤ) (chunk : Chunk κ width α) (o : Owner κ) : List (κ × Row width α) :=
  chunk.observed.filter fun e => rowOwner documentTokens e = o

/-- What an event adds of a document: the rows of a chunk, or that a call settled, the last call freeing
the document's slot. -/
def Seen.step (documentTokens : κ → ℤ) (calls : ℕ) (key : κ) (t : Seen width α) :
    Event κ width α → Seen width α
  | .observe chunk => { t with
      live := t.live || chunk.spans.any fun span => span.key = key
      document := t.document ++
        (rowsOf documentTokens chunk (true, key)).flatMap fun e => e.2.features
      question := t.question ++
        (rowsOf documentTokens chunk (false, key)).flatMap fun e => e.2.features }
  | .settle key' _ =>
    if key' = key then
      if calls ≤ t.settled + 1 then ⟨false, [], [], t.settled + 1⟩
      else { t with question := [], settled := t.settled + 1 }
    else t

/-- What a run saw of a document. -/
def seen (documentTokens : κ → ℤ) (calls : ℕ) (key : κ) (events : List (Event κ width α)) :
    Seen width α :=
  events.foldl (Seen.step documentTokens calls key) .nothing

/-- The accumulator after an event. -/
def Event.step (documentTokens : κ → ℤ) (calls : ℕ) (s : SaeMaxAccumulator κ width α) :
    Event κ width α → SaeMaxAccumulator κ width α
  | .observe chunk => s.observe documentTokens chunk
  | .settle key collect => (s.settle calls key collect).2

/-- The features seen of one owner. -/
def Seen.features (t : Seen width α) (side : Bool) : List (Fin width × α) :=
  if side then t.document else t.question

/-- The accumulator holds what was seen of each document. -/
structure Recorded (see : κ → Seen width α) (s : SaeMaxAccumulator κ width α) : Prop where
  stores : Stores (owners true s.documentSlot s.tailSlot)
    (fun o => strongest ((see o.2).features o.1)) s.slots
  clean : ∀ o a, owners true s.documentSlot s.tailSlot o = some a → a ∉ s.slots.dirty
  settled : ∀ key, s.settledCalls key = (see key).settled
  live : ∀ key, s.documentSlot.contains key = (see key).live

variable {documentTokens : κ → ℤ} {calls : ℕ} {s : SaeMaxAccumulator κ width α}
  {see : κ → Seen width α} {key : κ} {chunk : Chunk κ width α}

lemma Recorded.new : Recorded (fun _ : κ => Seen.nothing)
    (SaeMaxAccumulator.new : SaeMaxAccumulator κ width α) where
  stores := by
    have hown : owners true (Dict.empty : Dict κ ℕ) .empty = fun _ => none := by
      funext o
      simp [owners]
    have hvalue : (fun o : Owner κ => strongest ((Seen.nothing : Seen width α).features o.1)) =
        fun _ _ => 0 := by
      funext o f
      obtain ⟨b, k⟩ := o
      cases b <;> rfl
    rw [SaeMaxAccumulator.new, hvalue, hown]
    exact .new
  clean _ _ _ := List.not_mem_nil
  settled _ := rfl
  live _ := rfl

/-! ## Observing -/

lemma strongest_scattered {see : κ → Seen width α} {o : Owner κ} {f : Fin width} :
    strongest (((see o.2).step documentTokens calls o.2 (.observe chunk)).features o.1) f =
      (strengths ((rowsOf documentTokens chunk o).flatMap fun e => e.2.features) f).foldl max
        (strongest ((see o.2).features o.1) f) := by
  obtain ⟨b, k⟩ := o
  cases b <;> rw [strongest, Seen.step, Seen.features, Seen.features] <;>
    simp only [Bool.false_eq_true, if_true, if_false, strengths_append, List.foldl_append] <;> rfl

lemma mem_spans_of_observed {e : κ × Row width α} (he : e ∈ chunk.observed) :
    e.1 ∈ chunk.spans.map Span.key := by
  rw [Chunk.observed_eq] at he
  obtain ⟨span, hspan, he⟩ := List.mem_flatMap.1 he
  obtain ⟨i, -, rfl⟩ := List.mem_map.1 he
  exact List.mem_map_of_mem hspan

/-- Rows fold into the slots of their owners and nowhere else. -/
lemma Stores.scatter {own : Owner κ → Option ℕ} {slots : SlotMatrix width α}
    (h : Stores own (fun o => strongest ((see o.2).features o.1)) slots)
    (hrows : ∀ e ∈ chunk.observed, ∃ a, own (rowOwner documentTokens e) = some a) :
    Stores own
      (fun o => strongest (((see o.2).step documentTokens calls o.2 (.observe chunk)).features o.1))
      { slots with
        matrix := scatter slots.cleared (chunk.observed.map fun e =>
          ((own (rowOwner documentTokens e)).getD 0, e.2))
        dirty := [] } := by
  have hcleared : ∀ matrix : ℕ → Vector width α,
      ({ slots with matrix, dirty := [] } : SlotMatrix width α).cleared = matrix := by
    intro matrix
    funext slot
    simp [SlotMatrix.cleared, zeroed]
  have hcell : ∀ a f, Sae.scatter slots.cleared (chunk.observed.map fun e =>
      ((own (rowOwner documentTokens e)).getD 0, e.2)) a f =
      (strengths ((chunk.observed.filter fun e => (own (rowOwner documentTokens e)).getD 0 = a).flatMap
        fun e => e.2.features) f).foldl max (slots.cleared a f) := by
    intro a f
    rw [scatter_apply, List.filter_map, List.flatMap_map]
    rfl
  refine ⟨h.inj, h.bound, h.notFree, h.freeNodup, h.freeBound, fun o a ho => ?_, fun o ho => ?_,
    fun a ha => ?_⟩
  · funext f
    rw [hcleared, hcell, strongest_scattered, h.content o a ho, rowsOf]
    congr 3
    refine List.filter_congr fun e he => ?_
    obtain ⟨b, hb⟩ := hrows e he
    rw [hb, Option.getD_some, decide_eq_decide]
    constructor
    · rintro rfl
      exact h.inj _ _ _ hb ho
    · rintro rfl
      exact Option.some.inj (hb.symm.trans ho)
  · have hnone : rowsOf documentTokens chunk o = [] := by
      refine List.filter_eq_nil_iff.2 fun e he heq => ?_
      obtain ⟨b, hb⟩ := hrows e he
      rw [of_decide_eq_true heq, ho] at hb
      cases hb
    funext f
    rw [strongest_scattered, hnone]
    exact congrFun (h.absent o ho) f
  · have hnone : (chunk.observed.filter fun e => (own (rowOwner documentTokens e)).getD 0 = a) = [] := by
      refine List.filter_eq_nil_iff.2 fun e he heq => ?_
      obtain ⟨b, hb⟩ := hrows e he
      rw [hb, Option.getD_some, decide_eq_true_iff] at heq
      exact ha _ (heq ▸ hb)
    funext f
    rw [hcleared, hcell, hnone]
    exact congrFun (h.empty a ha) f

lemma observe_recorded (h : Recorded see s) :
    Recorded (fun key => (see key).step documentTokens calls key (.observe chunk))
      (s.observe documentTokens chunk) := by
  by_cases hne : chunk.spans = []
  · have hsame : s.observe documentTokens chunk = s := by
      unfold SaeMaxAccumulator.observe
      exact if_pos hne
    have hsee : (fun key => (see key).step documentTokens calls key (.observe chunk)) = see := by
      funext key
      have hrows : ∀ o, rowsOf documentTokens chunk o = [] := fun o => by
        rw [rowsOf, Chunk.observed_eq, hne]
        rfl
      simp [Seen.step, hrows, hne]
    rw [hsame, hsee]
    exact h
  · obtain ⟨htaken, hstores⟩ := slotsOf_spec (chunk.spans.map Span.key) h.stores
    rw [owners_swap] at hstores
    obtain ⟨htaken', hstores'⟩ := slotsOf_spec (chunk.spans.map Span.key) hstores
    rw [observe_eq hne rfl rfl htaken.found htaken'.found]
    rw [← owners_swap] at hstores'
    have hrows : ∀ e ∈ chunk.observed, ∃ a, owners true
        (slotsOf (chunk.spans.map Span.key) s.documentSlot s.slots).2.1
        (slotsOf (chunk.spans.map Span.key) s.tailSlot
          (slotsOf (chunk.spans.map Span.key) s.documentSlot s.slots).2.2).2.1
        (rowOwner documentTokens e) = some a := by
      intro e he
      have hkey := mem_spans_of_observed he
      obtain ⟨a, ha⟩ := Dict.contains_iff.1 ((htaken.has e.1).2 (.inr hkey))
      obtain ⟨a', ha'⟩ := Dict.contains_iff.1 ((htaken'.has e.1).2 (.inr hkey))
      by_cases hposition : e.2.position < documentTokens e.1
      · exact ⟨a, by simp [owners, rowOwner, hposition, ha]⟩
      · exact ⟨a', by simp [owners, rowOwner, hposition, ha']⟩
    refine ⟨hstores'.scatter hrows, fun _ _ _ => List.not_mem_nil, h.settled, fun key => ?_⟩
    rw [Bool.eq_iff_iff, htaken.has, h.live]
    simp [Seen.step]

/-! ## Settling -/

/-- Freeing the slot of an owner, whatever was written to it last. -/
lemma Stores.free {own : Owner κ → Option ℕ} {slots : SlotMatrix width α} {o : Owner κ} {a : ℕ}
    (values : Vector width α) (see' : κ → Seen width α)
    (h : Stores own (fun o => strongest ((see o.2).features o.1)) slots) (ho : own o = some a)
    (hclean : ∀ o a, own o = some a → a ∉ slots.dirty)
    (hnone : (see' o.2).features o.1 = [])
    (hsame : ∀ o', o' ≠ o → (see' o'.2).features o'.1 = (see o'.2).features o'.1) :
    Stores (Function.update own o none) (fun o => strongest ((see' o.2).features o.1))
      (({ slots with matrix := Function.update slots.matrix a values } : SlotMatrix width α).release a) ∧
    ∀ o' b, Function.update own o none o' = some b → b ∉ a :: slots.dirty := by
  have hvalue : (fun o => strongest ((see' o.2).features o.1)) =
      Function.update (fun o => strongest ((see o.2).features o.1)) o fun _ => 0 := by
    funext o'
    by_cases heq : o' = o
    · subst heq
      rw [hnone, Function.update_self]
      rfl
    · rw [hsame o' heq, Function.update_of_ne heq]
  refine ⟨hvalue ▸ h.release ho, fun o' b hb hin => ?_⟩
  have hne : o' ≠ o := by
    rintro rfl
    rw [Function.update_self] at hb
    cases hb
  rw [Function.update_of_ne hne] at hb
  obtain rfl | hin := List.mem_cons.1 hin
  · exact hne (h.inj o' o b hb ho)
  · exact hclean o' b hb hin

/-- Consuming a question's slot, after the maxima were read there. -/
lemma dropTail_recorded (pinned : PinnedSlabs width α) {matrix : ℕ → Vector width α}
    (h : Recorded see s)
    (hmatrix : ∀ a, s.tailSlot.get? key ≠ some a → matrix a = s.slots.matrix a) :
    Recorded (fun k => if k = key then { see k with question := [] } else see k)
      (({ s with slots := { s.slots with matrix }, pinned } :
        SaeMaxAccumulator κ width α).dropTail key) := by
  have hsee : ∀ o : Owner κ, o ≠ (false, key) →
      (if o.2 = key then { see o.2 with question := [] } else see o.2).features o.1 =
        (see o.2).features o.1 := by
    rintro ⟨b, k⟩ ho
    split_ifs with hk
    · cases b with
      | true => rfl
      | false => exact absurd (congrArg (false, ·) hk) ho
    · rfl
  have hlive : ∀ k, (if k = key then { see k with question := [] } else see k).live = (see k).live :=
    fun k => by split_ifs <;> rfl
  have hsettled : ∀ k, (if k = key then { see k with question := [] } else see k).settled =
      (see k).settled := fun k => by split_ifs <;> rfl
  cases htail : s.tailSlot.get? key with
  | none =>
    have hown : owners true s.documentSlot s.tailSlot (false, key) = none := by simp [owners, htail]
    have hsame : ({ s with slots := { s.slots with matrix }, pinned } :
        SaeMaxAccumulator κ width α).dropTail key = { s with pinned } := by
      have heq : matrix = s.slots.matrix := funext fun a => hmatrix a (by rw [htail]; rintro ⟨⟩)
      rw [SaeMaxAccumulator.dropTail, heq]
      dsimp only
      rw [htail]
    rw [hsame]
    refine ⟨?_, h.clean, fun k => (h.settled k).trans (hsettled k).symm, fun k =>
      (h.live k).trans (hlive k).symm⟩
    have hvalue : (fun o : Owner κ => strongest
        ((if o.2 = key then { see o.2 with question := [] } else see o.2).features o.1)) =
        fun o => strongest ((see o.2).features o.1) := by
      funext o
      by_cases ho : o = (false, key)
      · subst ho
        rw [h.stores.absent _ hown]
        simp [Seen.features]
      · rw [hsee o ho]
    rw [hvalue]
    exact h.stores
  | some tail =>
    have hown : owners true s.documentSlot s.tailSlot (false, key) = some tail := by
      simp [owners, htail]
    have heq : matrix = Function.update s.slots.matrix tail (matrix tail) := by
      funext a
      by_cases ha : a = tail
      · rw [ha, Function.update_self]
      · rw [Function.update_of_ne ha]
        refine hmatrix a fun hin => ha ?_
        rw [htail] at hin
        exact (Option.some.inj hin).symm
    obtain ⟨hstores, hclean⟩ := h.stores.free (matrix tail)
      (fun k => if k = key then { see k with question := [] } else see k) hown h.clean
      (by simp [Seen.features]) hsee
    have hdrop : ({ s with slots := { s.slots with matrix }, pinned } :
        SaeMaxAccumulator κ width α).dropTail key = { s with
          tailSlot := s.tailSlot.erase key
          slots := ({ s.slots with matrix } : SlotMatrix width α).release tail
          pinned } := by
      rw [SaeMaxAccumulator.dropTail]
      dsimp only
      rw [htail]
    have hkeys : owners true s.documentSlot (s.tailSlot.erase key) =
        Function.update (owners true s.documentSlot s.tailSlot) (false, key) none := by
      rw [owners_swap, owners_erase, owners_swap]
    rw [hdrop]
    refine ⟨?_, ?_, fun k => (h.settled k).trans (hsettled k).symm, fun k =>
      (h.live k).trans (hlive k).symm⟩
    · rw [hkeys, heq]
      exact hstores
    · rw [hkeys]
      exact hclean

/-- Freeing a document's slot. -/
lemma dropDocument_recorded (key : κ) (h : Recorded see s) :
    Recorded (fun k => if k = key then { see k with live := false, document := [] } else see k)
      (s.dropDocument key) := by
  have hsee : ∀ o : Owner κ, o ≠ (true, key) →
      (if o.2 = key then { see o.2 with live := false, document := [] } else see o.2).features o.1 =
        (see o.2).features o.1 := by
    rintro ⟨b, k⟩ ho
    split_ifs with hk
    · cases b with
      | false => rfl
      | true => exact absurd (congrArg (true, ·) hk) ho
    · rfl
  have hsettled : ∀ k, (if k = key then { see k with live := false, document := [] }
      else see k).settled = (see k).settled := fun k => by split_ifs <;> rfl
  cases hdocument : s.documentSlot.get? key with
  | none =>
    have hown : owners true s.documentSlot s.tailSlot (true, key) = none := by simp [owners, hdocument]
    have hsame : s.dropDocument key = s := by
      rw [SaeMaxAccumulator.dropDocument, hdocument]
    rw [hsame]
    refine ⟨?_, h.clean, fun k => (h.settled k).trans (hsettled k).symm, fun k => ?_⟩
    · have hvalue : (fun o : Owner κ => strongest ((if o.2 = key then
          { see o.2 with live := false, document := [] } else see o.2).features o.1)) =
          fun o => strongest ((see o.2).features o.1) := by
        funext o
        by_cases ho : o = (true, key)
        · subst ho
          rw [h.stores.absent _ hown]
          simp [Seen.features]
        · rw [hsee o ho]
      rw [hvalue]
      exact h.stores
    · rw [h.live k]
      split_ifs with hk
      · rw [hk, ← h.live key, Dict.contains_eq_false.2 hdocument]
      · rfl
  | some document =>
    have hown : owners true s.documentSlot s.tailSlot (true, key) = some document := by
      simp [owners, hdocument]
    obtain ⟨hstores, hclean⟩ := h.stores.free (s.slots.matrix document)
      (fun k => if k = key then { see k with live := false, document := [] } else see k) hown h.clean
      (by simp [Seen.features]) hsee
    rw [Function.update_eq_self] at hstores
    have hdrop : s.dropDocument key = { s with
        documentSlot := s.documentSlot.erase key
        slots := s.slots.release document } := by
      rw [SaeMaxAccumulator.dropDocument, hdocument]
    rw [hdrop]
    refine ⟨?_, ?_, fun k => (h.settled k).trans (hsettled k).symm, fun k => ?_⟩
    · rw [owners_erase]
      exact hstores
    · rw [owners_erase]
      exact hclean
    · rw [Dict.contains_erase, h.live k]
      by_cases hk : k = key
      · simp [hk]
      · simp [hk, Ne.symm hk]

/-- One more call settled. -/
lemma settled_recorded (key : κ) (h : Recorded see s) :
    Recorded (fun k => if k = key then { see k with settled := (see k).settled + 1 } else see k)
      { s with settled := s.settled.set key (s.settledCalls key + 1) } := by
  have hfeatures : ∀ (k : κ) (side : Bool), (if k = key then
      { see k with settled := (see k).settled + 1 } else see k).features side =
      (see k).features side := fun k side => by split_ifs <;> rfl
  have hlive : ∀ k, (if k = key then { see k with settled := (see k).settled + 1 }
      else see k).live = (see k).live := fun k => by split_ifs <;> rfl
  refine ⟨?_, h.clean, fun k => ?_, fun k => (h.live k).trans (hlive k).symm⟩
  · simp only [hfeatures]
    exact h.stores
  · have hold := h.settled k
    rw [SaeMaxAccumulator.settledCalls] at hold ⊢
    rw [Dict.get?_set]
    by_cases hk : key = k
    · subst hk
      rw [if_pos rfl, if_pos rfl, Option.getD_some, h.settled]
    · rw [if_neg hk, if_neg (Ne.symm hk), hold]

/-- Reading the maxima writes to the question's slot only. -/
lemma readMaxima_matrix {tail document : Option ℕ} {a : ℕ} (ha : tail ≠ some a) :
    (s.readMaxima tail document).2.slots.matrix a = s.slots.matrix a := by
  cases tail with
  | none => rfl
  | some tail =>
    have hne : a ≠ tail := fun heq => ha (heq ▸ rfl)
    cases document with
    | none => rfl
    | some document => exact Function.update_of_ne hne ..

lemma settle_eq (s : SaeMaxAccumulator κ width α) (key : κ) (calls : ℕ) (collect : Bool) : ∃ matrix pinned,
    (∀ a, s.tailSlot.get? key ≠ some a → matrix a = s.slots.matrix a) ∧
    (pinned = s.pinned ∨ pinned =
      (s.readMaxima (s.tailSlot.get? key) (s.documentSlot.get? key)).2.pinned) ∧
    (s.settle calls key collect).2 =
      let s := ({ s with slots := { s.slots with matrix }, pinned } :
        SaeMaxAccumulator κ width α).dropTail key
      let s := { s with settled := s.settled.set key (s.settledCalls key + 1) }
      if calls ≤ s.settledCalls key then s.dropDocument key else s := by
  cases collect with
  | false => exact ⟨_, _, fun _ _ => rfl, .inl rfl, rfl⟩
  | true => exact ⟨_, _, fun _ => readMaxima_matrix, .inr rfl, rfl⟩

lemma settle_recorded {collect : Bool} (h : Recorded see s) :
    Recorded (fun k => (see k).step documentTokens calls k (.settle key collect))
      (s.settle calls key collect).2 := by
  obtain ⟨matrix, pinned, hmatrix, -, heq⟩ := settle_eq s key calls collect
  have hsettled := settled_recorded key (dropTail_recorded pinned h hmatrix)
  rw [heq]
  dsimp only
  have hcount := hsettled.settled key
  simp only [if_pos] at hcount
  split_ifs with hlast
  · have hdropped := dropDocument_recorded key hsettled
    refine Eq.mp (congrArg (Recorded · _) (funext fun k => ?_)) hdropped
    by_cases hk : k = key
    · subst hk
      rw [hcount] at hlast
      simp [Seen.step, hlast]
    · simp [Seen.step, hk, Ne.symm hk]
  · refine Eq.mp (congrArg (Recorded · _) (funext fun k => ?_)) hsettled
    by_cases hk : k = key
    · subst hk
      rw [hcount] at hlast
      simp [Seen.step, hlast]
    · simp [Seen.step, hk, Ne.symm hk]

/-! ## The rows handed back -/

/-- The row was handed out. -/
def PinnedSlabs.Given (p : PinnedSlabs width α) (handle : ℕ × ℕ) : Prop :=
  handle.1 + 1 < p.slabs ∨ (handle.1 + 1 = p.slabs ∧ handle.2 < p.next)

/-- A fresh row, and the rows handed out before. -/
lemma PinnedSlabs.take_spec {p : PinnedSlabs width α} (hnext : p.slabs = 0 → p.next = rowsPerSlab) :
    ¬p.Given p.take.1 ∧ p.take.2.Given p.take.1 ∧ p.take.2.host = p.host ∧
      (∀ handle, p.Given handle → p.take.2.Given handle) ∧
      (p.take.2.slabs = 0 → p.take.2.next = rowsPerSlab) := by
  unfold PinnedSlabs.take PinnedSlabs.Given
  dsimp only
  split_ifs with hfull
  · refine ⟨?_, ?_, rfl, fun handle hgiven => ?_, fun hzero => ?_⟩
    · dsimp only
      omega
    · dsimp only
      omega
    · dsimp only
      omega
    · cases hzero
  · have hslabs : p.slabs ≠ 0 := fun hzero => hfull (hnext hzero)
    refine ⟨?_, ?_, rfl, fun handle hgiven => ?_, fun hzero => absurd hzero hslabs⟩ <;> omega

/-- The handed-out rows keep their values. -/
structure PinnedSlabs.Follows (p p' : PinnedSlabs width α) : Prop where
  next : p'.slabs = 0 → p'.next = rowsPerSlab
  given : ∀ handle, p.Given handle → p'.Given handle
  host : ∀ handle, p.Given handle → p'.host handle = p.host handle

lemma PinnedSlabs.Follows.trans {p p' p'' : PinnedSlabs width α} (h : p.Follows p') (h' : p'.Follows p'') :
    p.Follows p'' where
  next := h'.next
  given handle hgiven := h'.given handle (h.given handle hgiven)
  host handle hgiven := (h'.host handle (h.given handle hgiven)).trans (h.host handle hgiven)

lemma readMaxima_follows {tail document : Option ℕ}
    (hnext : s.pinned.slabs = 0 → s.pinned.next = PinnedSlabs.rowsPerSlab) :
    s.pinned.Follows (s.readMaxima tail document).2.pinned := by
  obtain ⟨hfresh, hgiven, hhost, hkept, hnext'⟩ := PinnedSlabs.take_spec hnext
  refine ⟨hnext', hkept, fun handle hin => ?_⟩
  have hne : handle ≠ s.pinned.take.1 := by
    rintro rfl
    exact hfresh hin
  show Function.update s.pinned.take.2.host s.pinned.take.1 _ handle = _
  rw [Function.update_of_ne hne, hhost]

lemma dropTail_pinned : (s.dropTail key).pinned = s.pinned := by
  unfold SaeMaxAccumulator.dropTail
  split <;> rfl

lemma dropDocument_pinned : (s.dropDocument key).pinned = s.pinned := by
  unfold SaeMaxAccumulator.dropDocument
  split <;> rfl

lemma settle_pinned {collect : Bool} : (s.settle calls key collect).2.pinned =
    if collect then (s.readMaxima (s.tailSlot.get? key) (s.documentSlot.get? key)).2.pinned
    else s.pinned := by
  unfold SaeMaxAccumulator.settle
  cases collect <;> dsimp only <;> split_ifs <;> simp [dropDocument_pinned, dropTail_pinned] at *

lemma step_follows {event : Event κ width α}
    (hnext : s.pinned.slabs = 0 → s.pinned.next = PinnedSlabs.rowsPerSlab) :
    s.pinned.Follows (event.step documentTokens calls s).pinned := by
  have hsame : s.pinned.Follows s.pinned := ⟨hnext, fun _ h => h, fun _ _ => rfl⟩
  cases event with
  | observe chunk =>
    have hpinned : (s.observe documentTokens chunk).pinned = s.pinned := by
      unfold SaeMaxAccumulator.observe
      dsimp only
      split_ifs <;> rfl
    exact hpinned ▸ hsame
  | settle key collect =>
    rw [Event.step, settle_pinned]
    cases collect with
    | false => exact hsame
    | true => exact readMaxima_follows hnext

lemma run_follows {events : List (Event κ width α)}
    (hnext : s.pinned.slabs = 0 → s.pinned.next = PinnedSlabs.rowsPerSlab) :
    s.pinned.Follows (run (Event.step documentTokens calls) s events).pinned := by
  induction events generalizing s with
  | nil => exact ⟨hnext, fun _ h => h, fun _ _ => rfl⟩
  | cons event events ih =>
    have hstep : s.pinned.Follows (event.step documentTokens calls s).pinned := step_follows hnext
    exact hstep.trans (ih hstep.next)

/-- The values read are the strongest of what was seen. -/
lemma readMaxima_values {f : Fin width} (h : Recorded see s) :
    (s.readMaxima (s.tailSlot.get? key) (s.documentSlot.get? key)).2.pinned.host
      (s.readMaxima (s.tailSlot.get? key) (s.documentSlot.get? key)).1 f =
      strongest ((see key).document ++ (see key).question) f := by
  have hslot : ∀ o a, owners true s.documentSlot s.tailSlot o = some a →
      s.slots.matrix a f = strongest ((see o.2).features o.1) f := by
    intro o a ho
    rw [← h.stores.content o a ho, SlotMatrix.cleared, zeroed, if_neg (h.clean o a ho)]
  have hnone : ∀ o, owners true s.documentSlot s.tailSlot o = none →
      strongest ((see o.2).features o.1) f = 0 := fun o ho => congrFun (h.stores.absent o ho) f
  have hzero : ∀ features : List (Fin width × α), 0 ≤ strongest features f := fun _ => le_foldl_max
  show Function.update s.pinned.take.2.host s.pinned.take.1 _ s.pinned.take.1 f = _
  rw [Function.update_self, strongest_append]
  cases htail : s.tailSlot.get? key with
  | none =>
    have hquestion : strongest (see key).question f = 0 := hnone (false, key) (by simp [owners, htail])
    rw [hquestion, max_eq_left (hzero _)]
    cases hdocument : s.documentSlot.get? key with
    | none => exact (hnone (true, key) (by simp [owners, hdocument])).symm
    | some document => exact hslot (true, key) document (by simp [owners, hdocument])
  | some tail =>
    have hquestion : s.slots.matrix tail f = strongest (see key).question f :=
      hslot (false, key) tail (by simp [owners, htail])
    cases hdocument : s.documentSlot.get? key with
    | none =>
      have hempty : strongest (see key).document f = 0 := hnone (true, key) (by simp [owners, hdocument])
      rw [hempty, max_eq_right (hzero _)]
      exact hquestion
    | some document =>
      have hdoc : s.slots.matrix document f = strongest (see key).document f :=
        hslot (true, key) document (by simp [owners, hdocument])
      dsimp only [Option.some_or]
      rw [Function.update_self, hdoc, hquestion]

/-! ## Runs -/

/-- No two slots in use coincide, and a slot that `take` may hand out holds nothing once it is
zeroed. -/
structure SlotsApart (s : SaeMaxAccumulator κ width α) : Prop where
  documents : ∀ k k' a, s.documentSlot.get? k = some a → s.documentSlot.get? k' = some a → k = k'
  tails : ∀ k k' a, s.tailSlot.get? k = some a → s.tailSlot.get? k' = some a → k = k'
  apart : ∀ k k' a, s.documentSlot.get? k = some a → s.tailSlot.get? k' ≠ some a
  fresh : ∀ a ∈ s.slots.ready.free, s.slots.ready.cleared a = fun _ => 0

lemma Recorded.apart (h : Recorded see s) : SlotsApart s where
  documents k k' a hk hk' := by
    have heq := h.stores.inj (true, k) (true, k') a (by simpa [owners] using hk)
      (by simpa [owners] using hk')
    exact congrArg Prod.snd heq
  tails k k' a hk hk' := by
    have heq := h.stores.inj (false, k) (false, k') a (by simpa [owners] using hk)
      (by simpa [owners] using hk')
    exact congrArg Prod.snd heq
  apart k k' a hk hk' := by
    have heq := h.stores.inj (true, k) (false, k') a (by simpa [owners] using hk)
      (by simpa [owners] using hk')
    cases congrArg Prod.fst heq
  fresh a ha := h.stores.ready.empty a fun o ho => h.stores.ready.notFree o a ho ha

lemma step_recorded {event : Event κ width α} (h : Recorded see s) :
    Recorded (fun k => (see k).step documentTokens calls k event) (event.step documentTokens calls s) := by
  cases event with
  | observe chunk => exact observe_recorded h
  | settle key collect => exact settle_recorded h

lemma run_recorded {events : List (Event κ width α)} (h : Recorded see s) :
    Recorded (fun k => events.foldl (Seen.step documentTokens calls k) (see k))
      (run (Event.step documentTokens calls) s events) := by
  induction events generalizing s see with
  | nil => exact h
  | cons event events ih => exact ih (step_recorded h)

/-- In every run slots are apart, a document's slot is live exactly while the run says so, and the
maxima a settlement hands back are the strongest of what was seen, for as long as the run goes on. -/
theorem settle_maxima (documentTokens : κ → ℤ) (calls : ℕ) :
    (∀ events : List (Event κ width α),
      let s := run (Event.step documentTokens calls) .new events
      SlotsApart s ∧ ∀ key, s.documentSlot.contains key = (seen documentTokens calls key events).live) ∧
    ∀ (before after : List (Event κ width α)) (key : κ),
      let s := run (Event.step documentTokens calls) .new before
      let t := run (Event.step documentTokens calls) (s.settle calls key true).2 after
      ∃ handle, (s.settle calls key true).1 = some handle ∧
        ∀ f, t.pinned.host handle f = strongest ((seen documentTokens calls key before).document ++
          (seen documentTokens calls key before).question) f := by
  refine ⟨fun events => ?_, fun before after key => ?_⟩
  · intro s
    have hrun : Recorded (fun k => seen documentTokens calls k events) s := run_recorded Recorded.new
    exact ⟨hrun.apart, hrun.live⟩
  · intro s t
    have hrun : Recorded (fun k => seen documentTokens calls k before) s := run_recorded Recorded.new
    have hnext : s.pinned.slabs = 0 → s.pinned.next = PinnedSlabs.rowsPerSlab :=
      (run_follows fun _ => rfl).next
    have hpinned : (s.settle calls key true).2.pinned =
        (s.readMaxima (s.tailSlot.get? key) (s.documentSlot.get? key)).2.pinned := settle_pinned
    have hfollows : (s.settle calls key true).2.pinned.Follows t.pinned :=
      run_follows (by rw [hpinned]; exact (readMaxima_follows hnext).next)
    refine ⟨_, rfl, fun f => ?_⟩
    rw [hfollows.host _ (by rw [hpinned]; exact (PinnedSlabs.take_spec hnext).2.1), hpinned]
    exact readMaxima_values hrun

end Quail.Sae
