import Quail.Lib.Blocks
import Quail.Lib.Fallible
import Mathlib.Data.Int.Cast.Basic

/-!
# The rows a chunk reads

`pack_chunk` of `executor/chunk.py`, as far as the answer readouts see it: the rows of the chunk whose
hidden state feeds a readout (`finals`), and how many of them each answer takes (`rows_per_answer`). The
rows are computed with array arithmetic over all suffixes of a group at once; `Spec.answers` says suffix
by suffix which rows they are (`packGroup_rows`). Attention, KV writes and pages are left out, as are the
errors about them.
-/

namespace Quail.Readout

/-- An answer canvas, one for all suffixes of a group or, two-dimensional, one for each. -/
structure Canvas where
  count : Option ℕ := none
  width : ℕ
deriving DecidableEq, Repr

/-- A group as `_build` hands it to `pack_chunk`. Sequences are given by their lengths. -/
structure Spec where
  prefixTokens : Option ℕ := none
  suffixes : List ℕ
  readAllRows : Bool := false
  readRows : Option (List ℕ) := none
  readMask : Option (List Bool) := none
  stateReads : Option (List ℕ) := none
  canvas : Option Canvas := none
deriving DecidableEq, Repr

/-- The `ValueError`s of `pack_chunk` about the rows to read. -/
inductive PackError
  /-- "{canvases} canvases for {suffixes} suffixes" -/
  | canvases
  /-- "answer_row is outside its canvas" -/
  | answerRow
  /-- "read_mask marks one suffix's rows" -/
  | readMask
  /-- "read_rows must give each suffix at most its length" -/
  | readRows
  /-- A document that does not request one suffix of questions. -/
  | questions
deriving DecidableEq, Repr

/-- `np.flatnonzero`. -/
def flatnonzero (mask : List Bool) : List ℕ := (mask.zipIdx.filter (·.1)).map Prod.snd

/-- `np.cumsum`. -/
def cumsum (l : List ℕ) : List ℕ := (cumulative l).tail

namespace Spec

variable (canvas answerRow : ℕ) (g : Spec)

/-- `canvas` is the width of the default canvas. -/
def groupCanvas : Canvas := g.canvas.getD { width := canvas }

/-- Rows of each suffix's canvas. -/
def width : ℕ := (g.groupCanvas canvas).width

/-- Tokens that the group packs. -/
def tokens : ℕ := g.prefixTokens.getD 0 + (g.suffixes.map (· + g.width canvas)).sum

/-- The rows read for the group that starts at `row0`, how many each answer takes, and whether some
answer may take another number than one. -/
def reads (row0 : ℕ) : Except PackError (List ℤ × List ℕ × Bool) :=
  let sRow0 := row0 + g.prefixTokens.getD 0
  let n := g.suffixes.length
  let width := g.width canvas
  let widths := g.suffixes.map (· + width)
  let total := widths.sum
  let ends := cumsum widths
  let begins := List.zipWith (· - ·) ends widths
  if n = 0 then .ok ([], [], false)
  else if width ≠ 0 then
    -- The canvas's rows follow the suffix's own, which are not read.
    let first := List.zipWith (fun b l => sRow0 + b + l) begins g.suffixes
    if g.readAllRows then
      .ok ((List.zipWith (· + ·) (first.flatMap (List.replicate width))
          (List.replicate n (List.range width)).flatten).map Nat.cast, List.replicate n width, true)
    else .ok ((first.map (· + answerRow)).map Nat.cast, List.replicate n 1, false)
  else match g.readMask, g.readRows with
    | some mask, _ =>
      if n ≠ 1 ∨ mask.length ≠ total then .error .readMask
      else
        let marked := (flatnonzero mask).map (sRow0 + ·)
        let reads := match g.stateReads with
          | some rows => rows.map (row0 + ·) ++ marked
          | none => marked
        .ok (reads.map Nat.cast, [reads.length], true)
    | none, some counts =>
      if counts.length ≠ n ∨ (List.zipWith (fun c l => decide (l < c)) counts g.suffixes).any id then
        .error .readRows
      else
        .ok ((List.zipWith (· + ·)
          (List.zipWith (· - ·) (Blocks.repeatEach (ends.map (sRow0 + ·)) counts)
            (Blocks.repeatEach counts counts))
          (Blocks.positions counts)).map Nat.cast, counts, true)
    | none, none =>
      if g.readAllRows then .ok ((List.range' sRow0 total).map Nat.cast, g.suffixes, true)
      else .ok (ends.map fun e => ((sRow0 + e : ℕ) : ℤ) - 1, List.replicate n 1, false)

end Spec

/-- What `pack_chunk` has laid out. -/
structure Rows where
  numTokens : ℕ := 0
  finals : List ℤ := []
  rowsPerAnswer : List ℕ := []
  multiRow : Bool := false
deriving DecidableEq, Repr

/-- One group of the loop. -/
def packGroup (canvas answerRow : ℕ) (s : Rows) (g : Spec) : Except PackError Rows :=
  if (g.groupCanvas canvas).count.any (· ≠ g.suffixes.length) then .error .canvases
  else if g.width canvas ≠ 0 ∧ g.readAllRows = false ∧ g.width canvas ≤ answerRow then .error .answerRow
  else (g.reads canvas answerRow s.numTokens).map fun r =>
    { numTokens := s.numTokens + g.tokens canvas
      finals := s.finals ++ r.1
      rowsPerAnswer := s.rowsPerAnswer ++ r.2.1
      multiRow := s.multiRow || r.2.2 }

/-- A chunk: the rows that feed a readout, and how many each answer takes, if not one each. -/
structure Chunk where
  tokens : ℕ
  finalIndices : List ℤ
  rowsPerAnswer : Option (List ℕ)
deriving DecidableEq, Repr

/-- `pack_chunk` with `decode` rows packed after the groups. -/
def packChunk (canvas answerRow : ℕ) (groups : List Spec) (decode : ℕ) : Except PackError Chunk :=
  if canvas ≠ 0 ∧ canvas ≤ answerRow then .error .answerRow
  else (groups.foldlM (packGroup canvas answerRow) {}).map fun s =>
    let counts := s.rowsPerAnswer ++ List.replicate decode 1
    { tokens := s.numTokens + decode
      finalIndices := s.finals ++ (List.range' s.numTokens decode).map Nat.cast
      rowsPerAnswer := if s.multiRow then some counts else none }

/-! ## Suffix by suffix -/

/-- Where each suffix starts, with its tokens; `width` canvas rows follow it. -/
def suffixSpans (width : ℕ) : ℕ → List ℕ → List (ℕ × ℕ)
  | _, [] => []
  | row, l :: suffixes => (row, l) :: suffixSpans width (row + (l + width)) suffixes

namespace Spec

variable (canvas answerRow : ℕ) (g : Spec)

/-- How many rows each suffix's answer takes. -/
def counts : List ℕ :=
  if g.width canvas ≠ 0 then g.suffixes.map fun _ => if g.readAllRows then g.width canvas else 1
  else match g.readMask, g.readRows with
    | some mask, _ => g.suffixes.map fun _ => (g.stateReads.getD []).length + (flatnonzero mask).length
    | none, some counts => List.zipWith (fun _ c => c) g.suffixes counts
    | none, none => g.suffixes.map fun l => if g.readAllRows then l else 1

/-- The rows of each suffix's answer, in a group that starts at `row0`. -/
def answers (row0 : ℕ) : List (List ℤ) :=
  let spans := suffixSpans (g.width canvas) (row0 + g.prefixTokens.getD 0) g.suffixes
  if g.width canvas ≠ 0 then
    spans.map fun s =>
      if g.readAllRows then (List.range (g.width canvas)).map fun c => ((s.1 + s.2 + c : ℕ) : ℤ)
      else [((s.1 + s.2 + answerRow : ℕ) : ℤ)]
  else match g.readMask, g.readRows with
    | some mask, _ => spans.map fun s =>
        ((g.stateReads.getD []).map (row0 + ·) ++ (flatnonzero mask).map (s.1 + ·)).map Nat.cast
    | none, some counts =>
      -- the last rows of the suffix
      List.zipWith (fun s c => (List.range' (s.1 + s.2 - c) c).map Nat.cast) spans counts
    | none, none => spans.map fun s =>
        if g.readAllRows then (List.range' s.1 s.2).map Nat.cast else [((s.1 + s.2 : ℕ) : ℤ) - 1]

end Spec

section Spans

variable {width row : ℕ} {suffixes : List ℕ}

@[simp] lemma length_suffixSpans : (suffixSpans width row suffixes).length = suffixes.length := by
  induction suffixes generalizing row with
  | nil => rfl
  | cons l suffixes ih => simp [suffixSpans, ih]

@[simp] lemma suffixSpans_snd : (suffixSpans width row suffixes).map Prod.snd = suffixes := by
  induction suffixes generalizing row with
  | nil => rfl
  | cons l suffixes ih => simp [suffixSpans, ih]

lemma ends_eq : (cumsum (suffixes.map (· + width))).map (row + ·)
    = (suffixSpans width row suffixes).map fun s => s.1 + (s.2 + width) := by
  have hfrom : ∀ b, ((suffixes.map (· + width)).scanl (· + ·) b).tail.map (row + ·)
      = (suffixSpans width (row + b) suffixes).map fun s => s.1 + (s.2 + width) := by
    induction suffixes with
    | nil => exact fun _ => rfl
    | cons l suffixes ih =>
      intro b
      rw [List.map_cons, List.scanl_cons, List.tail_cons, Cumulative.scanl_eq_cons, List.map_cons, ih, suffixSpans,
        List.map_cons]
      simp [Nat.add_assoc]
  exact hfrom 0

lemma first_eq : List.zipWith (fun b l => row + b + l)
      (List.zipWith (· - ·) (cumsum (suffixes.map (· + width))) (suffixes.map (· + width))) suffixes
    = (suffixSpans width row suffixes).map fun s => s.1 + s.2 := by
  have hfrom : ∀ b, List.zipWith (fun b l => row + b + l)
      (List.zipWith (· - ·) ((suffixes.map (· + width)).scanl (· + ·) b).tail (suffixes.map (· + width)))
        suffixes
      = (suffixSpans width (row + b) suffixes).map fun s => s.1 + s.2 := by
    induction suffixes with
    | nil => exact fun _ => rfl
    | cons l suffixes ih =>
      intro b
      rw [List.map_cons, List.scanl_cons, List.tail_cons, Cumulative.scanl_eq_cons, List.zipWith_cons_cons,
        List.zipWith_cons_cons, ih, suffixSpans, List.map_cons]
      simp [Nat.add_assoc]
  exact hfrom 0

/-- Every row of the suffixes, when no canvas follows them. -/
lemma range'_eq_flatten : List.range' row (suffixes.map (· + 0)).sum
    = ((suffixSpans 0 row suffixes).map fun s => List.range' s.1 s.2).flatten := by
  induction suffixes generalizing row with
  | nil => rfl
  | cons l suffixes ih =>
    rw [List.map_cons, List.sum_cons, ← List.range'_append_1, ih, suffixSpans, List.map_cons,
      List.flatten_cons]
    rfl

end Spans

lemma zipWith_snd {α β : Type} {xs : List α} {ys : List β} (h : ys.length ≤ xs.length) :
    List.zipWith (fun _ y => y) xs ys = ys := by
  induction ys generalizing xs with
  | nil => simp
  | cons y ys ih =>
    cases xs with
    | nil => simp at h
    | cons x xs => rw [List.zipWith_cons_cons, ih (by simpa using h)]

lemma flatten_cast (lists : List (List ℕ)) :
    (lists.flatten.map Nat.cast : List ℤ) = (lists.map (List.map Nat.cast)).flatten := List.map_flatten

/-- Each row, with the columns of its tile. -/
lemma repeat_add_tile (first : List ℕ) (width : ℕ) :
    List.zipWith (· + ·) (first.flatMap (List.replicate width))
        (List.replicate first.length (List.range width)).flatten
      = (first.map fun f => (List.range width).map (f + ·)).flatten := by
  induction first with
  | nil => rfl
  | cons f first ih =>
    rw [List.flatMap_cons, List.length_cons, List.replicate_succ, List.flatten_cons,
      List.zipWith_append (by simp), ih, List.map_cons, List.flatten_cons]
    congr 1
    exact List.ext_getElem (by simp) fun k hk hk' => by simp

lemma positions_cons (c : ℕ) (counts : List ℕ) :
    Blocks.positions (c :: counts) = List.range c ++ Blocks.positions counts := by
  have hfrom : ∀ i j, (Blocks.indexFrom i counts).map Prod.snd = (Blocks.indexFrom j counts).map Prod.snd := by
    induction counts with
    | nil => exact fun _ _ => rfl
    | cons d counts ih =>
      intro i j
      rw [Blocks.indexFrom, Blocks.indexFrom, List.map_append, List.map_append, ih (i + 1) (j + 1)]
      simp [Function.comp_def]
  rw [Blocks.positions_eq, Blocks.positions_eq, Blocks.indexFrom, List.map_append, hfrom 1 0]
  simp [Function.comp_def]

/-- The rows before each end, as many as its count. -/
lemma trailing_eq {ends counts : List ℕ} (h : counts.length = ends.length) :
    List.zipWith (· + ·)
        (List.zipWith (· - ·) (Blocks.repeatEach ends counts) (Blocks.repeatEach counts counts))
        (Blocks.positions counts)
      = (List.zipWith (fun e c => List.range' (e - c) c) ends counts).flatten := by
  induction counts generalizing ends with
  | nil => simp [Blocks.repeatEach]
  | cons c counts ih =>
    cases ends with
    | nil => cases h
    | cons e ends =>
      have hends : counts.length = ends.length := by simpa using h
      have hrest := ih hends
      unfold Blocks.repeatEach at hrest ⊢
      rw [List.zip_cons_cons, List.flatMap_cons, List.zip_cons_cons, List.flatMap_cons,
        List.zipWith_append (by simp), positions_cons, List.zipWith_append (by simp), hrest,
        List.zipWith_cons_cons, List.flatten_cons]
      congr 1
      exact List.ext_getElem (by simp) fun k hk hk' => by simp

namespace Spec

variable {canvas answerRow row0 : ℕ} {g : Spec} {r : List ℤ × List ℕ × Bool}

/-- What a group reads, suffix by suffix. -/
structure ReadsOf (canvas answerRow row0 : ℕ) (g : Spec) (r : List ℤ × List ℕ × Bool) : Prop where
  finals : r.1 = (g.answers canvas answerRow row0).flatten
  counts : r.2.1 = g.counts canvas
  answers : (g.answers canvas answerRow row0).map List.length = g.counts canvas
  single : r.2.2 = false → ∀ c ∈ g.counts canvas, c = 1

lemma length_answers : (g.answers canvas answerRow row0).length = (g.counts canvas).length := by
  rw [Spec.answers, Spec.counts]
  split
  · rw [List.length_map, List.length_map, length_suffixSpans]
  · cases g.readMask with
    | some mask => rw [List.length_map, List.length_map, length_suffixSpans]
    | none =>
      cases g.readRows with
      | some rows => rw [List.length_zipWith, List.length_zipWith, length_suffixSpans]
      | none => rw [List.length_map, List.length_map, length_suffixSpans]

lemma reads_empty (h : g.suffixes = []) : ReadsOf canvas answerRow row0 g ([], [], false) := by
  have hanswers : g.answers canvas answerRow row0 = [] := by
    simp only [answers, h, suffixSpans]
    split
    · rfl
    · split <;> rfl
  have hcounts : g.counts canvas = [] := by
    simp only [Spec.counts, h]
    split
    · rfl
    · split <;> rfl
  exact ⟨by rw [hanswers]; rfl, hcounts.symm, by rw [hanswers, hcounts]; rfl, by simp [hcounts]⟩

lemma reads_canvas (hn : g.suffixes.length ≠ 0) (hw : g.width canvas ≠ 0)
    (h : g.reads canvas answerRow row0 = .ok r) : ReadsOf canvas answerRow row0 g r := by
  rw [reads, if_neg hn, if_pos hw, first_eq] at h
  set spans := suffixSpans (g.width canvas) (row0 + g.prefixTokens.getD 0) g.suffixes with hspans
  have hlen : spans.length = g.suffixes.length := length_suffixSpans
  by_cases hall : g.readAllRows = true
  · rw [if_pos hall] at h
    obtain rfl := Except.ok.inj h
    have hanswers : g.answers canvas answerRow row0
        = spans.map fun s => (List.range (g.width canvas)).map fun c => ((s.1 + s.2 + c : ℕ) : ℤ) := by
      simp [answers, hw, hall, hspans]
    have hcounts : g.counts canvas = List.replicate g.suffixes.length (g.width canvas) := by
      simp [Spec.counts, hw, hall]
    refine ⟨?_, hcounts.symm, ?_, by simp⟩
    · have htile := repeat_add_tile (spans.map fun s => s.1 + s.2) (g.width canvas)
      rw [List.length_map, hlen] at htile
      rw [htile, hanswers, List.map_flatten, List.map_map, List.map_map]
      simp [Function.comp_def]
    · rw [hanswers, hcounts, List.map_map, ← hlen]
      simp [Function.comp_def]
  · rw [if_neg hall] at h
    obtain rfl := Except.ok.inj h
    have hanswers : g.answers canvas answerRow row0
        = spans.map fun s => [((s.1 + s.2 + answerRow : ℕ) : ℤ)] := by
      simp [answers, hw, hall, hspans]
    have hcounts : g.counts canvas = List.replicate g.suffixes.length 1 := by
      simp [Spec.counts, hw, hall]
    refine ⟨?_, hcounts.symm, ?_, ?_⟩
    · rw [hanswers, List.map_map, List.map_map, ← List.flatMap_def, ← List.map_eq_flatMap]
      rfl
    · rw [hanswers, hcounts, List.map_map, ← hlen]
      simp [Function.comp_def]
    · intro _ c hc
      rw [hcounts] at hc
      exact List.eq_of_mem_replicate hc

lemma reads_mask {mask : List Bool} (hn : g.suffixes.length ≠ 0) (hw : g.width canvas = 0)
    (hmask : g.readMask = some mask) (h : g.reads canvas answerRow row0 = .ok r) :
    ReadsOf canvas answerRow row0 g r := by
  rw [reads, if_neg hn, if_neg (not_not.2 hw), hmask] at h
  dsimp only at h
  by_cases hbad : g.suffixes.length ≠ 1 ∨
      mask.length ≠ (g.suffixes.map (· + g.width canvas)).sum
  · rw [if_pos hbad] at h
    cases h
  · rw [if_neg hbad] at h
    obtain rfl := Except.ok.inj h
    obtain ⟨l, hl⟩ := List.length_eq_one_iff.1 (not_not.1 (not_or.1 hbad).1)
    have hreads : (match g.stateReads with
        | some rows => rows.map (row0 + ·) ++ (flatnonzero mask).map (row0 + g.prefixTokens.getD 0 + ·)
        | none => (flatnonzero mask).map (row0 + g.prefixTokens.getD 0 + ·))
        = (g.stateReads.getD []).map (row0 + ·)
          ++ (flatnonzero mask).map (row0 + g.prefixTokens.getD 0 + ·) := by
      cases g.stateReads <;> rfl
    rw [hreads]
    have hanswers : g.answers canvas answerRow row0 = [((g.stateReads.getD []).map (row0 + ·)
        ++ (flatnonzero mask).map (row0 + g.prefixTokens.getD 0 + ·)).map Nat.cast] := by
      simp [answers, hw, hmask, hl, suffixSpans]
    have hcounts : g.counts canvas
        = [(g.stateReads.getD []).length + (flatnonzero mask).length] := by
      simp [Spec.counts, hw, hmask, hl]
    exact ⟨by rw [hanswers, List.flatten_singleton], by rw [hcounts]; simp, by rw [hanswers, hcounts]; simp,
      by simp⟩

lemma reads_rows {counts : List ℕ} (hn : g.suffixes.length ≠ 0) (hw : g.width canvas = 0)
    (hmask : g.readMask = none) (hrows : g.readRows = some counts)
    (h : g.reads canvas answerRow row0 = .ok r) : ReadsOf canvas answerRow row0 g r := by
  rw [reads, if_neg hn, if_neg (not_not.2 hw), hmask, hrows] at h
  dsimp only at h
  by_cases hbad : counts.length ≠ g.suffixes.length ∨
      (List.zipWith (fun c l => decide (l < c)) counts g.suffixes).any id
  · rw [if_pos hbad] at h
    cases h
  · rw [if_neg hbad] at h
    obtain rfl := Except.ok.inj h
    have hlen : counts.length = g.suffixes.length := not_not.1 (not_or.1 hbad).1
    set spans := suffixSpans 0 (row0 + g.prefixTokens.getD 0) g.suffixes with hspans
    have hspanslen : spans.length = g.suffixes.length := length_suffixSpans
    have hends : (cumsum (g.suffixes.map (· + g.width canvas))).map (row0 + g.prefixTokens.getD 0 + ·)
        = spans.map fun s => s.1 + s.2 := by
      rw [hw, ends_eq]
      rfl
    have hanswers : g.answers canvas answerRow row0
        = List.zipWith (fun s c => (List.range' (s.1 + s.2 - c) c).map Nat.cast) spans counts := by
      simp [answers, hw, hmask, hrows, hspans]
    have hcounts : g.counts canvas = counts := by
      simp only [Spec.counts, hw, hmask, hrows, ne_eq, not_true_eq_false, if_false]
      exact zipWith_snd hlen.le
    refine ⟨?_, hcounts.symm, ?_, by simp⟩
    · rw [hends, trailing_eq (by rw [List.length_map, hspanslen, hlen]), flatten_cast, hanswers,
        List.zipWith_map_left, List.map_zipWith]
    · rw [hanswers, hcounts, List.map_zipWith]
      simp only [List.length_map, List.length_range']
      exact zipWith_snd (hlen.trans hspanslen.symm).le

lemma reads_plain (hn : g.suffixes.length ≠ 0) (hw : g.width canvas = 0)
    (hmask : g.readMask = none) (hrows : g.readRows = none)
    (h : g.reads canvas answerRow row0 = .ok r) : ReadsOf canvas answerRow row0 g r := by
  rw [reads, if_neg hn, if_neg (not_not.2 hw), hmask, hrows] at h
  dsimp only at h
  set spans := suffixSpans 0 (row0 + g.prefixTokens.getD 0) g.suffixes with hspans
  have hspanslen : spans.length = g.suffixes.length := length_suffixSpans
  by_cases hall : g.readAllRows = true
  · rw [if_pos hall] at h
    obtain rfl := Except.ok.inj h
    have hanswers : g.answers canvas answerRow row0
        = spans.map fun s => (List.range' s.1 s.2).map Nat.cast := by
      simp [answers, hw, hmask, hrows, hall, hspans]
    have hcounts : g.counts canvas = g.suffixes := by
      simp [Spec.counts, hw, hmask, hrows, hall]
    refine ⟨?_, hcounts.symm, ?_, by simp⟩
    · rw [hw, range'_eq_flatten, hanswers, flatten_cast, List.map_map]
      rfl
    · rw [hanswers, hcounts, List.map_map]
      simp [Function.comp_def, hspans, suffixSpans_snd]
  · rw [if_neg hall] at h
    obtain rfl := Except.ok.inj h
    have hends : (cumsum (g.suffixes.map (· + g.width canvas))).map (row0 + g.prefixTokens.getD 0 + ·)
        = spans.map fun s => s.1 + s.2 := by
      rw [hw, ends_eq]
      rfl
    have hanswers : g.answers canvas answerRow row0 = spans.map fun s => [((s.1 + s.2 : ℕ) : ℤ) - 1] := by
      simp [answers, hw, hmask, hrows, hall, hspans]
    have hcounts : g.counts canvas = List.replicate g.suffixes.length 1 := by
      simp [Spec.counts, hw, hmask, hrows, hall]
    refine ⟨?_, hcounts.symm, ?_, ?_⟩
    · have hcast := congrArg (List.map fun e : ℕ => (e : ℤ) - 1) hends
      rw [List.map_map, List.map_map] at hcast
      rw [hanswers, ← List.flatMap_def, ← List.map_eq_flatMap]
      exact hcast
    · rw [hanswers, hcounts, List.map_map, ← hspanslen]
      simp [Function.comp_def]
    · intro _ c hc
      rw [hcounts] at hc
      exact List.eq_of_mem_replicate hc

theorem reads_ok (h : g.reads canvas answerRow row0 = .ok r) : ReadsOf canvas answerRow row0 g r := by
  by_cases hn : g.suffixes.length = 0
  · rw [reads, if_pos hn] at h
    obtain rfl := Except.ok.inj h
    exact reads_empty (List.eq_nil_of_length_eq_zero hn)
  by_cases hw : g.width canvas = 0
  · cases hmask : g.readMask with
    | some mask => exact reads_mask hn hw hmask h
    | none =>
      cases hrows : g.readRows with
      | some counts => exact reads_rows hn hw hmask hrows h
      | none => exact reads_plain hn hw hmask hrows h
  · exact reads_canvas hn hw h

end Spec

/-! ## The chunk -/

section Chunks

variable {canvas answerRow decode : ℕ} {s s' : Rows} {g : Spec} {specs : List Spec} {chunk : Chunk}

/-- The answers of groups packed one after the other. -/
def answersFrom (canvas answerRow : ℕ) : ℕ → List Spec → List (List (List ℤ))
  | _, [] => []
  | row, g :: specs => g.answers canvas answerRow row :: answersFrom canvas answerRow (row + g.tokens canvas) specs

lemma length_answersFrom (row : ℕ) (specs : List Spec) :
    (answersFrom canvas answerRow row specs).length = specs.length := by
  induction specs generalizing row with
  | nil => rfl
  | cons g specs ih => rw [answersFrom, List.length_cons, List.length_cons, ih]

lemma answersFrom_append (row : ℕ) (specs specs' : List Spec) :
    answersFrom canvas answerRow row (specs ++ specs') = answersFrom canvas answerRow row specs
      ++ answersFrom canvas answerRow (row + (specs.map (Spec.tokens canvas)).sum) specs' := by
  induction specs generalizing row with
  | nil => simp [answersFrom]
  | cons g specs ih => simp [answersFrom, ih, Nat.add_assoc]

theorem packGroup_ok (h : packGroup canvas answerRow s g = .ok s') :
    ∃ r, g.ReadsOf canvas answerRow s.numTokens r ∧ s' =
      { numTokens := s.numTokens + g.tokens canvas
        finals := s.finals ++ r.1
        rowsPerAnswer := s.rowsPerAnswer ++ r.2.1
        multiRow := s.multiRow || r.2.2 } := by
  rw [packGroup] at h
  split at h
  · cases h
  · split at h
    · cases h
    · cases hr : g.reads canvas answerRow s.numTokens with
      | error e =>
        rw [hr] at h
        cases h
      | ok r =>
        rw [hr] at h
        exact ⟨r, Spec.reads_ok hr, (Except.ok.inj h).symm⟩

/-- What the loop has laid out after some groups. -/
structure LaidOut (canvas answerRow : ℕ) (specs : List Spec) (s : Rows) : Prop where
  numTokens : s.numTokens = (specs.map (Spec.tokens canvas)).sum
  finals : s.finals = (answersFrom canvas answerRow 0 specs).flatten.flatten
  counts : s.rowsPerAnswer = specs.flatMap (Spec.counts canvas)
  answers : (answersFrom canvas answerRow 0 specs).map (List.map List.length) = specs.map (Spec.counts canvas)
  single : s.multiRow = false → ∀ c ∈ specs.flatMap (Spec.counts canvas), c = 1

lemma LaidOut.snoc (h : LaidOut canvas answerRow specs s) (hg : packGroup canvas answerRow s g = .ok s') :
    LaidOut canvas answerRow (specs ++ [g]) s' := by
  obtain ⟨r, hr, rfl⟩ := packGroup_ok hg
  have hfrom : answersFrom canvas answerRow 0 (specs ++ [g])
      = answersFrom canvas answerRow 0 specs ++ [g.answers canvas answerRow s.numTokens] := by
    rw [answersFrom_append, Nat.zero_add, ← h.numTokens]
    rfl
  refine ⟨?_, ?_, ?_, ?_, ?_⟩
  · simp [h.numTokens]
  · simp [hfrom, h.finals, hr.finals]
  · simp [h.counts, hr.counts]
  · simp [hfrom, h.answers, hr.answers]
  · intro hs c hc
    rw [List.flatMap_append, List.mem_append, List.flatMap_singleton] at hc
    obtain ⟨hmulti, hlast⟩ := Bool.or_eq_false_iff.1 hs
    exact hc.elim (h.single hmulti c) (hr.single hlast c)

/-- A chunk reads the rows of its groups' answers in order, then those of the decode rows. -/
theorem packChunk_ok (h : packChunk canvas answerRow specs decode = .ok chunk) :
    (∃ tail : List ℤ, chunk.finalIndices = (answersFrom canvas answerRow 0 specs).flatten.flatten ++ tail) ∧
    (answersFrom canvas answerRow 0 specs).map (List.map List.length) = specs.map (Spec.counts canvas) ∧
    (chunk.rowsPerAnswer = some (specs.flatMap (Spec.counts canvas) ++ List.replicate decode 1) ∨
      chunk.rowsPerAnswer = none ∧ ∀ c ∈ specs.flatMap (Spec.counts canvas), c = 1) := by
  rw [packChunk] at h
  split at h
  · cases h
  cases hrun : specs.foldlM (packGroup canvas answerRow) ({} : Rows) with
  | error e =>
    rw [hrun] at h
    cases h
  | ok s =>
    rw [hrun] at h
    obtain rfl := Except.ok.inj h
    have hs : LaidOut canvas answerRow specs s := foldlM_ok (LaidOut canvas answerRow)
      ⟨rfl, rfl, rfl, rfl, by simp⟩ (fun past b b' g _ hpast hg => hpast.snoc hg) hrun
    refine ⟨⟨_, congrArg (· ++ _) hs.finals⟩, hs.answers, ?_⟩
    cases hm : s.multiRow with
    | true => exact Or.inl (by simp [hm, hs.counts])
    | false => exact Or.inr ⟨by simp [hm], hs.single hm⟩

end Chunks

end Quail.Readout
