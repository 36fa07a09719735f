import Quail.Lib.Blocks
import Quail.Lib.Cells
import Quail.Lib.Dict
import Quail.Lib.Python
import Quail.Lib.Ragged
import Quail.Lib.Utf8

/-!
# Character ranges of tokens

`TokenOffsets` of `catalog/tokens.py`: the tokens of a batch of texts mapped to ranges of characters, in one pass
over the bytes of all texts. A text's tokens are exact where their pieces concatenate to its bytes.
-/

namespace Quail.Tokens
open Blocks Bisect

/-! ## The source -/

/-- A slice of an Arrow array of binary values: the data and boundaries of the whole array, and the slice. -/
structure BinaryArray where
  data : List UInt8
  boundaries : List ℕ
  offset : ℕ
  length : ℕ
  fits : offset + length < boundaries.length
  sorted : boundaries.Pairwise (· ≤ ·)
  bounded : ∀ boundary ∈ boundaries, boundary ≤ data.length

lemma BinaryArray.window_sublist (source : BinaryArray) : (source.boundaries.getD source.offset 0 ::
    (source.boundaries.drop (source.offset + 1)).take source.length).Sublist source.boundaries := by
  have hlt : source.offset < source.boundaries.length := by
    have := source.fits
    omega
  have hwindow : source.boundaries.getD source.offset 0 :: (source.boundaries.drop (source.offset + 1)).take source.length
      = (source.boundaries.drop source.offset).take (source.length + 1) := by
    rw [List.drop_eq_getElem_cons hlt, List.take_succ_cons, List.getD_eq_getElem?_getD, List.getElem?_eq_getElem hlt,
      Option.getD_some]
  rw [hwindow]
  exact (List.take_sublist _ _).trans (List.drop_sublist _ _)

/-- `boundaries[source.offset:source.offset + len(source) + 1]`, with the data. -/
def BinaryArray.window (source : BinaryArray) : Ragged UInt8 where
  values := source.data
  first := source.boundaries.getD source.offset 0
  rest := (source.boundaries.drop (source.offset + 1)).take source.length
  sorted := source.sorted.sublist source.window_sublist
  bounded := fun _ hboundary => source.bounded _ (source.window_sublist.subset hboundary)

/-- The vocabulary by token id, with a null for an id that has no piece. -/
def vocabularyArray (vocabulary : Dict ℕ (List UInt8)) : List (Option (List UInt8)) :=
  (List.range ((vocabulary.keys.map (· + 1)).foldr max 0)).map vocabulary.get?

/-- `pc.take`. -/
def takePiece (vocabulary : List (Option (List UInt8))) (token : ℕ) : Except PyError (Option (List UInt8)) :=
  match vocabulary[token]? with
  | some piece => .ok piece
  | none => .error (.index s!"Index {token} out of bounds")

/-- `pc.binary_join(pieces, b"")`: null if a piece is. -/
def joined (pieces : List (Option (List UInt8))) : Option (List UInt8) := (pieces.mapM id).map List.flatten

/-- Where each token ends in the bytes of all texts. -/
def tokenEnds (offsets lengths boundaries : List ℕ) : List ℤ :=
  let sums := cumulative lengths
  List.zipWith (fun (sum : ℕ) (shift : ℤ) => sum + shift) sums.tail
    (repeatEach (List.zipWith (fun boundary offset : ℕ => (boundary : ℤ) - (sums.getD offset 0 : ℕ)) boundaries.dropLast
      offsets.dropLast) (List.zipWith (· - ·) offsets.tail offsets))

/-- `np.searchsorted(chars, x, side="left")`. -/
def searchLeft (chars : List ℕ) (x : ℤ) : ℤ := cut (fun char : ℕ => decide ((char : ℤ) < x)) chars

/-- `np.searchsorted(chars, x, side="right")`. -/
def searchRight (chars : List ℕ) (x : ℤ) : ℤ := cut (fun char : ℕ => decide ((char : ℤ) ≤ x)) chars

/-- The character range of each token in its own text. -/
def tokenPositions (raw : List UInt8) (starts ends : List ℤ) (boundaries counts : List ℕ) : List (ℤ × ℤ) :=
  if raw.all (· < 128) then
    List.zipWith (fun bounds origin => (bounds.1 - origin, bounds.2 - origin)) (starts.zip ends)
      (repeatEach (boundaries.dropLast.map Nat.cast) counts)
  else
    let chars := Utf8.startsFrom 0 raw ++ [raw.length]
    List.zipWith (fun bounds origin => (searchRight chars bounds.1 - 1 - origin, searchLeft chars bounds.2 - origin))
      (starts.zip ends) (repeatEach (boundaries.dropLast.map fun boundary : ℕ => searchLeft chars boundary) counts)

/-- `TokenOffsets.numpy`: flat character ranges, and the rows that preserve the source's bytes. -/
def TokenOffsets.numpy (vocabulary : Dict ℕ (List UInt8)) (tokens : Ragged ℕ) (texts : BinaryArray) :
    Except PyError (List (ℤ × ℤ) × List Bool) := do
  let pieces ← tokens.flat.mapM (takePiece (vocabularyArray vocabulary))
  let offsets := tokens.relative
  let decoded := (cutRows pieces offsets).map joined
  let source := texts.window
  let exact := List.zipWith (fun decoded text => decide (decoded = some text)) decoded source.rows
  let lengths := pieces.map fun piece => (piece.map List.length).getD 0
  let raw := source.flat
  let boundaries := source.relative
  let ends := tokenEnds offsets lengths boundaries
  let starts := List.zipWith (fun (finish : ℤ) (length : ℕ) => finish - length) ends lengths
  return (tokenPositions raw starts ends boundaries (List.zipWith (· - ·) offsets.tail offsets), exact)

/-- `TokenOffsets.__call__`: each row's ranges, null where the row is not exact. -/
def TokenOffsets.call (vocabulary : Dict ℕ (List UInt8)) (tokens : Ragged ℕ) (texts : BinaryArray) :
    Except PyError (List (Option (List (ℤ × ℤ)))) := do
  let (positions, exact) ← TokenOffsets.numpy vocabulary tokens texts
  return List.zipWith (fun row exact => if exact then some row else none) (cutRows positions tokens.relative) exact

/-! ## Positions of a row's tokens -/

variable {α β : Type} {rows lengths : List (List ℕ)} {row : List ℕ} {d k m : ℕ}

/-- Where a row starts in the rows back to back. -/
def rowStart (rows : List (List α)) (d : ℕ) : ℕ := ((rows.map List.length).take d).sum

lemma rowStart_eq (rows : List (List α)) (d : ℕ) : rowStart rows d = (rows.take d).flatten.length := by
  rw [rowStart, List.length_flatten, List.map_take]

lemma rows_split (hd : rows[d]? = some row) : rows.flatten = (rows.take d).flatten ++ (row ++ (rows.drop (d + 1)).flatten) := by
  obtain ⟨hlt, rfl⟩ := List.getElem?_eq_some_iff.1 hd
  conv_lhs => rw [← List.take_append_drop d rows, List.drop_eq_getElem_cons hlt]
  rw [List.flatten_append, List.flatten_cons]

lemma take_flatten (hd : rows[d]? = some row) (hm : m ≤ row.length) :
    rows.flatten.take (rowStart rows d + m) = (rows.take d).flatten ++ row.take m := by
  rw [rows_split hd, rowStart_eq, List.take_length_add_append, List.take_append_of_le_length hm]

lemma sum_take_flatten (hd : rows[d]? = some row) (hm : m ≤ row.length) :
    (rows.flatten.take (rowStart rows d + m)).sum = (rows.take d).flatten.sum + (row.take m).sum := by
  rw [take_flatten hd hm, List.sum_append]

lemma getElem?_repeatEach {xs : List β} {x : β} (hlength : xs.length = rows.length) (hx : xs[d]? = some x)
    (hd : rows[d]? = some row) (hk : k < row.length) :
    (repeatEach xs (rows.map List.length))[rowStart rows d + k]? = some x := by
  have hlists : ((xs.zip (rows.map List.length)).map fun e => List.replicate e.2 e.1).map List.length
      = rows.map List.length := by
    rw [List.map_map]
    simp only [Function.comp_def, List.length_replicate]
    exact List.map_snd_zip (by rw [hlength, List.length_map])
  have hblock : ((xs.zip (rows.map List.length)).map fun e => List.replicate e.2 e.1)[d]?
      = some (List.replicate row.length x) := by
    rw [List.getElem?_map, (List.getElem?_zip_eq_some (z := (x, row.length))).2 ⟨hx, (List.getElem?_map ..).trans (congrArg (Option.map List.length) hd)⟩]
    rfl
  have hflat := getElem?_flatten hblock (k := k) (by rwa [List.length_replicate])
  rw [hlists, List.getElem?_replicate, if_pos hk] at hflat
  rw [repeatEach, List.flatMap_def]
  exact hflat

lemma differences (l : List ℕ) : List.zipWith (· - ·) (cumulative l).tail (cumulative l) = l := by
  have hfrom : ∀ b, List.zipWith (· - ·) (l.scanl (· + ·) b).tail (l.scanl (· + ·) b) = l := by
    induction l with
    | nil => exact fun _ => rfl
    | cons x l ih =>
      intro b
      rw [List.scanl_cons, List.tail_cons, Cumulative.scanl_eq_cons, List.zipWith_cons_cons, Nat.add_sub_cancel_left]
      have hrest := ih (b + x)
      rw [Cumulative.scanl_eq_cons, List.tail_cons] at hrest
      exact congrArg (x :: ·) hrest
  exact hfrom 0

lemma getElem?_dropLast_cumulative {l : List ℕ} (h : d < l.length) : (cumulative l).dropLast[d]? = some (l.take d).sum := by
  have hlength : (cumulative l).length = l.length + 1 := List.length_scanl
  rw [List.getElem?_dropLast, if_pos (by omega), Cumulative.getElem?_eq h.le]

/-- A row's tokens end after their pieces, counted from where its text starts. -/
lemma getElem?_tokenEnds {boundaries : List ℕ} {boundary : ℕ} (hd : rows[d]? = some row) (hk : k < row.length)
    (hlength : boundaries.length = rows.length + 1) (hboundary : boundaries[d]? = some boundary) :
    (tokenEnds (cumulative (rows.map List.length)) rows.flatten boundaries)[rowStart rows d + k]?
      = some ((boundary : ℤ) + (row.take (k + 1)).sum) := by
  have hrow := (List.getElem?_eq_some_iff.1 hd).1
  have hend : rowStart rows d + k + 1 ≤ rows.flatten.length := by
    rw [rows_split hd, rowStart_eq, List.length_append, List.length_append]
    omega
  have hstart : rowStart rows d ≤ rows.flatten.length := by omega
  have hoffsets : (cumulative (rows.map List.length)).length = rows.length + 1 := by
    rw [cumulative, List.length_scanl, List.length_map]
  rw [tokenEnds, differences]
  refine List.getElem?_zipWith_eq_some.2 ⟨(rows.flatten.take (rowStart rows d + k + 1)).sum,
    (boundary : ℤ) - (rows.take d).flatten.sum, ?_, getElem?_repeatEach ?_ ?_ hd hk, ?_⟩
  · rw [List.getElem?_tail, Cumulative.getElem?_eq hend]
  · rw [List.length_zipWith, List.length_dropLast, List.length_dropLast]
    omega
  · refine List.getElem?_zipWith_eq_some.2 ⟨boundary, rowStart rows d, ?_, ?_, ?_⟩
    · rw [List.getElem?_dropLast, if_pos (by omega), hboundary]
    · rw [getElem?_dropLast_cumulative (by rwa [List.length_map])]
      rfl
    · have hsum := sum_take_flatten hd (Nat.zero_le _)
      rw [Nat.add_zero, List.take_zero, List.sum_nil, Nat.add_zero] at hsum
      rw [Cumulative.getD_eq hstart, hsum]
  · have hsum := sum_take_flatten (m := k + 1) hd hk
    rw [Nat.add_assoc, hsum]
    omega

/-! ## Characters of a text among others -/

variable {documents : List (List Char)} {text : List Char} {p q x : ℕ} {sizes : List ℕ}

lemma searchLeft_eq (sizes : List ℕ) (x : ℕ) : searchLeft (cumulative sizes) x = (Cells.reach sizes x : ℕ) := by
  rw [searchLeft, Cells.reach]
  simp only [Int.ofNat_lt]

lemma searchRight_eq (sizes : List ℕ) (x : ℕ) : searchRight (cumulative sizes) x - 1 = (Cumulative.fit sizes x : ℕ) := by
  obtain ⟨e, he, -⟩ := Cumulative.takeWhile_scanl (l := sizes) (Nat.zero_le x)
  have hcut : cut (fun char : ℕ => decide ((char : ℤ) ≤ x)) (cumulative sizes) = e + 1 := by
    simp only [Int.ofNat_le]
    exact he
  rw [searchRight, hcut, Cumulative.fit, bisectRight, cumulative, he]
  omega

/-- The characters of all texts, around those of one. -/
lemma sizes_split (hd : documents[d]? = some text) : Utf8.sizes documents.flatten
    = Utf8.sizes (documents.take d).flatten ++ Utf8.sizes text ++ Utf8.sizes (documents.drop (d + 1)).flatten := by
  obtain ⟨hlt, rfl⟩ := List.getElem?_eq_some_iff.1 hd
  conv_lhs => rw [← List.take_append_drop d documents, List.drop_eq_getElem_cons hlt]
  rw [List.flatten_append, List.flatten_cons, Utf8.sizes, List.map_append, List.map_append, List.append_assoc]
  rfl

lemma encode_flatten (documents : List (List Char)) :
    Utf8.encode documents.flatten = (documents.map Utf8.encode).flatten := by
  induction documents with
  | nil => rfl
  | cons text documents ih =>
    rw [List.flatten_cons, List.map_cons, List.flatten_cons, ← ih]
    exact List.flatMap_append

lemma chars_eq (documents : List (List Char)) : Utf8.startsFrom 0 (Utf8.encode documents.flatten)
    ++ [(Utf8.encode documents.flatten).length] = cumulative (Utf8.sizes documents.flatten) := by
  have hstarts := Utf8.startsFrom_encode documents.flatten 0
  rwa [Nat.zero_add] at hstarts

/-- A token's range, from where it starts and ends in the bytes of its own text. -/
lemma getElem?_tokenPositions {starts ends : List ℤ} {boundary : ℕ} (hd : documents[d]? = some text)
    (hrow : rows[d]? = some row) (hk : k < row.length) (hlength : rows.length = documents.length)
    (hboundary : boundary = (Utf8.sizes (documents.take d).flatten).sum)
    (hstart : starts[rowStart rows d + k]? = some ((boundary : ℤ) + p))
    (hend : ends[rowStart rows d + k]? = some ((boundary : ℤ) + q)) (hpq : p ≤ q) (hq : q ≤ (Utf8.encode text).length) :
    (tokenPositions (Utf8.encode documents.flatten) starts ends
        (cumulative (documents.map fun text => (Utf8.encode text).length)) (rows.map List.length))[rowStart rows d + k]?
      = some ((Cumulative.fit (Utf8.sizes text) p : ℤ), (Cells.reach (Utf8.sizes text) q : ℤ)) := by
  have hd' := (List.getElem?_eq_some_iff.1 hd).1
  have hsum : q ≤ (Utf8.sizes text).sum := by rwa [Utf8.length_encode] at hq
  have hcount : (cumulative (documents.map fun text => (Utf8.encode text).length)).dropLast.length = rows.length := by
    rw [List.length_dropLast, cumulative, List.length_scanl, List.length_map, hlength, Nat.add_sub_cancel]
  have hboundaries : (cumulative (documents.map fun text => (Utf8.encode text).length)).dropLast[d]? = some boundary := by
    rw [getElem?_dropLast_cumulative (by rwa [List.length_map]), hboundary, ← Utf8.length_encode, encode_flatten,
      List.length_flatten, List.map_map, List.map_take]
    rfl
  rw [tokenPositions]
  split
  · rename_i hascii
    have hone : ∀ size ∈ Utf8.sizes text, size = 1 := by
      refine Utf8.sizes_ascii fun b hb => ?_
      have hbyte := List.all_eq_true.1 hascii b (by
        rw [encode_flatten]
        exact List.mem_flatten.2 ⟨Utf8.encode text, List.mem_map_of_mem (List.mem_of_getElem? hd), hb⟩)
      exact of_decide_eq_true hbyte
    have hlength := Cells.sum_ones hone
    rw [(Cells.fit_ones hone (by omega : p ≤ _)).1, (Cells.fit_ones hone (by omega : q ≤ _)).2]
    refine List.getElem?_zipWith_eq_some.2 ⟨((boundary : ℤ) + p, (boundary : ℤ) + q), (boundary : ℤ),
      List.getElem?_zip_eq_some.2 ⟨hstart, hend⟩, getElem?_repeatEach ?_ ?_ hrow hk, ?_⟩
    · rw [List.length_map, hcount]
    · rw [List.getElem?_map, hboundaries]
      rfl
    · dsimp only
      rw [add_sub_cancel_left, add_sub_cancel_left]
  · have hbefore : ∀ size ∈ Utf8.sizes (documents.take d).flatten, 0 < size := Utf8.sizes_pos
    have hafter : ∀ size ∈ Utf8.sizes (documents.drop (d + 1)).flatten, 0 < size := Utf8.sizes_pos
    rw [chars_eq]
    refine List.getElem?_zipWith_eq_some.2 ⟨((boundary : ℤ) + p, (boundary : ℤ) + q),
      ((Utf8.sizes (documents.take d).flatten).length : ℤ), List.getElem?_zip_eq_some.2 ⟨hstart, hend⟩,
      getElem?_repeatEach ?_ ?_ hrow hk, ?_⟩
    · rw [List.length_map, hcount]
    · have horigin := @Cells.reach_append _ (Utf8.sizes text) (Utf8.sizes (documents.drop (d + 1)).flatten) 0 hbefore
        (Nat.zero_le _)
      simp only [Nat.add_zero, Cells.reach_zero] at horigin
      rw [List.getElem?_map, hboundaries, Option.map_some, searchLeft_eq, sizes_split hd, hboundary, horigin]
    · dsimp only
      rw [← Nat.cast_add, ← Nat.cast_add, searchLeft_eq, searchRight_eq, sizes_split hd, hboundary,
        Cells.fit_append hafter (hpq.trans hsum), Cells.reach_append hbefore hsum, Nat.cast_add, Nat.cast_add,
        add_sub_cancel_left, add_sub_cancel_left]

/-! ## The rows of a batch -/

variable {vocabulary : Dict ℕ (List UInt8)} {tokens : Ragged ℕ} {texts : BinaryArray}

/-- A row's pieces concatenate to its text. -/
def Preserves (vocabulary : Dict ℕ (List UInt8)) (row : List ℕ) (text : List Char) : Prop :=
  ∃ pieces, row.mapM vocabulary.get? = some pieces ∧ pieces.flatten = Utf8.encode text

/-- Each token's range is the smallest range of characters that holds its bytes; one without bytes has no
characters, or the one it is inside. -/
def RangesOf (text : List Char) (pieces : List (List UInt8)) (ranges : List (ℤ × ℤ)) : Prop :=
  ranges.length = pieces.length ∧ ∀ k piece, pieces[k]? = some piece → ∃ a b start : ℕ,
    ranges[k]? = some ((a : ℤ), (b : ℤ)) ∧ a ≤ b ∧ b ≤ text.length ∧ start = ((pieces.take k).map List.length).sum ∧
    (piece ≠ [] → Cells.Smallest (Utf8.sizes text) start (start + piece.length) a b) ∧
    (piece = [] → b = a ∧ ((Utf8.sizes text).take a).sum = start ∨
      b = a + 1 ∧ ((Utf8.sizes text).take a).sum < start ∧ start < ((Utf8.sizes text).take b).sum)

lemma vocabularyArray_get {token : ℕ} (h : token < (vocabularyArray vocabulary).length) :
    takePiece (vocabularyArray vocabulary) token = .ok (vocabulary.get? token) := by
  have hget : (vocabularyArray vocabulary)[token]? = some (vocabulary.get? token) := by
    rw [vocabularyArray, List.length_map, List.length_range] at h
    rw [vocabularyArray, List.getElem?_map, List.getElem?_range h]
    rfl
  rw [takePiece, hget]

lemma takePieces (vocabulary : Dict ℕ (List UInt8)) (row : List ℕ) : (∃ token ∈ row, (vocabularyArray vocabulary).length ≤ token) ∧
      (∃ text, row.mapM (takePiece (vocabularyArray vocabulary)) = .error (.index text)) ∨
    row.mapM (takePiece (vocabularyArray vocabulary)) = .ok (row.map vocabulary.get?) := by
  induction row with
  | nil => exact Or.inr rfl
  | cons token row ih =>
    rcases Nat.lt_or_ge token (vocabularyArray vocabulary).length with hlt | hge
    · rw [List.mapM_cons, vocabularyArray_get hlt, ok_bind]
      rcases ih with ⟨⟨other, hother, hbeyond⟩, text, htext⟩ | hok
      · exact Or.inl ⟨⟨other, List.mem_cons_of_mem token hother, hbeyond⟩, text, by rw [htext]; rfl⟩
      · exact Or.inr (by rw [hok]; rfl)
    · refine Or.inl ⟨⟨token, List.mem_cons_self, hge⟩, s!"Index {token} out of bounds", ?_⟩
      rw [List.mapM_cons, takePiece, List.getElem?_eq_none hge]
      rfl

/-- The bytes of a token's piece. -/
def pieceLength (vocabulary : Dict ℕ (List UInt8)) (token : ℕ) : ℕ := ((vocabulary.get? token).map List.length).getD 0

/-- The lengths of each row's pieces. -/
def pieceRows (vocabulary : Dict ℕ (List UInt8)) (tokens : Ragged ℕ) : List (List ℕ) :=
  tokens.rows.map (List.map (pieceLength vocabulary))

/-- Where each text starts in the bytes of all texts, and where the last one ends. -/
def textStarts (documents : List (List Char)) : List ℕ := cumulative (documents.map fun text => (Utf8.encode text).length)

/-- Where the tokens end. -/
def batchEnds (vocabulary : Dict ℕ (List UInt8)) (tokens : Ragged ℕ) (documents : List (List Char)) : List ℤ :=
  tokenEnds (cumulative ((pieceRows vocabulary tokens).map List.length)) (pieceRows vocabulary tokens).flatten
    (textStarts documents)

/-- The ranges of all tokens. -/
def batchPositions (vocabulary : Dict ℕ (List UInt8)) (tokens : Ragged ℕ) (documents : List (List Char)) : List (ℤ × ℤ) :=
  tokenPositions (Utf8.encode documents.flatten)
    (List.zipWith (fun (finish : ℤ) (length : ℕ) => finish - length) (batchEnds vocabulary tokens documents)
      (pieceRows vocabulary tokens).flatten)
    (batchEnds vocabulary tokens documents) (textStarts documents) ((pieceRows vocabulary tokens).map List.length)

lemma pieceRows_length : (pieceRows vocabulary tokens).map List.length = tokens.rows.map List.length := by
  rw [pieceRows, List.map_map]
  simp only [Function.comp_def, List.length_map]

/-- What the pass over a batch computes, by rows. -/
lemma numpy_eq (htexts : texts.window.rows = documents.map Utf8.encode)
    (hpieces : tokens.flat.mapM (takePiece (vocabularyArray vocabulary)) = .ok (tokens.flat.map vocabulary.get?)) :
    TokenOffsets.numpy vocabulary tokens texts = .ok (batchPositions vocabulary tokens documents,
      List.zipWith (fun row text => decide (joined (row.map vocabulary.get?) = some (Utf8.encode text))) tokens.rows
        documents) := by
  have hoffsets : tokens.relative = cumulative ((pieceRows vocabulary tokens).map List.length) := by
    rw [tokens.relative_eq, pieceRows_length]
  have hlengths : (tokens.flat.map vocabulary.get?).map (fun piece => (piece.map List.length).getD 0)
      = (pieceRows vocabulary tokens).flatten := by
    rw [List.map_map, tokens.flat_eq, List.map_flatten]
    rfl
  have hraw : texts.window.flat = Utf8.encode documents.flatten := by
    rw [texts.window.flat_eq, htexts, encode_flatten]
  have hboundaries : texts.window.relative = textStarts documents := by
    rw [texts.window.relative_eq, htexts, List.map_map]
    rfl
  have hdecoded : cutRows (tokens.flat.map vocabulary.get?) tokens.relative
      = tokens.rows.map (List.map vocabulary.get?) := by
    rw [Ragged.cutRows_map, tokens.flat_eq, tokens.relative_eq, Ragged.cutRows_flatten]
  rw [TokenOffsets.numpy, hpieces, ok_bind]
  dsimp only
  rw [hdecoded, hlengths, hraw, hboundaries, hoffsets, htexts, differences, List.map_map, List.zipWith_map]
  rfl

/-- The range of a token of a row whose pieces fit into its text. -/
lemma getElem?_batchPositions {lengths : List ℕ} (hlength : tokens.rows.length = documents.length)
    (hrow : (pieceRows vocabulary tokens)[d]? = some lengths) (hd : documents[d]? = some text) (hk : k < lengths.length)
    (hfits : (lengths.take (k + 1)).sum ≤ (Utf8.encode text).length) :
    (batchPositions vocabulary tokens documents)[rowStart (pieceRows vocabulary tokens) d + k]?
      = some ((Cumulative.fit (Utf8.sizes text) (lengths.take k).sum : ℤ),
        (Cells.reach (Utf8.sizes text) (lengths.take (k + 1)).sum : ℤ)) := by
  have hcount : (pieceRows vocabulary tokens).length = documents.length := by rw [pieceRows, List.length_map, hlength]
  have hlt := (List.getElem?_eq_some_iff.1 hd).1
  have hboundary : (textStarts documents)[d]? = some (Utf8.sizes (documents.take d).flatten).sum := by
    rw [textStarts, Cumulative.getElem?_eq (by rw [List.length_map]; omega), ← Utf8.length_encode, encode_flatten,
      List.length_flatten, List.map_map, List.map_take]
    rfl
  have hend := getElem?_tokenEnds hrow hk (by
    rw [textStarts, cumulative, List.length_scanl, List.length_map, hcount]) hboundary
  have hnext : (lengths.take (k + 1)).sum = (lengths.take k).sum + lengths[k] := by
    rw [List.take_succ_eq_append_getElem hk, List.sum_append, List.sum_singleton]
  refine getElem?_tokenPositions hd hrow hk hcount rfl ?_ hend (Cumulative.sum_take_mono (Nat.le_succ k)) hfits
  refine List.getElem?_zipWith_eq_some.2 ⟨_, lengths[k], hend, ?_, ?_⟩
  · rw [rows_split hrow, rowStart_eq, List.getElem?_append_right (Nat.le_add_right _ _), Nat.add_sub_cancel_left,
      List.getElem?_append_left hk, List.getElem?_eq_getElem hk]
  · rw [hnext]
    omega

lemma pieces_eq {pieces : List (List UInt8)} (h : row.mapM vocabulary.get? = some pieces) :
    row.map vocabulary.get? = pieces.map some := by
  induction row generalizing pieces with
  | nil =>
    cases h
    rfl
  | cons token row ih =>
    rw [List.mapM_cons] at h
    obtain ⟨piece, hpiece, h⟩ := Option.bind_eq_some_iff.1 h
    obtain ⟨rest, hrest, h⟩ := Option.bind_eq_some_iff.1 h
    cases h
    rw [List.map_cons, List.map_cons, hpiece, ih hrest]

lemma pieceLengths_eq {pieces : List (List UInt8)} (h : row.mapM vocabulary.get? = some pieces) :
    row.map (pieceLength vocabulary) = pieces.map List.length := by
  have hlengths := congrArg (List.map fun piece : Option (List UInt8) => (piece.map List.length).getD 0) (pieces_eq h)
  rw [List.map_map, List.map_map] at hlengths
  exact hlengths

lemma joined_iff : joined (row.map vocabulary.get?) = some (Utf8.encode text) ↔ Preserves vocabulary row text := by
  rw [joined, List.mapM_map, Option.map_eq_some_iff]
  rfl

/-- Positions that round each token's bytes out to characters are its row's ranges. -/
lemma rangesOf_slice {positions : List (ℤ × ℤ)} {first : ℕ} {pieces : List (List UInt8)}
    (hflatten : pieces.flatten = Utf8.encode text)
    (hat : ∀ k < pieces.length, positions[first + k]?
      = some ((Cumulative.fit (Utf8.sizes text) ((pieces.map List.length).take k).sum : ℤ),
        (Cells.reach (Utf8.sizes text) ((pieces.map List.length).take (k + 1)).sum : ℤ))) :
    RangesOf text pieces ((positions.take (first + pieces.length)).drop first) := by
  have hsum : ∀ m, ((pieces.map List.length).take m).sum ≤ (Utf8.sizes text).sum := by
    intro m
    rw [← Utf8.length_encode, ← hflatten, List.length_flatten]
    exact (List.take_sublist _ _).sum_le_sum fun _ _ => Nat.zero_le _
  constructor
  · rw [List.length_drop, List.length_take]
    rcases Nat.eq_zero_or_pos pieces.length with hzero | hpos
    · omega
    · have hlast := (List.getElem?_eq_some_iff.1 (hat (pieces.length - 1) (by omega))).1
      omega
  · intro k piece hpiece
    obtain ⟨hk, rfl⟩ := List.getElem?_eq_some_iff.1 hpiece
    have hnext : ((pieces.map List.length).take (k + 1)).sum = ((pieces.map List.length).take k).sum + pieces[k].length := by
      rw [List.take_succ_eq_append_getElem (by rwa [List.length_map]), List.sum_append, List.sum_singleton, List.getElem_map]
    have hfits := hsum (k + 1)
    have hle : ((pieces.map List.length).take k).sum ≤ ((pieces.map List.length).take (k + 1)).sum := by omega
    refine ⟨_, _, ((pieces.map List.length).take k).sum, ?_, Cells.fit_le_reach Utf8.sizes_pos hle hfits, ?_, ?_, ?_, ?_⟩
    · rw [List.getElem?_drop, List.getElem?_take_of_lt (by omega)]
      exact hat k hk
    · have hreach := (Cells.reach_spec hfits).1
      rwa [Utf8.sizes, List.length_map] at hreach
    · rw [List.map_take]
    · intro hne
      have hlt := List.length_pos_of_ne_nil hne
      rw [← hnext]
      exact Cells.smallest (by omega) hfits
    · intro hnil
      rw [hnil, List.length_nil, Nat.add_zero] at hnext
      rw [hnext] at hfits ⊢
      rcases Cells.reach_eq_fit Utf8.sizes_pos hfits with hsame | ⟨hcell, hlow, hhigh⟩
      · refine Or.inl ⟨hsame, le_antisymm Cumulative.sum_fit ?_⟩
        have hend := (Cells.reach_spec hfits).2.1
        rwa [hsame] at hend
      · rw [hcell]
        exact Or.inr ⟨rfl, hlow, hhigh⟩

/-- The ranges of a row whose pieces concatenate to its text. -/
lemma row_ranges {pieces : List (List UInt8)} (hlength : tokens.rows.length = documents.length)
    (hrow : tokens.rows[d]? = some row) (hd : documents[d]? = some text) (hpieces : row.mapM vocabulary.get? = some pieces)
    (hflatten : pieces.flatten = Utf8.encode text) :
    ∃ ranges, (cutRows (batchPositions vocabulary tokens documents) tokens.relative)[d]? = some ranges ∧
      RangesOf text pieces ranges := by
  have hlengths : (pieceRows vocabulary tokens)[d]? = some (pieces.map List.length) := by
    rw [pieceRows, List.getElem?_map, hrow, Option.map_some, pieceLengths_eq hpieces]
  have htotal : (pieces.map List.length).sum = (Utf8.encode text).length := by rw [← hflatten, List.length_flatten]
  have hfits : ∀ m, ((pieces.map List.length).take m).sum ≤ (Utf8.encode text).length := by
    intro m
    rw [← htotal]
    exact (List.take_sublist _ _).sum_le_sum fun _ _ => Nat.zero_le _
  have hdlt : d < (tokens.rows.map List.length).length := by
    rw [List.length_map]
    exact (List.getElem?_eq_some_iff.1 hrow).1
  have hrowLength : row.length = pieces.length := by
    have hmap := congrArg List.length (pieces_eq hpieces)
    rwa [List.length_map, List.length_map] at hmap
  have hstart : ((tokens.rows.map List.length).take d).sum = rowStart (pieceRows vocabulary tokens) d := by
    rw [rowStart, pieceRows_length]
  have hend : ((tokens.rows.map List.length).take (d + 1)).sum
      = rowStart (pieceRows vocabulary tokens) d + pieces.length := by
    have hget : (tokens.rows.map List.length)[d] = row.length := by
      rw [List.getElem_map, (List.getElem?_eq_some_iff.1 hrow).2]
    rw [List.take_succ_eq_append_getElem hdlt, List.sum_append, List.sum_singleton, hstart, hget, hrowLength]
  have hat : ∀ k < pieces.length,
      (batchPositions vocabulary tokens documents)[rowStart (pieceRows vocabulary tokens) d + k]?
        = some ((Cumulative.fit (Utf8.sizes text) ((pieces.map List.length).take k).sum : ℤ),
          (Cells.reach (Utf8.sizes text) ((pieces.map List.length).take (k + 1)).sum : ℤ)) := fun k hk =>
    getElem?_batchPositions hlength hlengths hd (by rwa [List.length_map]) (hfits (k + 1))
  have hcut := Ragged.getElem?_cutRows (batchPositions vocabulary tokens documents) hdlt
  rw [hstart, hend, ← tokens.relative_eq] at hcut
  refine ⟨_, hcut, rangesOf_slice hflatten hat⟩

/-- The two bytes of a character, with a token of no bytes between them. -/
def splitVocabulary : Dict ℕ (List UInt8) := ⟨[(0, [0xC3]), (1, []), (2, [0xA9])], by decide⟩

def splitTokens : Ragged ℕ := ⟨[0, 1, 2], 0, [3], by decide, by decide⟩

def splitTexts : BinaryArray := ⟨[0xC3, 0xA9], [0, 2], 0, 1, by decide, by decide, by decide⟩

end Quail.Tokens
