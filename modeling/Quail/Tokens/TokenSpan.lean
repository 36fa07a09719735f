import Quail.Tokens.Offsets

/-!
# The text of a token span

`token_span` of `executor/operators/set_extract.py`: the characters of some of a document's tokens, spaces
trimmed. Both ends are found by decoding a prefix of the text's bytes, which drops a character that the prefix
ends inside: the start is rounded out to the character it is inside, as in `TokenOffsets`, and so is not the end.
-/

namespace Quail.Tokens

/-! ## The source -/

/-- `str.isspace` of a character. -/
def isspace (c : Char) : Bool :=
  let n := c.toNat
  (9 ≤ n && n ≤ 13) || (28 ≤ n && n ≤ 32) || n == 0x85 || n == 0xA0 || n == 0x1680 || (0x2000 ≤ n && n ≤ 0x200A)
    || n == 0x2028 || n == 0x2029 || n == 0x202F || n == 0x205F || n == 0x3000

/-- `text[i].isspace()`. -/
def spaceAt (text : List Char) (i : ℕ) : Bool := text[i]?.any isspace

/-- The first of so many characters that is no space. -/
def skipSpaces (text : List Char) : ℕ → ℕ → ℕ
  | 0, start => start
  | left + 1, start => if spaceAt text start then skipSpaces text left (start + 1) else start

/-- The end of so many characters, without the spaces before it. -/
def dropSpaces (text : List Char) : ℕ → ℕ → ℕ
  | 0, stop => stop
  | left + 1, stop => if spaceAt text (stop - 1) then dropSpaces text left (stop - 1) else stop

/-- The characters from `start` to `stop`, spaces trimmed, and where they are. -/
def trimSpan (text : List Char) (start stop : ℕ) : Option (List Char × ℕ × ℕ) :=
  let start := skipSpaces text (stop - start) start
  let stop := dropSpaces text (stop - start) stop
  if start = stop then none else some ((text.take stop).drop start, start, stop)

/-- The characters of document tokens `first` to `last`, spaces trimmed. -/
def tokenSpan (text : List Char) (tokens : List ℕ) (vocabulary : Dict ℕ (List UInt8)) (first last : ℕ) :
    Option (List Char × ℕ × ℕ) :=
  let sizes := (tokens.take (last + 1)).map fun token => ((vocabulary.get? token).getD []).length
  let data := Utf8.encode text
  let start := (Utf8.decodeIgnore 0 (data.take (sizes.take first).sum)).length
  let stop := (Utf8.decodeIgnore 0 (data.take sizes.sum)).length
  trimSpan text start stop

/-! ## Trimmed ranges -/

variable {text : List Char} {start stop a b i n : ℕ} {result : Option (List Char × ℕ × ℕ)}

/-- The characters of a range without the spaces at its ends; none where the range holds only spaces. -/
def TrimOf (text : List Char) (a b : ℕ) (result : Option (List Char × ℕ × ℕ)) : Prop :=
  (result = none ↔ ∀ i, a ≤ i → i < b → spaceAt text i = true) ∧
    ∀ span s t, result = some (span, s, t) → span = (text.take t).drop s ∧ a ≤ s ∧ s < t ∧ t ≤ b ∧
      (∀ i, a ≤ i → i < s → spaceAt text i = true) ∧ (∀ i, t ≤ i → i < b → spaceAt text i = true) ∧
      spaceAt text s = false ∧ spaceAt text (t - 1) = false

lemma skipSpaces_spec (text : List Char) (n start : ℕ) : start ≤ skipSpaces text n start ∧
    skipSpaces text n start ≤ start + n ∧ (∀ i, start ≤ i → i < skipSpaces text n start → spaceAt text i = true) ∧
    (skipSpaces text n start < start + n → spaceAt text (skipSpaces text n start) = false) := by
  induction n generalizing start with
  | zero => exact ⟨le_rfl, le_rfl, fun i hlow hhigh => absurd hhigh (Nat.not_lt.2 hlow), fun h => absurd h (lt_irrefl _)⟩
  | succ n ih =>
    rw [skipSpaces]
    cases hspace : spaceAt text start with
    | false =>
      rw [if_neg Bool.false_ne_true]
      exact ⟨le_rfl, Nat.le_add_right _ _, fun i hlow hhigh => absurd hhigh (Nat.not_lt.2 hlow), fun _ => hspace⟩
    | true =>
      rw [if_pos rfl]
      obtain ⟨hlow, hhigh, hspaces, hend⟩ := ih (start + 1)
      refine ⟨by omega, by omega, fun i hi hlt => ?_, fun h => hend (by omega)⟩
      rcases hi.lt_or_eq with hlater | rfl
      · exact hspaces i hlater hlt
      · exact hspace

lemma dropSpaces_spec (text : List Char) (n stop : ℕ) (h : n ≤ stop) : dropSpaces text n stop ≤ stop ∧
    stop ≤ dropSpaces text n stop + n ∧ (∀ i, dropSpaces text n stop ≤ i → i < stop → spaceAt text i = true) ∧
    (stop < dropSpaces text n stop + n → spaceAt text (dropSpaces text n stop - 1) = false) := by
  induction n generalizing stop with
  | zero => exact ⟨le_rfl, le_rfl, fun i hlow hhigh => absurd hhigh (Nat.not_lt.2 hlow), fun h => absurd h (lt_irrefl _)⟩
  | succ n ih =>
    rw [dropSpaces]
    cases hspace : spaceAt text (stop - 1) with
    | false =>
      rw [if_neg Bool.false_ne_true]
      exact ⟨le_rfl, Nat.le_add_right _ _, fun i hlow hhigh => absurd hhigh (Nat.not_lt.2 hlow), fun _ => hspace⟩
    | true =>
      rw [if_pos rfl]
      obtain ⟨hlow, hhigh, hspaces, hend⟩ := ih (stop - 1) (by omega)
      refine ⟨by omega, by omega, fun i hi hlt => ?_, fun h => hend (by omega)⟩
      rcases Nat.lt_or_ge i (stop - 1) with hearlier | hlast
      · exact hspaces i hi hearlier
      · obtain rfl : i = stop - 1 := by omega
        exact hspace

/-- The loops trim the range. -/
theorem trimSpan_spec (text : List Char) (h : start ≤ stop) : TrimOf text start stop (trimSpan text start stop) := by
  obtain ⟨hlow, hhigh, hbefore, hfirst⟩ := skipSpaces_spec text (stop - start) start
  rw [trimSpan]
  generalize skipSpaces text (stop - start) start = s at *
  obtain ⟨hle, hge, hafter, hlast⟩ := dropSpaces_spec text (stop - s) stop (Nat.sub_le _ _)
  generalize dropSpaces text (stop - s) stop = t at *
  have hst : s ≤ t := by omega
  split
  · rename_i hempty
    subst hempty
    refine ⟨⟨fun _ i hi hlt => ?_, fun _ => rfl⟩, fun span s t h => by cases h⟩
    rcases Nat.lt_or_ge i s with hearlier | hlater
    · exact hbefore i hi hearlier
    · exact hafter i hlater hlt
  · rename_i hne
    have hlt : s < t := lt_of_le_of_ne hst hne
    have hstart := hfirst (by omega)
    refine ⟨⟨fun h => (by cases h), fun hall => ?_⟩, fun span first last h => ?_⟩
    · rw [hall s hlow (by omega)] at hstart
      cases hstart
    · cases h
      exact ⟨rfl, hlow, hlt, hle, hbefore, hafter, hstart, hlast (by omega)⟩

/-- A range with one more character trims to the same characters only if that character is a space. -/
lemma trimOf_succ (h : TrimOf text a b result) (hab : a ≤ b) : TrimOf text a (b + 1) result ↔ spaceAt text b = true := by
  obtain ⟨hnone, hsome⟩ := h
  constructor
  · intro hlonger
    cases result with
    | none => exact hlonger.1.1 rfl b hab (Nat.lt_succ_self b)
    | some found =>
      obtain ⟨span, s, t⟩ := found
      obtain ⟨-, -, -, ht, -⟩ := hsome span s t rfl
      obtain ⟨-, -, -, -, -, hspaces, -⟩ := hlonger.2 span s t rfl
      exact hspaces b ht (Nat.lt_succ_self b)
  · intro hspace
    have hone : ∀ i, i < b + 1 → ¬i < b → spaceAt text i = true := by
      intro i hi hge
      obtain rfl : i = b := by omega
      exact hspace
    constructor
    · refine hnone.trans ⟨fun hall i hi hlt => ?_, fun hall i hi hlt => hall i hi (hlt.trans (Nat.lt_succ_self b))⟩
      by_cases hin : i < b
      · exact hall i hi hin
      · exact hone i hlt hin
    · intro span s t hresult
      obtain ⟨hspan, hs, hst, ht, hbefore, hafter, hfirst, hlast⟩ := hsome span s t hresult
      refine ⟨hspan, hs, hst, ht.trans (Nat.le_succ b), hbefore, fun i hi hlt => ?_, hfirst, hlast⟩
      by_cases hin : i < b
      · exact hafter i hi hin
      · exact hone i hlt hin

/-! ## Spans of tokens -/

variable {vocabulary : Dict ℕ (List UInt8)} {row : List ℕ} {pieces : List (List UInt8)} {first last finish : ℕ}

/-- No character but a space has a position inside its bytes. -/
def EndsOutside (text : List Char) (finish : ℕ) : Prop :=
  ∀ i < text.length, ((Utf8.sizes text).take i).sum < finish → finish < ((Utf8.sizes text).take (i + 1)).sum →
    spaceAt text i = true

lemma tokenSpan_eq (hpieces : row.mapM vocabulary.get? = some pieces) (hle : first ≤ last) :
    tokenSpan text row vocabulary first last
      = trimSpan text (Cumulative.fit (Utf8.sizes text) ((pieces.take first).map List.length).sum)
        (Cumulative.fit (Utf8.sizes text) ((pieces.take (last + 1)).map List.length).sum) := by
  have hsizes : (row.take (last + 1)).map (fun token => ((vocabulary.get? token).getD []).length)
      = (pieces.take (last + 1)).map List.length := by
    have hmap := congrArg (List.map fun piece : Option (List UInt8) => (piece.getD []).length) (pieces_eq hpieces)
    rw [List.map_map, List.map_map] at hmap
    rw [List.map_take, List.map_take]
    exact congrArg (List.take (last + 1)) hmap
  have hdecode : ∀ n, (Utf8.decodeIgnore 0 ((Utf8.encode text).take n)).length = Cumulative.fit (Utf8.sizes text) n := by
    intro n
    have hfit := Cumulative.fit_le (l := Utf8.sizes text) (x := n)
    rw [Utf8.sizes, List.length_map] at hfit
    rw [Utf8.decodeIgnore_take, List.length_take, Utf8.sizes, Nat.min_eq_left hfit]
  rw [tokenSpan, hsizes, hdecode, hdecode, ← List.map_take, List.take_take, Nat.min_eq_left (by omega)]

/-- The trimmed span is that of the characters that hold the bytes exactly where the end is inside no character but
a space. -/
lemma trimSpan_iff (h : start ≤ finish) (hfinish : finish ≤ (Utf8.sizes text).sum) :
    TrimOf text (Cumulative.fit (Utf8.sizes text) start) (Cells.reach (Utf8.sizes text) finish)
      (trimSpan text (Cumulative.fit (Utf8.sizes text) start) (Cumulative.fit (Utf8.sizes text) finish)) ↔
    EndsOutside text finish := by
  have hmono := @Cells.fit_mono (Utf8.sizes text) _ _ h
  have htrim := trimSpan_spec text hmono
  have hcell : ∀ i < text.length, ((Utf8.sizes text).take i).sum < finish →
      finish < ((Utf8.sizes text).take (i + 1)).sum → Cumulative.fit (Utf8.sizes text) finish = i := by
    intro i hi hlow hhigh
    refine Cumulative.fit_eq ?_ hlow.le fun _ => hhigh
    rw [Utf8.sizes, List.length_map]
    exact hi.le
  rcases Cells.reach_eq_fit Utf8.sizes_pos hfinish with hsame | ⟨hnext, hlow, hhigh⟩
  · rw [hsame]
    refine ⟨fun _ i hi hlow hhigh => ?_, fun _ => htrim⟩
    have hend := (Cells.reach_spec hfinish).2.1
    rw [hsame, hcell i hi hlow hhigh] at hend
    omega
  · rw [hnext, trimOf_succ htrim hmono]
    constructor
    · intro hspace i hi hlow hhigh
      rwa [← hcell i hi hlow hhigh]
    · intro hends
      refine hends _ ?_ hlow hhigh
      have hreach := (Cells.reach_spec hfinish).1
      rw [hnext, Utf8.sizes, List.length_map] at hreach
      exact hreach

/-- A token's range, whether or not the token has bytes. -/
lemma RangesOf.range {ranges : List (ℤ × ℤ)} (h : RangesOf text pieces ranges) (hflatten : pieces.flatten = Utf8.encode text)
    {k : ℕ} (hk : k < pieces.length) :
    ranges[k]? = some ((Cumulative.fit (Utf8.sizes text) ((pieces.take k).map List.length).sum : ℤ),
      (Cells.reach (Utf8.sizes text) ((pieces.take (k + 1)).map List.length).sum : ℤ)) := by
  have hnext : ((pieces.take (k + 1)).map List.length).sum = ((pieces.take k).map List.length).sum + pieces[k].length := by
    rw [List.take_succ_eq_append_getElem hk, List.map_append, List.sum_append, List.map_singleton, List.sum_singleton]
  have hfits : ((pieces.take (k + 1)).map List.length).sum ≤ (Utf8.sizes text).sum := by
    rw [← Utf8.length_encode, ← hflatten, List.length_flatten, List.map_take]
    exact (List.take_sublist _ _).sum_le_sum fun _ _ => Nat.zero_le _
  obtain ⟨a, b, start, hrange, hab, hb, rfl, hpiece, hempty⟩ := h.2 k pieces[k] (List.getElem?_eq_getElem hk)
  rw [hrange]
  have hlength : a ≤ (Utf8.sizes text).length := by
    rw [Utf8.sizes, List.length_map]
    exact hab.trans hb
  by_cases hnil : pieces[k] = []
  · simp only [hnil, List.length_nil, Nat.add_zero] at hnext
    rw [hnext] at hfits ⊢
    rcases hempty hnil with ⟨rfl, hboundary⟩ | ⟨rfl, hlow, hhigh⟩
    · obtain ⟨hfit, hreach⟩ := Cells.fit_boundary Utf8.sizes_pos hlength
      rw [← hboundary, hfit, hreach]
    · have hfit := Cumulative.fit_eq hlength hlow.le fun _ => hhigh
      obtain ⟨-, hend, -⟩ := Cells.reach_spec hfits
      rcases Cells.reach_eq_fit Utf8.sizes_pos hfits with hsame | ⟨hcell, -⟩
      · rw [hsame, hfit] at hend
        omega
      · rw [hcell, hfit]
  · have hlt := List.length_pos_of_ne_nil hnil
    rw [← hnext] at hpiece
    obtain ⟨rfl, rfl⟩ := (hpiece hnil).unique (Cells.smallest (by omega) hfits)
    rfl

/-- The characters of some tokens: the smallest range that holds their bytes if they have any, from where the first
token's range starts to where the last one's ends. -/
def SpanRange (text : List Char) (pieces : List (List UInt8)) (first last a b : ℕ) : Prop :=
  (((pieces.take first).map List.length).sum < ((pieces.take (last + 1)).map List.length).sum →
    Cells.Smallest (Utf8.sizes text) ((pieces.take first).map List.length).sum
      ((pieces.take (last + 1)).map List.length).sum a b) ∧
  ∀ ranges : List (ℤ × ℤ), RangesOf text pieces ranges →
    ∃ start finish : ℤ × ℤ, ranges[first]? = some start ∧ ranges[last]? = some finish ∧ start.1 = a ∧ finish.2 = b

lemma exists_rangesOf (hflatten : pieces.flatten = Utf8.encode text) : ∃ ranges, RangesOf text pieces ranges := by
  refine ⟨_, @rangesOf_slice text ((List.range pieces.length).map fun k =>
    ((Cumulative.fit (Utf8.sizes text) ((pieces.map List.length).take k).sum : ℤ),
      (Cells.reach (Utf8.sizes text) ((pieces.map List.length).take (k + 1)).sum : ℤ))) 0 pieces hflatten fun k hk => ?_⟩
  rw [Nat.zero_add, List.getElem?_map, List.getElem?_range hk]
  rfl

/-- The span of some tokens is their characters with the spaces trimmed exactly where the last token ends inside no
character but a space. -/
theorem tokenSpan_iff (hpieces : row.mapM vocabulary.get? = some pieces) (hflatten : pieces.flatten = Utf8.encode text)
    (hle : first ≤ last) (hlast : last < row.length) :
    (∃ a b, SpanRange text pieces first last a b ∧ TrimOf text a b (tokenSpan text row vocabulary first last)) ↔
      EndsOutside text ((pieces.take (last + 1)).map List.length).sum := by
  have hlength := congrArg List.length (pieces_eq hpieces)
  rw [List.length_map, List.length_map] at hlength
  have hmono : ((pieces.take first).map List.length).sum ≤ ((pieces.take (last + 1)).map List.length).sum := by
    rw [List.map_take, List.map_take]
    exact Cumulative.sum_take_mono (by omega)
  have hfits : ((pieces.take (last + 1)).map List.length).sum ≤ (Utf8.sizes text).sum := by
    rw [← Utf8.length_encode, ← hflatten, List.length_flatten, List.map_take]
    exact (List.take_sublist _ _).sum_le_sum fun _ _ => Nat.zero_le _
  have hends : ∀ ranges, RangesOf text pieces ranges → ∃ start finish : ℤ × ℤ, ranges[first]? = some start ∧
      ranges[last]? = some finish ∧ start.1 = Cumulative.fit (Utf8.sizes text) ((pieces.take first).map List.length).sum ∧
      finish.2 = Cells.reach (Utf8.sizes text) ((pieces.take (last + 1)).map List.length).sum := fun ranges hranges =>
    ⟨_, _, hranges.range hflatten (by omega), hranges.range hflatten (by omega), rfl, rfl⟩
  rw [tokenSpan_eq hpieces hle, ← trimSpan_iff hmono hfits]
  constructor
  · rintro ⟨a, b, hrange, htrim⟩
    obtain ⟨ranges, hranges⟩ := exists_rangesOf hflatten
    obtain ⟨start, finish, hstart, hfinish, ha, hb⟩ := hends ranges hranges
    obtain ⟨start', finish', hstart', hfinish', ha', hb'⟩ := hrange.2 ranges hranges
    obtain rfl := Option.some.inj (hstart.symm.trans hstart')
    obtain rfl := Option.some.inj (hfinish.symm.trans hfinish')
    rw [ha] at ha'
    rw [hb] at hb'
    obtain rfl := Int.ofNat_inj.1 ha'
    obtain rfl := Int.ofNat_inj.1 hb'
    exact htrim
  · exact fun htrim => ⟨_, _, ⟨fun hlt => Cells.smallest hlt hfits, hends⟩, htrim⟩

lemma tokenSpan_iff_last : (∃ a b, SpanRange ['a', 'é'] [[0x61, 0xC3], [0xA9]] 0 1 a b ∧
      TrimOf ['a', 'é'] a b (tokenSpan ['a', 'é'] [0, 1] ⟨[(0, [0x61, 0xC3]), (1, [0xA9])], by decide⟩ 0 1)) ↔
    EndsOutside ['a', 'é'] ((List.take 2 [[0x61, 0xC3], [0xA9]]).map List.length).sum :=
  @tokenSpan_iff ['a', 'é'] _ [0, 1] [[0x61, 0xC3], [0xA9]] 0 1 (by decide +kernel) (by decide +kernel) (by decide)
    (by decide)

/-- The first token of two, which ends inside a character, loses it. -/
theorem tokenSpan_split : tokenSpan ['a', 'é'] [0, 1] ⟨[(0, [0x61, 0xC3]), (1, [0xA9])], by decide⟩ 0 0
      = some (['a'], 0, 1) ∧
    ¬∃ a b, SpanRange ['a', 'é'] [[0x61, 0xC3], [0xA9]] 0 0 a b ∧
      TrimOf ['a', 'é'] a b (tokenSpan ['a', 'é'] [0, 1] ⟨[(0, [0x61, 0xC3]), (1, [0xA9])], by decide⟩ 0 0) := by
  have hspan : tokenSpan ['a', 'é'] [0, 1] ⟨[(0, [0x61, 0xC3]), (1, [0xA9])], by decide⟩ 0 0 = some (['a'], 0, 1) := by
    decide +kernel
  refine ⟨hspan, ?_⟩
  rintro ⟨a, b, hrange, htrim⟩
  rw [hspan] at htrim
  -- the two bytes of the first token reach into the second character
  obtain ⟨i, -, hib, hlow, hhigh⟩ := (hrange.1 (by decide)).1 1 (by decide) (by decide)
  have hi : 1 ≤ i := by
    by_contra hlt
    obtain rfl : i = 0 := by omega
    exact absurd hhigh (by decide +kernel)
  obtain ⟨-, -, -, -, -, hspaces, -⟩ := htrim.2 ['a'] 0 1 rfl
  exact absurd (hspaces 1 le_rfl (by omega)) (by decide +kernel)

end Quail.Tokens
