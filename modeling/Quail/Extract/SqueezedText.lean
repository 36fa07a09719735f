import Quail.Extract.HeldPrefix
import Quail.Lib.Cumulative

/-!
# The windows of a squeezed document

`SqueezedText` and `Stream.window` of `executor/extract/candidates.py`. A document is squeezed once: each run of
whitespace becomes one space, and an array says where in the document each character ends. A window is cut from the
squeezed text by two searches in that array; it is the squeezed text of its part of the document.
-/

namespace Quail.Extract.Candidates
open Quail.Tokens

/-! ## The source -/

/-- `re.finditer(r"\s{2,}", text)`: the runs of two or more whitespace characters, from a position on. The first
number is where the run that goes on at the position started. -/
def longRuns : ℕ → ℕ → List Char → List (ℕ × ℕ)
  | _, _, [] => []
  | start, position, c :: rest =>
    if isspace c && rest.head?.any isspace then longRuns start (position + 1) rest
    else (if isspace c && start + 2 ≤ position + 1 then [(start, position + 1)] else []) ++
      longRuns (position + 1) (position + 1) rest

/-- `" ".join(text.split())`, with a space for the whitespace at either end of the text. -/
def squeezedChars (text : List Char) : List Char :=
  let words := [' '].intercalate (split text)
  let led := if text.head?.any isspace then ' ' :: words else words
  if text.getLast?.any isspace && led != [' '] then led ++ [' '] else led

/-- `np.cumsum` -/
def cumsum (l : List ℕ) : List ℕ := (cumulative l).tail

/-- Where in the document each of so many squeezed characters ends. -/
def squeezedEnds (text : List Char) (size : ℕ) : List ℕ :=
  let ends := List.range' 1 size
  let runs := longRuns 0 0 text
  if runs = [] then ends
  else
    let removed := runs.map fun run => run.2 - run.1 - 1
    let starts := runs.map Prod.fst
    let positions := List.zipWith (· - ·) starts (List.zipWith (· - ·) (cumsum removed) removed)
    let shifts := (positions.zip removed).foldl (fun shifts p => shifts.set p.1 p.2) (List.replicate size 0)
    List.zipWith (· + ·) ends (cumsum shifts)

/-- A document with single spaces, and a map to the original ends of its characters. -/
structure SqueezedText where
  text : List Char
  ends : List ℕ
  deriving DecidableEq

/-- `SqueezedText(text)` -/
def SqueezedText.of (text : List Char) : SqueezedText :=
  ⟨squeezedChars text, squeezedEnds text (squeezedChars text).length⟩

/-- The squeezed text of an interval of the document, and the ends of its characters. -/
def SqueezedText.window (s : SqueezedText) (start stop : ℕ) : List Char × List ℕ :=
  if stop ≤ start then ([], [])
  else
    let left := bisectRight s.ends start
    let right := bisectRight s.ends (stop - 1) + 1
    let ends := (s.ends.take right).drop left
    -- a window may end inside a whitespace run
    let ends := if ends.getLast?.any (stop < ·) then ends.dropLast ++ [stop] else ends
    ((s.text.take right).drop left, ends)

variable {text rest : List Char} {c : Char} {position start stop n k prev : ℕ} {l : List (Char × ℕ)}

/-! ## What squeezing is -/

/-- What a character is squeezed to. -/
def squeezed (c : Char) : Char := if isspace c then ' ' else c

/-- The squeezed characters of a text, from a position on, and where they end: a whitespace character is left out
when another one follows it. -/
def squeeze : ℕ → List Char → List (Char × ℕ)
  | _, [] => []
  | position, c :: rest =>
    if isspace c && rest.head?.any isspace then squeeze (position + 1) rest
    else (squeezed c, position + 1) :: squeeze (position + 1) rest

lemma squeeze_skip (h : (isspace c && rest.head?.any isspace) = true) :
    squeeze position (c :: rest) = squeeze (position + 1) rest := by
  rw [squeeze, h]
  rfl

lemma squeeze_keep (h : (isspace c && rest.head?.any isspace) = false) :
    squeeze position (c :: rest) = (squeezed c, position + 1) :: squeeze (position + 1) rest := by
  rw [squeeze, h]
  rfl

/-! ## The squeezed characters -/

/-- A text without words is all whitespace. -/
lemma split_eq_nil (h : split text = []) : ∀ c ∈ text, isspace c = true := by
  induction text with
  | nil => simp
  | cons c rest ih =>
    cases hc : isspace c with
    | false => exact absurd h (split_ne_nil hc)
    | true =>
      rw [split_of_space hc] at h
      intro x hx
      rcases List.mem_cons.1 hx with rfl | hx
      · exact hc
      · exact ih h x hx

/-- The words with a space between each two. -/
def spacedWords (text : List Char) : List Char := [' '].intercalate (split text)

lemma spacedWords_of_space (hc : isspace c = true) : spacedWords (c :: rest) = spacedWords rest := by
  unfold spacedWords
  rw [split_of_space hc]

lemma spacedWords_cons {x : Char} (hc : isspace c = false) (hx : isspace x = false) :
    spacedWords (c :: x :: rest) = c :: spacedWords (x :: rest) := by
  unfold spacedWords
  rw [split_cons hc hx]
  cases hs : split (x :: rest) with
  | nil => exact absurd hs (split_ne_nil hx)
  | cons word words =>
    cases words with
    | nil => simp [consHead]
    | cons next words => simp [consHead]

lemma spacedWords_last (hc : isspace c = false) (hrest : rest.head?.all isspace = true) :
    spacedWords (c :: rest) = c :: if split rest = [] then [] else ' ' :: spacedWords rest := by
  unfold spacedWords
  rw [split_last hc hrest]
  cases hs : split rest with
  | nil => simp
  | cons word words => simp

/-- A word comes first. -/
lemma head?_spacedWords (h : split text ≠ []) : ∃ c, (spacedWords text).head? = some c ∧ isspace c = false := by
  cases hs : split text with
  | nil => exact absurd hs h
  | cons word words =>
    obtain ⟨hne, hword⟩ := mem_split (show word ∈ split text by simp [hs])
    cases word with
    | nil => exact absurd rfl hne
    | cons c word =>
      refine ⟨c, ?_, hword c (List.mem_cons_self)⟩
      unfold spacedWords
      rw [hs]
      cases words with
      | nil => simp
      | cons next words => simp

lemma spacedWords_eq_nil : spacedWords text = [] ↔ split text = [] := by
  constructor
  · intro h
    by_contra hs
    obtain ⟨c, hc, -⟩ := head?_spacedWords hs
    rw [h] at hc
    cases hc
  · intro h
    unfold spacedWords
    rw [h]
    rfl

/-- The squeezed characters: the words with single spaces, and one at either end where the text has whitespace. -/
lemma map_fst_squeeze : (squeeze position text).map Prod.fst =
    (if text.head?.any isspace then [' '] else []) ++ spacedWords text ++
      if text.getLast?.any isspace && !(split text).isEmpty then [' '] else [] := by
  induction text generalizing position with
  | nil => rfl
  | cons c rest ih =>
    cases rest with
    | nil =>
      rw [squeeze_keep (by simp)]
      cases hc : isspace c with
      | true => simp [squeeze, squeezed, spacedWords, hc, split]
      | false => simp [squeeze, squeezed, spacedWords, hc, split]
    | cons x rest =>
      have hlast : (c :: x :: rest).getLast? = (x :: rest).getLast? := List.getLast?_cons_cons
      rw [hlast]
      cases hc : isspace c with
      | true =>
        rw [split_of_space hc, spacedWords_of_space hc]
        cases hx : isspace x with
        | true =>
          rw [squeeze_skip (by simp [hc, hx]), ih]
          simp [hc, hx]
        | false =>
          rw [squeeze_keep (by simp [hx]), List.map_cons, ih]
          simp [hc, hx, squeezed]
      | false =>
        rw [squeeze_keep (by simp [hc]), List.map_cons, ih]
        cases hx : isspace x with
        | true =>
          rw [spacedWords_last hc (by simp [hx]), split_last hc (by simp [hx])]
          cases hs : split (x :: rest) with
          | nil =>
            -- the rest of the text is one run of whitespace
            have hspace : (x :: rest).getLast?.any isspace = true := by
              rw [List.getLast?_eq_some_getLast (List.cons_ne_nil _ _), Option.any_some]
              exact split_eq_nil hs _ (List.getLast_mem _)
            rw [hspace, spacedWords_eq_nil.2 hs]
            simp [hc, hx, squeezed]
          | cons word words => simp [hc, hx, squeezed]
        | false =>
          have hwords : split (c :: x :: rest) ≠ [] := split_ne_nil hc
          have hwords' : split (x :: rest) ≠ [] := split_ne_nil hx
          rw [spacedWords_cons hc hx]
          simp [hc, hx, squeezed, hwords, hwords']

/-- The squeezed document holds the squeezed characters. -/
lemma squeezedChars_eq : squeezedChars text = (squeeze 0 text).map Prod.fst := by
  rw [map_fst_squeeze]
  unfold squeezedChars
  dsimp only
  rw [show [' '].intercalate (split text) = spacedWords text from rfl]
  cases hhead : text.head?.any isspace with
  | true =>
    cases hs : split text with
    | nil => simp [spacedWords_eq_nil.2 hs]
    | cons word words =>
      have hne : spacedWords text ≠ [] := fun h => by simp [spacedWords_eq_nil.1 h] at hs
      simp [hne]
      cases text.getLast?.any isspace <;> simp
  | false =>
    cases hs : split text with
    | nil =>
      cases text with
      | nil => rfl
      | cons c rest =>
        rw [List.head?_cons, Option.any_some, split_eq_nil hs c List.mem_cons_self] at hhead
        cases hhead
    | cons word words =>
      obtain ⟨c, hfirst, hc⟩ := head?_spacedWords (show split text ≠ [] by simp [hs])
      have hne : spacedWords text ≠ [' '] := by
        intro h
        rw [h] at hfirst
        obtain rfl := Option.some.inj hfirst
        cases hc
      simp [hne]
      cases text.getLast?.any isspace <;> simp

/-! ## The ends -/

lemma mem_squeeze {p : Char × ℕ} (h : p ∈ squeeze position text) :
    position < p.2 ∧ p.2 ≤ position + text.length := by
  induction text generalizing position with
  | nil => cases h
  | cons c rest ih =>
    rw [List.length_cons]
    cases hskip : isspace c && rest.head?.any isspace with
    | true =>
      rw [squeeze, hskip] at h
      have := ih h
      omega
    | false =>
      rw [squeeze_keep hskip] at h
      rcases List.mem_cons.1 h with rfl | h
      · simp
      · have := ih h
        omega

/-- The ends rise from the position on. -/
lemma squeeze_rising : (position :: (squeeze position text).map Prod.snd).Pairwise (· < ·) := by
  have hfrom : ∀ e ∈ (squeeze position text).map Prod.snd, position < e := by
    intro e he
    obtain ⟨p, hp, rfl⟩ := List.mem_map.1 he
    exact (mem_squeeze hp).1
  refine List.pairwise_cons.2 ⟨hfrom, ?_⟩
  clear hfrom
  induction text generalizing position with
  | nil => exact List.Pairwise.nil
  | cons c rest ih =>
    cases hskip : isspace c && rest.head?.any isspace with
    | true =>
      rw [squeeze, hskip]
      exact ih
    | false =>
      rw [squeeze_keep hskip, List.map_cons]
      refine List.pairwise_cons.2 ⟨fun e he => ?_, ih⟩
      obtain ⟨p, hp, rfl⟩ := List.mem_map.1 he
      exact (mem_squeeze hp).1

/-- The long runs of whitespace, read off the ends. -/
def runsOf : ℕ → List (Char × ℕ) → List (ℕ × ℕ)
  | _, [] => []
  | prev, (_, stop) :: l => (if prev + 2 ≤ stop then [(prev, stop)] else []) ++ runsOf stop l

lemma longRuns_eq (h : start = position ∨ start < position ∧ text.head?.any isspace = true) :
    longRuns start position text = runsOf start (squeeze position text) := by
  induction text generalizing start position with
  | nil => rfl
  | cons c rest ih =>
    cases hskip : isspace c && rest.head?.any isspace with
    | true =>
      rw [longRuns, squeeze, hskip]
      rw [Bool.and_eq_true] at hskip
      refine ih (.inr ⟨?_, hskip.2⟩)
      rcases h with h | h <;> omega
    | false =>
      have hrun : (isspace c && start + 2 ≤ position + 1) = decide (start + 2 ≤ position + 1) := by
        cases hc : isspace c with
        | true => rfl
        | false =>
          rcases h with rfl | ⟨-, hhead⟩
          · simp
          · rw [List.head?_cons, Option.any_some, hc] at hhead
            cases hhead
      rw [longRuns, squeeze_keep hskip, hskip, if_neg Bool.false_ne_true, hrun, ih (.inl rfl)]
      simp only [decide_eq_true_eq]
      rfl

/-- How many characters each long run loses. -/
def removedOf (runs : List (ℕ × ℕ)) : List ℕ := runs.map fun run => run.2 - run.1 - 1

/-- Where the spaces for the long runs stand among the squeezed characters. -/
def spacesOf : ℕ → ℕ → List (Char × ℕ) → List ℕ
  | _, _, [] => []
  | i, prev, (_, stop) :: l => (if prev + 2 ≤ stop then [i] else []) ++ spacesOf (i + 1) stop l

/-- How many characters of the document go before each squeezed character besides its own. -/
def shiftsOf : ℕ → List (Char × ℕ) → List ℕ
  | _, [] => []
  | prev, (_, stop) :: l => (stop - prev - 1) :: shiftsOf stop l

/-- A run's space stands where the run starts, less what the earlier runs lose. -/
lemma positions_eq {i r : ℕ} (h : (prev :: l.map Prod.snd).Pairwise (· < ·)) (hprev : prev = i + r) :
    List.zipWith (· - ·) ((runsOf prev l).map Prod.fst)
      (List.zipWith (· - ·) ((removedOf (runsOf prev l)).scanl (· + ·) r).tail (removedOf (runsOf prev l))) =
        spacesOf i prev l := by
  induction l generalizing prev i r with
  | nil => rfl
  | cons p l ih =>
    obtain ⟨hfirst, hrest⟩ := List.pairwise_cons.1 h
    have hlt : prev < p.2 := hfirst p.2 (by simp)
    rw [runsOf, spacesOf]
    split_ifs with hlong
    · have hnext := ih (i := i + 1) (r := r + (p.2 - prev - 1)) hrest (by omega)
      have hi : prev - (r + (p.2 - prev - 1) - (p.2 - prev - 1)) = i := by omega
      have hremoved : removedOf ([(prev, p.2)] ++ runsOf p.2 l) = (p.2 - prev - 1) :: removedOf (runsOf p.2 l) := rfl
      rw [hremoved, List.singleton_append, List.map_cons, List.scanl_cons, List.tail_cons,
        Cumulative.scanl_eq_cons, List.zipWith_cons_cons, List.zipWith_cons_cons, hi, hnext]
      rfl
    · have hone : p.2 = (i + 1) + r := by omega
      exact ih hrest hone

/-- The shifts: what each run loses, at its space, and nothing elsewhere. -/
lemma shifts_eq {i : ℕ} (before : List ℕ) (h : (prev :: l.map Prod.snd).Pairwise (· < ·))
    (hi : before.length = i) :
    ((spacesOf i prev l).zip (removedOf (runsOf prev l))).foldl (fun shifts p => shifts.set p.1 p.2)
      (before ++ List.replicate l.length 0) = before ++ shiftsOf prev l := by
  induction l generalizing prev i before with
  | nil => rfl
  | cons p l ih =>
    obtain ⟨hfirst, hrest⟩ := List.pairwise_cons.1 h
    have hlt : prev < p.2 := hfirst p.2 (by simp)
    have hnext := ih (before ++ [p.2 - prev - 1]) hrest (show _ = i + 1 by simp [hi])
    rw [List.append_assoc, List.append_assoc] at hnext
    rw [runsOf, spacesOf, shiftsOf, List.length_cons, List.replicate_succ]
    split_ifs with hlong
    · have hset : (before ++ 0 :: List.replicate l.length 0).set i (p.2 - prev - 1) =
          before ++ (p.2 - prev - 1) :: List.replicate l.length 0 := by
        rw [List.set_append_right _ _ (by omega), hi, Nat.sub_self, List.set_cons_zero]
      show ((spacesOf (i + 1) p.2 l).zip (removedOf (runsOf p.2 l))).foldl _
        ((before ++ 0 :: List.replicate l.length 0).set i (p.2 - prev - 1)) = _
      rw [hset]
      exact hnext
    · have hzero : p.2 - prev - 1 = 0 := by omega
      rw [hzero] at hnext ⊢
      exact hnext

/-- An end is the place of its character, and what was lost before it. -/
lemma ends_eq {i r : ℕ} (h : (prev :: l.map Prod.snd).Pairwise (· < ·)) (hprev : prev = i + r) :
    List.zipWith (· + ·) (List.range' (i + 1) l.length) ((shiftsOf prev l).scanl (· + ·) r).tail =
      l.map Prod.snd := by
  induction l generalizing prev i r with
  | nil => rfl
  | cons p l ih =>
    obtain ⟨hfirst, hrest⟩ := List.pairwise_cons.1 h
    have hlt : prev < p.2 := hfirst p.2 (by simp)
    have hnext := ih (i := i + 1) (r := r + (p.2 - prev - 1)) hrest (by omega)
    have hi : i + 1 + (r + (p.2 - prev - 1)) = p.2 := by omega
    rw [shiftsOf, List.length_cons, List.range'_succ, List.scanl_cons, List.tail_cons,
      Cumulative.scanl_eq_cons, List.zipWith_cons_cons, hi, hnext]
    rfl

/-- Without long runs the ends are the places. -/
lemma ends_of_no_runs (h : (prev :: l.map Prod.snd).Pairwise (· < ·)) (hruns : runsOf prev l = []) :
    List.range' (prev + 1) l.length = l.map Prod.snd := by
  induction l generalizing prev with
  | nil => rfl
  | cons p l ih =>
    obtain ⟨hfirst, hrest⟩ := List.pairwise_cons.1 h
    have hlt : prev < p.2 := hfirst p.2 (by simp)
    rw [runsOf, List.append_eq_nil_iff] at hruns
    obtain ⟨hshort, hruns⟩ := hruns
    have hone : p.2 = prev + 1 := by
      by_contra hne
      rw [if_pos (by omega)] at hshort
      cases hshort
    rw [List.length_cons, List.range'_succ, List.map_cons, ← ih hrest hruns, hone]

/-- A squeezed document is made of its squeezed characters and their ends. -/
theorem SqueezedText.of_eq (text : List Char) :
    SqueezedText.of text = ⟨(squeeze 0 text).map Prod.fst, (squeeze 0 text).map Prod.snd⟩ := by
  have hrising : (0 :: (squeeze 0 text).map Prod.snd).Pairwise (· < ·) := squeeze_rising
  have hruns : longRuns 0 0 text = runsOf 0 (squeeze 0 text) := longRuns_eq (.inl rfl)
  unfold SqueezedText.of squeezedEnds
  rw [squeezedChars_eq, List.length_map, hruns]
  congr 1
  dsimp only
  split_ifs with hnone
  · exact ends_of_no_runs hrising hnone
  · have hpositions := positions_eq (i := 0) (r := 0) hrising rfl
    have hshifts := shifts_eq [] hrising List.length_nil
    have hends := ends_eq (i := 0) (r := 0) hrising rfl
    rw [List.nil_append, List.nil_append] at hshifts
    unfold cumsum cumulative
    rw [show (runsOf 0 (squeeze 0 text)).map (fun run => run.2 - run.1 - 1) =
      removedOf (runsOf 0 (squeeze 0 text)) from rfl, hpositions, hshifts]
    exact hends

/-! ## Windows -/

/-- A text further on is squeezed the same way. -/
lemma squeeze_add : squeeze (position + k) text = (squeeze position text).map fun p => (p.1, p.2 + k) := by
  induction text generalizing position with
  | nil => rfl
  | cons c rest ih =>
    have hnext : position + k + 1 = position + 1 + k := by omega
    cases hskip : isspace c && rest.head?.any isspace with
    | true => rw [squeeze_skip hskip, squeeze_skip hskip, hnext, ih]
    | false => rw [squeeze_keep hskip, squeeze_keep hskip, List.map_cons, hnext, ih]

lemma bisectRight_past {e x : ℕ} {ends : List ℕ} (h : x < e) : bisectRight (e :: ends) x = 0 := by
  unfold bisectRight
  rw [List.takeWhile_cons_of_neg (by simpa using h), List.length_nil]

lemma bisectRight_cons {e x : ℕ} {ends : List ℕ} (h : e ≤ x) :
    bisectRight (e :: ends) x = bisectRight ends x + 1 := by
  unfold bisectRight
  rw [List.takeWhile_cons_of_pos (by simpa using h), List.length_cons]

/-- How many squeezed characters of a text end by a place in the document. -/
def endsBy (position : ℕ) (text : List Char) (x : ℕ) : ℕ := bisectRight ((squeeze position text).map Prod.snd) x

lemma endsBy_self : endsBy position text position = 0 := by
  have hrising : (position :: (squeeze position text).map Prod.snd).Pairwise (· < ·) := squeeze_rising
  unfold endsBy
  cases hl : (squeeze position text).map Prod.snd with
  | nil => rfl
  | cons e ends =>
    rw [hl] at hrising
    exact bisectRight_past ((List.pairwise_cons.1 hrising).1 e List.mem_cons_self)

lemma endsBy_skip {x : ℕ} (h : (isspace c && rest.head?.any isspace) = true) :
    endsBy position (c :: rest) x = endsBy (position + 1) rest x := by
  unfold endsBy
  rw [squeeze_skip h]

lemma endsBy_keep {x : ℕ} (h : (isspace c && rest.head?.any isspace) = false) (hx : position + 1 ≤ x) :
    endsBy position (c :: rest) x = endsBy (position + 1) rest x + 1 := by
  unfold endsBy
  rw [squeeze_keep h, List.map_cons, bisectRight_cons hx]

/-- What follows a position of the document is squeezed to what ends past it. -/
lemma squeeze_drop : squeeze (position + n) (text.drop n) =
    (squeeze position text).drop (endsBy position text (position + n)) := by
  induction n generalizing position text with
  | zero => rw [Nat.add_zero, endsBy_self]; rfl
  | succ n ih =>
    cases text with
    | nil => simp [squeeze]
    | cons c rest =>
      have hnext : position + (n + 1) = position + 1 + n := by omega
      rw [List.drop_succ_cons, hnext, ih]
      cases hskip : isspace c && rest.head?.any isspace with
      | true => rw [squeeze_skip hskip, endsBy_skip hskip]
      | false => rw [squeeze_keep hskip, endsBy_keep hskip (by omega), List.drop_succ_cons]

/-- The first squeezed character of a text. -/
lemma head?_squeeze : ∃ stop, position < stop ∧ (squeeze position (c :: rest)).head? = some (squeezed c, stop) := by
  induction rest generalizing c position with
  | nil => exact ⟨position + 1, by omega, by rw [squeeze_keep (by simp)]; rfl⟩
  | cons x rest ih =>
    cases hskip : isspace c && (x :: rest).head?.any isspace with
    | false => exact ⟨position + 1, by omega, by rw [squeeze_keep hskip]; rfl⟩
    | true =>
      obtain ⟨stop, hlt, hhead⟩ := @ih x (position + 1)
      refine ⟨stop, by omega, ?_⟩
      rw [squeeze_skip hskip, hhead]
      rw [List.head?_cons, Option.any_some, Bool.and_eq_true] at hskip
      unfold squeezed
      rw [hskip.1, hskip.2]
      rfl

/-- A text cut short is squeezed to what ends before the cut, and the character that the cut is in or at. -/
lemma squeeze_take (hn : n < text.length) : ∃ p,
    (squeeze position text)[endsBy position text (position + n)]? = some p ∧ position + n < p.2 ∧
      squeeze position (text.take (n + 1)) =
        (squeeze position text).take (endsBy position text (position + n)) ++ [(p.1, position + (n + 1))] := by
  induction n generalizing position text with
  | zero =>
    cases text with
    | nil => cases hn
    | cons c rest =>
      obtain ⟨stop, hlt, hhead⟩ := @head?_squeeze rest c position
      rw [Nat.add_zero, endsBy_self]
      refine ⟨(squeezed c, stop), ?_, hlt, ?_⟩
      · rw [← List.head?_eq_getElem?, hhead]
      · rw [List.take_succ_cons, List.take_zero, squeeze_keep (by simp)]
        rfl
  | succ n ih =>
    cases text with
    | nil => cases hn
    | cons c rest =>
      have hrest : n < rest.length := by simpa using hn
      obtain ⟨p, hp, hlt, htake⟩ := @ih rest (position + 1) hrest
      have hnext : position + (n + 1) = position + 1 + n := by omega
      have hstop : position + (n + 1 + 1) = position + 1 + (n + 1) := by omega
      have hhead : (rest.take (n + 1)).head? = rest.head? := by cases rest <;> rfl
      rw [List.take_succ_cons, hnext, hstop]
      cases hskip : isspace c && rest.head?.any isspace with
      | true =>
        rw [squeeze_skip hskip, endsBy_skip hskip]
        refine ⟨p, hp, hlt, ?_⟩
        rw [squeeze_skip (by rw [hhead, hskip]), htake]
      | false =>
        rw [squeeze_keep hskip, endsBy_keep hskip (by omega), List.getElem?_cons_succ]
        refine ⟨p, hp, hlt, ?_⟩
        rw [squeeze_keep (by rw [hhead, hskip]), htake, List.take_succ_cons, List.cons_append]

lemma bisectRight_mono {ends : List ℕ} {x y : ℕ} (h : x ≤ y) : bisectRight ends x ≤ bisectRight ends y := by
  induction ends with
  | nil => exact le_rfl
  | cons e ends ih =>
    by_cases he : e ≤ x
    · rw [bisectRight_cons he, bisectRight_cons (he.trans h)]
      exact Nat.succ_le_succ ih
    · rw [bisectRight_past (not_le.1 he)]
      exact Nat.zero_le _

/-- A search that ends within the first elements ends there with a greater one after them. -/
lemma bisectRight_take {ends : List ℕ} {x y : ℕ} (hk : bisectRight ends x ≤ k) (hy : x < y) :
    bisectRight (ends.take k ++ [y]) x = bisectRight ends x := by
  induction ends generalizing k with
  | nil =>
    rw [List.take_nil, List.nil_append, bisectRight_past hy]
    rfl
  | cons e ends ih =>
    by_cases he : e ≤ x
    · rw [bisectRight_cons he] at hk
      cases k with
      | zero => cases hk
      | succ k => rw [List.take_succ_cons, List.cons_append, bisectRight_cons he, bisectRight_cons he,
          ih (Nat.le_of_succ_le_succ hk)]
    · rw [bisectRight_past (not_le.1 he)]
      cases k with
      | zero => exact bisectRight_past hy
      | succ k => exact bisectRight_past (not_le.1 he)

/-- The ends of a window, cut at its own end. -/
lemma cut_last {ends : List ℕ} {e : ℕ} (he : stop ≤ e) :
    (if (ends ++ [e]).getLast?.any (stop < ·) then (ends ++ [e]).dropLast ++ [stop] else ends ++ [e]) =
      ends ++ [stop] := by
  rw [List.getLast?_concat, Option.any_some, List.dropLast_concat]
  split_ifs with h
  · rfl
  · have hsame : e = stop := by
      rw [decide_eq_true_eq] at h
      omega
    rw [hsame]

/-- A window of a squeezed document is its part of the document, squeezed. -/
theorem SqueezedText.window_of (text : List Char) (start stop : ℕ) :
    (SqueezedText.of text).window start stop =
      ((SqueezedText.of ((text.take stop).drop start)).text,
        (SqueezedText.of ((text.take stop).drop start)).ends.map (start + ·)) := by
  have hpart : (squeeze 0 ((text.take stop).drop start)).map (fun p => (p.1, p.2 + start)) =
      squeeze (0 + start) ((text.take stop).drop start) := squeeze_add.symm
  have hchars : (SqueezedText.of ((text.take stop).drop start)).text =
      (squeeze (0 + start) ((text.take stop).drop start)).map Prod.fst := by
    rw [SqueezedText.of_eq, ← hpart, List.map_map]
    rfl
  have hends : (SqueezedText.of ((text.take stop).drop start)).ends.map (start + ·) =
      (squeeze (0 + start) ((text.take stop).drop start)).map Prod.snd := by
    rw [SqueezedText.of_eq, ← hpart, List.map_map, List.map_map]
    refine List.map_congr_left fun p _ => ?_
    exact Nat.add_comm _ _
  rw [hchars, hends]
  unfold SqueezedText.window
  split_ifs with hle
  · have hnil : (text.take stop).drop start = [] := by
      apply List.drop_eq_nil_of_le
      rw [List.length_take]
      omega
    rw [hnil]
    rfl
  · rw [squeeze_drop, SqueezedText.of_eq, Nat.zero_add]
    dsimp only
    by_cases hstop : stop ≤ text.length
    · -- the cut is in the document: the window's last character stands for what the cut leaves of it
      obtain ⟨n, rfl⟩ : ∃ n, stop = n + 1 := ⟨stop - 1, by omega⟩
      obtain ⟨p, hp, hlt, htake⟩ := @squeeze_take text 0 n (by omega)
      rw [Nat.zero_add] at hp hlt
      rw [Nat.zero_add, Nat.zero_add] at htake
      rw [Nat.add_sub_cancel]
      have hleft : endsBy 0 text start ≤ endsBy 0 text n := bisectRight_mono (by omega)
      have hlength : endsBy 0 text n < (squeeze 0 text).length := (List.getElem?_eq_some_iff.1 hp).1
      have hsearch : endsBy 0 (text.take (n + 1)) start = endsBy 0 text start := by
        unfold endsBy at hleft htake ⊢
        rw [htake, List.map_append, List.map_take]
        exact bisectRight_take hleft (by omega)
      have hright : (squeeze 0 text).take (endsBy 0 text n + 1) = (squeeze 0 text).take (endsBy 0 text n) ++ [p] := by
        rw [List.take_add_one, hp]
        rfl
      have hdrop : ∀ q : Char × ℕ, ((squeeze 0 text).take (endsBy 0 text n) ++ [q]).drop (endsBy 0 text start) =
          ((squeeze 0 text).take (endsBy 0 text n)).drop (endsBy 0 text start) ++ [q] := by
        intro q
        refine List.drop_append_of_le_length ?_
        rw [List.length_take]
        omega
      rw [hsearch, htake, ← List.map_take, ← List.map_take, ← List.map_drop, ← List.map_drop]
      unfold endsBy at hright hdrop ⊢
      rw [hright, hdrop, hdrop]
      simp only [List.map_append, List.map_singleton]
      rw [cut_last hlt]
    · -- the window goes on to the end of the document
      have hall : ∀ e ∈ (squeeze 0 text).map Prod.snd, e ≤ text.length := by
        intro e he
        obtain ⟨p, hp, rfl⟩ := List.mem_map.1 he
        simpa using (mem_squeeze hp).2
      have hsearch : bisectRight ((squeeze 0 text).map Prod.snd) (stop - 1) = (squeeze 0 text).length := by
        unfold bisectRight
        rw [List.takeWhile_eq_self_iff.2, List.length_map]
        intro e he
        have hle := hall e he
        simp only [decide_eq_true_eq]
        omega
      have hlast : ∀ left, (((squeeze 0 text).map Prod.snd).drop left).getLast?.any (stop < ·) = false := by
        intro left
        cases hl : (((squeeze 0 text).map Prod.snd).drop left).getLast? with
        | none => rfl
        | some e =>
          have hle := hall e (List.mem_of_mem_drop (List.mem_of_getLast? hl))
          simp only [Option.any_some, decide_eq_false_iff_not]
          omega
      rw [List.take_of_length_le (show text.length ≤ stop by omega), hsearch,
        List.take_of_length_le (by simp), List.take_of_length_le (by simp), hlast, if_neg Bool.false_ne_true,
        List.map_drop, List.map_drop]
      rfl

example : (SqueezedText.of [' ', 'a', ' ', '\t', ' ', 'b', ' ']).window 0 4 = ([' ', 'a', ' '], [1, 2, 4]) := by
  decide +kernel

/-! ## The streams -/

/-- One start position's text, as the model would write it from there. The tokens are left out. -/
structure Stream where
  /-- The document character each stream token ends at. -/
  ends : List ℕ
  text : List Char
  exhausted : Bool
  windows : ℕ
  firstWindowChars : ℕ
  windowChars : ℕ

/-- `re.compile(r"\s").search(text, start)`: where the first whitespace from a position on starts. -/
def firstSpace (text : List Char) (start : ℕ) : Option ℕ :=
  ((text.drop start).findIdx? isspace).map (start + ·)

/-- Where the next window ends, from its start on. -/
def Stream.cut (s : Stream) (start : ℕ) : ℕ :=
  let cut := start + if s.windows = 0 then s.firstWindowChars else s.windowChars
  let cut := if cut < s.text.length then (firstSpace s.text cut).getD s.text.length else cut
  min cut s.text.length

/-- The next squeezed window and its document character ends (`window`). -/
def Stream.window (s : Stream) : Except PyError ((List Char × List ℕ) × Stream) :=
  match s.ends.getLast? with
  | none => .error (.index "list index out of range")
  | some start =>
    let cut := s.cut start
    let window := (SqueezedText.of s.text).window start cut
    .ok (window, { s with
      windows := s.windows + 1
      exhausted := decide (cut = s.text.length) || window.1.isEmpty })

/-- Where the document may be cut after a position: before its first whitespace from there on, or at its end. -/
structure CutAfter (text : List Char) (position cut : ℕ) : Prop where
  le : min position text.length ≤ cut ∧ cut ≤ text.length
  space : cut < text.length → spaceAt text cut = true
  first : ∀ i, position ≤ i → i < cut → spaceAt text i = false

lemma firstSpace_spec : CutAfter text start (min ((firstSpace text start).getD text.length) text.length) := by
  unfold firstSpace
  cases hfind : (text.drop start).findIdx? isspace with
  | none =>
    rw [List.findIdx?_eq_none_iff] at hfind
    refine ⟨⟨by simp, by simp⟩, fun h => by simp at h, fun i hi hlt => ?_⟩
    have hlt : i < text.length := by simpa using hlt
    have hmem : text[i] ∈ text.drop start := by
      rw [List.mem_drop_iff_getElem]
      exact ⟨i - start, by omega, by congr 1; omega⟩
    unfold spaceAt
    rw [List.getElem?_eq_getElem hlt]
    simpa using hfind _ hmem
  | some k =>
    rw [List.findIdx?_eq_some_iff_getElem] at hfind
    obtain ⟨hk, hspace, hbefore⟩ := hfind
    rw [List.length_drop] at hk
    have hmin : min ((Option.map (start + ·) (some k)).getD text.length) text.length = start + k := by
      show min (start + k) text.length = start + k
      omega
    rw [hmin]
    refine ⟨⟨by omega, by omega⟩, fun h => ?_, fun i hi hlt => ?_⟩
    · unfold spaceAt
      rw [List.getElem?_eq_getElem h]
      rw [List.getElem_drop] at hspace
      simpa using hspace
    · have hlen : i < text.length := by omega
      have hno := hbefore (i - start) (by omega)
      rw [List.getElem_drop] at hno
      unfold spaceAt
      rw [List.getElem?_eq_getElem hlen]
      have hi' : start + (i - start) = i := by omega
      simpa [hi'] using hno

/-- A window is cut where the document may be cut after its size. -/
lemma Stream.cut_spec (s : Stream) (start : ℕ) :
    CutAfter s.text (start + if s.windows = 0 then s.firstWindowChars else s.windowChars) (s.cut start) := by
  unfold Stream.cut
  generalize start + (if s.windows = 0 then s.firstWindowChars else s.windowChars) = size
  dsimp only
  split_ifs with h
  · exact firstSpace_spec
  · have hmin : min size s.text.length = s.text.length := by omega
    rw [hmin]
    exact ⟨⟨by omega, le_rfl⟩, fun hlt => by omega, fun i hi hlt => by omega⟩

/-- The next window of a stream: the document from the stream's end to a place where no word is cut, squeezed, with
the ends in the document; the stream is exhausted when the document or the window is. -/
theorem Stream.window_spec (s : Stream) (hstart : s.ends.getLast? = some start) :
    ∃ cut, CutAfter s.text (start + if s.windows = 0 then s.firstWindowChars else s.windowChars) cut ∧
      s.window = .ok
        (((SqueezedText.of ((s.text.take cut).drop start)).text,
          (SqueezedText.of ((s.text.take cut).drop start)).ends.map (start + ·)),
        { s with
          windows := s.windows + 1
          exhausted := decide (cut = s.text.length ∨ cut ≤ start) }) := by
  refine ⟨s.cut start, s.cut_spec start, ?_⟩
  have hcut := (s.cut_spec start).le.2
  unfold Stream.window
  rw [hstart]
  dsimp only
  rw [SqueezedText.window_of]
  have hempty : (SqueezedText.of ((s.text.take (s.cut start)).drop start)).text.isEmpty =
      decide (s.cut start ≤ start) := by
    rw [SqueezedText.of_eq, List.isEmpty_map]
    cases hpart : (s.text.take (s.cut start)).drop start with
    | nil =>
      have hle : s.cut start ≤ start := by
        have hlength := congrArg List.length hpart
        rw [List.length_drop, List.length_take, List.length_nil] at hlength
        omega
      rw [decide_eq_true hle]
      rfl
    | cons c rest =>
      have hlt : ¬ s.cut start ≤ start := by
        intro hle
        rw [List.drop_eq_nil_of_le (by rw [List.length_take]; omega)] at hpart
        cases hpart
      obtain ⟨stop, -, hhead⟩ := @head?_squeeze rest c 0
      rw [decide_eq_false hlt]
      cases hs : squeeze 0 (c :: rest) with
      | nil =>
        rw [hs] at hhead
        cases hhead
      | cons p l => rfl
  rw [hempty, ← Bool.decide_or]

/-- A stream over an indented line, whose first window ends at the run of spaces between its words. -/
def indented : Stream := ⟨[0], [' ', ' ', 'a', 'b', ' ', ' ', 'c'], false, 0, 3, 2⟩

theorem window_spec_indented : ∃ cut, CutAfter indented.text 3 cut ∧ indented.window = .ok
    (((SqueezedText.of ((indented.text.take cut).drop 0)).text,
      (SqueezedText.of ((indented.text.take cut).drop 0)).ends.map (0 + ·)),
    { indented with
      windows := 1
      exhausted := decide (cut = 7 ∨ cut ≤ 0) }) :=
  indented.window_spec rfl

end Quail.Extract.Candidates
