import Quail.Lib.Speculation
import Quail.Extract.Constraint
import Mathlib.Data.Finset.Max

/-!
# A draft verified at once

`verifyEach` verifies one position after another. Verifying a draft at once gives the same values and leaves
the same row (`verify_eq_each`): the streams alive before a position are guessed to be those that have the
draft's earlier tokens, and where every earlier position had its token these are the streams kept.
-/

namespace Quail.Extract.CopyConstraint
open Speculation

variable {α : Type} [LinearOrder α] (c : CopyConstraint)

/-- Verify one position after another. -/
def verifyEach (row : Row) (steps : ℕ → DraftStep α) (document limit : ℕ) : ℕ → List (Option Value) × Row
  | 0 => ([], row)
  | k + 1 =>
    let r := verifyEach row steps document limit k
    let s := c.verify r.2 (fun j => steps (k + j)) 1 document limit
      ((steps k).valid && decide ((steps k).at' = 0))
    (r.1 ++ s.1, s.2)

variable {c}

/-! ## The earliest stream -/

/-- No column starts before the first column, and every column before it starts after another. -/
lemma firstColumn_iff (row : Row) {col : ℕ} (h : 0 < row.width) :
    c.firstColumn row = col ↔
      col < row.width ∧ (∀ d < row.width, c.chars row col ≤ c.chars row d) ∧
        ∀ e < col, ∃ d < row.width, c.chars row d < c.chars row e := by
  have hsome : ∀ i, ((List.range row.width).find? fun column =>
      (List.range row.width).all fun other => decide (c.chars row column ≤ c.chars row other)) = some i ↔
      i < row.width ∧ (∀ d < row.width, c.chars row i ≤ c.chars row d) ∧
        ∀ e < i, ∃ d < row.width, c.chars row d < c.chars row e := by
    intro i
    rw [List.find?_range_eq_some]
    simp only [List.all_eq_true, List.mem_range, decide_eq_true_eq, Bool.not_eq_true', List.all_eq_false,
      not_le]
    constructor
    · rintro ⟨hmin, hlt, hfirst⟩
      exact ⟨hlt, hmin, hfirst⟩
    · rintro ⟨hlt, hmin, hfirst⟩
      exact ⟨hmin, hlt, hfirst⟩
  obtain ⟨m, hm, hmin⟩ := Finset.exists_min_image (Finset.range row.width) (c.chars row)
    ⟨0, Finset.mem_range.mpr h⟩
  have hfound : ((List.range row.width).find? fun column =>
      (List.range row.width).all fun other => decide (c.chars row column ≤ c.chars row other)).isSome := by
    apply List.find?_isSome.mpr
    refine ⟨m, List.mem_range.mpr (Finset.mem_range.mp hm), ?_⟩
    rw [List.all_eq_true]
    exact fun d hd => decide_eq_true (hmin d (Finset.mem_range.mpr (List.mem_range.mp hd)))
  obtain ⟨i, hi⟩ := Option.isSome_iff_exists.mp hfound
  have hfirst : c.firstColumn row = i := by rw [firstColumn, hi, Option.getD_some]
  rw [hfirst, ← hsome, hi, Option.some.injEq]

/-- The first column is alive where one is. -/
lemma firstColumn_alive (row : Row) {col : ℕ} (hcol : col < row.width) (halive : row.alive col = true) :
    row.alive (c.firstColumn row) = true := by
  obtain ⟨-, hmin, -⟩ := (firstColumn_iff (c := c) row (by omega)).mp rfl
  have hle := hmin col hcol
  by_contra hdead
  rw [chars, chars, if_neg hdead, if_pos halive] at hle
  exact WithTop.coe_ne_top (top_le_iff.mp hle)

/-- Columns that die beside the first column do not change it. -/
lemma firstColumn_narrow (row : Row) {alive : ℕ → Bool} (hsub : ∀ col, alive col = true → row.alive col = true)
    (hkept : alive (c.firstColumn row) = true) (h : 0 < row.width) :
    c.firstColumn { row with alive := alive } = c.firstColumn row := by
  obtain ⟨hlt, hmin, hfirst⟩ := (firstColumn_iff (c := c) row h).mp rfl
  have hle : ∀ col, c.chars row col ≤ c.chars { row with alive := alive } col := by
    intro col
    cases hcol : alive col with
    | false => simp only [chars, hcol, Bool.false_eq_true, if_false]; exact le_top
    | true => simp only [chars, hcol, hsub col hcol, if_true, le_refl]
  have heq : c.chars { row with alive := alive } (c.firstColumn row) = c.chars row (c.firstColumn row) := by
    simp only [chars, hkept, hsub _ hkept, if_true]
  apply (firstColumn_iff { row with alive := alive } h).mpr
  refine ⟨hlt, fun d hd => ?_, fun e he => ⟨c.firstColumn row, hlt, ?_⟩⟩
  · rw [heq]
    exact (hmin d hd).trans (hle d)
  · obtain ⟨d, hd, hless⟩ := hfirst e he
    rw [heq]
    exact (hmin d hd).trans_lt (hless.trans_le (hle e))

/-! ## A choice -/

/-- The tokens that the live columns allow. -/
def allowed (c : CopyConstraint) (row : Row) (at' : ℕ) : List ℕ :=
  (List.range row.width).filterMap fun column =>
    if row.alive column then c.tokensAt (row.streams column) at' else none

/-- Past an answer's first token, a choice is made from what the live columns allow. -/
lemma choose_following {projected : Readout α} {row : Row} {at' document : ℕ} {first : Bool}
    (h : first = false ∨ 0 < at') :
    c.choose projected row at' document first =
      { streams := row.streams
        chosen := following projected (c.allowed row at')
        ended := c.ends projected (c.allowed row at') at'
        keep := fun column => row.alive column && (c.tokensAt (row.streams column) at').isSome &&
          decide (c.tokensAt (row.streams column) at' = following projected (c.allowed row at')) } := by
  have hbegins : (first && decide (at' = 0)) = false := by
    rcases h with h | h
    · rw [h, Bool.false_and]
    · rw [decide_eq_false (by omega), Bool.and_false]
  simp only [choose, hbegins, Bool.not_false, Bool.true_or, Bool.and_true, Bool.false_eq_true, if_false, allowed]
  rfl

/-- The highest score is that of a token, or there is none. -/
lemma best_mem {projected : Readout α} {tokens : List ℕ} :
    best projected tokens = ⊥ ∨ ∃ t ∈ tokens, projected.scores t = best projected tokens := by
  induction tokens with
  | nil => exact Or.inl rfl
  | cons t tokens ih =>
    have hcons : best projected (t :: tokens) = max (projected.scores t) (best projected tokens) := rfl
    rw [hcons]
    rcases max_choice (projected.scores t) (best projected tokens) with hmax | hmax
    · exact Or.inr ⟨t, List.mem_cons_self, hmax.symm⟩
    · rw [hmax]
      rcases ih with ih | ⟨u, hu, hscore⟩
      · exact Or.inl ih
      · exact Or.inr ⟨u, List.mem_cons_of_mem _ hu, hscore⟩

/-- Where an allowed token has a score, one is chosen. -/
lemma following_some {projected : Readout α} {tokens : List ℕ} (h : best projected tokens ≠ ⊥) :
    ∃ t ∈ tokens, following projected tokens = some t := by
  obtain ⟨u, hu, hscore⟩ := best_mem.resolve_left h
  have hmem : u ∈ tokens.filter fun t => projected.scores t = best projected tokens :=
    List.mem_filter.mpr ⟨hu, decide_eq_true hscore⟩
  have hsome : ((tokens.filter fun t => projected.scores t = best projected tokens).min?).isSome = true :=
    List.isSome_min?_of_mem hmem
  obtain ⟨t, ht⟩ := Option.isSome_iff_exists.mp hsome
  refine ⟨t, (List.mem_filter.mp (List.min?_mem ht)).1, ?_⟩
  rw [following, if_neg h, ht]

/-- A choice that goes on is one of the allowed tokens. -/
lemma goes_on {projected : Readout α} {tokens : List ℕ} {at' : ℕ} (hat : 0 < at')
    (h : c.ends projected tokens at' = false) : ∃ t ∈ tokens, following projected tokens = some t := by
  simp only [ends, Bool.or_eq_false_iff, if_neg hat.ne', decide_eq_false_iff_not, not_le] at h
  obtain ⟨⟨-, hstop⟩, -⟩ := h
  exact following_some (bot_le.trans_lt hstop).ne'

/-! ## The positions after the first -/

/-- A row whose source is its earliest stream. -/
def standing (c : CopyConstraint) (row : Row) (alive : ℕ → Bool) (active : Bool) : Row :=
  { row with alive := alive, source := c.earliest { row with alive := alive }, active := active }

/-- The choice at one position, for the streams alive there. -/
def choice (c : CopyConstraint) (row : Row) (steps : ℕ → DraftStep α) (document k : ℕ) (alive : ℕ → Bool) :
    Choice :=
  c.choose (steps k).projected { row with alive := alive } (steps k).at' document false

/-- Whether the choice is the token of the draft. -/
def hits (c : CopyConstraint) (row : Row) (steps : ℕ → DraftStep α) (document k : ℕ) (alive : ℕ → Bool) : Bool :=
  decide ((c.choice row steps document k alive).chosen =
    c.tokensAt (c.earliest { row with alive := alive }) (steps k).at')

/-- The streams a choice leaves alive. -/
def kept (c : CopyConstraint) (row : Row) (steps : ℕ → DraftStep α) (document k : ℕ) (alive : ℕ → Bool) :
    ℕ → Bool :=
  if (c.choice row steps document k alive).ended then alive else (c.choice row steps document k alive).keep

/-- Verifying one position after another, as a loop over the streams that are alive. -/
def tailLoop (c : CopyConstraint) (row : Row) (steps : ℕ → DraftStep α) (document limit : ℕ) :
    Loop (ℕ → Bool) Value where
  valid k := (steps k).valid
  step k alive := c.kept row steps document k alive
  emit k alive :=
    { token := if (c.choice row steps document k alive).ended then none
        else (c.choice row steps document k alive).chosen
      source := c.earliest { row with alive := c.kept row steps document k alive }
      numStreams := (List.range row.width).countP (c.kept row steps document k alive)
      hit := c.hits row steps document k alive }
  goes k alive := !(c.choice row steps document k alive).ended && c.hits row steps document k alive &&
    decide ((steps k).at' + 1 < limit)

/-- One position past the first token. -/
lemma verify_one {row : Row} {alive : ℕ → Bool} {active first : Bool} {steps : ℕ → DraftStep α}
    {document limit k : ℕ} (hat : 0 < (steps k).at') :
    c.verify (c.standing row alive active) (fun j => steps (k + j)) 1 document limit first =
      let l := c.tailLoop row steps document limit
      let use := active && l.valid k
      ([if use then some (l.emit k alive) else none],
        c.standing row (if use then l.step k alive else alive) (use && l.goes k alive)) := by
  have hchoose : ∀ r : Row, c.choose (steps k).projected r (steps k).at' document first =
      c.choose (steps k).projected r (steps k).at' document false := by
    intro r
    rw [choose_following (Or.inr hat), choose_following (Or.inl rfl)]
  have hstreams : ∀ r : Row, (c.choose (steps k).projected r (steps k).at' document false).streams = r.streams := by
    intro r
    rw [choose_following (Or.inl rfl)]
  simp only [verify, Nat.add_zero, hchoose, hstreams, if_true]
  cases huse : active && (steps k).valid with
  | false =>
    simp only [tailLoop, standing, huse, Bool.false_and, Bool.false_eq_true, if_false]
    rfl
  | true =>
    have hchoice : c.choose (steps k).projected (c.standing row alive active) (steps k).at' document false =
        c.choice row steps document k alive := rfl
    simp only [tailLoop, huse, hchoice]
    cases hended : (c.choice row steps document k alive).ended with
    | false =>
      simp only [standing, kept, hits, hended, huse, Bool.not_false, Bool.true_and, if_true,
        Bool.false_eq_true, if_false]
      rfl
    | true =>
      simp only [standing, kept, hended, huse, Bool.not_true, Bool.and_false, if_true, Bool.false_eq_true,
        if_false, Bool.false_and]
      rfl

/-- One position after another is the loop. -/
lemma verifyEach_loop (row : Row) (alive : ℕ → Bool) (active : Bool) (steps : ℕ → DraftStep α)
    (document limit n : ℕ) (hat : ∀ j < n, 0 < (steps j).at') :
    c.verifyEach (c.standing row alive active) steps document limit n =
      let r := (c.tailLoop row steps document limit).run alive active n
      (r.1, c.standing row r.2.1 r.2.2) := by
  induction n with
  | zero => rfl
  | succ k ih =>
    simp only [verifyEach, ih fun j hj => hat j (by omega), verify_one (hat k (by omega)), Loop.run]

/-! ## All positions at once -/

/-- The columns that have the draft's tokens before a position. -/
def drafted (c : CopyConstraint) (row : Row) (steps : ℕ → DraftStep α) (k column : ℕ) : Bool :=
  row.alive column && (List.range k).all fun i =>
    decide (c.tokensAt (row.streams column) (steps i).at' = c.tokensAt row.source (steps i).at')

/-- The positions evaluated for the columns that have the draft's tokens before them. -/
def tailGuess (c : CopyConstraint) (row : Row) (steps : ℕ → DraftStep α) (document limit : ℕ) :
    Guess (ℕ → Bool) Value where
  state := c.drafted row steps
  after k := c.kept row steps document k (c.drafted row steps k)
  out k :=
    let choice := c.choice row steps document k (c.drafted row steps k)
    { token := if choice.ended then none else choice.chosen
      source := c.earliest { row with alive := c.kept row steps document k (c.drafted row steps k) }
      numStreams := (List.range row.width).countP (c.kept row steps document k (c.drafted row steps k))
      hit := decide (choice.chosen = c.tokensAt row.source (steps k).at') }
  cont k :=
    let choice := c.choice row steps document k (c.drafted row steps k)
    (steps k).valid && !choice.ended && decide (choice.chosen = c.tokensAt row.source (steps k).at') &&
      decide ((steps k).at' + 1 < limit)

lemma cont_iff {row : Row} {steps : ℕ → DraftStep α} {document limit k : ℕ} :
    (c.tailGuess row steps document limit).cont k = true ↔
      (steps k).valid = true ∧ (c.choice row steps document k (c.drafted row steps k)).ended = false ∧
        (c.choice row steps document k (c.drafted row steps k)).chosen = c.tokensAt row.source (steps k).at' ∧
        (steps k).at' + 1 < limit := by
  simp only [tailGuess, Bool.and_eq_true, Bool.not_eq_true', decide_eq_true_eq, and_assoc]

omit [LinearOrder α] in
lemma drafted_zero {row : Row} {steps : ℕ → DraftStep α} : c.drafted row steps 0 = row.alive := by
  funext column
  rw [drafted, List.range_zero, List.all_nil, Bool.and_true]

omit [LinearOrder α] in
lemma drafted_succ {row : Row} {steps : ℕ → DraftStep α} {k column : ℕ} :
    c.drafted row steps (k + 1) column = (c.drafted row steps k column &&
      decide (c.tokensAt (row.streams column) (steps k).at' = c.tokensAt row.source (steps k).at')) := by
  rw [drafted, drafted, List.range_succ, List.all_append, Bool.and_assoc]
  simp only [List.all_cons, List.all_nil, Bool.and_true]

/-- A choice that goes on is a token of a column that is alive. -/
lemma choice_goes {row : Row} {steps : ℕ → DraftStep α} {document k : ℕ} {alive : ℕ → Bool}
    (hat : 0 < (steps k).at') (h : (c.choice row steps document k alive).ended = false) :
    ∃ column < row.width, alive column = true ∧
      ∃ t, c.tokensAt (row.streams column) (steps k).at' = some t ∧
        (c.choice row steps document k alive).chosen = some t := by
  rw [choice, choose_following (Or.inl rfl)] at h ⊢
  obtain ⟨t, hmem, hfollowing⟩ := goes_on hat h
  obtain ⟨column, hcolumn, htoken⟩ := List.mem_filterMap.mp hmem
  have halive : alive column = true := by
    by_contra hdead
    rw [if_neg hdead] at htoken
    exact absurd htoken (by rintro ⟨⟩)
  rw [if_pos halive] at htoken
  exact ⟨column, List.mem_range.mp hcolumn, halive, t, htoken, hfollowing⟩

/-- While every choice is the token of the draft, its source stays the earliest stream. -/
lemma drafted_source {row : Row} {steps : ℕ → DraftStep α} {document limit k : ℕ}
    (hsource : row.source = c.earliest row) (hat : ∀ j, 0 < (steps j).at')
    (hcont : ∀ i < k, (c.tailGuess row steps document limit).cont i = true) :
    c.earliest { row with alive := c.drafted row steps k } = row.source := by
  induction k with
  | zero =>
    rw [drafted_zero]
    exact hsource.symm
  | succ k ih =>
    have ih := ih fun i hi => hcont i (by omega)
    obtain ⟨-, hended, -, -⟩ := cont_iff.mp (hcont k (by omega))
    obtain ⟨column, hcolumn, halive, -⟩ := choice_goes (hat k) hended
    have hwidth : 0 < row.width := by omega
    -- The first column has the draft's token, since the draft is read from it.
    have hfirst : c.drafted row steps k (c.firstColumn { row with alive := c.drafted row steps k }) = true :=
      firstColumn_alive { row with alive := c.drafted row steps k } hcolumn halive
    have hkept : c.drafted row steps (k + 1)
        (c.firstColumn { row with alive := c.drafted row steps k }) = true := by
      rw [drafted_succ, hfirst, Bool.true_and, decide_eq_true_eq]
      exact congrArg (fun s => c.tokensAt s (steps k).at') ih
    have hsub : ∀ col, c.drafted row steps (k + 1) col = true → c.drafted row steps k col = true := by
      intro col hcol
      rw [drafted_succ, Bool.and_eq_true] at hcol
      exact hcol.1
    have hsame := firstColumn_narrow (c := c) { row with alive := c.drafted row steps k } hsub hkept hwidth
    calc c.earliest { row with alive := c.drafted row steps (k + 1) }
        = row.streams (c.firstColumn { row with alive := c.drafted row steps (k + 1) }) := rfl
      _ = row.streams (c.firstColumn { row with alive := c.drafted row steps k }) :=
        congrArg row.streams hsame
      _ = row.source := ih

lemma tail_right {row : Row} {steps : ℕ → DraftStep α} {document limit : ℕ}
    (hsource : row.source = c.earliest row) (hat : ∀ j, 0 < (steps j).at') :
    (c.tailGuess row steps document limit).Right (c.tailLoop row steps document limit) row.alive where
  first := drafted_zero
  turn k hcont hvalid := by
    have hearliest := drafted_source hsource hat hcont
    have hvalid : (steps k).valid = true := hvalid
    refine ⟨rfl, ?_, ?_⟩
    · simp only [tailGuess, tailLoop, hits, hearliest]
    · simp only [tailGuess, tailLoop, hits, hearliest, hvalid, Bool.true_and]
  next k hcont hk := by
    obtain ⟨hvalid, hended, hhit, -⟩ := cont_iff.mp hk
    obtain ⟨-, -, -, t, -, hchosen⟩ := choice_goes (hat k) hended
    refine ⟨hvalid, funext fun column => ?_⟩
    have hkept : (c.tailGuess row steps document limit).after k =
        (c.choice row steps document k (c.drafted row steps k)).keep := by
      simp only [tailGuess, kept, hended, Bool.false_eq_true, if_false]
    -- The choice is the draft's token, so that the columns kept are those that have it.
    have hkeep : (c.choice row steps document k (c.drafted row steps k)).keep column =
        (c.drafted row steps k column && (c.tokensAt (row.streams column) (steps k).at').isSome &&
          decide (c.tokensAt (row.streams column) (steps k).at' =
            (c.choice row steps document k (c.drafted row steps k)).chosen)) := by
      rw [choice, choose_following (Or.inl rfl)]
    rw [hkept, hkeep]
    change _ = c.drafted row steps (k + 1) column
    rw [drafted_succ, Bool.and_assoc, ← hhit, hchosen]
    congr 1
    cases htoken : c.tokensAt (row.streams column) (steps k).at' with
    | none => rfl
    | some u => rfl

/-- The row after one position, by the streams it leaves alive. -/
lemma after_eq (row : Row) (steps : ℕ → DraftStep α) (document k : ℕ) (alive : ℕ → Bool) :
    (if (c.choice row steps document k alive).ended then { row with alive := alive }
      else { row with alive := (c.choice row steps document k alive).keep }) =
      { row with alive := c.kept row steps document k alive } := by
  rw [kept]
  cases (c.choice row steps document k alive).ended with
  | true => rfl
  | false => rfl

/-- The positions after the first, evaluated together. -/
lemma verifyTail_guess {row : Row} {steps : ℕ → DraftStep α} {n document limit : ℕ} :
    c.verifyTail row steps n document limit =
      let g := c.tailGuess row steps document limit
      let valid := (c.tailLoop row steps document limit).valid
      ((List.range n).map fun k => if g.use valid row.active k then some (g.out k) else none,
        c.standing row (g.last valid row.active row.alive n)
          (g.use valid row.active (n - 1) && g.cont (n - 1))) := by
  have hafter := fun k => after_eq (c := c) row steps document k (c.drafted row steps k)
  have htail : c.verifyTail row steps n document limit =
      let g := c.tailGuess row steps document limit
      let use := g.use (c.tailLoop row steps document limit).valid row.active
      let after := fun k => if (c.choice row steps document k (c.drafted row steps k)).ended then
          { row with alive := c.drafted row steps k }
        else { row with alive := (c.choice row steps document k (c.drafted row steps k)).keep }
      let final := if use 0 then after ((List.range n).countP use - 1) else row
      ((List.range n).map fun k => if use k then
          some ⟨(g.out k).token, c.earliest (after k), (List.range row.width).countP (after k).alive, (g.out k).hit⟩
        else none,
        { final with source := c.earliest final, active := use (n - 1) && g.cont (n - 1) }) := rfl
  rw [htail]
  simp only [hafter]
  refine Prod.ext rfl ?_
  rw [Guess.last]
  cases (c.tailGuess row steps document limit).use (c.tailLoop row steps document limit).valid row.active 0 with
  | true => rfl
  | false => rfl

/-- The positions after the first, one after another or all at once. -/
lemma verifyTail_eq {row : Row} {steps : ℕ → DraftStep α} {n document limit : ℕ} (hn : 0 < n)
    (hsource : row.source = c.earliest row) (hat : ∀ j, 0 < (steps j).at') :
    c.verifyTail row steps n document limit = c.verifyEach row steps document limit n := by
  have hstanding : c.standing row row.alive row.active = row := by
    rw [standing]
    change { row with source := c.earliest row } = row
    rw [← hsource]
  have heach := verifyEach_loop (c := c) row row.alive row.active steps document limit n fun j _ => hat j
  rw [hstanding] at heach
  rw [heach, verifyTail_guess, (tail_right hsource hat).run_eq hn]

/-! ## A whole draft -/

/-- Positions one after another, in two parts. -/
lemma verifyEach_add {row : Row} {steps : ℕ → DraftStep α} {document limit a b : ℕ} :
    c.verifyEach row steps document limit (a + b) =
      let r := c.verifyEach row steps document limit a
      let s := c.verifyEach r.2 (fun j => steps (a + j)) document limit b
      (r.1 ++ s.1, s.2) := by
  induction b with
  | zero => simp only [Nat.add_zero, verifyEach, List.append_nil]
  | succ b ih =>
    rw [show a + (b + 1) = (a + b) + 1 from rfl]
    simp only [verifyEach, ih, List.append_assoc, Nat.add_assoc]

/-- Whether the batch has a first token says nothing about a row past its own. -/
lemma verify_first {row : Row} {steps : ℕ → DraftStep α} {n document limit : ℕ} {first : Bool}
    (hfirst : (steps 0).at' = 0 → first = true ∧ (steps 0).valid = true) :
    c.verify row steps n document limit first =
      c.verify row steps n document limit ((steps 0).valid && decide ((steps 0).at' = 0)) := by
  have hchoose : c.choose (steps 0).projected row (steps 0).at' document first =
      c.choose (steps 0).projected row (steps 0).at' document
        ((steps 0).valid && decide ((steps 0).at' = 0)) := by
    rcases Nat.eq_zero_or_pos (steps 0).at' with hat | hat
    · obtain ⟨hbegins, hvalid⟩ := hfirst hat
      rw [hbegins, hvalid, decide_eq_true hat]
      rfl
    · rw [choose_following (Or.inr hat), choose_following (Or.inr hat)]
  simp only [verify, hchoose]

/-- The first position and the others. -/
lemma verify_tail {row : Row} {steps : ℕ → DraftStep α} {n document limit : ℕ} {first : Bool} (hn : n ≠ 1) :
    c.verify row steps n document limit first =
      let s := c.verify row steps 1 document limit first
      let t := c.verifyTail s.2 (fun j => steps (j + 1)) (n - 1) document limit
      (s.1 ++ t.1, t.2) := by
  simp only [verify, if_neg hn, if_true, List.cons_append, List.nil_append]

/-- Verifying a draft at once is verifying its positions one after another. -/
theorem verify_eq_each (row : Row) (steps : ℕ → DraftStep α) (document limit : ℕ) (first : Bool) {n : ℕ} (hn : 0 < n)
    (hfirst : (steps 0).at' = 0 → first = true ∧ (steps 0).valid = true) (hat : ∀ j, 0 < (steps (j + 1)).at') :
    c.verify row steps n document limit first = c.verifyEach row steps document limit n := by
  have hone : c.verifyEach row steps document limit 1 = c.verify row steps 1 document limit first := by
    rw [verify_first hfirst]
    simp only [verifyEach, List.nil_append, Nat.zero_add]
  rcases Nat.eq_or_lt_of_le (Nat.succ_le_of_lt hn) with hn1 | hn1
  · rw [← hn1]
    exact hone.symm
  · have hsplit : n = 1 + (n - 1) := by omega
    have hrest : ∀ row' : Row, row'.source = c.earliest row' →
        c.verifyTail row' (fun j => steps (j + 1)) (n - 1) document limit =
          c.verifyEach row' (fun j => steps (1 + j)) document limit (n - 1) := by
      intro row' hsource
      rw [verifyTail_eq (by omega) hsource hat]
      simp only [Nat.add_comm]
    rw [verify_tail (by omega)]
    conv_rhs => rw [hsplit, verifyEach_add, hone]
    have hnext := hrest (c.verify row steps 1 document limit first).2 (by simp only [verify, if_true]; rfl)
    simp only [hnext]

end Quail.Extract.CopyConstraint
