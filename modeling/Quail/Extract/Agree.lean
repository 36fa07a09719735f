import Quail.Extract.Decoder
import Quail.Extract.Verified
import Mathlib.Data.List.Find

/-!
# Rows with the same live streams

How wide a row is, and where its live columns stand, depends on the block it is in. Past an answer's first
token neither matters: rows with the same live streams give the same values and go on having the same live
streams (`Agree.verifyEach`).
-/

namespace Quail.Extract

namespace CopyConstraint

variable {α : Type} [LinearOrder α] {c : CopyConstraint}

/-! ## What the live streams decide -/

lemma live_mem {row : Row} {s : Option Stream} :
    s ∈ row.live ↔ ∃ col < row.width, row.alive col = true ∧ row.streams col = s := by
  simp only [Row.live, List.mem_map, List.mem_filter, List.mem_range, and_assoc]

lemma find_live {row : Row} {p : Option Stream → Bool} :
    row.live.find? p =
      ((List.range row.width).find? fun col => row.alive col && p (row.streams col)).map row.streams := by
  rw [Row.live, List.find?_map, List.find?_filter]
  simp only [Bool.decide_and, Bool.decide_eq_true, Function.comp_apply]

/-- The earliest stream is the first live one that starts first, and that of column 0 where none is live. -/
lemma earliest_live {row : Row} :
    c.earliest row = ((row.live.find? fun s => row.live.all fun t =>
      decide (c.characters (position s) ≤ c.characters (position t))).getD (row.streams 0)) := by
  rw [earliest]
  by_cases hlive : ∃ col < row.width, row.alive col = true
  · obtain ⟨d, hd, hdead⟩ := hlive
    have hsame : (List.range row.width).find? (fun col => (List.range row.width).all fun other =>
          decide (c.chars row col ≤ c.chars row other)) =
        (List.range row.width).find? fun col => row.alive col && row.live.all fun t =>
          decide (c.characters (position (row.streams col)) ≤ c.characters (position t)) := by
      apply List.find?_congr
      intro col hcol
      rw [Bool.eq_iff_iff]
      simp only [List.all_eq_true, List.mem_range, decide_eq_true_eq, Bool.and_eq_true, live_mem]
      constructor
      · intro hmin
        have halive : row.alive col = true := by
          by_contra hnot
          have hle := hmin d hd
          rw [chars, chars, if_neg hnot, if_pos hdead] at hle
          exact WithTop.coe_ne_top (top_le_iff.mp hle)
        refine ⟨halive, ?_⟩
        rintro t ⟨e, he, healive, rfl⟩
        have hle := hmin e he
        rw [chars, chars, if_pos halive, if_pos healive] at hle
        exact WithTop.coe_le_coe.mp hle
      · rintro ⟨halive, hmin⟩ e he
        rw [chars, chars, if_pos halive]
        by_cases healive : row.alive e = true
        · rw [if_pos healive]
          exact WithTop.coe_le_coe.mpr (hmin _ ⟨e, he, healive, rfl⟩)
        · rw [if_neg healive]
          exact le_top
    rw [firstColumn, hsame, find_live]
    cases ((List.range row.width).find? fun col => row.alive col && row.live.all fun t =>
      decide (c.characters (position (row.streams col)) ≤ c.characters (position t))) with
    | none => rfl
    | some col => rfl
  · have hnone : row.live = [] := by
      apply List.eq_nil_iff_forall_not_mem.mpr
      intro s hs
      obtain ⟨col, hcol, halive, -⟩ := live_mem.mp hs
      exact hlive ⟨col, hcol, halive⟩
    rw [hnone]
    change row.streams (c.firstColumn row) = row.streams 0
    rcases Nat.eq_zero_or_pos row.width with hwidth | hwidth
    · rw [firstColumn, hwidth]
      rfl
    · have hdead : ∀ col < row.width, c.chars row col = ⊤ := by
        intro col hcol
        rw [chars, if_neg fun halive => hlive ⟨col, hcol, halive⟩]
      rw [(firstColumn_iff row hwidth).mpr ⟨hwidth, fun col hcol => ?_, fun e he => absurd he (Nat.not_lt_zero e)⟩]
      rw [hdead 0 hwidth, hdead col hcol]

lemma allowed_live {row : Row} {at' : ℕ} :
    c.allowed row at' = row.live.filterMap fun s => c.tokensAt s at' := by
  rw [allowed, Row.live, List.filterMap_map, List.filterMap_filter]
  rfl

lemma count_live (row : Row) : (List.range row.width).countP row.alive = row.live.length := by
  rw [List.countP_eq_length_filter, Row.live, List.length_map]

/-! ## One position past the first token -/

/-- The columns that have a token. -/
def having (c : CopyConstraint) (row : Row) (at' : ℕ) (chosen : Option ℕ) (col : ℕ) : Bool :=
  row.alive col && (c.tokensAt (row.streams col) at').isSome && decide (c.tokensAt (row.streams col) at' = chosen)

/-- The columns a position leaves alive. -/
def left (c : CopyConstraint) (row : Row) (step : DraftStep α) : ℕ → Bool :=
  if row.active && step.valid && !c.ends step.projected (c.allowed row step.at') step.at' then
    c.having row step.at' (following step.projected (c.allowed row step.at'))
  else row.alive

lemma verify_past {row : Row} {steps : ℕ → DraftStep α} {document limit : ℕ} {first : Bool}
    (hat : 0 < (steps 0).at') :
    c.verify row steps 1 document limit first =
      let step := steps 0
      let chosen := following step.projected (c.allowed row step.at')
      let ended := c.ends step.projected (c.allowed row step.at') step.at'
      let next := { row with alive := c.left row step }
      let hit := decide (chosen = c.tokensAt row.source step.at')
      ([if row.active && step.valid then
          some ⟨if ended then none else chosen, c.earliest next, (List.range row.width).countP next.alive, hit⟩
        else none],
        { next with
          source := c.earliest next
          active := row.active && step.valid && !ended && hit && decide (step.at' + 1 < limit) }) := by
  simp only [verify, choose_following (Or.inr hat), if_true]
  rfl

lemma having_live {row : Row} {at' : ℕ} {chosen : Option ℕ} :
    Row.live { row with alive := c.having row at' chosen } =
      row.live.filter fun s => (c.tokensAt s at').isSome && decide (c.tokensAt s at' = chosen) := by
  simp only [Row.live]
  rw [List.filter_map, List.filter_filter]
  congr 1
  apply List.filter_congr
  intro col _
  rw [having, Function.comp_apply, Bool.and_assoc, Bool.and_comm]

/-- The streams a position leaves alive. -/
lemma left_live {row : Row} {step : DraftStep α} :
    Row.live { row with alive := c.left row step } =
      if row.active && step.valid && !c.ends step.projected (c.allowed row step.at') step.at' then
        row.live.filter fun s => (c.tokensAt s step.at').isSome &&
          decide (c.tokensAt s step.at' = following step.projected (c.allowed row step.at'))
      else row.live := by
  rw [left]
  split
  · exact having_live
  · rfl

/-- A position past the first token leaves a stream alive where one was. -/
lemma left_ne_nil {row : Row} {step : DraftStep α} (hat : 0 < step.at') (h : row.live ≠ []) :
    Row.live { row with alive := c.left row step } ≠ [] := by
  rw [left_live]
  split
  · rename_i hon
    rw [Bool.and_eq_true, Bool.not_eq_true'] at hon
    obtain ⟨t, ht, hchosen⟩ := goes_on hat hon.2
    rw [allowed_live] at ht
    obtain ⟨s, hs, htoken⟩ := List.mem_filterMap.mp ht
    apply List.ne_nil_of_mem (a := s)
    refine List.mem_filter.mpr ⟨hs, ?_⟩
    rw [htoken, hchosen]
    simp only [Option.isSome_some, decide_true, Bool.and_true]
  · exact h

/-! ## Rows that agree -/

/-- Two rows with the same live streams, of the same draft. Where none is live, the source is read off
column 0. -/
structure Agree (r r' : Row) : Prop where
  live : r.live = r'.live
  first : r.live = [] → r.streams 0 = r'.streams 0
  source : r.source = r'.source
  active : r.active = r'.active

lemma Agree.refl (r : Row) : Agree r r := ⟨rfl, fun _ => rfl, rfl, rfl⟩

/-- The earliest of several live streams does not depend on column 0. -/
lemma find_min_some {l : List (Option Stream)} (h : l ≠ []) :
    ∃ s, (l.find? fun s => l.all fun t =>
      decide (c.characters (position s) ≤ c.characters (position t))) = some s := by
  obtain ⟨m, hm, hmin⟩ := Finset.exists_min_image l.toFinset (fun s => c.characters (position s))
    (by rw [List.toFinset_nonempty_iff]; exact h)
  apply Option.isSome_iff_exists.mp
  apply List.find?_isSome.mpr
  refine ⟨m, List.mem_toFinset.mp hm, ?_⟩
  rw [List.all_eq_true]
  exact fun t ht => decide_eq_true (hmin t (List.mem_toFinset.mpr ht))

lemma earliest_agree {r r' : Row} (hlive : r.live = r'.live) (hfirst : r.live = [] → r.streams 0 = r'.streams 0) :
    c.earliest r = c.earliest r' := by
  rw [earliest_live, earliest_live, ← hlive]
  by_cases hl : r.live = []
  · rw [hfirst hl]
  · obtain ⟨s, hs⟩ := find_min_some (c := c) hl
    rw [hs, Option.getD_some, Option.getD_some]

/-- One position past the first token, in rows that agree. -/
lemma Agree.verify_one {r r' : Row} (h : Agree r r') (c : CopyConstraint) (steps : ℕ → DraftStep α)
    (document limit : ℕ) (first : Bool) (hat : 0 < (steps 0).at') :
    (c.verify r steps 1 document limit first).1 = (c.verify r' steps 1 document limit first).1 ∧
      Agree (c.verify r steps 1 document limit first).2 (c.verify r' steps 1 document limit first).2 := by
  have hallowed : c.allowed r (steps 0).at' = c.allowed r' (steps 0).at' := by
    rw [allowed_live, allowed_live, h.live]
  have hlive : Row.live { r with alive := c.left r (steps 0) } =
      Row.live { r' with alive := c.left r' (steps 0) } := by
    rw [left_live, left_live, hallowed, h.live, h.active]
  have hfirst : Row.live { r with alive := c.left r (steps 0) } = [] → r.streams 0 = r'.streams 0 := by
    intro hnone
    apply h.first
    by_contra hsome
    exact left_ne_nil hat hsome hnone
  have hearliest : c.earliest { r with alive := c.left r (steps 0) } =
      c.earliest { r' with alive := c.left r' (steps 0) } := earliest_agree hlive hfirst
  have hcount : (List.range r.width).countP (c.left r (steps 0)) =
      (List.range r'.width).countP (c.left r' (steps 0)) := by
    have hl := count_live { r with alive := c.left r (steps 0) }
    have hr := count_live { r' with alive := c.left r' (steps 0) }
    exact hl.trans ((congrArg List.length hlive).trans hr.symm)
  rw [verify_past hat, verify_past hat]
  refine ⟨?_, hlive, hfirst, hearliest, ?_⟩
  · simp only [hearliest, hcount]
    simp only [hallowed, h.active, h.source]
  · simp only [hallowed, h.active, h.source]

/-- Positions past the first token, in rows that agree. -/
lemma Agree.verifyEach {r r' : Row} (h : Agree r r') {steps : ℕ → DraftStep α} {document limit n : ℕ}
    (hat : ∀ j, 0 < (steps j).at') :
    (c.verifyEach r steps document limit n).1 = (c.verifyEach r' steps document limit n).1 ∧
      Agree (c.verifyEach r steps document limit n).2 (c.verifyEach r' steps document limit n).2 := by
  induction n with
  | zero => exact ⟨rfl, h⟩
  | succ n ih =>
    obtain ⟨hvalues, hrows⟩ := ih
    obtain ⟨hvalue, hrow⟩ := hrows.verify_one c (fun j => steps (n + j)) document limit
      ((steps n).valid && decide ((steps n).at' = 0)) (hat n)
    simp only [CopyConstraint.verifyEach]
    exact ⟨by rw [hvalues, hvalue], hrow⟩

end CopyConstraint
end Quail.Extract
