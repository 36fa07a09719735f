import Quail.Extract.Splits
import Mathlib.Data.List.ReduceOption

/-!
# Answers stay ready

An answer is ready before its first token, and a pass that chooses a token for it leaves it ready for the
next: a stream is alive, and the number of streams that the host reads is how many are (`Ready.next`).
-/

set_option linter.unusedSectionVars false

namespace Quail.Extract.CopyConstraint

variable {α : Type} [LinearOrder α] {c : CopyConstraint}

/-! ## The first token -/

lemma maxima_le_firstKey {projected : Readout α} {document key : ℕ} (hkey : key < c.numKeys) :
    c.maxima projected document key ≤ c.maxima projected document (c.firstKey projected document) := by
  obtain ⟨m, hm, hmax⟩ := Finset.exists_max_image (Finset.range c.numKeys) (c.maxima projected document)
    ⟨key, Finset.mem_range.mpr hkey⟩
  have hfound : ((List.range c.numKeys).find? fun key => (List.range c.numKeys).all fun other =>
      decide (c.maxima projected document other ≤ c.maxima projected document key)).isSome := by
    apply List.find?_isSome.mpr
    refine ⟨m, List.mem_range.mpr (Finset.mem_range.mp hm), ?_⟩
    rw [List.all_eq_true]
    exact fun other hother => decide_eq_true (hmax other (Finset.mem_range.mpr (List.mem_range.mp hother)))
  obtain ⟨k, hk⟩ := Option.isSome_iff_exists.mp hfound
  have hfirst : c.firstKey projected document = k := by rw [firstKey, hk, Option.getD_some]
  have hall := List.find?_some hk
  rw [List.all_eq_true] at hall
  rw [hfirst]
  exact of_decide_eq_true (hall key (List.mem_range.mpr hkey))

/-- A key with a score is the key of a position of the document. -/
lemma maxima_position {projected : Readout α} {document key : ℕ} (h : c.maxima projected document key ≠ ⊥) :
    ∃ col, col < c.positionOffsets (document + 1) - c.positionOffsets document ∧
      c.keyIds (c.positionOffsets document + col) = key := by
  have hoptions : c.keyOptions document key ≠ [] := by
    intro hnil
    rw [maxima, hnil] at h
    exact h rfl
  obtain ⟨o, ho⟩ := List.exists_mem_of_ne_nil _ hoptions
  obtain ⟨option, hoption, -⟩ := List.mem_map.mp ho
  obtain ⟨hmem, hsame⟩ := List.mem_filter.mp hoption
  obtain ⟨k, hk, hin⟩ := List.mem_flatMap.mp hmem
  obtain ⟨i, -, rfl⟩ := List.mem_map.mp hin
  obtain rfl : k = key := of_decide_eq_true hsame
  obtain ⟨p, hfrom, hto, hp⟩ := c.keys_used document k (List.mem_range.mp hk)
  refine ⟨p - c.positionOffsets document, by omega, ?_⟩
  rw [Nat.add_sub_cancel' hfrom]
  exact hp

/-- A first token that does not end the answer leaves a stream alive. -/
lemma begins_keep {projected : Readout α} {row : Row} {document : ℕ}
    (hwidth : row.width = c.maxPositions) (hstreams : row.streams = c.streamIds document)
    (halive : row.alive = fun col => (c.streamIds document col).isSome)
    (hended : (c.choose projected row 0 document true).ended = false) :
    ∃ col < row.width, (c.choose projected row 0 document true).keep col = true := by
  simp only [choose, decide_true, Bool.and_self, Bool.not_true, Bool.false_or, if_true] at hended ⊢
  -- The answer does not end, so that some key has a score.
  obtain ⟨key, hkey, hscore⟩ : ∃ key < c.numKeys, c.maxima projected document key ≠ ⊥ := by
    simp only [ends, if_true, Bool.or_eq_false_iff, decide_eq_false_iff_not, not_lt] at hended
    obtain ⟨⟨-, hstop⟩, -⟩ := hended
    have hbest := ((WithBot.bot_lt_coe projected.stop).trans_le hstop).ne'
    obtain ⟨t, ht, -⟩ := best_mem.resolve_left hbest
    obtain ⟨col, -, hcol⟩ := List.mem_filterMap.mp ht
    by_cases hpossible : (row.alive col && decide
        (c.maxima projected document (c.keyIds (position (row.streams col))) ≠ ⊥)) = true
    · rw [Bool.and_eq_true, decide_eq_true_eq] at hpossible
      exact ⟨_, c.keyIds_lt _, hpossible.2⟩
    · rw [if_neg hpossible] at hcol
      exact absurd hcol (by rintro ⟨⟩)
  have hfirst : c.maxima projected document (c.firstKey projected document) ≠ ⊥ :=
    ((bot_lt_iff_ne_bot.mpr hscore).trans_le (maxima_le_firstKey hkey)).ne'
  obtain ⟨col, hcol, hposition⟩ := maxima_position hfirst
  refine ⟨col, by rw [hwidth]; exact hcol.trans_le (c.positions_le document), ?_⟩
  have hstream : c.streamIds document col = some ⟨c.positionOffsets document + col, 0⟩ := if_pos hcol
  rw [hstreams, halive, hstream]
  simp only [position, Option.elim_some, hposition, initial, Option.map_some, tokensAt, Option.bind_some,
    if_true, Option.isSome_some, Bool.and_true, firstToken, decide_true, hstream, Bool.true_and]
  exact decide_eq_true hfirst

/-! ## The streams left alive -/

/-- What the last position that counts says of the streams that are left alive. -/
structure Told (row : Row) (values : List (Option Value)) : Prop where
  count : ∀ v, values.reduceOption.getLast? = some v → v.numStreams = row.live.length
  alive : ∀ v, values.reduceOption.getLast? = some v → v.token ≠ none → row.live ≠ []

lemma Told.nil (row : Row) : Told row [] := ⟨nofun, nofun⟩

lemma Told.skip {row row' : Row} {values : List (Option Value)} (h : Told row values) (hlive : row'.live = row.live) :
    Told row' (values ++ [none]) := by
  have hsame : (values ++ [none]).reduceOption = values.reduceOption := by
    rw [List.reduceOption_append]
    exact List.append_nil _
  constructor
  · intro v hv
    rw [hsame] at hv
    rw [hlive]
    exact h.count v hv
  · intro v hv htoken
    rw [hsame] at hv
    rw [hlive]
    exact h.alive v hv htoken

lemma Told.add {row : Row} {values : List (Option Value)} {v : Value} (hcount : v.numStreams = row.live.length)
    (halive : v.token ≠ none → row.live ≠ []) : Told row (values ++ [some v]) := by
  have hlast : (values ++ [some v]).reduceOption.getLast? = some v := by
    rw [List.reduceOption_append]
    exact List.getLast?_concat
  constructor
  · intro u hu
    obtain rfl := Option.some.inj (hlast.symm.trans hu)
    exact hcount
  · intro u hu htoken
    obtain rfl := Option.some.inj (hlast.symm.trans hu)
    exact halive htoken

/-- A position past the first token tells what it leaves alive. -/
lemma Told.past {row : Row} {values : List (Option Value)} (h : Told row values) {steps : ℕ → DraftStep α}
    {document limit : ℕ} {first : Bool} (hat : 0 < (steps 0).at') :
    Told (c.verify row steps 1 document limit first).2 (values ++ (c.verify row steps 1 document limit first).1) := by
  rw [verify_past hat]
  cases huse : row.active && (steps 0).valid with
  | false =>
    simp only [huse, Bool.false_eq_true, if_false]
    apply h.skip
    change Row.live { row with alive := c.left row (steps 0) } = row.live
    rw [left_live, huse, Bool.false_and, if_neg Bool.false_ne_true]
  | true =>
    simp only [huse, if_true]
    apply Told.add
    · exact count_live { row with alive := c.left row (steps 0) }
    · intro htoken
      change Row.live { row with alive := c.left row (steps 0) } ≠ []
      cases hended : c.ends (steps 0).projected (c.allowed row (steps 0).at') (steps 0).at' with
      | true =>
        rw [hended] at htoken
        exact absurd rfl htoken
      | false =>
        apply left_ne_nil hat
        -- The token is that of a live stream.
        obtain ⟨t, ht, -⟩ := goes_on hat hended
        rw [allowed_live] at ht
        obtain ⟨s, hs, -⟩ := List.mem_filterMap.mp ht
        exact List.ne_nil_of_mem hs

lemma Told.each {row : Row} {values : List (Option Value)} (h : Told row values) {steps : ℕ → DraftStep α}
    {document limit n : ℕ} (hat : ∀ j, 0 < (steps j).at') :
    Told (c.verifyEach row steps document limit n).2 (values ++ (c.verifyEach row steps document limit n).1) := by
  induction n with
  | zero =>
    rw [verifyEach, List.append_nil]
    exact h
  | succ n ih =>
    simp only [verifyEach]
    rw [← List.append_assoc]
    exact ih.past (hat n)

/-- The first token tells what it leaves alive. -/
lemma told_first {row : Row} {steps : ℕ → DraftStep α} {document limit : ℕ} (hwidth : row.width = c.maxPositions)
    (hstreams : row.streams = c.streamIds document)
    (halive : row.alive = fun col => (c.streamIds document col).isSome) (hactive : row.active = true)
    (hvalid : (steps 0).valid = true) (hat : (steps 0).at' = 0) :
    Told (c.verify row steps 1 document limit true).2 ([] ++ (c.verify row steps 1 document limit true).1) := by
  simp only [verify, hactive, hvalid, hat, Bool.and_self, Bool.true_and, if_true]
  apply Told.add
  · rw [← count_live]
  · intro htoken
    cases hended : (c.choose (steps 0).projected row 0 document true).ended with
    | true =>
      rw [hended] at htoken
      exact absurd rfl htoken
    | false =>
      obtain ⟨col, hcol, hkeep⟩ := begins_keep hwidth hstreams halive hended
      apply List.ne_nil_of_mem (a := (c.choose (steps 0).projected row 0 document true).streams col)
      apply live_mem.mpr
      refine ⟨col, hcol, ?_, rfl⟩
      simp only [Bool.not_false, if_true]
      exact hkeep

/-- The values of an answer tell what they leave alive. -/
lemma Ready.told {batch : Batch α} {group : Group} {slot : ℕ} (h : Ready c batch group slot) :
    Told (c.each group batch slot).2 (c.each group batch slot).1 := by
  rw [CopyConstraint.each]
  rcases Nat.eq_zero_or_pos (batch.indices slot) with hat | hat
  · obtain ⟨hwidth, hstreams, halive⟩ := h.begun hat
    have hgather : CopyConstraint.gather (group slot) (group slot).width (numStreams group batch slot) =
        { width := (group slot).width, streams := (group slot).streams, alive := (group slot).alive
          source := (group slot).source, active := true } := by
      rw [numStreams, if_pos hat]
      exact if_neg (not_lt.mpr (le_max_right _ _))
    have hpos := batch.counts_pos slot
    have hstep : (draftStep batch slot 0).at' = 0 := by
      dsimp only [draftStep]
      rw [if_pos hpos, hat]
    have hvalid : (draftStep batch slot 0).valid = true := draftStep_begins hstep
    obtain ⟨n, hn⟩ := Nat.exists_eq_add_of_le' (Nat.succ_le_of_lt hpos)
    -- The first position, and those after it.
    rw [hgather, hn, Nat.add_comm, verifyEach_add]
    have hone : c.verifyEach { width := (group slot).width, streams := (group slot).streams
                               alive := (group slot).alive, source := (group slot).source, active := true }
        (draftStep batch slot) (batch.copyDocument slot) (batch.limits slot) 1 =
        c.verify { width := (group slot).width, streams := (group slot).streams
                   alive := (group slot).alive, source := (group slot).source, active := true }
          (draftStep batch slot) 1 (batch.copyDocument slot) (batch.limits slot) true := by
      simp only [verifyEach, List.nil_append, Nat.zero_add, hvalid, hstep, decide_true, Bool.and_self]
    rw [hone]
    exact (told_first hwidth hstreams halive rfl hvalid hstep).each fun j =>
      draftStep_at (Or.inl (Nat.lt_of_lt_of_le Nat.one_pos (Nat.le_add_right 1 j)))
  · exact (Told.nil _).each fun j => draftStep_at (Or.inr hat)

/-- An answer is ready before its first token. -/
theorem ready_initial {batch : Batch α} {group : Group} {slot : ℕ} (hat : batch.indices slot = 0)
    (hwidth : (group slot).width = c.maxPositions)
    (hstreams : (group slot).streams = c.streamIds (batch.copyDocument slot))
    (halive : (group slot).alive = fun col => (c.streamIds (batch.copyDocument slot) col).isSome) :
    Ready c batch group slot where
  width_pos := by
    rw [hwidth]
    exact c.max_positions_pos
  width_le := hwidth.le
  dead col hcol := by
    have hnone : ¬ col < c.positionOffsets (batch.copyDocument slot + 1) -
        c.positionOffsets (batch.copyDocument slot) := by
      have hle := c.positions_le (batch.copyDocument slot)
      omega
    rw [halive]
    simp only [streamIds, if_neg hnone, Option.isSome_none]
  begun _ := ⟨hwidth, hstreams, halive⟩
  going hpos := absurd hat hpos.ne'

/-- A pass that chooses a token for an answer leaves it ready for the next. -/
theorem Ready.next {batch batch' : Batch α} {group : Group} {slot : ℕ} {r : Constrained} {v : Value}
    (h : Ready c batch group slot) (hverified : Verified c group batch slot r)
    (hlast : (r.out slot).reduceOption.getLast? = some v) (htoken : v.token ≠ none)
    (hat : 0 < batch'.indices slot) (hnumber : batch'.numStreams slot = v.numStreams) :
    Ready c batch' r.group slot where
  width_pos := hverified.width_pos
  width_le := hverified.width_le
  dead := hverified.dead
  begun hzero := absurd hzero hat.ne'
  going _ := by
    rw [hverified.out] at hlast
    rw [hverified.live, hnumber]
    exact ⟨h.told.alive v hlast htoken, (h.told.count v hlast).symm⟩

end Quail.Extract.CopyConstraint
