import Quail.Readout.Packing
import Quail.Lib.Waiting
import Mathlib.Data.List.SplitLengths

/-!
# Readout groups

`ReadoutGroups` of `executor/readout_groups.py`: the stages of a stage list grouped by their readout, so
that each readout is called once for a chunk. With one readout for every stage the chunk goes to it as it
is. Otherwise `submit` walks the chunk's entries, gives each group the rows of its own entries, and to a
group whose stages read every row also the row counts of its answers, which it finds by bisecting the
cumulative row counts of the chunk's answers.

The counts so found are those that `Waiting.run` hands over: an answer with no rows waits for the next
answer that has some, and goes with it to that answer's group (`takes_eq`).
-/

namespace Quail.Readout

open Waiting

/-- `question_slots`: the same for every question, or each question's own. -/
inductive Slots
  | same (slots : List ℤ)
  | own (slots : List (List ℤ))
deriving DecidableEq, Repr

/-- A stage, as it is after `__post_init__`. Token sequences are given by their lengths, except the
frame's, which the next stage's is compared with. -/
structure Stage where
  readout : ℕ
  suffixes : List ℕ
  frame : List ℕ := []
  readAllRows : Bool := false
  readRows : Option (List ℕ) := none
  readMask : Option (List Bool) := none
  single : Bool := false
  rewind : Bool := false
  canvas : Option (ℕ → Canvas) := none
  canvasRows : ℕ := 0
  questions : List (List ℕ) := []
  questionSlots : Slots := .same [0]
  stateReads : Option (ℕ → List ℕ) := none

/-- Stages grouped by readout: for each stage its group, for each group its readout and whether its stages
read every suffix row. -/
structure ReadoutGroups where
  sharedReadout : Bool
  groupKey : List ℕ := []
  readoutOf : List ℕ := []
  readAllOf : List Bool := []
deriving DecidableEq, Repr

namespace ReadoutGroups

def key (shared : Bool) (stage : Stage) : ℕ × Bool :=
  (stage.readout, if shared then false else stage.readAllRows)

/-- One stage of the loop, with the groups so far. -/
def enter (shared : Bool) (s : List (ℕ × Bool) × ReadoutGroups) (stage : Stage) :
    List (ℕ × Bool) × ReadoutGroups :=
  let k := key shared stage
  let s := if k ∈ s.1 then s else
    (s.1 ++ [k], { s.2 with
      readoutOf := s.2.readoutOf ++ [stage.readout]
      readAllOf := s.2.readAllOf ++ [stage.readAllRows] })
  (s.1, { s.2 with groupKey := s.2.groupKey ++ [s.1.idxOf k] })

/-- Whether every stage reads through one readout. -/
def shared (stages : List Stage) : Bool :=
  stages.all fun stage => stages.head?.map Stage.readout = some stage.readout

def new (stages : List Stage) : ReadoutGroups :=
  (stages.foldl (enter (shared stages)) ([], { sharedReadout := shared stages })).2

variable (G : ReadoutGroups)

/-- The group of a stage. -/
def keyOf (j : ℕ) : ℕ := G.groupKey.getD j 0

/-- The spans and row counts gathered for each group. -/
structure Spans where
  row : ℕ := 0
  answer : ℕ := 0
  spans : ℕ → List (ℕ × ℕ) := fun _ => []
  counts : ℕ → List (List ℕ) := fun _ => []

/-- `np.searchsorted`. -/
def searchsorted (boundaries : List ℕ) (x : ℕ) : ℕ := (boundaries.takeWhile (· < x)).length

/-- One entry, a stage and its rows, of the loop. -/
def addEntry (rowsPerAnswer : Option (List ℕ)) (s : Spans) (entry : ℕ × ℕ) : Spans :=
  let key := G.keyOf entry.1
  let row := s.row + entry.2
  let spans := Function.update s.spans key (s.spans key ++ [(s.row, row)])
  match rowsPerAnswer with
  | none => { s with row, spans }
  | some rows =>
    let stop := searchsorted (cumsum rows) row + 1
    let counts := if G.readAllOf.getD key false then
        Function.update s.counts key (s.counts key ++ [(rows.take stop).drop s.answer])
      else s.counts
    { row, spans, counts, answer := stop }

def gather (rowsPerAnswer : Option (List ℕ)) (entries : List (ℕ × ℕ)) : Spans :=
  entries.foldl (G.addEntry rowsPerAnswer) {}

section Values

variable {Row Value : Type}

/-- What a readout is called with. -/
structure Submission (Row : Type) where
  rows : List Row
  rowsPerAnswer : Option (List ℕ)

/-- `none` stands for an index out of range. -/
def selectRows (normed : List Row) (spans : List (ℕ × ℕ)) : Option (List Row) :=
  (spans.flatMap fun span => List.range' span.1 (span.2 - span.1)).mapM (normed[·]?)

/-- The row counts that a group's readout is called with. -/
def takes (rowsPerAnswer : Option (List ℕ)) (entries : List (ℕ × ℕ)) (key : ℕ) : Option (List ℕ) :=
  let counts := (G.gather rowsPerAnswer entries).counts key
  if counts = [] then none else some counts.flatten

def submit (normed : List Row) (entries : List (ℕ × ℕ)) (rowsPerAnswer : Option (List ℕ)) :
    Option (List (ℕ × Submission Row)) :=
  if G.sharedReadout then some [(0, ⟨normed, rowsPerAnswer⟩)]
  else
    let s := G.gather rowsPerAnswer entries
    ((List.range G.readoutOf.length).filter fun key => s.spans key ≠ []).mapM fun key =>
      (selectRows normed (s.spans key)).map fun rows => (key, ⟨rows, G.takes rowsPerAnswer entries key⟩)

/-- `split_rows` of `executor/readout.py`: the rows of each answer. -/
def splitRows (rows : List Row) (rowsPerAnswer : Option (List ℕ)) : List (List Row) :=
  (rowsPerAnswer.getD (List.replicate rows.length 1)).splitLengths rows

/-- Each group's values. A readout is given by the value it makes of an answer's rows. -/
def results (readouts : ℕ → List Row → Value) (handles : List (ℕ × Submission Row)) (key : ℕ) : List Value :=
  match handles.lookup key with
  | some handle => (splitRows handle.rows handle.rowsPerAnswer).map (readouts (G.readoutOf.getD key 0))
  | none => []

end Values

/-! ## The groups -/

/-- What the loop has entered after some stages. -/
structure Entered (shared : Bool) (stages : List Stage) (s : List (ℕ × Bool) × ReadoutGroups) : Prop where
  sharedReadout : s.2.sharedReadout = shared
  length : s.2.groupKey.length = stages.length
  readoutOf : s.2.readoutOf = s.1.map Prod.fst
  readAllOf : shared = false → s.2.readAllOf = s.1.map Prod.snd
  groupKey : ∀ (j : ℕ) stage, stages[j]? = some stage →
    ∃ i, s.2.groupKey[j]? = some i ∧ s.1[i]? = some (key shared stage)
  nodup : s.1.Nodup
  source : ∀ k ∈ s.1, ∃ stage ∈ stages, key shared stage = k

lemma Entered.enter {shared : Bool} {stages : List Stage} {s : List (ℕ × Bool) × ReadoutGroups} {stage : Stage}
    (h : Entered shared stages s) : Entered shared (stages ++ [stage]) (enter shared s stage) := by
  have hlookup {groups : List (ℕ × Bool)} {keys : List ℕ} (hkeys : keys = s.2.groupKey)
      (hle : s.1 <+: groups) (hmem : key shared stage ∈ groups) :
      ∀ (j : ℕ) stage', (stages ++ [stage])[j]? = some stage' →
        ∃ i, (keys ++ [groups.idxOf (key shared stage)])[j]? = some i ∧
          groups[i]? = some (key shared stage') := by
    subst hkeys
    intro j stage' hj
    rcases Nat.lt_or_ge j stages.length with hlt | hge
    · rw [List.getElem?_append_left hlt] at hj
      obtain ⟨i, hi, hgroup⟩ := h.groupKey j stage' hj
      refine ⟨i, ?_, ?_⟩
      · rw [List.getElem?_append_left (h.length ▸ hlt), hi]
      · obtain ⟨more, rfl⟩ := hle
        rw [List.getElem?_append_left (List.getElem?_eq_some_iff.1 hgroup).1, hgroup]
    · rw [List.getElem?_append_right hge] at hj
      have hj' : j = stages.length := by
        have hlt := (List.getElem?_eq_some_iff.1 hj).1
        simp at hlt
        omega
      subst hj'
      obtain rfl : stage = stage' := by simpa using hj
      refine ⟨groups.idxOf (key shared stage), ?_, ?_⟩
      · simp [← h.length]
      · rw [List.getElem?_eq_getElem (List.idxOf_lt_length_iff.2 hmem), List.getElem_idxOf]
  by_cases hk : key shared stage ∈ s.1
  · rw [ReadoutGroups.enter, if_pos hk]
    refine ⟨h.sharedReadout, by simp [h.length], h.readoutOf, h.readAllOf,
      hlookup rfl (List.prefix_refl _) hk, h.nodup, fun k hmem => ?_⟩
    obtain ⟨stage', hstage, rfl⟩ := h.source k hmem
    exact ⟨stage', by simp [hstage], rfl⟩
  · rw [ReadoutGroups.enter, if_neg hk]
    refine ⟨h.sharedReadout, by simp [h.length], ?_, ?_, hlookup rfl (List.prefix_append ..) (by simp),
      ?_, fun k hmem => ?_⟩
    · simp [h.readoutOf, key]
    · intro hs
      simp [h.readAllOf hs, key, hs]
    · exact List.nodup_append.2 ⟨h.nodup, by simp, fun a ha b hb hab => hk (by
        rw [List.mem_singleton] at hb
        exact hb ▸ hab ▸ ha)⟩
    · rw [List.mem_append, List.mem_singleton] at hmem
      rcases hmem with hmem | rfl
      · obtain ⟨stage', hstage, rfl⟩ := h.source k hmem
        exact ⟨stage', by simp [hstage], rfl⟩
      · exact ⟨stage, by simp, rfl⟩

theorem entered_new (stages : List Stage) : ∃ groups,
    Entered (shared stages) stages (groups, new stages) := by
  have hrun : ∀ rest past s, Entered (shared stages) past s →
      Entered (shared stages) (past ++ rest) (rest.foldl (ReadoutGroups.enter (shared stages)) s) := by
    intro rest
    induction rest with
    | nil => simp
    | cons stage rest ih =>
      intro past s hs
      rw [List.foldl_cons]
      simpa using ih _ _ hs.enter
  exact ⟨_, hrun stages [] _ ⟨rfl, rfl, rfl, fun _ => rfl, by simp, by simp, by simp⟩⟩

section New

variable {stages : List Stage} {stage : Stage} {j : ℕ}

lemma sharedReadout_new : (new stages).sharedReadout = shared stages :=
  (entered_new stages).choose_spec.sharedReadout

/-- A stage's group has its readout, and reads every row if the stage does, unless all stages share one. -/
lemma keyOf_new (h : stages[j]? = some stage) :
    (new stages).readoutOf[(new stages).keyOf j]? = some stage.readout ∧
      (shared stages = false → (new stages).readAllOf[(new stages).keyOf j]? = some stage.readAllRows) := by
  obtain ⟨groups, hnew⟩ := entered_new stages
  obtain ⟨i, hi, hgroup⟩ := hnew.groupKey j stage h
  have hkey : (new stages).keyOf j = i := by rw [keyOf, List.getD_eq_getElem?_getD, hi]; rfl
  rw [hkey]
  refine ⟨?_, fun hs => ?_⟩
  · rw [hnew.readoutOf, List.getElem?_map, hgroup]
    rfl
  · rw [hnew.readAllOf hs, List.getElem?_map, hgroup]
    simp [key, hs]

/-- With one readout there is one group. -/
lemma keyOf_shared (hs : shared stages = true) (h : stages[j]? = some stage) : (new stages).keyOf j = 0 := by
  obtain ⟨groups, hnew⟩ := entered_new stages
  obtain ⟨i, hi, hgroup⟩ := hnew.groupKey j stage h
  have hkey : (new stages).keyOf j = i := by rw [keyOf, List.getD_eq_getElem?_getD, hi]; rfl
  have hsame : ∀ k ∈ groups, k = key true stage := by
    intro k hk
    obtain ⟨stage', hstage', rfl⟩ := hnew.source k hk
    have hall := List.all_eq_true.1 hs
    have h' := of_decide_eq_true (hall stage' hstage')
    have h'' := of_decide_eq_true (hall stage (List.mem_of_getElem? h))
    rw [h'] at h''
    rw [hs, key, key, Option.some.inj h'']
    rfl
  have hlt : i < groups.length := (List.getElem?_eq_some_iff.1 hgroup).1
  have hpos : 0 < groups.length := Nat.zero_lt_of_lt hlt
  have hzero : groups[0] = groups[i] := by
    rw [hsame _ (List.getElem_mem hpos), hsame _ (List.getElem_mem hlt)]
  have hindex : 0 = i := (List.Nodup.getElem_inj_iff hnew.nodup).1 hzero
  rw [hkey, hindex]

end New

/-! ## The rows of each group -/

section Gather

variable {Row : Type} {G} {normed : List Row} {rowsPerAnswer : Option (List ℕ)} {entries : List (ℕ × ℕ)}

lemma gather_snoc (entry : ℕ × ℕ) : G.gather rowsPerAnswer (entries ++ [entry])
    = G.addEntry rowsPerAnswer (G.gather rowsPerAnswer entries) entry := by
  simp [gather]

lemma addEntry_row (s : Spans) (entry : ℕ × ℕ) :
    (G.addEntry rowsPerAnswer s entry).row = s.row + entry.2 := by
  cases rowsPerAnswer <;> rfl

lemma addEntry_spans (s : Spans) (entry : ℕ × ℕ) : (G.addEntry rowsPerAnswer s entry).spans
    = Function.update s.spans (G.keyOf entry.1)
        (s.spans (G.keyOf entry.1) ++ [(s.row, s.row + entry.2)]) := by
  cases rowsPerAnswer <;> rfl

lemma selectRows_append {spans spans' : List (ℕ × ℕ)} {rows rows' : List Row}
    (h : selectRows normed spans = some rows) (h' : selectRows normed spans' = some rows') :
    selectRows normed (spans ++ spans') = some (rows ++ rows') := by
  unfold selectRows at h h' ⊢
  rw [List.flatMap_append, List.mapM_append, h, h']
  rfl

lemma selectRows_between (before rows after : List Row) :
    selectRows (before ++ rows ++ after) [(before.length, before.length + rows.length)] = some rows := by
  rw [selectRows, List.flatMap_singleton, Nat.add_sub_cancel_left]
  induction rows generalizing before with
  | nil => rfl
  | cons row rows ih =>
    have hnext := ih (before ++ [row])
    rw [List.length_append, List.length_singleton, List.append_assoc before, List.singleton_append] at hnext
    have hrow : (before ++ row :: rows ++ after)[before.length]? = some row := by simp
    rw [List.length_cons, List.range'_succ, List.mapM_cons, hrow, hnext]
    rfl

/-- The entries that stand for answers: for each a stage and the rows of its answers. -/
def entriesOf (lots : List (ℕ × List (List Row))) : List (ℕ × ℕ) :=
  lots.map fun e => (e.1, (e.2.map List.length).sum)

variable (G) in
/-- The answers with their groups. -/
def keyed (lots : List (ℕ × List (List Row))) : List (ℕ × List Row) :=
  lots.flatMap fun e => e.2.map fun answer => (G.keyOf e.1, answer)

variable (G) in
/-- The answers of a group. -/
def answersOf (lots : List (ℕ × List (List Row))) (key : ℕ) : List (List Row) := own (G.keyed lots) key

lemma keyed_append (lots lots' : List (ℕ × List (List Row))) :
    G.keyed (lots ++ lots') = G.keyed lots ++ G.keyed lots' := by
  simp [keyed]

lemma answersOf_append (lots lots' : List (ℕ × List (List Row))) (key : ℕ) :
    G.answersOf (lots ++ lots') key = G.answersOf lots key ++ G.answersOf lots' key := by
  rw [answersOf, keyed_append, own_append]
  rfl

lemma answersOf_singleton (e : ℕ × List (List Row)) (key : ℕ) :
    G.answersOf [e] key = if key = G.keyOf e.1 then e.2 else [] := by
  by_cases h : G.keyOf e.1 = key
  · simp [answersOf, keyed, own, h, List.filter_map, Function.comp_def]
  · simp [answersOf, keyed, own, h, Ne.symm h, List.filter_map, Function.comp_def]

lemma answersOf_cons (e : ℕ × List (List Row)) (lots : List (ℕ × List (List Row))) (key : ℕ) :
    G.answersOf (e :: lots) key = (if key = G.keyOf e.1 then e.2 else []) ++ G.answersOf lots key := by
  rw [← answersOf_singleton, ← answersOf_append, List.singleton_append]

lemma answersOf_all {lots : List (ℕ × List (List Row))} {key : ℕ} (h : ∀ e ∈ lots, G.keyOf e.1 = key) :
    G.answersOf lots key = lots.flatMap Prod.snd := by
  induction lots with
  | nil => rfl
  | cons e lots ih =>
    obtain ⟨he, hlots⟩ := List.forall_mem_cons.1 h
    rw [answersOf_cons, if_pos he.symm, ih hlots, List.flatMap_cons]

/-- Each group is given the rows of its own answers. -/
theorem gather_rows (lots : List (ℕ × List (List Row))) (after : List Row) :
    (G.gather rowsPerAnswer (entriesOf lots)).row = (lots.flatMap Prod.snd).flatten.length ∧
    ∀ key, selectRows ((lots.flatMap Prod.snd).flatten ++ after)
        ((G.gather rowsPerAnswer (entriesOf lots)).spans key) = some (G.answersOf lots key).flatten := by
  induction lots using List.reverseRecOn generalizing after with
  | nil => exact ⟨rfl, fun key => rfl⟩
  | append_singleton lots e ih =>
    have hentries : entriesOf (lots ++ [e]) = entriesOf lots ++ [(e.1, (e.2.map List.length).sum)] := by
      simp [entriesOf]
    obtain ⟨hrow, hspans⟩ := ih (e.2.flatten ++ after)
    have hrows : ((lots ++ [e]).flatMap Prod.snd).flatten ++ after
        = (lots.flatMap Prod.snd).flatten ++ e.2.flatten ++ after := by simp
    rw [hentries, gather_snoc, addEntry_row, hrow, hrows]
    refine ⟨by simp [List.length_flatten], fun key => ?_⟩
    rw [addEntry_spans, hrow, answersOf_append, List.flatten_append, answersOf_singleton]
    have hbefore := hspans key
    rw [← List.append_assoc] at hbefore
    by_cases hk : key = G.keyOf e.1
    · subst hk
      rw [Function.update_self, if_pos rfl, ← List.length_flatten]
      exact selectRows_append hbefore (selectRows_between ..)
    · rw [Function.update_of_ne hk, if_neg hk, hbefore]
      simp

/-! ## The row counts of each group -/

lemma scanl_tail (b : ℕ) (l : List ℕ) : (l.scanl (· + ·) b).tail = (cumsum l).map (b + ·) := by
  induction l generalizing b with
  | nil => rfl
  | cons x l ih =>
    have hcons (b : ℕ) : ((x :: l).scanl (· + ·) b).tail = (b + x) :: (cumsum l).map (b + x + ·) := by
      rw [List.scanl_cons, List.tail_cons, Cumulative.scanl_eq_cons, ih]
    have hzero := hcons 0
    rw [Nat.zero_add] at hzero
    have hcumsum : cumsum (x :: l) = x :: (cumsum l).map (x + ·) := hzero
    rw [hcons, hcumsum]
    simp [Nat.add_assoc]

lemma cumsum_cons (x : ℕ) (l : List ℕ) : cumsum (x :: l) = x :: (cumsum l).map (x + ·) := by
  rw [cumsum, cumulative, List.scanl_cons, List.tail_cons, Cumulative.scanl_eq_cons, Nat.zero_add, scanl_tail]

lemma cumsum_append (l l' : List ℕ) : cumsum (l ++ l') = cumsum l ++ (cumsum l').map (l.sum + ·) := by
  induction l with
  | nil => simp [cumsum, cumulative]
  | cons x l ih => simp [cumsum_cons, ih, Nat.add_assoc]

lemma length_cumsum (l : List ℕ) : (cumsum l).length = l.length := by
  simp [cumsum, cumulative]

lemma le_sum_of_mem_cumsum {l : List ℕ} {y : ℕ} (h : y ∈ cumsum l) : y ≤ l.sum := by
  induction l generalizing y with
  | nil => simp [cumsum, cumulative] at h
  | cons x l ih =>
    rw [cumsum_cons, List.mem_cons] at h
    rw [List.sum_cons]
    rcases h with rfl | h
    · exact Nat.le_add_right _ _
    · obtain ⟨z, hz, rfl⟩ := List.mem_map.1 h
      exact Nat.add_le_add_left (ih hz) x

/-- Bisection finds the last answer with rows, or the first answer if none has any. -/
lemma searchsorted_eq {d w more : List ℕ} {x : ℕ} (hx : d = [] ∨ 0 < x) (hw : ∀ y ∈ w, y = 0) :
    searchsorted (cumsum (d ++ [x] ++ w ++ more)) (d ++ [x] ++ w).sum = d.length := by
  have hsum : (d ++ [x] ++ w).sum = d.sum + x := by
    rw [List.sum_append, List.sum_append, List.sum_eq_zero hw, List.sum_singleton, Nat.add_zero]
  have hbefore : ∀ y ∈ cumsum d, decide (y < d.sum + x) = true := by
    intro y hy
    rcases hx with rfl | hx
    · simp [cumsum, cumulative] at hy
    · exact decide_eq_true (Nat.lt_of_le_of_lt (le_sum_of_mem_cumsum hy) (Nat.lt_add_of_pos_right hx))
  rw [searchsorted, hsum, List.append_assoc, List.append_assoc, cumsum_append,
    List.takeWhile_append_of_pos hbefore, List.singleton_append, cumsum_cons, List.map_cons,
    List.takeWhile_cons_of_neg (by simp), List.append_nil, length_cumsum]

variable (G) in
/-- The row counts of the answers, with their groups. -/
def keyedCounts (lots : List (ℕ × List (List Row))) : List (ℕ × ℕ) :=
  (G.keyed lots).map fun e => (e.1, e.2.length)

lemma keyedCounts_append (lots lots' : List (ℕ × List (List Row))) :
    G.keyedCounts (lots ++ lots') = G.keyedCounts lots ++ G.keyedCounts lots' := by
  simp [keyedCounts, keyed_append]

lemma keyedCounts_singleton (e : ℕ × List (List Row)) :
    G.keyedCounts [e] = (e.2.map List.length).map fun c => (G.keyOf e.1, c) := by
  simp [keyedCounts, keyed]

lemma keyedCounts_cons (e : ℕ × List (List Row)) (lots : List (ℕ × List (List Row))) :
    G.keyedCounts (e :: lots) = ((e.2.map List.length).map fun c => (G.keyOf e.1, c)) ++ G.keyedCounts lots := by
  rw [← keyedCounts_singleton, ← keyedCounts_append, List.singleton_append]

lemma keyedCounts_snd (lots : List (ℕ × List (List Row))) :
    (G.keyedCounts lots).map Prod.snd = lots.flatMap fun e => e.2.map List.length := by
  simp [keyedCounts, keyed, List.map_flatMap, Function.comp_def]

lemma own_keyedCounts (lots : List (ℕ × List (List Row))) (key : ℕ) :
    own (G.keyedCounts lots) key = (G.answersOf lots key).map List.length := by
  simp [keyedCounts, answersOf, own, List.filter_map, Function.comp_def]

/-- The counts of a group's answers are handed to it when an answer has rows; the chunk's first answer is
handed to its group whether it has rows or not. -/
structure Gathered (G : ReadoutGroups) (items : List (ℕ × ℕ)) (s : Spans) : Prop where
  row : s.row = (items.map Prod.snd).sum
  answer : ∃ d x, items.map Prod.snd = d ++ [x] ++ (run (0 < ·) items.tail).waiting ∧
    s.answer = d.length + 1 ∧ (d = [] ∨ 0 < x)
  counts : ∀ key, (s.counts key).flatten = if G.readAllOf.getD key false then
    own (items.take 1) key ++ (run (0 < ·) items.tail).handed key else []

lemma run_block_pos (items : List (ℕ × ℕ)) (k : ℕ) (block : List ℕ) : ∃ handed waiting,
    (run (0 < ·) items).waiting ++ block = handed ++ waiting ∧
    run (0 < ·) (items ++ block.map fun c => (k, c)) =
      { handed := Function.update (run (0 < ·) items).handed k ((run (0 < ·) items).handed k ++ handed),
        waiting } ∧
    (handed = [] ∨ ∃ l x, handed = l ++ [x] ∧ 0 < x) := run_block items k block

lemma Gathered.addEntry {items : List (ℕ × ℕ)} {s : Spans} (h : Gathered G items s) (hne : items ≠ [])
    (j : ℕ) (block more : List ℕ) :
    Gathered G (items ++ block.map fun c => (G.keyOf j, c))
      (G.addEntry (some (items.map Prod.snd ++ block ++ more)) s (j, block.sum)) := by
  obtain ⟨d, x, hsplit, hanswer, hx⟩ := h.answer
  obtain ⟨handed, waiting, hrest, hrun, hlast⟩ := run_block_pos items.tail (G.keyOf j) block
  have htail : (items ++ block.map fun c => (G.keyOf j, c)).tail
      = items.tail ++ block.map fun c => (G.keyOf j, c) := List.tail_append_of_ne_nil hne
  have htake : (items ++ block.map fun c => (G.keyOf j, c)).take 1 = items.take 1 := by
    cases items with
    | nil => exact absurd rfl hne
    | cons item items => rfl
  have hzero : ∀ y ∈ waiting, y = 0 := by
    intro y hy
    have hwait := not_stop_of_waiting (0 < ·) (items.tail ++ block.map fun c => (G.keyOf j, c)) y
    rw [hrun] at hwait
    exact Nat.eq_zero_of_not_pos (hwait hy)
  -- The counts up to the last answer that is handed over.
  obtain ⟨d', x', hdone, hx'⟩ : ∃ d' x', d ++ [x] ++ handed = d' ++ [x'] ∧ (d' = [] ∨ 0 < x') := by
    rcases hlast with rfl | ⟨l, y, rfl, hy⟩
    · exact ⟨d, x, List.append_nil _, hx⟩
    · exact ⟨d ++ [x] ++ l, y, by simp, Or.inr hy⟩
  have hrows : items.map Prod.snd ++ block = d' ++ [x'] ++ waiting := by
    rw [hsplit, List.append_assoc, hrest, ← List.append_assoc, hdone]
  have hrow : s.row + block.sum = (d' ++ [x'] ++ waiting).sum := by
    rw [h.row, ← hrows, List.sum_append]
  have hstop : searchsorted (cumsum (items.map Prod.snd ++ block ++ more)) (s.row + block.sum) + 1
      = (d' ++ [x']).length := by
    rw [hrow, hrows, searchsorted_eq hx' hzero, List.length_append, List.length_singleton]
  have hslice : ((items.map Prod.snd ++ block ++ more).take (d' ++ [x']).length).drop s.answer = handed := by
    rw [hrows, List.append_assoc, List.take_left, ← hdone, hanswer]
    have hlen : d.length + 1 = (d ++ [x]).length := by simp
    rw [hlen, List.drop_left]
  rw [ReadoutGroups.addEntry]
  dsimp only
  rw [hstop, hslice]
  refine ⟨?_, ⟨d', x', ?_, by simp, hx'⟩, fun key => ?_⟩
  · simp [h.row, Function.comp_def]
  · rw [htail, hrun]
    simpa [Function.comp_def] using hrows
  · rw [htail, htake, hrun]
    have hbefore := h.counts key
    by_cases hk : key = G.keyOf j
    · subst hk
      split
      · rename_i hall
        rw [if_pos hall] at hbefore
        simp [hbefore]
      · rename_i hall
        rw [if_neg hall] at hbefore
        exact hbefore
    · simp only [Function.update_of_ne hk]
      rw [← hbefore]
      split
      · rw [Function.update_of_ne hk]
      · rfl

/-- The first entry has at least one answer, and its first is handed over in any case. -/
lemma Gathered.first (G : ReadoutGroups) (j c : ℕ) (block more : List ℕ) :
    Gathered G ((c :: block).map fun c => (G.keyOf j, c))
      (G.addEntry (some (c :: block ++ more)) {} (j, (c :: block).sum)) := by
  obtain ⟨handed, waiting, hrest, hrun, hlast⟩ := run_block_pos [] (G.keyOf j) block
  have hstart : run (0 < ·) ([] : List (ℕ × ℕ)) = {} := rfl
  rw [hstart] at hrest hrun
  rw [List.nil_append] at hrest hrun
  have hzero : ∀ y ∈ waiting, y = 0 := by
    intro y hy
    have hwait := not_stop_of_waiting (0 < ·) (block.map fun c => (G.keyOf j, c)) y
    rw [hrun] at hwait
    exact Nat.eq_zero_of_not_pos (hwait hy)
  obtain ⟨d, x, hdone, hx⟩ : ∃ d x, c :: handed = d ++ [x] ∧ (d = [] ∨ 0 < x) := by
    rcases hlast with rfl | ⟨l, y, rfl, hy⟩
    · exact ⟨[], c, rfl, Or.inl rfl⟩
    · exact ⟨c :: l, y, rfl, Or.inr hy⟩
  have hrows : c :: block = d ++ [x] ++ waiting := by
    rw [← hdone, List.cons_append, ← hrest]
  have hstop : searchsorted (cumsum (c :: block ++ more)) (0 + (c :: block).sum) + 1 = (d ++ [x]).length := by
    rw [Nat.zero_add, hrows, searchsorted_eq hx hzero, List.length_append, List.length_singleton]
  have hslice : ((c :: block ++ more).take (d ++ [x]).length).drop 0 = c :: handed := by
    rw [hrows, List.append_assoc, List.take_left, List.drop_zero, hdone]
  rw [ReadoutGroups.addEntry]
  dsimp only
  rw [hstop, hslice]
  refine ⟨?_, ⟨d, x, ?_, by simp, hx⟩, fun key => ?_⟩
  · simp [Function.comp_def]
  · rw [List.map_cons, List.tail_cons, hrun]
    simpa [Function.comp_def] using hrows
  · rw [List.map_cons, List.tail_cons, hrun]
    by_cases hk : key = G.keyOf j
    · subst hk
      split <;> simp [own]
    · rw [List.take_succ_cons, List.take_zero]
      have hown : own [(G.keyOf j, c)] key = [] := by simp [own, Ne.symm hk]
      rw [hown]
      split
      · simp [hk]
      · split <;> simp [hk]

/-- What the loop has gathered of the row counts after some entries. -/
theorem gathered (e : ℕ × List (List Row)) (he : e.2 ≠ []) (lots : List (ℕ × List (List Row)))
    (more : List ℕ) : Gathered G (G.keyedCounts (e :: lots))
      (G.gather (some ((G.keyedCounts (e :: lots)).map Prod.snd ++ more)) (entriesOf (e :: lots))) := by
  have hsnd (e : ℕ × List (List Row)) : (G.keyedCounts [e]).map Prod.snd = e.2.map List.length := by
    simp [keyedCounts_singleton, Function.comp_def]
  induction lots using List.reverseRecOn generalizing more with
  | nil =>
    obtain ⟨j, answers⟩ := e
    cases answers with
    | nil => exact absurd rfl he
    | cons answer answers =>
      rw [hsnd, keyedCounts_singleton]
      exact Gathered.first G j answer.length (answers.map List.length) more
  | append_singleton lots e' ih =>
    have hitems : G.keyedCounts (e :: (lots ++ [e'])) = G.keyedCounts (e :: lots) ++ G.keyedCounts [e'] :=
      keyedCounts_append (e :: lots) [e']
    have hentries : entriesOf (e :: (lots ++ [e']))
        = entriesOf (e :: lots) ++ [(e'.1, (e'.2.map List.length).sum)] := by simp [entriesOf]
    have hne : G.keyedCounts (e :: lots) ≠ [] := by
      obtain ⟨answer, answers, h⟩ := List.exists_cons_of_ne_nil he
      simp [keyedCounts, keyed, h]
    rw [hitems, hentries, gather_snoc, List.map_append, hsnd, keyedCounts_singleton]
    have hbefore := ih (e'.2.map List.length ++ more)
    rw [← List.append_assoc] at hbefore
    exact hbefore.addEntry hne e'.1 (e'.2.map List.length) more

/-- A group with an entry has a span, and if its stages read every row it has counts. -/
lemma gather_ne_nil {entry : ℕ × ℕ} (h : entry ∈ entries) :
    (G.gather rowsPerAnswer entries).spans (G.keyOf entry.1) ≠ [] ∧
      (G.readAllOf.getD (G.keyOf entry.1) false = true → rowsPerAnswer ≠ none →
        (G.gather rowsPerAnswer entries).counts (G.keyOf entry.1) ≠ []) := by
  induction entries using List.reverseRecOn with
  | nil => cases h
  | append_singleton entries last ih =>
    rw [gather_snoc, addEntry_spans]
    by_cases hk : G.keyOf entry.1 = G.keyOf last.1
    · rw [hk, Function.update_self]
      refine ⟨by simp, fun hall hne => ?_⟩
      cases rowsPerAnswer with
      | none => exact absurd rfl hne
      | some rows =>
        simp only [addEntry, hall, if_true, Function.update_self]
        simp
    · have hmem : entry ∈ entries := by
        rw [List.mem_append, List.mem_singleton] at h
        rcases h with h | rfl
        · exact h
        · exact absurd rfl hk
      rw [Function.update_of_ne hk]
      refine ⟨(ih hmem).1, fun hall hne => ?_⟩
      have hbefore := (ih hmem).2 hall hne
      cases rowsPerAnswer with
      | none => exact absurd rfl hne
      | some rows =>
        simp only [addEntry]
        split
        · rwa [Function.update_of_ne hk]
        · exact hbefore

/-- A group without row counts: no answer of the chunk takes another number than one, or the group's
stages do not read every row. -/
lemma takes_none {key : ℕ} (h : rowsPerAnswer = none ∨ G.readAllOf.getD key false = false) :
    G.takes rowsPerAnswer entries key = none := by
  have hnil : (G.gather rowsPerAnswer entries).counts key = [] := by
    induction entries using List.reverseRecOn with
    | nil => rfl
    | append_singleton entries last ih =>
      rw [gather_snoc]
      cases rowsPerAnswer with
      | none => exact ih
      | some rows =>
        have hall : G.readAllOf.getD key false = false := h.resolve_left (by simp)
        by_cases hk : key = G.keyOf last.1
        · subst hk
          simp only [addEntry, hall]
          exact ih
        · simp only [addEntry]
          split
          · rwa [Function.update_of_ne hk]
          · exact ih
  rw [takes, if_pos hnil]

/-- The row counts of a group whose stages read every row. -/
theorem takes_eq {e e' : ℕ × List (List Row)} (he : e.2 ≠ []) {lots : List (ℕ × List (List Row))}
    (more : List ℕ) (he' : e' ∈ e :: lots) (hall : G.readAllOf.getD (G.keyOf e'.1) false = true) :
    G.takes (some ((G.keyedCounts (e :: lots)).map Prod.snd ++ more)) (entriesOf (e :: lots)) (G.keyOf e'.1)
      = some (own ((G.keyedCounts (e :: lots)).take 1) (G.keyOf e'.1)
        ++ (run (0 < ·) (G.keyedCounts (e :: lots)).tail).handed (G.keyOf e'.1)) := by
  have hmem : (e'.1, (e'.2.map List.length).sum) ∈ entriesOf (e :: lots) := List.mem_map.2 ⟨e', he', rfl⟩
  have hcounts := (gathered (G := G) e he lots more).counts (G.keyOf e'.1)
  rw [if_pos hall] at hcounts
  rw [takes, if_neg ((gather_ne_nil hmem).2 hall (by simp)), hcounts]

/-! ## What the readouts are called with -/

lemma mapM_keys {β : Type} {f : ℕ → Option β} {g : ℕ → β} (h : ∀ key, f key = some (g key)) (keys : List ℕ) :
    (keys.mapM fun key => (f key).map fun b => (key, b)) = some (keys.map fun key => (key, g key)) := by
  induction keys with
  | nil => rfl
  | cons key keys ih =>
    rw [List.mapM_cons, h, ih]
    rfl

lemma lookup_keys {β : Type} {g : ℕ → β} {keys : List ℕ} {key : ℕ} (h : key ∈ keys) :
    (keys.map fun key => (key, g key)).lookup key = some (g key) := by
  induction keys with
  | nil => cases h
  | cons first keys ih =>
    by_cases hk : key = first
    · subst hk
      simp
    · rw [List.map_cons, List.lookup_cons, beq_eq_false_iff_ne.2 hk]
      exact ih ((List.mem_cons.1 h).resolve_left hk)

/-- With several readouts, each is called with the rows of its own answers. -/
theorem submit_ok {Value : Type} (hs : G.sharedReadout = false) {lots : List (ℕ × List (List Row))}
    (hkeys : ∀ e ∈ lots, G.keyOf e.1 < G.readoutOf.length) (after : List Row) :
    ∃ handles, G.submit ((lots.flatMap Prod.snd).flatten ++ after) (entriesOf lots) rowsPerAnswer = some handles ∧
      ∀ (readouts : ℕ → List Row → Value), ∀ e ∈ lots, G.results readouts handles (G.keyOf e.1)
        = (splitRows (G.answersOf lots (G.keyOf e.1)).flatten
            (G.takes rowsPerAnswer (entriesOf lots) (G.keyOf e.1))).map
          (readouts (G.readoutOf.getD (G.keyOf e.1) 0)) := by
  have hselect (key : ℕ) : (selectRows ((lots.flatMap Prod.snd).flatten ++ after)
        ((G.gather rowsPerAnswer (entriesOf lots)).spans key)).map
          (fun rows => Submission.mk rows (G.takes rowsPerAnswer (entriesOf lots) key))
      = some ⟨(G.answersOf lots key).flatten, G.takes rowsPerAnswer (entriesOf lots) key⟩ := by
    rw [(gather_rows lots after).2 key]
    rfl
  have hrun := mapM_keys hselect ((List.range G.readoutOf.length).filter fun key =>
    (G.gather rowsPerAnswer (entriesOf lots)).spans key ≠ [])
  simp only [Option.map_map] at hrun
  have hsubmit : G.submit ((lots.flatMap Prod.snd).flatten ++ after) (entriesOf lots) rowsPerAnswer
      = some _ := (if_neg (by simp [hs])).trans hrun
  refine ⟨_, hsubmit, fun readouts e he => ?_⟩
  have hmem : G.keyOf e.1 ∈ (List.range G.readoutOf.length).filter fun key =>
      (G.gather rowsPerAnswer (entriesOf lots)).spans key ≠ [] := by
    refine List.mem_filter.2 ⟨List.mem_range.2 (hkeys e he), decide_eq_true ?_⟩
    have hentry : (e.1, (e.2.map List.length).sum) ∈ entriesOf lots := List.mem_map.2 ⟨e, he, rfl⟩
    exact (gather_ne_nil hentry).1
  rw [results, lookup_keys hmem]

lemma splitLengths_append (answers : List (List Row)) (more : List ℕ) (after : List Row) :
    (answers.map List.length ++ more).splitLengths (answers.flatten ++ after)
      = answers ++ more.splitLengths after := by
  induction answers with
  | nil => rfl
  | cons answer answers ih =>
    rw [List.map_cons, List.flatten_cons, List.cons_append, List.splitLengths_cons, List.append_assoc,
      List.take_left, List.drop_left, ih]
    rfl

/-- Rows split into the answers they were put together from. -/
lemma splitRows_append {answers : List (List Row)} {rowsPerAnswer : Option (List ℕ)}
    (h : (∃ more, rowsPerAnswer = some (answers.map List.length ++ more)) ∨
      rowsPerAnswer = none ∧ ∀ answer ∈ answers, answer.length = 1) (after : List Row) :
    ∃ extra, splitRows (answers.flatten ++ after) rowsPerAnswer = answers ++ extra := by
  rcases h with ⟨more, rfl⟩ | ⟨rfl, hone⟩
  · exact ⟨_, splitLengths_append answers more after⟩
  · have hcounts : answers.map List.length = List.replicate answers.length 1 :=
      List.eq_replicate_iff.2 ⟨by simp, by simpa using hone⟩
    have hlen : (answers.flatten ++ after).length = answers.length + after.length := by
      rw [List.length_append, List.length_flatten, hcounts]
      simp
    refine ⟨(List.replicate after.length 1).splitLengths after, ?_⟩
    rw [splitRows, Option.getD_none, hlen, List.replicate_add, ← hcounts]
    exact splitLengths_append answers _ after

end Gather

end ReadoutGroups

end Quail.Readout
