import Quail.Lib.Segments
import Quail.Planner.LeftDeep
import Mathlib.Algebra.Field.Rat
import Mathlib.Algebra.Order.Ring.Rat
import Mathlib.Data.List.GetD
import Mathlib.Data.List.MinMax

/-!
# Pass groups

`choose_pass_groups` of `cost/packing.py`, which splits a chain of questions into consecutive groups that
share passes under set attention, and `split_passes` and `group_passes` of `executor/set_passes.py`, which
split the questions of a group into passes when they are asked.
-/

namespace Quail.Cost
open Planner Segments

variable {K : Type} [Field K] [LinearOrder K]

attribute [local instance] atLeastTwo_two

/-! ## The plan's groups -/

/-- `triangle`: causal attention pairs, in a window if there is one. -/
def triangle (n : K) (window : ℕ) : K :=
  if window ≠ 0 then min n window * n - min n window * (min n window - 1) / 2 else n * (n + 1) / 2

/-- `packed`: the work of one pass, a state and then its questions. -/
def packed (state : K) (questions : List ℕ) (window : ℕ) : Work K :=
  let asked : K := (questions.sum : ℕ)
  let n := state + asked
  { tokens := n
    pairs := state * n + (questions.map fun q : ℕ => (q : K) * (state + q)).sum
    kvWritten := n
    kvRead := if questions.length = 1 then n else n + state + asked
    slidingPairs := if window ≠ 0 then triangle n window else 0
    slidingKvRead := 0
    stateWritten := 0
    stateRead := 0
    saeEncoded := 0 }

/-- The questions of a pass, with the header that opens each after the first. -/
def withHeaders (header : ℕ) : List ℕ → List ℕ
  | [] => []
  | question :: questions => question :: questions.map (· + header)

/-- A chain of questions and what its groups are chosen by; `seconds` is `unrounded_seconds` of a model, a
device and the chunk. Each question has its selectivity, and a pass holds a question. -/
structure Chain (K : Type) where
  questionTokens : List ℕ
  selectivities : List K
  rows : K
  stateTokens : K
  longestState : ℕ
  window : ℕ
  seconds : Work K → K
  chunkTokens : ℕ
  setSize : ℕ
  header : ℕ
  length_selectivities : selectivities.length = questionTokens.length
  set_pos : 0 < setSize

/-- What choosing the groups raises. -/
inductive PackingError where
  | question (b chunkTokens : ℕ)
  deriving Repr, DecidableEq

namespace Chain

section
variable (c : Chain K)

/-- The rows that reach a question. -/
def reach (a : ℕ) : K := (c.selectivities.scanl (· * ·) c.rows).getD a 0

/-- The tokens of a group's questions, from one up to the question after its last. -/
def group (a b : ℕ) : List ℕ := withHeaders c.header ((c.questionTokens.take b).drop a)

/-- A pass holds a group with the longest state. -/
def Fits (a b : ℕ) : Prop :=
  (c.group a b).length ≤ c.setSize ∧ c.longestState + (c.group a b).sum ≤ c.chunkTokens

instance (a b : ℕ) : Decidable (c.Fits a b) := inferInstanceAs (Decidable (_ ∧ _))

/-- The price of a group, asked of every row that reaches its first question. -/
def price (a b : ℕ) : K :=
  c.seconds ((packed c.stateTokens (c.group a b) c.window).scale (c.reach a))

/-- Try where the last group starts, from the last question back until it no longer fits. -/
def scanStarts (table : List (WithTop K × ℕ)) (b : ℕ) : ℕ → WithTop K × ℕ → WithTop K × ℕ
  | 0, entry => entry
  | a + 1, entry =>
    if c.Fits a b then
      let cost := (table.getD a (⊤, 0)).1 + c.price a b
      scanStarts table b a (if cost < entry.1 then (cost, a + 1) else entry)
    else entry

/-- The least cost of the first questions, and the question their last group starts with, counted from one. -/
def table : ℕ → Except PackingError (List (WithTop K × ℕ))
  | 0 => .ok [(0, 0)]
  | b + 1 => do
    let rows ← table b
    let entry := c.scanStarts rows (b + 1) (b + 1) (⊤, 0)
    if entry.1 = ⊤ then .error (.question (b + 1) c.chunkTokens) else .ok (rows ++ [entry])

end

/-- Number the groups of the questions in chain order. -/
def number (m : ℕ) (bounds : List (ℕ × ℕ)) : List ℕ :=
  bounds.zipIdx.foldl (fun groups e => groups.mapIdx fun position group =>
    if e.1.1 ≤ position ∧ position < e.1.2 then e.2 else group) (List.replicate m 0)

/-- `choose_pass_groups`. -/
def choosePassGroups (c : Chain K) : Except PackingError (List ℕ) := do
  let m := c.questionTokens.length
  let table ← c.table m
  return number m (trace (fun b => (table.getD b (⊤, 0)).2 - 1) m m).reverse

end Chain

/-! ## The groups chosen -/

/-- A group without its first questions has no more tokens. -/
lemma sum_withHeaders_drop (header : ℕ) (questions : List ℕ) (k : ℕ) :
    (withHeaders header (questions.drop k)).sum ≤ (withHeaders header questions).sum := by
  induction k generalizing questions with
  | zero => rw [List.drop_zero]
  | succ k ih =>
    rcases questions with _ | ⟨question, _ | ⟨next, rest⟩⟩
    · simp
    · simp [withHeaders]
    · have hnext : (withHeaders header (next :: rest)).sum ≤ (withHeaders header (question :: next :: rest)).sum := by
        simp [withHeaders]
        omega
      exact (ih (next :: rest)).trans hnext

@[simp] lemma length_withHeaders (header : ℕ) (questions : List ℕ) :
    (withHeaders header questions).length = questions.length := by
  cases questions <;> simp [withHeaders]

namespace Chain
variable (c : Chain K) {a b m : ℕ}

omit [Field K] [LinearOrder K] in
/-- What fits from an earlier start fits from a later one, so that the search may stop at the first start
that does not fit. -/
lemma Fits.later {c : Chain K} (h : c.Fits a b) {a' : ℕ} (ha : a ≤ a') : c.Fits a' b := by
  have hdrop : (c.questionTokens.take b).drop a' = ((c.questionTokens.take b).drop a).drop (a' - a) := by
    rw [List.drop_drop, Nat.add_sub_cancel' ha]
  obtain ⟨hlength, hsum⟩ := h
  simp only [group, length_withHeaders] at hlength hsum
  constructor
  · simp only [group, length_withHeaders, List.length_drop] at hlength ⊢
    omega
  · simp only [group, hdrop]
    exact (Nat.add_le_add_left (sum_withHeaders_drop c.header _ _) _).trans hsum

omit [Field K] [LinearOrder K] in
/-- A question alone fits if the longest state leaves room for it. -/
lemma fits_one {q : ℕ} (hq : c.questionTokens[a]? = some q) :
    c.Fits a (a + 1) ↔ c.longestState + q ≤ c.chunkTokens := by
  obtain ⟨hlt, hget⟩ := List.getElem?_eq_some_iff.1 hq
  have hgroup : c.group a (a + 1) = [q] := by
    simp [group, List.take_add_one, hq, Nat.min_eq_left hlt.le, withHeaders]
  have := c.set_pos
  simp only [Fits, hgroup, List.length_singleton, List.sum_singleton]
  exact and_iff_right this

omit [Field K] [LinearOrder K] in
lemma fits_all : (∀ a < c.questionTokens.length, c.Fits a (a + 1)) ↔
    ¬ ∃ q ∈ c.questionTokens, c.chunkTokens < c.longestState + q := by
  constructor
  · rintro hfits ⟨q, hq, hlt⟩
    obtain ⟨a, ha, rfl⟩ := List.getElem_of_mem hq
    exact absurd ((c.fits_one (List.getElem?_eq_getElem ha)).1 (hfits a ha)) (Nat.not_le.2 hlt)
  · intro hall a ha
    apply (c.fits_one (List.getElem?_eq_getElem ha)).2
    exact Nat.not_lt.1 fun hlt => hall ⟨_, List.getElem_mem ha, hlt⟩

/-- Every start tried that fits bounds the entry, and the entry is one of them unless nothing was cheaper. -/
lemma scanStarts_spec (rows : List (WithTop K × ℕ)) (b n : ℕ) (entry : WithTop K × ℕ) :
    (c.scanStarts rows b n entry).1 ≤ entry.1 ∧
    (∀ a < n, c.Fits a b → (c.scanStarts rows b n entry).1 ≤ (rows.getD a (⊤, 0)).1 + c.price a b) ∧
    (c.scanStarts rows b n entry = entry ∨
      ∃ a < n, c.Fits a b ∧ c.scanStarts rows b n entry = ((rows.getD a (⊤, 0)).1 + c.price a b, a + 1)) := by
  induction n generalizing entry with
  | zero => exact ⟨le_rfl, fun a ha => absurd ha (Nat.not_lt_zero a), .inl rfl⟩
  | succ n ih =>
    simp only [scanStarts]
    split_ifs with hfits hlt
    · obtain ⟨hle, hall, hfrom⟩ := ih ((rows.getD n (⊤, 0)).1 + c.price n b, n + 1)
      refine ⟨hle.trans hlt.le, fun a ha hab => ?_, .inr ?_⟩
      · rcases Nat.lt_succ_iff_lt_or_eq.1 ha with ha | rfl
        · exact hall a ha hab
        · exact hle
      · rcases hfrom with heq | ⟨a, ha, hab, heq⟩
        · exact ⟨n, Nat.lt_succ_self n, hfits, heq⟩
        · exact ⟨a, Nat.lt_succ_of_lt ha, hab, heq⟩
    · obtain ⟨hle, hall, hfrom⟩ := ih entry
      refine ⟨hle, fun a ha hab => ?_, ?_⟩
      · rcases Nat.lt_succ_iff_lt_or_eq.1 ha with ha | rfl
        · exact hall a ha hab
        · exact hle.trans (not_lt.1 hlt)
      · rcases hfrom with heq | ⟨a, ha, hab, heq⟩
        · exact .inl heq
        · exact .inr ⟨a, Nat.lt_succ_of_lt ha, hab, heq⟩
    -- the search stops here, and no earlier start fits either
    · exact ⟨le_rfl, fun a ha hab => absurd (hab.later (Nat.lt_succ_iff.1 ha)) hfits, .inl rfl⟩

/-- What the table holds of the first questions: the entry of none, and of each count the least cost of a
last group after an earlier entry, with where that group starts. -/
structure Least (rows : List (WithTop K × ℕ)) (m : ℕ) : Prop where
  length : rows.length = m + 1
  zero : rows.getD 0 (⊤, 0) = (0, 0)
  finite : ∀ b ≤ m, (rows.getD b (⊤, 0)).1 ≠ ⊤
  le : ∀ a b, a < b → b ≤ m → c.Fits a b → (rows.getD b (⊤, 0)).1 ≤ (rows.getD a (⊤, 0)).1 + c.price a b
  start : ∀ b, 0 < b → b ≤ m → ∃ a < b, c.Fits a b ∧
    rows.getD b (⊤, 0) = ((rows.getD a (⊤, 0)).1 + c.price a b, a + 1)

variable {c}

/-- What the table says of where each count's last group starts. -/
lemma Least.last {rows : List (WithTop K × ℕ)} (h : c.Least rows m) (hpos : 0 < b) (hb : b ≤ m) :
    ((rows.getD b (⊤, 0)).1 = (rows.getD ((rows.getD b (⊤, 0)).2 - 1) (⊤, 0)).1 +
        c.price ((rows.getD b (⊤, 0)).2 - 1) b ∧ c.Fits ((rows.getD b (⊤, 0)).2 - 1) b) ∧
      (rows.getD b (⊤, 0)).2 - 1 < b := by
  obtain ⟨a, hlt, hab, heq⟩ := h.start b hpos hb
  have hback : (rows.getD b (⊤, 0)).2 - 1 = a := by rw [heq, Nat.add_sub_cancel]
  rw [hback, heq]
  exact ⟨⟨rfl, hab⟩, hlt⟩

/-- The table of one more question. -/
lemma Least.snoc {rows : List (WithTop K × ℕ)} (h : c.Least rows m)
    (hne : (c.scanStarts rows (m + 1) (m + 1) (⊤, 0)).1 ≠ ⊤) :
    c.Least (rows ++ [c.scanStarts rows (m + 1) (m + 1) (⊤, 0)]) (m + 1) := by
  obtain ⟨-, hall, hfrom⟩ := c.scanStarts_spec rows (m + 1) (m + 1) (⊤, 0)
  generalize hentry : c.scanStarts rows (m + 1) (m + 1) (⊤, 0) = entry at hne hall hfrom
  have hold : ∀ b ≤ m, (rows ++ [entry]).getD b (⊤, 0) = rows.getD b (⊤, 0) := fun b hb =>
    List.getD_append _ _ _ _ (by rw [h.length]; omega)
  have hnew : (rows ++ [entry]).getD (m + 1) (⊤, 0) = entry := by
    rw [List.getD_append_right _ _ _ _ h.length.le, h.length, Nat.sub_self]
    rfl
  refine ⟨by simp [h.length], by rw [hold 0 (Nat.zero_le m), h.zero], fun b hb => ?_, fun a b hab hb hfits => ?_,
    fun b hpos hb => ?_⟩
  all_goals rcases Nat.le_succ_iff.1 hb with hb | rfl
  · rw [hold b hb]
    exact h.finite b hb
  · rwa [hnew]
  · rw [hold a (by omega), hold b hb]
    exact h.le a b hab hb hfits
  · rw [hold a (by omega), hnew]
    exact hall a hab hfits
  · obtain ⟨a, ha, hfits, heq⟩ := h.start b hpos hb
    exact ⟨a, ha, hfits, by rw [hold b hb, hold a (by omega), heq]⟩
  · rcases hfrom with heq | ⟨a, ha, hfits, heq⟩
    · exact absurd (congrArg Prod.fst heq) hne
    · exact ⟨a, ha, hfits, by rw [hnew, hold a (by omega), heq]⟩

lemma table_succ {rows : List (WithTop K × ℕ)} (h : c.table m = .ok rows) :
    c.table (m + 1) = if (c.scanStarts rows (m + 1) (m + 1) (⊤, 0)).1 = ⊤ then
      .error (.question (m + 1) c.chunkTokens) else .ok (rows ++ [c.scanStarts rows (m + 1) (m + 1) (⊤, 0)]) := by
  rw [table, h]
  rfl

/-- The table is made if every question fits alone, and else the first that does not is an error. -/
lemma table_spec (m : ℕ) :
    (∃ rows, c.table m = .ok rows ∧ c.Least rows m ∧ ∀ a < m, c.Fits a (a + 1)) ∨
    (∃ e, c.table m = .error e) ∧ ∃ a < m, ¬ c.Fits a (a + 1) := by
  induction m with
  | zero =>
    refine .inl ⟨[(0, 0)], rfl, ⟨rfl, rfl, ?_, ?_, ?_⟩, fun a ha => absurd ha (Nat.not_lt_zero a)⟩
    · intro b hb
      obtain rfl := Nat.le_zero.1 hb
      exact WithTop.zero_ne_top
    · omega
    · omega
  | succ m ih =>
    rcases ih with ⟨rows, hrows, hleast, hfits⟩ | ⟨⟨e, he⟩, a, ha, hnot⟩
    · rw [table_succ hrows]
      by_cases hlast : c.Fits m (m + 1)
      · left
        have hne : (c.scanStarts rows (m + 1) (m + 1) (⊤, 0)).1 ≠ ⊤ := by
          have hle := (c.scanStarts_spec rows (m + 1) (m + 1) (⊤, 0)).2.1 m (Nat.lt_succ_self m) hlast
          exact ne_top_of_le_ne_top (WithTop.add_ne_top.2 ⟨hleast.finite m le_rfl, WithTop.coe_ne_top⟩) hle
        refine ⟨_, if_neg hne, hleast.snoc hne, fun a ha => ?_⟩
        rcases Nat.lt_succ_iff_lt_or_eq.1 ha with ha | rfl
        · exact hfits a ha
        · exact hlast
      · right
        have htop : c.scanStarts rows (m + 1) (m + 1) (⊤, 0) = (⊤, 0) := by
          rw [scanStarts, if_neg hlast]
        exact ⟨⟨_, by rw [htop, if_pos rfl]⟩, m, Nat.lt_succ_self m, hlast⟩
    · exact .inr ⟨⟨e, by rw [table, he]; rfl⟩, a, Nat.lt_succ_of_lt ha, hnot⟩

lemma number_snoc (m : ℕ) (bounds : List (ℕ × ℕ)) (e : ℕ × ℕ) :
    number m (bounds ++ [e]) = (number m bounds).mapIdx fun position group =>
      if e.1 ≤ position ∧ position < e.2 then bounds.length else group := by
  simp [number, List.zipIdx_append]

@[simp] lemma length_number (m : ℕ) (bounds : List (ℕ × ℕ)) : (number m bounds).length = m := by
  induction bounds using List.reverseRecOn with
  | nil => simp [number]
  | append_singleton bounds e ih => rw [number_snoc, List.length_mapIdx, ih]

/-- Each question is numbered by the group that holds it. -/
lemma number_split {bounds : List (ℕ × ℕ)} (h : Split b bounds) (hb : b ≤ m) {i : ℕ} {e : ℕ × ℕ}
    (he : bounds[i]? = some e) {position : ℕ} (hfrom : e.1 ≤ position) (hto : position < e.2) :
    (number m bounds)[position]? = some i := by
  induction h with
  | nil => simp at he
  | @snoc a b bounds h hlt ih =>
    have hlength : ∀ n < m, n < (number m bounds).length := fun n hn => by rwa [length_number]
    rw [number_snoc, List.getElem?_mapIdx]
    rcases lt_trichotomy i bounds.length with hi | rfl | hi
    -- an earlier group ends before the last one starts
    · rw [List.getElem?_append_left hi] at he
      have hle := (h.lt_le e (List.mem_of_getElem? he)).2
      rw [ih (by omega) he, Option.map_some, if_neg (by omega)]
    · obtain rfl : (a, b) = e := by simpa using he
      rw [List.getElem?_eq_getElem (hlength position (by omega)), Option.map_some, if_pos ⟨hfrom, hto⟩]
    · rw [List.getElem?_eq_none (by simp; omega)] at he
      cases he

end Chain

/-! ## The executor's passes -/

/-- What splitting into passes raises. -/
inductive PassError where
  | question (tokens budget state : ℕ)
  deriving Repr, DecidableEq

section
variable {μ τ : Type}

/-- The passes closed, the one open, and its tokens with the state. -/
structure OpenPass (μ : Type) where
  passes : List (List μ)
  current : List μ
  used : ℕ

/-- One member of `split_passes`: it closes a full pass, then joins the open one. -/
def OpenPass.add (state : ℕ) (lengths : μ → ℕ) (header setSize budget : ℕ) (s : OpenPass μ) (member : μ) :
    OpenPass μ :=
  let tokens := lengths member
  let s := if s.current ≠ [] ∧ (s.current.length = setSize ∨ budget < s.used + header + tokens) then
    ⟨s.passes ++ [s.current], [], state⟩ else s
  ⟨s.passes, s.current ++ [member], s.used + (tokens + if s.current ≠ [] then header else 0)⟩

/-- `split_passes`. -/
def splitPasses (state : ℕ) (members : List μ) (lengths : μ → ℕ) (header setSize budget : ℕ) :
    Except PassError (List (List μ)) := do
  let s ← members.foldlM (fun (s : OpenPass μ) member =>
    if budget < state + lengths member then .error (.question (lengths member) budget state)
    else .ok (s.add state lengths header setSize budget member)) ⟨[], [], state⟩
  return if s.current ≠ [] then s.passes ++ [s.current] else s.passes

/-- `group_passes`: the questions of each pass, its suffix, and each question's length there. -/
def groupPasses (prefixes questions : List (List τ)) (header : List τ) (setSize budget : ℕ) :
    Except PassError (List (List ℕ × List τ × List ℕ)) := do
  let state := (prefixes.map List.length).foldr max 0
  let passes ← splitPasses state (List.range questions.length) (fun i => (questions.getD i []).length)
    header.length setSize budget
  return passes.map fun members =>
    let asked := members.mapIdx fun index member =>
      (if index ≠ 0 then header else []) ++ questions.getD member []
    (members, asked.flatten, asked.map List.length)

/-! ## The executor's passes of a group -/

lemma sum_withHeaders_snoc (header : ℕ) (questions : List ℕ) (question : ℕ) :
    (withHeaders header (questions ++ [question])).sum =
      (withHeaders header questions).sum + (question + if questions ≠ [] then header else 0) := by
  rcases questions with _ | ⟨first, rest⟩
  · simp [withHeaders]
  · simp [withHeaders, Nat.add_assoc]

lemma sum_withHeaders_le (header : ℕ) (questions more : List ℕ) :
    (withHeaders header questions).sum ≤ (withHeaders header (questions ++ more)).sum := by
  cases questions <;> simp [withHeaders]

/-- A member that fits joins the open pass. -/
lemma OpenPass.add_fits {state header setSize budget : ℕ} {lengths : μ → ℕ} {asked : List μ} {member : μ}
    (hset : asked.length < setSize)
    (hsum : state + (withHeaders header ((asked ++ [member]).map lengths)).sum ≤ budget) :
    OpenPass.add state lengths header setSize budget
      ⟨[], asked, state + (withHeaders header (asked.map lengths)).sum⟩ member =
    ⟨[], asked ++ [member], state + (withHeaders header ((asked ++ [member]).map lengths)).sum⟩ := by
  have hone := sum_withHeaders_snoc header (asked.map lengths) (lengths member)
  simp only [ne_eq, List.map_eq_nil_iff] at hone
  rw [List.map_append, List.map_singleton] at hsum ⊢
  rw [hone] at hsum ⊢
  have hstay : ¬ (asked ≠ [] ∧ (asked.length = setSize ∨
      budget < state + (withHeaders header (asked.map lengths)).sum + header + lengths member)) := by
    rintro ⟨hne, hfull | hover⟩
    · omega
    · rw [if_pos hne] at hsum
      omega
  simp only [OpenPass.add, if_neg hstay]
  simp only [ne_eq, Nat.add_assoc]

/-- A group that fits stays in the pass that is open. -/
lemma foldlM_add {state header setSize budget : ℕ} {lengths : μ → ℕ} {asked members : List μ}
    (hset : (asked ++ members).length ≤ setSize)
    (hsum : state + (withHeaders header ((asked ++ members).map lengths)).sum ≤ budget) :
    members.foldlM (fun (s : OpenPass μ) member =>
      if budget < state + lengths member then Except.error (PassError.question (lengths member) budget state)
      else .ok (s.add state lengths header setSize budget member))
      ⟨[], asked, state + (withHeaders header (asked.map lengths)).sum⟩ =
    .ok ⟨[], asked ++ members, state + (withHeaders header ((asked ++ members).map lengths)).sum⟩ := by
  induction members generalizing asked with
  | nil =>
    rw [List.append_nil]
    rfl
  | cons member members ih =>
    have hsplit : asked ++ member :: members = (asked ++ [member]) ++ members := by simp
    rw [hsplit] at hset hsum ⊢
    have hpart : state + (withHeaders header ((asked ++ [member]).map lengths)).sum ≤ budget := by
      have := sum_withHeaders_le header ((asked ++ [member]).map lengths) (members.map lengths)
      rw [← List.map_append] at this
      omega
    have hone : ¬ budget < state + lengths member := by
      rw [List.map_append, List.map_singleton, sum_withHeaders_snoc] at hpart
      omega
    have hlt : asked.length < setSize := by
      simp only [List.length_append, List.length_singleton] at hset
      omega
    rw [List.foldlM_cons, if_neg hone, OpenPass.add_fits hlt hpart]
    exact ih hset hsum

/-- A group that fits is one pass. -/
theorem splitPasses_fits {state header setSize budget : ℕ} {lengths : μ → ℕ} {members : List μ}
    (hne : members ≠ []) (hset : members.length ≤ setSize)
    (hsum : state + (withHeaders header (members.map lengths)).sum ≤ budget) :
    splitPasses state members lengths header setSize budget = .ok [members] := by
  have hfold := @foldlM_add μ state header setSize budget lengths [] members hset hsum
  simp only [List.map_nil, withHeaders, List.sum_nil, Nat.add_zero, List.nil_append] at hfold
  rw [splitPasses, hfold]
  exact congrArg Except.ok (if_pos hne)

omit [Field K] [LinearOrder K] in
/-- The questions of a group that fits with the longest document are asked in one pass. -/
lemma groupPasses_fits {c : Chain K} {a b : ℕ} (hfits : c.Fits a b) {documents questions : List (List τ)}
    {header : List τ} (hne : questions ≠ []) (hdocuments : ∀ tokens ∈ documents, tokens.length ≤ c.longestState)
    (hquestions : questions.map List.length = (c.questionTokens.take b).drop a)
    (hheader : header.length = c.header) :
    (groupPasses documents questions header c.setSize c.chunkTokens).map (·.map Prod.fst) =
      .ok [List.range questions.length] := by
  have hstate : (documents.map List.length).foldr max 0 ≤ c.longestState :=
    List.max_le_of_forall_le _ _ (List.forall_mem_map.2 hdocuments)
  have hlengths : (List.range questions.length).map (fun i => (questions.getD i []).length) =
      (c.questionTokens.take b).drop a := by
    rw [← hquestions]
    refine List.ext_getElem (by simp) fun i hi hi' => ?_
    have hlt : i < questions.length := by simpa using hi
    simp only [List.getElem_map, List.getElem_range]
    rw [List.getD_eq_getElem _ _ hlt]
  obtain ⟨hset, hsum⟩ := hfits
  rw [Chain.group, ← hlengths] at hset hsum
  rw [length_withHeaders, List.length_map] at hset
  have hsome : List.range questions.length ≠ [] := by simpa using hne
  have hone := splitPasses_fits hsome hset (Nat.le_trans (Nat.add_le_add_right hstate _) hsum)
  rw [groupPasses, hheader, hone]
  rfl

end

/-- The groups chosen are the cheapest: choosing fails exactly on a question that does not fit a chunk with the
longest state, and else the questions split into consecutive groups, numbered in order, that each fit a pass and
together cost the least of all such splits; and each is one pass, whatever documents no longer than the longest
state it is asked of. -/
theorem choosePassGroups_best [IsStrictOrderedRing K] (c : Chain K) :
    ((∃ e, c.choosePassGroups = .error e) ↔ ∃ q ∈ c.questionTokens, c.chunkTokens < c.longestState + q) ∧
    ∀ groups, c.choosePassGroups = .ok groups → groups.length = c.questionTokens.length ∧
      ∃ bounds, Split c.questionTokens.length bounds ∧
        (∀ (i : ℕ) (e : ℕ × ℕ), bounds[i]? = some e → c.Fits e.1 e.2 ∧
          ∀ position, e.1 ≤ position → position < e.2 → groups[position]? = some i) ∧
        (∀ bounds', Split c.questionTokens.length bounds' → (∀ e ∈ bounds', c.Fits e.1 e.2) →
          cost c.price bounds ≤ cost c.price bounds') ∧
        ∀ e ∈ bounds, ∀ (τ : Type) (documents questions : List (List τ)) (header : List τ),
          (∀ tokens ∈ documents, tokens.length ≤ c.longestState) →
          questions.map List.length = (c.questionTokens.take e.2).drop e.1 → header.length = c.header →
          (groupPasses documents questions header c.setSize c.chunkTokens).map (·.map Prod.fst) =
            .ok [List.range questions.length] := by
  set m := c.questionTokens.length with hm
  rcases c.table_spec m with ⟨rows, hrows, hleast, hfits⟩ | ⟨⟨e, he⟩, a, ha, hnot⟩
  · have hrun : c.choosePassGroups =
        .ok (Chain.number m (trace (fun b => (rows.getD b (⊤, 0)).2 - 1) m m).reverse) := by
      rw [Chain.choosePassGroups, ← hm, hrows]
      rfl
    refine ⟨⟨?_, fun h => absurd h (c.fits_all.1 hfits)⟩, ?_⟩
    · rintro ⟨e, he⟩
      rw [hrun] at he
      cases he
    · intro groups hgroups
      obtain rfl := Except.ok.inj (hrun.symm.trans hgroups)
      set best : ℕ → WithTop K := fun b => (rows.getD b (⊤, 0)).1 with hbest
      set start : ℕ → ℕ := fun b => (rows.getD b (⊤, 0)).2 - 1 with hstart
      have hfrom : ∀ b, 0 < b → b ≤ m →
          (best b = best (start b) + c.price (start b) b ∧ c.Fits (start b) b) ∧ start b < b :=
        fun b hpos hb => hleast.last hpos hb
      have hzero : best 0 = 0 := by rw [hbest]; simp only [hleast.zero]
      have hsplit := split_trace (fun b hpos hb => (hfrom b hpos hb).2) (le_refl m) (le_refl m)
      have hall : ∀ e ∈ (trace start m m).reverse, c.Fits e.1 e.2 := fun e he =>
        forall_trace (fun b hpos hb => ⟨(hfrom b hpos hb).1.2, (hfrom b hpos hb).2⟩) (le_refl m) e
          (List.mem_reverse.1 he)
      refine ⟨Chain.length_number _ _, _, hsplit, fun i e he => ⟨hall e (List.mem_of_getElem? he), ?_⟩, ?_, ?_⟩
      · intro position
        exact Chain.number_split hsplit le_rfl he
      · intro bounds' hbounds hother
        have hcost : ((cost c.price (trace start m m).reverse : K) : WithTop K) = best m :=
          cost_trace hzero (fun b hpos hb => ⟨(hfrom b hpos hb).1.1, (hfrom b hpos hb).2⟩) le_rfl le_rfl
        have hle := le_cost c.price hzero.le (fun a b hlt hb hab => hleast.le a b hlt hb hab) hbounds le_rfl hother
        rw [← hcost] at hle
        exact WithTop.coe_le_coe.1 hle
      · intro e he τ documents questions header hdocuments hquestions hheader
        refine groupPasses_fits (hall e he) ?_ hdocuments hquestions hheader
        rintro rfl
        have hrange := hsplit.lt_le e he
        have := congrArg List.length hquestions
        simp at this
        omega
  · have hrun : c.choosePassGroups = .error e := by
      rw [Chain.choosePassGroups, ← hm, he]
      rfl
    refine ⟨⟨fun _ => ?_, fun _ => ⟨e, hrun⟩⟩, fun groups hgroups => ?_⟩
    · by_contra hnone
      exact hnot (c.fits_all.2 hnone a ha)
    · rw [hrun] at hgroups
      cases hgroups

/-- Two questions, cheaper in one pass than in two. -/
def pair : Chain ℚ where
  questionTokens := [3, 2]
  selectivities := [1 / 2, 1]
  rows := 8
  stateTokens := 10
  longestState := 12
  window := 0
  seconds work := work.tokens
  chunkTokens := 20
  setSize := 2
  header := 1
  length_selectivities := rfl
  set_pos := Nat.zero_lt_two

theorem choosePassGroups_best_pair : pair.choosePassGroups = .ok [0, 0] ∧
    ∃ bounds, Split 2 bounds ∧ ∀ bounds', Split 2 bounds' → (∀ e ∈ bounds', pair.Fits e.1 e.2) →
      cost pair.price bounds ≤ cost pair.price bounds' := by
  have hrun : pair.choosePassGroups = .ok [0, 0] := by decide +kernel
  obtain ⟨-, bounds, hsplit, -, hleast, -⟩ := (choosePassGroups_best pair).2 _ hrun
  exact ⟨hrun, bounds, hsplit, hleast⟩

end Quail.Cost
