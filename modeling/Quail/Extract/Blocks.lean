import Mathlib.Data.List.Sort
import Mathlib.Data.List.Range
import Mathlib.Tactic.Ring
import Mathlib.Tactic.GCongr

/-!
# Verification blocks

`verificationBlocks` groups the answers of a batch into blocks whose bound is within the workspace, and for
an answer that is too long says how many of its positions are verified at a time. The blocks have every
answer once (`blocks_rows`), a block's bound is that of its widest and longest answers and is within the
workspace (`blocks_fit`), and it fails exactly where one position of an answer does not fit
(`blocks_error_iff`).
-/

namespace Quail.Extract

/-- The workspace, and what of the documents' tables and the readout a row's bound depends on. -/
structure Workspace where
  numOptions : ℕ
  numKeys : ℕ
  topTokens : ℕ
  maskWords : ℕ
  workspaceBytes : ℕ

/-- The size of an answer: its positions, of which it has at least one, its columns, and its live streams. -/
structure Size where
  count : ℕ
  width : ℕ
  streams : ℕ
  count_pos : 0 < count

/-- `np.maximum(1, num_streams)`. -/
def Size.numStreams (s : Size) : ℕ := max 1 s.streams

/-- Rows, how many positions of each are verified at a time, and a bound of the bytes that takes. -/
structure Block where
  rows : List ℕ
  steps : ℕ
  peak : ℕ
deriving DecidableEq, Repr

/-- The largest value of a size among the rows. -/
def largest (f : ℕ → ℕ) (rows : List ℕ) : ℕ := (rows.map f).foldr max 0

lemma largest_append {f : ℕ → ℕ} {rows : List ℕ} {row : ℕ} :
    largest f (rows ++ [row]) = max (largest f rows) (f row) := by
  induction rows with
  | nil => exact max_comm _ _
  | cons r rows ih =>
    change max (f r) (largest f (rows ++ [row])) = max (max (f r) (largest f rows)) (f row)
    rw [ih, max_assoc]

lemma le_largest {f : ℕ → ℕ} {rows : List ℕ} {row : ℕ} (h : row ∈ rows) : f row ≤ largest f rows := by
  induction rows with
  | nil => exact absurd h List.not_mem_nil
  | cons r rows ih =>
    change f row ≤ max (f r) (largest f rows)
    rcases List.mem_cons.mp h with rfl | h
    · exact le_max_left _ _
    · exact (ih h).trans (le_max_right _ _)

lemma largest_singleton {f : ℕ → ℕ} {row : ℕ} : largest f [row] = f row := Nat.max_zero _

lemma largest_le {f : ℕ → ℕ} {rows : List ℕ} {m : ℕ} (h : ∀ row ∈ rows, f row ≤ m) : largest f rows ≤ m := by
  induction rows with
  | nil => exact Nat.zero_le m
  | cons row rows ih =>
    exact max_le (h row List.mem_cons_self) (ih fun r hr => h r (List.mem_cons_of_mem _ hr))

namespace Workspace

variable (w : Workspace)

/-- Lookup's live int64 gathers dominate; score and trace passes retain its results. -/
def options : ℕ := 64 * w.numOptions + 32 * w.numKeys

def perPosition : ℕ := 512 + 96 * w.topTokens + 16 * w.maskWords

/-- CUDA rounds each allocation to 512 bytes; fewer than 128 are live. -/
def padding : ℕ := 128 * 512

/-- The rows a block takes with it, with its positions and bound, and the rows it leaves. -/
structure Grown where
  rows : List ℕ
  steps : ℕ
  peak : ℕ
  rest : List ℕ

/-- Take rows into a block while its bound stays within the workspace (the inner loop). -/
def grow (size : ℕ → Size) (taken numSteps width numColumns peak : ℕ) : List ℕ → Grown
  | [] => ⟨[], numSteps, peak, []⟩
  | row :: order =>
    let numNextSteps := max numSteps (size row).count
    let nextWidth := max width (size row).width
    let numNextColumns := max numColumns (size row).numStreams
    let perRow := 64 * nextWidth + w.options + numNextSteps * (w.perPosition + 192 * numNextColumns)
    if padding + (taken + 1) * perRow > w.workspaceBytes then ⟨[], numSteps, peak, row :: order⟩
    else
      let g := grow size (taken + 1) numNextSteps nextWidth numNextColumns (padding + (taken + 1) * perRow) order
      { g with rows := row :: g.rows }

lemma grow_rest {size : ℕ → Size} {order : List ℕ} {taken numSteps width numColumns peak : ℕ} :
    (w.grow size taken numSteps width numColumns peak order).rows ++
      (w.grow size taken numSteps width numColumns peak order).rest = order := by
  induction order generalizing taken numSteps width numColumns peak with
  | nil => rfl
  | cons row order ih =>
    rw [grow]
    split
    · rfl
    · exact congrArg (row :: ·) ih

lemma grow_rest_length {size : ℕ → Size} {order : List ℕ} {taken numSteps width numColumns peak : ℕ} :
    (w.grow size taken numSteps width numColumns peak order).rest.length ≤ order.length := by
  have h := congrArg List.length
    (w.grow_rest : (w.grow size taken numSteps width numColumns peak order).rows ++ _ = order)
  rw [List.length_append] at h
  omega

/-- The blocks of the rows in order. A difference below zero is zero here: either way it has no position. -/
def blocks (size : ℕ → Size) : List ℕ → Except String (List Block)
  | [] => .ok []
  | row :: order =>
    let numSteps := (size row).count
    let width := (size row).width
    let numColumns := (size row).numStreams
    let base := padding + 64 * width + w.options + numSteps * w.perPosition
    let steps := min numSteps ((w.workspaceBytes - base) / (192 * numColumns))
    if steps < 1 then .error "one copy verification position exceeds its workspace"
    else if steps = numSteps then
      let g := w.grow size 1 numSteps width numColumns (base + steps * 192 * numColumns) order
      (blocks size g.rest).map (⟨row :: g.rows, g.steps, g.peak⟩ :: ·)
    else (blocks size order).map (⟨[row], steps, base + steps * 192 * numColumns⟩ :: ·)
termination_by order => order.length
decreasing_by
  · exact Nat.lt_succ_of_le (w.grow_rest_length)
  · exact Nat.lt_succ_self _

/-- `np.lexsort((counts, num_streams, widths))`: by width, then streams, then positions. -/
def lexsort (size : ℕ → Size) (numRows : ℕ) : List ℕ :=
  (List.range numRows).mergeSort fun a b =>
    decide ((size a).width < (size b).width ∨ (size a).width = (size b).width ∧
      ((size a).numStreams < (size b).numStreams ∨ (size a).numStreams = (size b).numStreams ∧
        (size a).count ≤ (size b).count))

/-- The blocks of a batch. -/
def verificationBlocks (size : ℕ → Size) (numRows : ℕ) : Except String (List Block) :=
  w.blocks size (lexsort size numRows)

/-- The bytes of a block that verifies some positions at a time: those of its widest row, with the options
and the outputs of all positions of its longest, and the columns of the positions at hand. -/
def blockBytes (size : ℕ → Size) (rows : List ℕ) (steps : ℕ) : ℕ :=
  padding + rows.length * (64 * largest (fun r => (size r).width) rows + w.options +
    largest (fun r => (size r).count) rows * w.perPosition +
    steps * 192 * largest (fun r => (size r).numStreams) rows)

/-! ## The bound of a block -/

lemma blockBytes_singleton {size : ℕ → Size} {row steps : ℕ} :
    w.blockBytes size [row] steps = padding + 64 * (size row).width + w.options +
      (size row).count * w.perPosition + steps * 192 * (size row).numStreams := by
  simp only [blockBytes, largest_singleton, List.length_singleton, Nat.one_mul]
  omega

/-- The bound of one of a block's rows is within that of the block. -/
lemma blockBytes_mem {size : ℕ → Size} {rows : List ℕ} {row steps : ℕ} (h : row ∈ rows) (hsteps : 0 < steps) :
    w.blockBytes size [row] 1 ≤ w.blockBytes size rows steps := by
  have hlength : 1 ≤ rows.length := List.length_pos_of_mem h
  have hwidth := le_largest (f := fun r => (size r).width) h
  have hcount := le_largest (f := fun r => (size r).count) h
  have hstreams := le_largest (f := fun r => (size r).numStreams) h
  simp only [blockBytes, largest_singleton]
  gcongr
  exacts [hlength, hsteps]

/-- A block is what its rows make it: some position is verified at a time, all of them where there are
several rows, and its bound is within the workspace. -/
structure Fits (size : ℕ → Size) (b : Block) : Prop where
  rows_ne : b.rows ≠ []
  steps_pos : 0 < b.steps
  steps_le : b.steps ≤ largest (fun r => (size r).count) b.rows
  whole : b.steps = largest (fun r => (size r).count) b.rows ∨ b.rows.length = 1
  peak_eq : b.peak = w.blockBytes size b.rows b.steps
  peak_le : b.peak ≤ w.workspaceBytes

/-- A block that takes all positions of its rows goes on doing so. -/
lemma grow_fits (size : ℕ → Size) (order taken : List ℕ) {peak : ℕ}
    (hpeak : peak = w.blockBytes size taken (largest (fun r => (size r).count) taken))
    (hle : peak ≤ w.workspaceBytes) :
    let g := w.grow size taken.length (largest (fun r => (size r).count) taken)
      (largest (fun r => (size r).width) taken) (largest (fun r => (size r).numStreams) taken) peak order
    g.steps = largest (fun r => (size r).count) (taken ++ g.rows) ∧
      g.peak = w.blockBytes size (taken ++ g.rows) g.steps ∧ g.peak ≤ w.workspaceBytes := by
  induction order generalizing taken peak with
  | nil =>
    simp only [grow, List.append_nil]
    exact ⟨trivial, hpeak, hle⟩
  | cons row order ih =>
    dsimp only [grow]
    split
    · simp only [List.append_nil]
      exact ⟨trivial, hpeak, hle⟩
    · rename_i hroom
      have hbytes : padding + (taken.length + 1) * (64 * max (largest (fun r => (size r).width) taken)
          (size row).width + w.options + max (largest (fun r => (size r).count) taken) (size row).count *
            (w.perPosition + 192 * max (largest (fun r => (size r).numStreams) taken) (size row).numStreams)) =
          w.blockBytes size (taken ++ [row]) (largest (fun r => (size r).count) (taken ++ [row])) := by
        simp only [blockBytes, largest_append, List.length_append, List.length_singleton]
        ring
      rw [hbytes] at hroom ⊢
      have hnext := ih (taken ++ [row]) rfl (Nat.le_of_not_lt hroom)
      simp only [largest_append, List.length_append, List.length_singleton, List.append_assoc,
        List.singleton_append] at hnext ⊢
      exact hnext

/-! ## The blocks -/

/-- How many positions of an answer are verified at a time. -/
def stepsOf (size : ℕ → Size) (row : ℕ) : ℕ :=
  min (size row).count ((w.workspaceBytes - (padding + 64 * (size row).width + w.options +
    (size row).count * w.perPosition)) / (192 * (size row).numStreams))

lemma columns_pos (s : Size) : 0 < 192 * s.numStreams := by
  have : 1 ≤ s.numStreams := le_max_left _ _
  omega

/-- An answer has a position that fits, by the bound. -/
lemma stepsOf_lt_one {size : ℕ → Size} {row : ℕ} :
    w.stepsOf size row < 1 ↔ w.workspaceBytes < w.blockBytes size [row] 1 := by
  have hcount := (size row).count_pos
  have hcolumns := columns_pos (size row)
  rw [blockBytes_singleton, stepsOf, min_lt_iff, Nat.div_lt_iff_lt_mul hcolumns]
  omega

/-- The positions of an answer verified at a time are within the workspace. -/
lemma stepsOf_bytes {size : ℕ → Size} {row : ℕ} (h : ¬ w.stepsOf size row < 1) :
    w.blockBytes size [row] (w.stepsOf size row) ≤ w.workspaceBytes := by
  have hfit : w.blockBytes size [row] 1 ≤ w.workspaceBytes :=
    Nat.le_of_not_lt fun hlt => h (w.stepsOf_lt_one.mpr hlt)
  have hmul : w.stepsOf size row * (192 * (size row).numStreams) ≤ w.workspaceBytes - (padding +
      64 * (size row).width + w.options + (size row).count * w.perPosition) :=
    (Nat.le_div_iff_mul_le (columns_pos _)).mp (min_le_right _ _)
  rw [blockBytes_singleton] at hfit ⊢
  rw [Nat.mul_assoc]
  omega

/-- The block that a row begins, and the blocks of the rows it leaves. -/
lemma blocks_cons {size : ℕ → Size} {row : ℕ} {order : List ℕ} :
    w.blocks size (row :: order) =
      if w.workspaceBytes < w.blockBytes size [row] 1 then
        .error "one copy verification position exceeds its workspace"
      else if w.stepsOf size row = (size row).count then
        let g := w.grow size 1 (size row).count (size row).width (size row).numStreams
          (w.blockBytes size [row] (size row).count) order
        (w.blocks size g.rest).map (⟨row :: g.rows, g.steps, g.peak⟩ :: ·)
      else (w.blocks size order).map
        (⟨[row], w.stepsOf size row, w.blockBytes size [row] (w.stepsOf size row)⟩ :: ·) := by
  rw [blocks]
  change (if w.stepsOf size row < 1 then _ else if w.stepsOf size row = (size row).count then _ else _) = _
  simp only [w.stepsOf_lt_one, w.blockBytes_singleton]
  split
  · rfl
  · split
    · rename_i hwhole
      have hmin := hwhole
      rw [stepsOf] at hmin
      rw [hmin]
    · rfl

/-- A row that begins a block of whole answers. -/
lemma grown_fits {size : ℕ → Size} {row : ℕ} (order : List ℕ)
    (h : w.blockBytes size [row] (size row).count ≤ w.workspaceBytes) :
    let g := w.grow size 1 (size row).count (size row).width (size row).numStreams
      (w.blockBytes size [row] (size row).count) order
    w.Fits size ⟨row :: g.rows, g.steps, g.peak⟩ := by
  have hgrow := w.grow_fits size order [row] rfl (by rw [largest_singleton]; exact h)
  simp only [largest_singleton, List.length_singleton, List.singleton_append] at hgrow
  obtain ⟨hsteps, hpeak, hle⟩ := hgrow
  refine ⟨List.cons_ne_nil _ _, ?_, hsteps.le, Or.inl hsteps, hpeak, hle⟩
  rw [hsteps]
  exact (size row).count_pos.trans_le (le_largest (f := fun r => (size r).count) List.mem_cons_self)

lemma map_ok {β γ : Type} {e : Except String β} {f : β → γ} {b : γ} (h : e.map f = .ok b) :
    ∃ a, e = .ok a ∧ b = f a := by
  cases e with
  | error e => exact absurd h nofun
  | ok a =>
    cases h
    exact ⟨a, rfl, rfl⟩

/-- The blocks have every row once, in order, and each fits. -/
lemma blocks_ok {size : ℕ → Size} {n : ℕ} : ∀ {order : List ℕ} {bs : List Block}, order.length ≤ n →
    w.blocks size order = .ok bs → bs.flatMap Block.rows = order ∧ ∀ b ∈ bs, w.Fits size b := by
  induction n with
  | zero =>
    intro order bs hn h
    obtain rfl := List.length_eq_zero_iff.mp (Nat.le_zero.mp hn)
    rw [blocks] at h
    cases h
    exact ⟨rfl, fun b hb => absurd hb List.not_mem_nil⟩
  | succ n ih =>
    intro order bs hn h
    cases order with
    | nil => exact ih (Nat.zero_le _) h
    | cons row order =>
      have hn : order.length ≤ n := Nat.le_of_succ_le_succ hn
      rw [blocks_cons] at h
      split at h
      · exact absurd h nofun
      · rename_i hfits
        have hsteps : ¬ w.stepsOf size row < 1 := fun hlt => hfits (w.stepsOf_lt_one.mp hlt)
        have hbytes := w.stepsOf_bytes hsteps
        split at h
        · rename_i hwhole
          obtain ⟨rest, hrest, rfl⟩ := map_ok h
          rw [hwhole] at hbytes
          obtain ⟨hrows, hall⟩ := ih (w.grow_rest_length.trans hn) hrest
          refine ⟨?_, ?_⟩
          · rw [List.flatMap_cons, hrows, List.cons_append, w.grow_rest]
          · intro b hb
            rcases List.mem_cons.mp hb with rfl | hb
            · exact w.grown_fits _ hbytes
            · exact hall b hb
        · obtain ⟨rest, hrest, rfl⟩ := map_ok h
          obtain ⟨hrows, hall⟩ := ih hn hrest
          refine ⟨?_, ?_⟩
          · rw [List.flatMap_cons, hrows, List.singleton_append]
          · intro b hb
            rcases List.mem_cons.mp hb with rfl | hb
            · refine ⟨List.cons_ne_nil _ _, Nat.le_of_not_lt hsteps, ?_, Or.inr rfl, rfl, hbytes⟩
              rw [largest_singleton]
              exact min_le_left _ _
            · exact hall b hb

lemma map_error_iff {β γ : Type} {e : Except String β} {f : β → γ} {m : String} :
    e.map f = .error m ↔ e = .error m := by
  cases e with
  | error e => exact ⟨fun h => by cases h; rfl, fun h => by cases h; rfl⟩
  | ok a => exact ⟨nofun, nofun⟩

/-- It fails exactly where one position of an answer does not fit. -/
lemma blocks_error_iff {size : ℕ → Size} {m : String} {n : ℕ} : ∀ {order : List ℕ}, order.length ≤ n →
    (w.blocks size order = .error m ↔ m = "one copy verification position exceeds its workspace" ∧
      ∃ row ∈ order, w.workspaceBytes < w.blockBytes size [row] 1) := by
  induction n with
  | zero =>
    intro order hn
    obtain rfl := List.length_eq_zero_iff.mp (Nat.le_zero.mp hn)
    rw [blocks]
    constructor
    · exact nofun
    · rintro ⟨-, row, hrow, -⟩
      exact absurd hrow List.not_mem_nil
  | succ n ih =>
    intro order hn
    cases order with
    | nil => exact ih (Nat.zero_le _)
    | cons row order =>
      have hn : order.length ≤ n := Nat.le_of_succ_le_succ hn
      rw [blocks_cons]
      split
      · rename_i hlarge
        constructor
        · intro h
          cases h
          exact ⟨rfl, row, List.mem_cons_self, hlarge⟩
        · rintro ⟨rfl, -⟩
          rfl
      · rename_i hfits
        have hsteps : ¬ w.stepsOf size row < 1 := fun hlt => hfits (w.stepsOf_lt_one.mp hlt)
        have hbytes := w.stepsOf_bytes hsteps
        split
        · rename_i hwhole
          rw [hwhole] at hbytes
          have hblock := w.grown_fits order hbytes
          have hrows : (w.grow size 1 (size row).count (size row).width (size row).numStreams
              (w.blockBytes size [row] (size row).count) order).rows ++ _ = order := w.grow_rest
          rw [map_error_iff, ih (w.grow_rest_length.trans hn)]
          apply and_congr_right
          intro _
          constructor
          · rintro ⟨r, hr, hlarge⟩
            refine ⟨r, List.mem_cons_of_mem _ ?_, hlarge⟩
            rw [← hrows]
            exact List.mem_append_right _ hr
          · rintro ⟨r, hr, hlarge⟩
            -- A row that the block takes fits with the others, and so alone.
            have hrest : r ∉ row :: (w.grow size 1 (size row).count (size row).width (size row).numStreams
                (w.blockBytes size [row] (size row).count) order).rows := by
              intro hmem
              have hle := (w.blockBytes_mem hmem hblock.steps_pos).trans
                (hblock.peak_eq.symm.trans_le hblock.peak_le)
              omega
            rw [← hrows, ← List.cons_append, List.mem_append] at hr
            exact ⟨r, hr.resolve_left hrest, hlarge⟩
        · rw [map_error_iff, ih hn]
          apply and_congr_right
          intro _
          constructor
          · rintro ⟨r, hr, hlarge⟩
            exact ⟨r, List.mem_cons_of_mem _ hr, hlarge⟩
          · rintro ⟨r, hr, hlarge⟩
            rcases List.mem_cons.mp hr with rfl | hr
            · exact absurd hlarge hfits
            · exact ⟨r, hr, hlarge⟩

/-- The blocks of a batch have every answer once, and each fits. -/
theorem verificationBlocks_ok {size : ℕ → Size} {numRows : ℕ} {bs : List Block}
    (h : w.verificationBlocks size numRows = .ok bs) :
    (bs.flatMap Block.rows).Perm (List.range numRows) ∧ ∀ b ∈ bs, w.Fits size b := by
  obtain ⟨hrows, hfits⟩ := w.blocks_ok le_rfl h
  refine ⟨?_, hfits⟩
  rw [hrows]
  exact List.mergeSort_perm _ _

/-- It fails exactly where one position of an answer does not fit. -/
theorem verificationBlocks_error_iff {size : ℕ → Size} {numRows : ℕ} {m : String} :
    w.verificationBlocks size numRows = .error m ↔
      m = "one copy verification position exceeds its workspace" ∧
        ∃ row < numRows, w.workspaceBytes < w.blockBytes size [row] 1 := by
  rw [verificationBlocks, w.blocks_error_iff le_rfl]
  have hmem : ∀ row, row ∈ lexsort size numRows ↔ row < numRows := by
    intro row
    rw [lexsort, (List.mergeSort_perm _ _).mem_iff, List.mem_range]
  simp only [hmem]

end Workspace
end Quail.Extract
