import Quail.Decode.Groups

/-!
# The layout reads what the page tables say

Where the slots of a group have the same first pages, and the shared tokens are whole pages before the rows'
positions (`Consistent`), each row's shared reads followed by its own are the reads of its page table
(`rows_reads`).
-/

namespace Quail.Decode.FullAttentionGroup
open DecodeRows

variable {g : FullAttentionGroup}

/-- The slots of the rows may share as their groups have them do: the shared tokens are whole pages, end
before the rows' positions, and are on the same pages for all slots of a group. -/
structure Consistent (g : FullAttentionGroup) (running positions : List ℕ) : Prop where
  pageTokens_pos : 0 < g.pageTokens
  group_lt : ∀ s ∈ running, g.group s < g.numSlots
  aligned : ∀ s ∈ running, g.pageTokens ∣ g.sharedTokens s
  within : ∀ i < running.length, g.sharedTokens (running.getD i 0) ≤ positions.getD i 0
  same_tokens : ∀ s ∈ running, ∀ t ∈ running, g.grouped s t = true → g.sharedTokens s = g.sharedTokens t
  same_pages : ∀ s ∈ running, ∀ t ∈ running, g.grouped s t = true →
    ∀ column < g.sharedTokens s / g.pageTokens, g.pages s column = g.pages t column

/-- Tokens that begin with whole pages. -/
lemma kvRows_add {pageTokens n m : ℕ} {table : ℕ → ℕ} (hpos : 0 < pageTokens) (h : pageTokens ∣ n) :
    kvRows pageTokens table (n + m) =
      kvRows pageTokens table n ++ kvRows pageTokens (fun column => table (n / pageTokens + column)) m := by
  obtain ⟨k, rfl⟩ := h
  rw [kvRows, List.range_add, List.map_append, List.map_map, Nat.mul_div_cancel_left k hpos]
  congr 1
  apply List.map_congr_left
  intro t _
  simp only [Function.comp_apply]
  rw [Nat.mul_add_div hpos, Nat.mul_add_mod]

lemma kvRows_congr {pageTokens n : ℕ} {table table' : ℕ → ℕ}
    (h : ∀ t < n, table (t / pageTokens) = table' (t / pageTokens)) :
    kvRows pageTokens table n = kvRows pageTokens table' n := by
  apply List.map_congr_left
  intro t ht
  rw [h t (List.mem_range.mp ht)]

lemma mem_members {running : List ℕ} {head i : ℕ} :
    i ∈ g.members running head ↔ i < running.length ∧ 0 < g.together running (running.getD i 0) ∧
      g.group (running.getD i 0) = head := by
  simp only [members, List.mem_filter, List.mem_range, Bool.and_eq_true, decide_eq_true_eq]

/-- Rows that read together are of a group that shares tokens. -/
lemma together_pos {running : List ℕ} {s : ℕ} (h : 0 < g.together running s) :
    g.together running s = g.sharedTokens s ∧ 0 < g.sharedTokens s := by
  rw [together] at h ⊢
  split at h
  · rename_i hcount
    rw [if_pos hcount]
    exact ⟨rfl, h⟩
  · exact absurd h (Nat.lt_irrefl 0)

lemma getD_mem {running : List ℕ} {i : ℕ} (hi : i < running.length) : running.getD i 0 ∈ running := by
  rw [List.getD_eq_getElem?_getD, List.getElem?_eq_getElem hi, Option.getD_some]
  exact List.getElem_mem hi

/-- A row that reads together is in the group of its slot, whose first row shares its tokens and pages. -/
lemma first_member {running positions : List ℕ} (h : Consistent g running positions) {i : ℕ}
    (hi : i < running.length) (htogether : 0 < g.together running (running.getD i 0)) :
    let head := g.group (running.getD i 0)
    g.first running head ∈ g.members running head ∧
      g.together running (running.getD (g.first running head) 0) = g.sharedTokens (running.getD i 0) ∧
      ∀ column < g.sharedTokens (running.getD i 0) / g.pageTokens,
        g.pages (running.getD (g.first running head) 0) column = g.pages (running.getD i 0) column := by
  dsimp only [first]
  have hmem : i ∈ g.members running (g.group (running.getD i 0)) := mem_members.mpr ⟨hi, htogether, rfl⟩
  obtain ⟨first, rest, hmembers⟩ := List.exists_cons_of_ne_nil (List.ne_nil_of_mem hmem)
  have hfirst : first ∈ g.members running (g.group (running.getD i 0)) := by
    rw [hmembers]
    exact List.mem_cons_self
  obtain ⟨hlt, hpos, hgroup⟩ := mem_members.mp hfirst
  have hgrouped : g.grouped (running.getD i 0) (running.getD first 0) = true := by
    rw [grouped, hgroup, decide_eq_true (together_pos htogether).2, decide_eq_true (together_pos hpos).2]
    exact decide_eq_true rfl
  rw [hmembers, List.headD_cons]
  rw [hmembers] at hfirst
  refine ⟨hfirst, ?_, ?_⟩
  · rw [(together_pos hpos).1]
    exact (h.same_tokens _ (getD_mem hi) _ (getD_mem hlt) hgrouped).symm
  · intro column hcolumn
    exact (h.same_pages _ (getD_mem hi) _ (getD_mem hlt) hgrouped column hcolumn).symm

/-- The groups that a row reads with are its own, or none. -/
lemma shared_filter (share : Bool) {running : List ℕ} {i : ℕ}
    (hlt : i < running.length → g.group (running.getD i 0) < g.numSlots) :
    ((g.heads running share).map (g.sharedRead running share)).filter (fun s => decide (i ∈ s.rows)) =
      if i < running.length ∧ 0 < g.sharedOf running share i then
        [g.sharedRead running share (g.group (running.getD i 0))]
      else [] := by
  rw [List.filter_map]
  split
  · rename_i h
    obtain ⟨hi, hpos⟩ := h
    have hshare : share = true := by
      rw [sharedOf] at hpos
      by_contra hnot
      rw [if_neg hnot] at hpos
      exact Nat.lt_irrefl 0 hpos
    rw [sharedOf, if_pos hshare] at hpos
    have hmem : i ∈ g.members running (g.group (running.getD i 0)) := mem_members.mpr ⟨hi, hpos, rfl⟩
    have hhead : g.group (running.getD i 0) ∈ g.heads running share := by
      refine List.mem_filter.mpr ⟨List.mem_range.mpr (hlt hi), ?_⟩
      rw [hshare, Bool.true_and, Bool.not_eq_true', List.isEmpty_eq_false_iff]
      exact List.ne_nil_of_mem hmem
    have honly : (g.heads running share).filter ((fun s => decide (i ∈ s.rows)) ∘ g.sharedRead running share) =
        (g.heads running share).filter fun head => head == g.group (running.getD i 0) := by
      apply List.filter_congr
      intro head _
      rw [Function.comp_apply, Bool.eq_iff_iff, decide_eq_true_eq, beq_iff_eq]
      constructor
      · intro hin
        exact (mem_members.mp hin).2.2.symm
      · rintro rfl
        exact hmem
    have hnodup : (g.heads running share).Nodup := List.nodup_range.filter _
    rw [honly, List.filter_beq, List.count_eq_one_of_mem hnodup hhead]
    rfl
  · rename_i h
    have hnone : (g.heads running share).filter ((fun s => decide (i ∈ s.rows)) ∘ g.sharedRead running share) = [] := by
      apply List.filter_eq_nil_iff.mpr
      intro head hhead hin
      rw [Function.comp_apply, decide_eq_true_eq] at hin
      obtain ⟨hi, hpos, -⟩ := mem_members.mp hin
      have hshare := (Bool.and_eq_true_iff.mp (List.mem_filter.mp hhead).2).1
      apply h
      rw [sharedOf, if_pos hshare]
      exact ⟨hi, hpos⟩
    rw [hnone]
    rfl

lemma le_foldr_max {l : List ℕ} {f : ℕ → ℕ} {a : ℕ} (h : a ∈ l) : f a ≤ l.foldr (fun b m => max (f b) m) 0 := by
  induction l with
  | nil => exact absurd h List.not_mem_nil
  | cons b l ih =>
    rw [List.foldr_cons]
    rcases List.mem_cons.mp h with rfl | h
    · exact le_max_left _ _
    · exact (ih h).trans (le_max_right _ _)

/-- A group's tokens and pages are those of each of its rows. -/
lemma group_read {running positions : List ℕ} {share : Bool} (h : Consistent g running positions) {i : ℕ}
    (hi : i < running.length) (hpos : 0 < g.sharedOf running share i) :
    let s := running.getD i 0
    g.sharedOf running share i = g.sharedTokens s ∧ (g.sharedRead running share (g.group s)).used = g.sharedTokens s ∧
      ∀ column < g.sharedTokens s / g.pageTokens,
        (g.sharedRead running share (g.group s)).table.getD column 0 = g.pages s column := by
  dsimp only
  have hshare : share = true := by
    rw [sharedOf] at hpos
    by_contra hnot
    rw [if_neg hnot] at hpos
    exact Nat.lt_irrefl 0 hpos
  rw [sharedOf, if_pos hshare] at hpos ⊢
  obtain ⟨hfirst, htokens, hpages⟩ := first_member h hi hpos
  have hused : g.sharedOf running share (g.first running (g.group (running.getD i 0))) =
      g.sharedTokens (running.getD i 0) := by
    rw [sharedOf, if_pos hshare, htokens]
  refine ⟨(together_pos hpos).1, hused, fun column hcolumn => ?_⟩
  have hhead : g.group (running.getD i 0) ∈ g.heads running share := by
    refine List.mem_filter.mpr ⟨List.mem_range.mpr (h.group_lt _ (getD_mem hi)), ?_⟩
    rw [hshare, Bool.true_and, Bool.not_eq_true', List.isEmpty_eq_false_iff]
    exact List.ne_nil_of_mem hfirst
  have hmost : g.sharedTokens (running.getD i 0) / g.pageTokens ≤ g.most running share := by
    have hle := le_foldr_max (f := fun head => g.sharedOf running share (g.first running head) / g.pageTokens) hhead
    rw [hused] at hle
    exact hle
  rw [← hpages column hcolumn, sharedRead, List.getD_eq_getElem?_getD, List.getElem?_map,
    List.getElem?_range (hcolumn.trans_le hmost)]
  rfl

/-- Each row reads what its page table says, and the rows of a group have the pages it shares. -/
theorem rows_reads {running positions : List ℕ} {share : Bool} {r : DecodeRows}
    (h : Consistent g running positions) (hrows : g.rows running positions share = .ok r) :
    ∀ i < running.length, r.reads g.pageTokens i = r.plainReads g.pageTokens i ∧
      ∀ s ∈ r.shared, i ∈ s.rows → ∀ column < s.used / g.pageTokens, s.table.getD column 0 = r.pageTable i column := by
  rw [rows] at hrows
  split at hrows
  · exact absurd hrows nofun
  rename_i hpages
  cases hrows
  simp only [Bool.not_eq_true, List.any_eq_false, List.mem_range, decide_eq_true_eq, not_le] at hpages
  intro i hi
  have hfilter := shared_filter share fun _ => h.group_lt _ (getD_mem hi)
  have hpt := h.pageTokens_pos
  -- The row's own pages, past the shared ones.
  have hown : ∀ n, g.pageTokens ∣ n → n ≤ positions.getD i 0 →
      kvRows g.pageTokens (fun column => if n / g.pageTokens + column < g.numPages (running.getD i 0) then
          g.pages (running.getD i 0) (n / g.pageTokens + column) else 0) (positions.getD i 0 + 1 - n) =
        kvRows g.pageTokens (fun column => g.pages (running.getD i 0) (n / g.pageTokens + column))
          (positions.getD i 0 + 1 - n) := by
    intro n hn hle
    obtain ⟨k, rfl⟩ := hn
    apply kvRows_congr
    intro t ht
    rw [if_pos]
    rw [Nat.mul_div_cancel_left k hpt]
    calc k + t / g.pageTokens = (g.pageTokens * k + t) / g.pageTokens := (Nat.mul_add_div hpt k t).symm
      _ ≤ positions.getD i 0 / g.pageTokens := Nat.div_le_div_right (by omega)
      _ < g.numPages (running.getD i 0) := hpages i hi
  have hlength : ∀ n, n ≤ positions.getD i 0 →
      ((positions.getD i 0 + 1 - n : ℤ)).toNat = positions.getD i 0 + 1 - n := by
    intro n hn
    omega
  rcases Nat.eq_zero_or_pos (g.sharedOf running share i) with hzero | hpos
  · refine ⟨?_, ?_⟩
    · simp only [reads, plainReads, hfilter, hzero, Nat.lt_irrefl, and_false, if_false, List.flatMap_nil,
        List.nil_append]
      have hown := hown 0 ⟨0, (Nat.mul_zero _).symm⟩ (Nat.zero_le _)
      have hlength := hlength 0 (Nat.zero_le _)
      simp only [Nat.zero_div, Nat.zero_add, Nat.sub_zero] at hown hlength
      rw [hlength]
      simp only [Nat.zero_div, Nat.zero_add]
      exact hown
    · intro s hs hin
      have hmem : s ∈ ((g.heads running share).map (g.sharedRead running share)).filter fun s => decide (i ∈ s.rows) :=
        List.mem_filter.mpr ⟨hs, decide_eq_true hin⟩
      rw [hfilter, hzero, if_neg fun hcon => Nat.lt_irrefl 0 hcon.2] at hmem
      exact absurd hmem List.not_mem_nil
  · rw [if_pos ⟨hi, hpos⟩] at hfilter
    obtain ⟨htokens, hused, htable⟩ := group_read h hi hpos
    have haligned := h.aligned _ (getD_mem hi)
    have hwithin := h.within i hi
    refine ⟨?_, ?_⟩
    · simp only [reads, plainReads, hfilter, List.flatMap_cons, List.flatMap_nil,
        List.append_nil, htokens, hused]
      rw [hlength _ hwithin, hown _ haligned hwithin]
      have hshared : kvRows g.pageTokens (fun column =>
            (g.sharedRead running share (g.group (running.getD i 0))).table.getD column 0)
            (g.sharedTokens (running.getD i 0)) =
          kvRows g.pageTokens (g.pages (running.getD i 0)) (g.sharedTokens (running.getD i 0)) := by
        apply kvRows_congr
        intro t ht
        exact htable _ (Nat.div_lt_div_of_lt_of_dvd haligned ht)
      rw [hshared, ← kvRows_add hpt haligned]
      congr 1
      omega
    · intro s hs hin column hcolumn
      have hmem : s ∈ ((g.heads running share).map (g.sharedRead running share)).filter fun s => decide (i ∈ s.rows) :=
        List.mem_filter.mpr ⟨hs, decide_eq_true hin⟩
      rw [hfilter] at hmem
      obtain rfl := List.mem_singleton.mp hmem
      rw [hused] at hcolumn
      exact htable column hcolumn

end Quail.Decode.FullAttentionGroup
