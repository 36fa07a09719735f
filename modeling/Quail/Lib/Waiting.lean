import Mathlib.Algebra.BigOperators.Group.Finset.Piecewise
import Mathlib.Algebra.Order.BigOperators.Group.Finset
import Mathlib.Data.List.Chain

/-!
# Items that wait for a stop

Keyed items arrive in order. A stop is handed to its own key at once, and with it, before it, whatever
has waited since the stop before, to that same key. So every key gets its own items in order when no item
waits for a stop of another key, and not otherwise: an item that goes astray is missed by its key, and
what the key gets in its place is missed by another.
-/

namespace Waiting

variable {κ α : Type} [DecidableEq κ] (stop : α → Prop) [DecidablePred stop]

/-- What each key was handed, and what waits. -/
structure HandOver (κ α : Type) where
  handed : κ → List α := fun _ => []
  waiting : List α := []

def HandOver.take (s : HandOver κ α) (item : κ × α) : HandOver κ α :=
  if stop item.2 then
    { handed := Function.update s.handed item.1 (s.handed item.1 ++ s.waiting ++ [item.2]), waiting := [] }
  else
    { s with waiting := s.waiting ++ [item.2] }

def run (items : List (κ × α)) : HandOver κ α := items.foldl (HandOver.take stop) {}

/-- A key's own items. -/
def own (items : List (κ × α)) (k : κ) : List α := (items.filter (·.1 = k)).map Prod.snd

/-- What a key has if the next stop is one of `next`. -/
def flush (s : HandOver κ α) (next k : κ) : List α := s.handed k ++ if k = next then s.waiting else []

/-- Every item that waits waits for a stop of its own key. -/
def Together (items : List (κ × α)) : Prop := items.IsChain fun a b => stop a.2 ∨ a.1 = b.1

variable {stop} {items : List (κ × α)} {item : κ × α} {k next : κ}

lemma own_append (l l' : List (κ × α)) : own (l ++ l') k = own l k ++ own l' k := by
  simp [own]

omit [DecidablePred stop] in
lemma mem_of_mem_own {x : α} (h : x ∈ own items k) : x ∈ items.map Prod.snd := by
  obtain ⟨item, hitem, rfl⟩ := List.mem_map.1 h
  exact List.mem_map_of_mem (List.mem_filter.1 hitem).1

lemma own_snoc : own (items ++ [item]) k = own items k ++ if k = item.1 then [item.2] else [] := by
  by_cases h : item.1 = k
  · simp [own, h]
  · simp [own, h, Ne.symm h]

lemma run_snoc : run stop (items ++ [item]) = (run stop items).take stop item := by
  simp [run]

lemma run_stop (h : stop item.2) : run stop (items ++ [item]) =
    { handed := Function.update (run stop items).handed item.1
        ((run stop items).handed item.1 ++ (run stop items).waiting ++ [item.2]), waiting := [] } := by
  rw [run_snoc, HandOver.take, if_pos h]

lemma run_wait (h : ¬stop item.2) : run stop (items ++ [item]) =
    { run stop items with waiting := (run stop items).waiting ++ [item.2] } := by
  rw [run_snoc, HandOver.take, if_neg h]

/-- What a key is handed ends in a stop. -/
lemma handed_last (stop : α → Prop) [DecidablePred stop] (items : List (κ × α)) (k : κ) :
    (run stop items).handed k = [] ∨ ∃ l x, (run stop items).handed k = l ++ [x] ∧ stop x := by
  induction items using List.reverseRecOn with
  | nil => exact Or.inl rfl
  | append_singleton items item ih =>
    by_cases h : stop item.2
    · rw [run_stop h]
      by_cases hk : k = item.1
      · subst hk
        exact Or.inr ⟨_, _, Function.update_self .., h⟩
      · simpa [Function.update_of_ne hk] using ih
    · simpa [run_wait h] using ih

lemma not_stop_of_waiting (stop : α → Prop) [DecidablePred stop] (items : List (κ × α)) :
    ∀ x ∈ (run stop items).waiting, ¬stop x := by
  induction items using List.reverseRecOn with
  | nil => simp [run]
  | append_singleton items item ih =>
    by_cases h : stop item.2
    · simp [run_stop h]
    · intro x hx
      rw [run_wait h, List.mem_append, List.mem_singleton] at hx
      cases hx with
      | inl hx => exact ih x hx
      | inr hx => exact hx ▸ h

/-- If the item before waits for its own key, it makes no difference which key an item is handed to next. -/
lemma flush_snoc (h : stop item.2 ∨ item.1 = next) : flush (run stop (items ++ [item])) next k =
    flush (run stop items) item.1 k ++ if k = item.1 then [item.2] else [] := by
  by_cases hs : stop item.2
  · rw [run_stop hs]
    by_cases hk : k = item.1
    · subst hk
      simp [flush]
    · simp [flush, hk]
  · obtain rfl := h.resolve_left hs
    rw [run_wait hs]
    by_cases hk : k = item.1 <;> simp [flush, hk]

omit [DecidableEq κ] [DecidablePred stop] in
lemma together_snoc : Together stop (items ++ [item]) ↔
    Together stop items ∧ ∀ last ∈ items.getLast?, stop last.2 ∨ last.1 = item.1 := by
  simp [Together, List.isChain_append]

/-- A block of one key's items is handed over up to its last stop, after what waited. -/
lemma run_block (items : List (κ × α)) (k : κ) (block : List α) : ∃ handed waiting,
    (run stop items).waiting ++ block = handed ++ waiting ∧
    run stop (items ++ block.map fun x => (k, x)) =
      { handed := Function.update (run stop items).handed k ((run stop items).handed k ++ handed), waiting } ∧
    (handed = [] ∨ ∃ l x, handed = l ++ [x] ∧ stop x) := by
  induction block using List.reverseRecOn with
  | nil =>
    refine ⟨[], (run stop items).waiting, List.append_nil _, ?_, Or.inl rfl⟩
    rw [List.append_nil, Function.update_eq_self]
    simp
  | append_singleton block x ih =>
    obtain ⟨handed, waiting, hsplit, hrun, hlast⟩ := ih
    have happend : items ++ (block ++ [x]).map (fun x => (k, x))
        = items ++ block.map (fun x => (k, x)) ++ [(k, x)] := by simp
    rw [happend]
    by_cases hs : stop (k, x).2
    · refine ⟨handed ++ waiting ++ [x], [], ?_, ?_, Or.inr ⟨_, x, rfl, hs⟩⟩
      · rw [← List.append_assoc, hsplit, List.append_nil]
      · rw [run_stop hs, hrun]
        simp
    · refine ⟨handed, waiting ++ [x], ?_, ?_, hlast⟩
      · rw [← List.append_assoc, hsplit, List.append_assoc]
      · rw [run_wait hs, hrun]

/-- Every key has its own items if none waits for another key. -/
theorem flush_eq_own (h : Together stop items)
    (hlast : ∀ last ∈ items.getLast?, stop last.2 ∨ last.1 = next) (k : κ) :
    flush (run stop items) next k = own items k := by
  induction items using List.reverseRecOn generalizing next with
  | nil => simp [flush, run, own]
  | append_singleton items item ih =>
    obtain ⟨hitems, hitem⟩ := together_snoc.1 h
    rw [flush_snoc (hlast item (by simp)), own_snoc, ih hitems hitem]

/-- Conversely, where a key has as many items as its own, and has an item that waits wherever its own
list has one, no item waits for another key. -/
theorem together_of_flush
    (hlen : ∀ k, (flush (run stop items) next k).length = (own items k).length)
    (hown : ∀ k (p : ℕ) x, (own items k)[p]? = some x → ¬stop x →
      ∃ y, (flush (run stop items) next k)[p]? = some y ∧ ¬stop y) :
    Together stop items ∧ ∀ last ∈ items.getLast?, stop last.2 ∨ last.1 = next := by
  induction items using List.reverseRecOn generalizing next with
  | nil => exact ⟨List.IsChain.nil, by simp⟩
  | append_singleton items item ih =>
    have hitem : stop item.2 ∨ item.1 = next := by
      by_contra hne
      obtain ⟨hs, hne⟩ := not_or.1 hne
      -- The key's last item is the one it was handed last, and that is a stop.
      have hown' : own (items ++ [item]) item.1 = own items item.1 ++ [item.2] := by simp [own_snoc]
      have hflush : flush (run stop (items ++ [item])) next item.1
          = (run stop (items ++ [item])).handed item.1 := by simp [flush, hne]
      obtain ⟨y, hy, hys⟩ := hown item.1 (own items item.1).length item.2 (by simp [hown']) hs
      have hl := hlen item.1
      rw [hflush, hown', List.length_append, List.length_singleton] at hl
      rw [hflush] at hy
      rcases handed_last stop (items ++ [item]) item.1 with h | ⟨l, x, h, hx⟩
      · simp [h] at hl
      · rw [h, List.length_append, List.length_singleton] at hl
        have hlen : l.length = (own items item.1).length := by omega
        rw [h, ← hlen] at hy
        obtain rfl : x = y := by simpa using hy
        exact hys hx
    have hflush (k : κ) : flush (run stop (items ++ [item])) next k
        = flush (run stop items) item.1 k ++ if k = item.1 then [item.2] else [] := flush_snoc hitem
    have hsame (k : κ) : (flush (run stop items) item.1 k).length = (own items k).length := by
      have hl := hlen k
      rw [hflush, own_snoc, List.length_append, List.length_append] at hl
      omega
    obtain ⟨hitems, hlast⟩ := ih hsame fun k p x hx hs => by
      have hp : p < (own items k).length := (List.getElem?_eq_some_iff.1 hx).1
      obtain ⟨y, hy, hys⟩ := hown k p x (by rw [own_snoc, List.getElem?_append_left hp, hx]) hs
      rw [hflush, List.getElem?_append_left (hsame k ▸ hp)] at hy
      exact ⟨y, hy, hys⟩
    refine ⟨together_snoc.2 ⟨hitems, hlast⟩, fun last hlast => ?_⟩
    obtain rfl : item = last := by simpa using hlast
    exact hitem

/-! ## Counts -/

lemma countP_handed_snoc (stop : α → Prop) [DecidablePred stop] (items : List (κ × α)) (item : κ × α) (k : κ)
    (q : α → Bool) : ((run stop (items ++ [item])).handed k).countP q
      + (if k = item.1 then (run stop (items ++ [item])).waiting.countP q else 0)
    = ((run stop items).handed k).countP q
      + if k = item.1 then (run stop items).waiting.countP q + [item.2].countP q else 0 := by
  by_cases hs : stop item.2
  · rw [run_stop hs]
    by_cases hk : k = item.1
    · subst hk
      simp [List.countP_append]
    · simp [hk]
  · rw [run_wait hs]
    by_cases hk : k = item.1 <;> simp [hk, List.countP_append]

/-- Every item was handed over or waits. -/
lemma sum_countP_handed (stop : α → Prop) [DecidablePred stop] (q : α → Bool) {keys : Finset κ} (h : ∀ item ∈ items, item.1 ∈ keys) :
    ∑ k ∈ keys, ((run stop items).handed k).countP q + (run stop items).waiting.countP q
      = items.countP fun item => q item.2 := by
  induction items using List.reverseRecOn with
  | nil => simp [run]
  | append_singleton items item ih =>
    have hkey : item.1 ∈ keys := h item (by simp)
    have hsum := Finset.sum_congr (rfl : keys = keys) fun k (_ : k ∈ keys) =>
      countP_handed_snoc stop items item k q
    rw [Finset.sum_add_distrib, Finset.sum_add_distrib, Finset.sum_ite_eq', Finset.sum_ite_eq',
      if_pos hkey, if_pos hkey] at hsum
    have hitems := ih fun i hi => h i (by simp [hi])
    rw [List.countP_append, ← hitems, hsum]
    simp [List.countP_cons, Nat.add_assoc]

lemma sum_countP_own (q : α → Bool) {keys : Finset κ} (h : ∀ item ∈ items, item.1 ∈ keys) :
    ∑ k ∈ keys, (own items k).countP q = items.countP fun item => q item.2 := by
  induction items using List.reverseRecOn with
  | nil => simp [own]
  | append_singleton items item ih =>
    have hkey : item.1 ∈ keys := h item (by simp)
    have hsnoc (k : κ) : (own (items ++ [item]) k).countP q
        = (own items k).countP q + if k = item.1 then [item.2].countP q else 0 := by
      rw [own_snoc, List.countP_append]
      split <;> rfl
    rw [Finset.sum_congr rfl fun k _ => hsnoc k, Finset.sum_add_distrib, Finset.sum_ite_eq',
      if_pos hkey, ih fun i hi => h i (by simp [hi]), List.countP_append]
    simp [List.countP_cons]

/-- A key is handed all its stops, in order. -/
lemma filter_stop (stop : α → Prop) [DecidablePred stop] (items : List (κ × α)) (k : κ) :
    ((run stop items).handed k).filter (fun x => decide (stop x))
      = (own items k).filter fun x => decide (stop x) := by
  induction items using List.reverseRecOn with
  | nil => simp [run, own]
  | append_singleton items item ih =>
    rw [own_snoc, List.filter_append, ← ih]
    by_cases hs : stop item.2
    · have hwait : (run stop items).waiting.filter (fun x => decide (stop x)) = [] := by
        simpa using not_stop_of_waiting stop items
      rw [run_stop hs]
      by_cases hk : k = item.1
      · subst hk
        simp [List.filter_append, hwait]
      · simp [hk]
    · rw [run_wait hs]
      split <;> simp [hs]

lemma countP_le_of_getElem? {q : α → Bool} {l l' : List α}
    (h : ∀ (p : ℕ) x, l[p]? = some x → q x → ∃ y, l'[p]? = some y ∧ q y) : l.countP q ≤ l'.countP q := by
  induction l generalizing l' with
  | nil => simp
  | cons x l ih =>
    cases l' with
    | nil =>
      refine Nat.le_of_eq (List.countP_eq_zero.2 fun y hy hq => ?_)
      obtain ⟨p, hp⟩ := List.getElem?_of_mem hy
      simpa using h p y hp hq
    | cons x' l' =>
      have htail : l.countP q ≤ l'.countP q := ih fun p y hy hq => by simpa using h (p + 1) y (by simpa using hy) hq
      have hhead : q x → q x' := fun hq => by simpa using h 0 x rfl hq
      rw [List.countP_cons, List.countP_cons]
      by_cases hq : q x = true
      · simp only [hq, hhead hq, if_true]
        omega
      · rw [if_neg hq]
        exact htail.trans (Nat.le_add_right _ _)

section Astray

variable (hown : ∀ k (p : ℕ) x, (own items k)[p]? = some x → ¬stop x →
  ∃ y, ((run stop items).handed k)[p]? = some y ∧ ¬stop y)

include hown

/-- What goes to a wrong key is missed by another, so nothing does. -/
lemma countP_waits (k : κ) : (own items k).countP (fun x => decide ¬stop x)
      = ((run stop items).handed k).countP (fun x => decide ¬stop x) ∧ (run stop items).waiting = [] := by
  let waits : α → Bool := fun x => decide ¬stop x
  let keys : Finset κ := insert k (items.map Prod.fst).toFinset
  have hkeys : ∀ item ∈ items, item.1 ∈ keys := fun item hitem =>
    Finset.mem_insert_of_mem (List.mem_toFinset.2 (List.mem_map_of_mem hitem))
  have hle : ∀ k ∈ keys, (own items k).countP waits ≤ ((run stop items).handed k).countP waits := by
    intro k _
    refine countP_le_of_getElem? fun p x hx hq => ?_
    obtain ⟨y, hy, hys⟩ := hown k p x hx (by simpa [waits] using hq)
    exact ⟨y, hy, by simpa [waits] using hys⟩
  have hhanded := sum_countP_handed stop waits hkeys
  have hmine := sum_countP_own waits hkeys
  have hsum := Finset.sum_le_sum hle
  have hall : (run stop items).waiting.countP waits = (run stop items).waiting.length := by
    simpa [waits] using not_stop_of_waiting stop items
  refine ⟨?_, List.eq_nil_of_length_eq_zero (by omega)⟩
  exact (Finset.sum_eq_sum_iff_of_le hle).1 (by omega) k (Finset.mem_insert_self ..)

lemma length_handed (k : κ) : ((run stop items).handed k).length = (own items k).length := by
  have hstop := congrArg List.length (filter_stop stop items k)
  rw [← List.countP_eq_length_filter, ← List.countP_eq_length_filter] at hstop
  have hwait := (countP_waits hown k).1
  have hsplit (l : List α) := List.length_eq_countP_add_countP (fun x => decide (stop x)) (l := l)
  have hnot (l : List α) : l.countP (fun x => decide ¬stop x) = l.countP (fun x => !decide (stop x)) := by
    simp
  simp only [hnot] at hwait
  have hl := hsplit ((run stop items).handed k)
  have hl' := hsplit (own items k)
  simp only [Bool.not_eq_true, decide_eq_false_iff_not] at hl hl'
  simp only [hnot] at hl hl'
  omega

/-- If a key has an item that waits wherever its own list has one, then every item waits for its own key
and none waits at the end. -/
theorem together_of_handed : Together stop items ∧ ∀ last ∈ items.getLast?, stop last.2 := by
  induction items using List.reverseRecOn with
  | nil => exact ⟨List.IsChain.nil, by simp⟩
  | append_singleton items item _ =>
    have hwaiting := (countP_waits hown item.1).2
    have hflush (k : κ) : flush (run stop (items ++ [item])) item.1 k
        = (run stop (items ++ [item])).handed k := by simp [flush, hwaiting]
    have hlen (k : κ) : (flush (run stop (items ++ [item])) item.1 k).length
        = (own (items ++ [item]) k).length := by rw [hflush, length_handed hown k]
    refine ⟨(together_of_flush hlen fun k p x hx hs => ?_).1, fun last hlast => ?_⟩
    · rw [hflush]
      exact hown k p x hx hs
    · obtain rfl : item = last := by simpa using hlast
      by_contra hs
      simp [run_wait hs] at hwaiting

end Astray

/-- Nothing waits after a stop. -/
lemma waiting_eq_nil (h : ∀ last ∈ items.getLast?, stop last.2) : (run stop items).waiting = [] := by
  induction items using List.reverseRecOn with
  | nil => rfl
  | append_singleton items item _ => rw [run_stop (h item (by simp))]

theorem handed_eq_own (h : Together stop items) (hlast : ∀ last ∈ items.getLast?, stop last.2) (k : κ) :
    (run stop items).handed k = own items k := by
  have hflush : flush (run stop items) k k = own items k :=
    flush_eq_own h (fun last hmem => Or.inl (hlast last hmem)) k
  simpa [flush, waiting_eq_nil hlast] using hflush

end Waiting
