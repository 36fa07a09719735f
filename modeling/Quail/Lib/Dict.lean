import Mathlib.Tactic.Basic
import Mathlib.Tactic.Common
import Mathlib.Tactic.Abel
import Mathlib.Data.List.Nodup
import Mathlib.Data.List.Induction
import Mathlib.Algebra.BigOperators.Group.List.Basic
import Mathlib.Algebra.Order.BigOperators.Group.List

/-!
# Dictionaries in insertion order

A `Dict κ β` lists its entries in the order their keys were first inserted, with one entry per key.
`set` overwrites an entry in place and appends a new one at the end; `erase` removes one. The lemmas
say how lookups, keys and sums over the entries (`total`) follow each operation.
-/

/-- A dictionary: its entries in insertion order, no key twice. -/
structure Dict (κ β : Type) where
  entries : List (κ × β)
  nodup : (entries.map Prod.fst).Nodup

namespace Dict

variable {κ β M : Type} [DecidableEq κ]

/-- The dictionary with no entries. -/
def empty : Dict κ β := ⟨[], List.nodup_nil⟩

/-- The keys, in insertion order. -/
def keys (d : Dict κ β) : List κ := d.entries.map Prod.fst

/-- The value of a key in a list of entries. -/
def find (k : κ) : List (κ × β) → Option β
  | [] => none
  | (k', v) :: l => if k' = k then some v else find k l

/-- The value of a key, if it has one. -/
def get? (d : Dict κ β) (k : κ) : Option β := find k d.entries

/-- Whether the key has an entry. -/
def contains (d : Dict κ β) (k : κ) : Bool := (d.get? k).isSome

/-- Overwrite the entry of a key in place, or append one. -/
def put (k : κ) (v : β) : List (κ × β) → List (κ × β)
  | [] => [(k, v)]
  | (k', w) :: l => if k' = k then (k, v) :: l else (k', w) :: put k v l

/-- The entries of the other keys. -/
def drop (k : κ) (l : List (κ × β)) : List (κ × β) := l.filter (fun e => !decide (e.1 = k))

lemma mem_put {k k' : κ} {v : β} {l : List (κ × β)} :
    k' ∈ (put k v l).map Prod.fst ↔ k' = k ∨ k' ∈ l.map Prod.fst := by
  induction l with
  | nil => simp [put]
  | cons e l ih =>
    obtain ⟨k0, w⟩ := e
    by_cases h : k0 = k
    · subst h
      simp [put]
    · simp only [put, if_neg h, List.map_cons, List.mem_cons, ih]
      tauto

lemma nodup_put {k : κ} {v : β} {l : List (κ × β)} (h : (l.map Prod.fst).Nodup) :
    ((put k v l).map Prod.fst).Nodup := by
  induction l with
  | nil => simp [put]
  | cons e l ih =>
    obtain ⟨k0, w⟩ := e
    rw [List.map_cons, List.nodup_cons] at h
    by_cases h0 : k0 = k
    · subst h0
      simpa [put] using h
    · rw [put, if_neg h0, List.map_cons, List.nodup_cons, mem_put]
      refine ⟨?_, ih h.2⟩
      rintro (e | m)
      · exact h0 e
      · exact h.1 m

/-- Give a key a value. -/
def set (d : Dict κ β) (k : κ) (v : β) : Dict κ β := ⟨put k v d.entries, nodup_put d.nodup⟩

lemma nodup_drop {k : κ} {l : List (κ × β)} (h : (l.map Prod.fst).Nodup) :
    ((drop k l).map Prod.fst).Nodup :=
  h.sublist (List.filter_sublist.map _)

/-- Remove a key and its value. -/
def erase (d : Dict κ β) (k : κ) : Dict κ β := ⟨drop k d.entries, nodup_drop d.nodup⟩

/-! ## Lookups -/

@[simp] lemma get?_empty {k : κ} : (empty : Dict κ β).get? k = none := rfl

omit [DecidableEq κ] in
@[simp] lemma keys_empty : (empty : Dict κ β).keys = [] := rfl

lemma find_put {k k' : κ} {v : β} {l : List (κ × β)} :
    find k' (put k v l) = if k = k' then some v else find k' l := by
  induction l with
  | nil => simp [put, find]
  | cons e l ih =>
    obtain ⟨k0, w⟩ := e
    by_cases h : k0 = k
    · subst h
      by_cases h' : k0 = k' <;> simp [put, find, h']
    · by_cases h' : k0 = k'
      · subst h'
        simp [put, find, h, Ne.symm h]
      · simp [put, find, h, h', ih]

lemma find_drop {k k' : κ} {l : List (κ × β)} :
    find k' (drop k l) = if k = k' then none else find k' l := by
  induction l with
  | nil => simp [drop, find]
  | cons e l ih =>
    obtain ⟨k0, w⟩ := e
    unfold drop at ih ⊢
    by_cases h : k0 = k
    · subst h
      rw [List.filter_cons_of_neg (by simp), ih]
      by_cases h' : k0 = k' <;> simp [find, h']
    · by_cases h' : k0 = k'
      · subst h'
        simp [find, h, Ne.symm h]
      · simp [find, h, h', ih]

lemma get?_set {d : Dict κ β} {k k' : κ} {v : β} :
    (d.set k v).get? k' = if k = k' then some v else d.get? k' := find_put

@[simp] lemma get?_set_self {d : Dict κ β} {k : κ} {v : β} : (d.set k v).get? k = some v := by
  simp [get?_set]

lemma get?_set_ne {d : Dict κ β} {k k' : κ} {v : β} (h : k ≠ k') :
    (d.set k v).get? k' = d.get? k' := by simp [get?_set, h]

lemma get?_erase {d : Dict κ β} {k k' : κ} :
    (d.erase k).get? k' = if k = k' then none else d.get? k' := find_drop

@[simp] lemma get?_erase_self {d : Dict κ β} {k : κ} : (d.erase k).get? k = none := by
  simp [get?_erase]

lemma get?_erase_ne {d : Dict κ β} {k k' : κ} (h : k ≠ k') :
    (d.erase k).get? k' = d.get? k' := by simp [get?_erase, h]

lemma find_isSome {k : κ} {l : List (κ × β)} : (find k l).isSome ↔ k ∈ l.map Prod.fst := by
  induction l with
  | nil => simp [find]
  | cons e l ih =>
    obtain ⟨k0, w⟩ := e
    by_cases h : k0 = k
    · simp [find, h]
    · simp only [find, if_neg h, ih, List.map_cons, List.mem_cons]
      constructor
      · exact Or.inr
      · rintro (e | m)
        · exact absurd e.symm h
        · exact m

lemma contains_iff_mem_keys {d : Dict κ β} {k : κ} : d.contains k = true ↔ k ∈ d.keys := find_isSome

lemma contains_iff {d : Dict κ β} {k : κ} : d.contains k = true ↔ ∃ v, d.get? k = some v :=
  Option.isSome_iff_exists

lemma contains_eq_false {d : Dict κ β} {k : κ} : d.contains k = false ↔ d.get? k = none := by
  unfold contains
  cases d.get? k <;> simp

lemma mem_keys_iff {d : Dict κ β} {k : κ} : k ∈ d.keys ↔ ∃ v, d.get? k = some v := by
  rw [← contains_iff_mem_keys, contains_iff]

lemma find_of_mem {k : κ} {v : β} {l : List (κ × β)} (h : (l.map Prod.fst).Nodup)
    (hm : (k, v) ∈ l) : find k l = some v := by
  induction l with
  | nil => cases hm
  | cons e l ih =>
    obtain ⟨k0, w⟩ := e
    rw [List.map_cons, List.nodup_cons] at h
    cases hm with
    | head => simp [find]
    | tail _ hm =>
      have hk : k0 ≠ k := by
        rintro rfl
        exact h.1 (List.mem_map.2 ⟨_, hm, rfl⟩)
      simp [find, hk, ih h.2 hm]

lemma mem_of_find {k : κ} {v : β} {l : List (κ × β)} (h : find k l = some v) : (k, v) ∈ l := by
  induction l with
  | nil => cases h
  | cons e l ih =>
    obtain ⟨k0, w⟩ := e
    by_cases hk : k0 = k
    · simp only [find, if_pos hk, Option.some.injEq] at h
      simp [hk, h]
    · simp only [find, if_neg hk] at h
      exact List.mem_cons_of_mem _ (ih h)

/-- An entry of the dictionary is what its key looks up. -/
lemma mem_entries_iff {d : Dict κ β} {k : κ} {v : β} :
    (k, v) ∈ d.entries ↔ d.get? k = some v :=
  ⟨find_of_mem d.nodup, mem_of_find⟩

/-! ## Further operations -/

lemma entries_eq_nil_iff {d : Dict κ β} : d.entries = [] ↔ ∀ k, d.get? k = none := by
  constructor
  · intro h k
    rw [get?, h]
    rfl
  · intro h
    refine List.eq_nil_iff_forall_not_mem.2 fun e he => ?_
    have hget := (mem_entries_iff (d := d) (k := e.1) (v := e.2)).1 he
    rw [h e.1] at hget
    cases hget

/-- `setdefault`: give a key a value when it has none. -/
def setDefault (d : Dict κ β) (k : κ) (v : β) : Dict κ β := if d.contains k then d else d.set k v

lemma get?_setDefault {d : Dict κ β} {k k' : κ} {v : β} :
    (d.setDefault k v).get? k' = (d.get? k').or (if k = k' then some v else none) := by
  unfold setDefault
  split_ifs with hc hk hk
  · subst hk
    obtain ⟨w, hw⟩ := Option.isSome_iff_exists.1 hc
    rw [hw]
    rfl
  · rw [Option.or_none]
  · subst hk
    rw [contains, Bool.not_eq_true, Option.isSome_eq_false_iff, Option.isNone_iff_eq_none] at hc
    rw [get?_set_self, hc]
    rfl
  · rw [get?_set_ne hk, Option.or_none]

/-- `setdefault` of each entry keeps the first value of every key. -/
lemma get?_foldl_setDefault {entries : List (κ × β)} {d : Dict κ β} {k : κ} :
    (entries.foldl (fun d e => d.setDefault e.1 e.2) d).get? k =
      (d.get? k).or ((entries.find? fun e => e.1 = k).map Prod.snd) := by
  induction entries generalizing d with
  | nil => exact Option.or_none.symm
  | cons e entries ih =>
    rw [List.foldl_cons, ih, get?_setDefault, Option.or_assoc, List.find?_cons]
    split_ifs with hk
    · rw [decide_eq_true hk]
      rfl
    · rw [decide_eq_false hk]
      rfl

/-- The same keys with a function applied to their values. -/
def mapValues {γ : Type} (f : β → γ) (d : Dict κ β) : Dict κ γ :=
  ⟨d.entries.map fun e => (e.1, f e.2), by
    rw [List.map_map]
    exact d.nodup⟩

lemma find_map {γ : Type} {f : β → γ} {k : κ} {l : List (κ × β)} :
    find k (l.map fun e => (e.1, f e.2)) = (find k l).map f := by
  induction l with
  | nil => rfl
  | cons e l ih =>
    obtain ⟨k0, v⟩ := e
    rw [List.map_cons, find, find, ih]
    split_ifs <;> rfl

@[simp] lemma get?_mapValues {γ : Type} {f : β → γ} {d : Dict κ β} {k : κ} :
    (d.mapValues f).get? k = (d.get? k).map f := find_map

@[simp] lemma contains_mapValues {γ : Type} {f : β → γ} {d : Dict κ β} {k : κ} :
    (d.mapValues f).contains k = d.contains k := by
  rw [contains, contains, get?_mapValues, Option.isSome_map]

/-! ## Keys -/

lemma keys_put {k : κ} {v : β} {l : List (κ × β)} :
    (put k v l).map Prod.fst =
      if k ∈ l.map Prod.fst then l.map Prod.fst else l.map Prod.fst ++ [k] := by
  induction l with
  | nil => rfl
  | cons e l ih =>
    obtain ⟨k0, w⟩ := e
    by_cases h : k0 = k
    · simp [put, h]
    · rw [put, if_neg h, List.map_cons, ih]
      by_cases hmem : k ∈ l.map Prod.fst <;> simp [hmem, Ne.symm h]

/-- A new key comes last. -/
lemma keys_set {d : Dict κ β} {k : κ} {v : β} :
    (d.set k v).keys = if k ∈ d.keys then d.keys else d.keys ++ [k] := keys_put

lemma mem_keys_set {d : Dict κ β} {k k' : κ} {v : β} :
    k' ∈ (d.set k v).keys ↔ k' = k ∨ k' ∈ d.keys := mem_put

@[simp] lemma contains_empty {k : κ} : (empty : Dict κ β).contains k = false := rfl

lemma contains_set {d : Dict κ β} {k k' : κ} {v : β} :
    (d.set k v).contains k' = (decide (k = k') || d.contains k') := by
  unfold contains
  rw [get?_set]
  split_ifs with h <;> simp [h]

lemma contains_erase {d : Dict κ β} {k k' : κ} :
    (d.erase k).contains k' = (d.contains k' && !decide (k = k')) := by
  unfold contains
  rw [get?_erase]
  split_ifs with h <;> simp [h]

lemma put_new {k : κ} {v : β} {l : List (κ × β)} (h : k ∉ l.map Prod.fst) : put k v l = l ++ [(k, v)] := by
  induction l with
  | nil => rfl
  | cons e l ih =>
    obtain ⟨k0, w⟩ := e
    rw [List.map_cons, List.mem_cons, not_or] at h
    rw [put, if_neg (Ne.symm h.1), ih h.2, List.cons_append]

/-- The entry of a new key comes last. -/
lemma entries_set_new {d : Dict κ β} {k : κ} {v : β} (h : k ∉ d.keys) :
    (d.set k v).entries = d.entries ++ [(k, v)] := put_new h

/-- Values that their keys determine, set in turn. -/
lemma get?_foldl_set {α : Type} {key : α → κ} {value : α → β} {xs : List α} {d : Dict κ β} {x : α}
    (hx : x ∈ xs) (h : ∀ y ∈ xs, key y = key x → value y = value x) :
    (xs.foldl (fun d y => d.set (key y) (value y)) d).get? (key x) = some (value x) := by
  induction xs using List.reverseRecOn with
  | nil => cases hx
  | append_singleton xs y ih =>
    rw [List.foldl_append, List.foldl_cons, List.foldl_nil, get?_set]
    split_ifs with hy
    · rw [h y (List.mem_append_right _ List.mem_cons_self) hy]
    · obtain hx | hx := List.mem_append.1 hx
      · exact ih hx fun z hz => h z (List.mem_append_left _ hz)
      · exact absurd (congrArg key (List.mem_singleton.1 hx).symm) hy

/-- Keys erased in turn. -/
lemma get?_foldl_erase {ks : List κ} {d : Dict κ β} {k : κ} :
    (ks.foldl (fun d k => d.erase k) d).get? k = if k ∈ ks then none else d.get? k := by
  induction ks generalizing d with
  | nil => rfl
  | cons k' ks ih =>
    rw [List.foldl_cons, ih, get?_erase]
    by_cases hk : k ∈ ks
    · rw [if_pos hk, if_pos (List.mem_cons_of_mem _ hk)]
    · by_cases heq : k' = k
      · simp [heq]
      · simp [hk, heq, Ne.symm heq]

/-- The keys of values set in turn. -/
lemma mem_keys_foldl_set {α : Type} {key : α → κ} {value : α → β} {xs : List α} {d : Dict κ β}
    {k : κ} : k ∈ (xs.foldl (fun d y => d.set (key y) (value y)) d).keys ↔
      k ∈ d.keys ∨ ∃ x ∈ xs, key x = k := by
  induction xs generalizing d with
  | nil => simp
  | cons x xs ih =>
    rw [List.foldl_cons, ih, mem_keys_set, List.exists_mem_cons_iff, eq_comm (a := k)]
    tauto

/-! ## Sums over the entries -/

section total
variable [AddCommGroup M]

/-- The sum of a quantity over the entries. -/
def total (f : κ → β → M) (d : Dict κ β) : M := (d.entries.map fun e => f e.1 e.2).sum

/-- The quantity of one key, nothing when the key has no entry. -/
def part (f : κ → β → M) (d : Dict κ β) (k : κ) : M := (d.get? k).elim 0 (f k)

omit [DecidableEq κ] in
@[simp] lemma total_empty {f : κ → β → M} : (empty : Dict κ β).total f = 0 := rfl

lemma sum_put {f : κ → β → M} {k : κ} {v : β} {l : List (κ × β)} :
    ((put k v l).map fun e => f e.1 e.2).sum =
      (l.map fun e => f e.1 e.2).sum - (find k l).elim 0 (f k) + f k v := by
  induction l with
  | nil => simp [put, find]
  | cons e l ih =>
    obtain ⟨k0, w⟩ := e
    by_cases h : k0 = k
    · subst h
      simp only [put, find, if_true, List.map_cons, List.sum_cons, Option.elim_some]
      abel
    · simp only [put, find, if_neg h, List.map_cons, List.sum_cons, ih]
      abel

/-- Giving a key a value exchanges its part of the sum. -/
lemma total_set {f : κ → β → M} {d : Dict κ β} {k : κ} {v : β} :
    (d.set k v).total f = d.total f - d.part f k + f k v := sum_put

lemma sum_drop {f : κ → β → M} {k : κ} {l : List (κ × β)} (h : (l.map Prod.fst).Nodup) :
    ((drop k l).map fun e => f e.1 e.2).sum =
      (l.map fun e => f e.1 e.2).sum - (find k l).elim 0 (f k) := by
  induction l with
  | nil => simp [drop, find]
  | cons e l ih =>
    obtain ⟨k0, w⟩ := e
    rw [List.map_cons, List.nodup_cons] at h
    have ih := ih h.2
    unfold drop at ih ⊢
    by_cases hk : k0 = k
    · subst hk
      have hnone : find k0 l = none := by
        rw [← Option.not_isSome_iff_eq_none, find_isSome]
        exact h.1
      simp [find, ih, hnone]
    · simp only [find, hk, decide_false, Bool.not_false, List.filter_cons_of_pos, if_false,
        List.map_cons, List.sum_cons, ih]
      abel

/-- Removing a key takes its part out of the sum. -/
lemma total_erase {f : κ → β → M} {d : Dict κ β} {k : κ} :
    (d.erase k).total f = d.total f - d.part f k := sum_drop d.nodup

end total

omit [DecidableEq κ] in
/-- A sum of nonnegative quantities is nonnegative. -/
lemma total_nonneg {f : κ → β → ℤ} {d : Dict κ β} (h : ∀ k v, 0 ≤ f k v) : 0 ≤ d.total f := by
  refine List.sum_nonneg fun x hx => ?_
  obtain ⟨e, _, rfl⟩ := List.mem_map.1 hx
  exact h _ _

/-- A sum of indicators counts the keys whose entry meets the condition. -/
lemma total_indicator {c : κ → β → Prop} [∀ k v, Decidable (c k v)] {d : Dict κ β} :
    d.total (fun k v => if c k v then (1 : ℤ) else 0) =
      (d.keys.filter fun k => (d.get? k).any fun v => decide (c k v)).length := by
  have hc : d.keys.filter (fun k => (d.get? k).any fun v => decide (c k v)) =
      (d.entries.filter fun e => decide (c e.1 e.2)).map Prod.fst := by
    unfold keys
    rw [List.filter_map]
    congr 1
    refine List.filter_congr fun e he => ?_
    rw [Function.comp_apply, mem_entries_iff.1 he, Option.any_some]
  rw [hc, List.length_map]
  unfold total
  induction d.entries with
  | nil => rfl
  | cons e l ih =>
    by_cases h : c e.1 e.2
    · simp [h, ih, add_comm]
    · simp [h, ih]

end Dict
