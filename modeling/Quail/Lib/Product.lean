import Mathlib.Data.List.Nodup
import Mathlib.Data.List.Forall2

/-!
# Products of lists

`product` lists the tuples with one element of each list, the last list running fastest.
-/

namespace Product

variable {α β ι : Type}

/-- The tuples with one element of each list. -/
def product : List (List α) → List (List α)
  | [] => [[]]
  | xs :: rest => xs.flatMap fun x => (product rest).map (x :: ·)

lemma mem_product {xss : List (List α)} {tuple : List α} :
    tuple ∈ product xss ↔ List.Forall₂ (· ∈ ·) tuple xss := by
  induction xss generalizing tuple with
  | nil => rw [product, List.mem_singleton, List.forall₂_nil_right_iff]
  | cons xs rest ih =>
    rw [product, List.mem_flatMap, List.forall₂_cons_right_iff]
    constructor
    · rintro ⟨x, hx, htuple⟩
      obtain ⟨tail, htail, rfl⟩ := List.mem_map.1 htuple
      exact ⟨x, tail, hx, ih.1 htail, rfl⟩
    · rintro ⟨x, tail, hx, htail, rfl⟩
      exact ⟨x, hx, List.mem_map_of_mem (ih.2 htail)⟩

/-- Lists without repeats have a product without repeats. -/
lemma nodup_product {xss : List (List α)} (h : ∀ xs ∈ xss, xs.Nodup) : (product xss).Nodup := by
  induction xss with
  | nil => exact List.nodup_singleton _
  | cons xs rest ih =>
    obtain ⟨hxs, hrest⟩ := List.forall_mem_cons.1 h
    rw [product, List.nodup_flatMap]
    refine ⟨fun x _ => (ih hrest).map (List.cons_injective (a := x)), ?_⟩
    refine hxs.imp fun {x y} hne => ?_
    refine List.disjoint_left.2 ?_
    rintro tuple hx hy
    obtain ⟨_, _, rfl⟩ := List.mem_map.1 hx
    obtain ⟨_, _, heq⟩ := List.mem_map.1 hy
    exact hne (List.cons.inj heq).1.symm

/-- Mapping each position of the tuples maps the lists. -/
lemma product_map (g : ι → α → β) (f : ι → List α) (is : List ι) :
    (product (is.map f)).map (List.zipWith g is) = product (is.map fun i => (f i).map (g i)) := by
  induction is with
  | nil => rfl
  | cons i is ih =>
    rw [List.map_cons, List.map_cons, product, product, List.map_flatMap, List.flatMap_map, ← ih]
    refine List.flatMap_congr fun x _ => ?_
    rw [List.map_map, List.map_map]
    rfl

end Product
