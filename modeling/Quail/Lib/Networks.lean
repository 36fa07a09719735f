import Mathlib.Data.Sym.Sym2
import Mathlib.Data.List.Perm.Subperm
import Mathlib.Logic.Relation

/-!
# Networks of binary constraints

Variables with candidate values, and constraints between two of them. Over a tree of constraints it is
enough that every candidate has a partner along every edge: then each candidate is in an assignment that
meets them all. The tree is given by how it was grown, one variable at a time, from any of its variables.
-/

namespace Networks

variable {α ρ : Type}

/-- Variables reached one by one, each after the first along an edge from one reached before. -/
inductive Grown (adj : α → α → Prop) : List α → List (α × α) → Prop
  | root (a) : Grown adj [a] []
  | grow {vs es p v} : Grown adj vs es → p ∈ vs → v ∉ vs → adj p v → Grown adj (v :: vs) ((p, v) :: es)

variable {adj : α → α → Prop} {vs : List α} {es : List (α × α)}

namespace Grown

/-- Several new variables may be reached from one variable. -/
lemma many (h : Grown adj vs es) {p : α} (hp : p ∈ vs) {found : List α} (hnodup : found.Nodup)
    (hnew : ∀ v ∈ found, v ∉ vs) (hadj : ∀ v ∈ found, adj p v) : ∃ es', Grown adj (found.reverse ++ vs) es' := by
  induction found generalizing vs es with
  | nil => exact ⟨es, h⟩
  | cons v found ih =>
    obtain ⟨hv, hnodup⟩ := List.nodup_cons.1 hnodup
    obtain ⟨hadjv, hadj⟩ := List.forall_mem_cons.1 hadj
    obtain ⟨hnewv, hnew⟩ := List.forall_mem_cons.1 hnew
    have hone := h.grow hp hnewv hadjv
    have hrest : ∀ w ∈ found, w ∉ v :: vs := by
      intro w hw hmem
      rcases List.mem_cons.1 hmem with rfl | hmem
      · exact hv hw
      · exact hnew w hw hmem
    obtain ⟨es', h'⟩ := ih hone (List.mem_cons_of_mem v hp) hnodup hrest hadj
    refine ⟨es', ?_⟩
    rwa [List.reverse_cons, List.append_assoc]

lemma nodup (h : Grown adj vs es) : vs.Nodup := by
  induction h with
  | root a => exact List.nodup_singleton a
  | grow _ _ hv _ ih => exact List.nodup_cons.2 ⟨hv, ih⟩

lemma length (h : Grown adj vs es) : es.length + 1 = vs.length := by
  induction h with
  | root a => rfl
  | grow _ _ _ _ ih => rw [List.length_cons, List.length_cons, ih]

lemma edge (h : Grown adj vs es) : ∀ e ∈ es, adj e.1 e.2 ∧ e.1 ∈ vs ∧ e.2 ∈ vs := by
  induction h with
  | root a => exact fun _ he => absurd he List.not_mem_nil
  | grow _ hp _ hadj ih =>
    refine List.forall_mem_cons.2 ⟨⟨hadj, List.mem_cons_of_mem _ hp, List.mem_cons_self⟩, fun e he => ?_⟩
    obtain ⟨hadj, hfrom, hto⟩ := ih e he
    exact ⟨hadj, List.mem_cons_of_mem _ hfrom, List.mem_cons_of_mem _ hto⟩

/-- No edge was used twice, in either direction. -/
lemma nodup_edges (h : Grown adj vs es) : (es.map fun e => s(e.1, e.2)).Nodup := by
  induction h with
  | root a => exact List.nodup_nil
  | @grow vs es p v h hp hv hadj ih =>
    rw [List.map_cons, List.nodup_cons]
    refine ⟨fun hmem => hv ?_, ih⟩
    obtain ⟨e, he, heq⟩ := List.mem_map.1 hmem
    obtain ⟨-, hfrom, hto⟩ := h.edge e he
    rcases Sym2.eq_iff.1 heq with ⟨-, rfl⟩ | ⟨rfl, -⟩
    · exact hto
    · exact hfrom

/-- As many edges as a tree of these variables has are the edges it was grown along. -/
lemma covers (h : Grown adj vs es) {edges : List (Sym2 α)} (hsub : ∀ e ∈ es, s(e.1, e.2) ∈ edges)
    (hle : edges.length + 1 ≤ vs.length) : ∀ edge ∈ edges, ∃ e ∈ es, s(e.1, e.2) = edge := by
  have hsubperm : List.Subperm (es.map fun e => s(e.1, e.2)) edges :=
    List.subperm_of_subset h.nodup_edges (List.forall_mem_map.2 hsub)
  have hlength := h.length
  have hperm := hsubperm.perm_of_length_le (by rw [List.length_map]; omega)
  intro edge hedge
  exact List.mem_map.1 (hperm.mem_iff.2 hedge)

/-- Variables reached from one another are joined by edges. -/
lemma joined (hsymm : ∀ a b, adj a b → adj b a) (h : Grown adj vs es) {a b : α} (ha : a ∈ vs) (hb : b ∈ vs) :
    Relation.ReflTransGen adj a b := by
  induction h generalizing a b with
  | root r =>
    obtain rfl := List.mem_singleton.1 ha
    obtain rfl := List.mem_singleton.1 hb
    exact .refl
  | @grow vs es p v h hp hv hadj ih =>
    rcases List.mem_cons.1 ha with rfl | ha' <;> rcases List.mem_cons.1 hb with rfl | hb'
    · exact .refl
    · exact .head (hsymm _ _ hadj) (ih hp hb')
    · exact (ih ha' hp).tail hadj
    · exact ih ha' hb'

/-- Over a tree, candidates with a partner along every edge each take part in an assignment. -/
theorem exists_assignment (h : Grown adj vs es) {candidates : α → Set ρ} {ok : α → α → ρ → ρ → Prop}
    (hforward : ∀ e ∈ es, ∀ x ∈ candidates e.1, ∃ y ∈ candidates e.2, ok e.1 e.2 x y)
    (hback : ∀ e ∈ es, ∀ y ∈ candidates e.2, ∃ x ∈ candidates e.1, ok e.1 e.2 x y)
    {a : α} (ha : a ∈ vs) {x : ρ} (hx : x ∈ candidates a) :
    ∃ f : α → ρ, f a = x ∧ (∀ v ∈ vs, f v ∈ candidates v) ∧ ∀ e ∈ es, ok e.1 e.2 (f e.1) (f e.2) := by
  classical
  induction h generalizing a x with
  | root r =>
    obtain rfl := List.mem_singleton.1 ha
    refine ⟨fun _ => x, rfl, fun v hv => ?_, fun _ he => absurd he List.not_mem_nil⟩
    obtain rfl := List.mem_singleton.1 hv
    exact hx
  | @grow vs es p v h hp hv hadj ih =>
    obtain ⟨hforwardv, hforwards⟩ := List.forall_mem_cons.1 hforward
    obtain ⟨hbackv, hbacks⟩ := List.forall_mem_cons.1 hback
    -- an assignment of the variables reached before, extended along the new edge
    have hextend : ∀ (f : α → ρ) (y : ρ), y ∈ candidates v → ok p v (f p) y → (∀ w ∈ vs, f w ∈ candidates w) →
        (∀ e ∈ es, ok e.1 e.2 (f e.1) (f e.2)) → (∀ w ∈ v :: vs, Function.update f v y w ∈ candidates w) ∧
        ∀ e ∈ (p, v) :: es, ok e.1 e.2 (Function.update f v y e.1) (Function.update f v y e.2) := by
      intro f y hy hok hvalues hedges
      have hold : ∀ w ∈ vs, Function.update f v y w = f w := fun w hw =>
        Function.update_of_ne (ne_of_mem_of_not_mem hw hv) _ _
      refine ⟨List.forall_mem_cons.2 ⟨?_, fun w hw => ?_⟩, List.forall_mem_cons.2 ⟨?_, fun e he => ?_⟩⟩
      · rwa [Function.update_self]
      · rw [hold w hw]
        exact hvalues w hw
      · rwa [Function.update_self, hold p hp]
      · obtain ⟨-, hfrom, hto⟩ := h.edge e he
        rw [hold _ hfrom, hold _ hto]
        exact hedges e he
    rcases List.mem_cons.1 ha with rfl | ha'
    · obtain ⟨y, hy, hok⟩ := hbackv x hx
      obtain ⟨f, rfl, hvalues, hedges⟩ := ih hforwards hbacks hp hy
      exact ⟨Function.update f a x, Function.update_self .., hextend f x hx hok hvalues hedges⟩
    · obtain ⟨f, rfl, hvalues, hedges⟩ := ih hforwards hbacks ha' hx
      obtain ⟨y, hy, hok⟩ := hforwardv (f p) (hvalues p hp)
      have hne : a ≠ v := ne_of_mem_of_not_mem ha' hv
      exact ⟨Function.update f v y, Function.update_of_ne hne _ _, hextend f y hy hok hvalues hedges⟩

end Grown

end Networks
