import Mathlib.Data.List.Basic
import Mathlib.Data.List.Nodup
import Mathlib.Data.List.Perm.Basic
import Mathlib.Tactic.Common

/-!
# Orders after the inputs

Two ways to list things after what they read: depth first, each thing after its inputs, with or without a
test for cycles; and in rounds, each of the things whose inputs are all done.
-/

namespace Topological

variable {α : Type} [DecidableEq α] {inputs : α → List α}

/-- Each thing is listed after its inputs. -/
def Ordered (inputs : α → List α) (l : List α) : Prop :=
  ∀ before x after, l = before ++ x :: after → ∀ y ∈ inputs x, y ∈ before

omit [DecidableEq α] in
lemma Ordered.nil : Ordered inputs [] := by
  intro before x after h
  simp at h

omit [DecidableEq α] in
/-- What holds of each thing and those before it, in a list with one more thing. -/
lemma forall_split_concat {P : List α → α → Prop} {l : List α} {x : α} :
    (∀ before y after, l ++ [x] = before ++ y :: after → P before y) ↔
      (∀ before y after, l = before ++ y :: after → P before y) ∧ P l x := by
  constructor
  · refine fun h => ⟨fun before y after heq => h before y (after ++ [x]) ?_, h l x [] rfl⟩
    rw [heq, List.append_assoc, List.cons_append]
  · rintro ⟨hl, hx⟩ before y after heq
    obtain ⟨after', rfl, hafter⟩ | ⟨before', rfl, hbefore⟩ := List.append_eq_append_iff.1 heq
    · cases after' with
      | nil =>
        obtain ⟨rfl, -⟩ : x = y ∧ after = [] := by simpa using hafter
        rwa [List.append_nil]
      | cons w after' => simp at hafter
    · cases before' with
      | nil =>
        obtain ⟨rfl, -⟩ : y = x ∧ after = [] := by simpa [eq_comm] using hbefore
        rwa [List.append_nil] at hx
      | cons w before' =>
        obtain ⟨rfl, -⟩ : y = w ∧ after = before' ++ [x] := by simpa using hbefore
        exact hl before y before' rfl

omit [DecidableEq α] in
/-- One more thing, after its inputs. -/
lemma Ordered.concat {l : List α} {x : α} (h : Ordered inputs l) (hx : ∀ y ∈ inputs x, y ∈ l) :
    Ordered inputs (l ++ [x]) := forall_split_concat.2 ⟨h, hx⟩

/-- What comes before a thing in a list without repetitions. -/
lemma idxOf_lt_idxOf {before after : List α} {x y : α} (h : (before ++ x :: after).Nodup) :
    (before ++ x :: after).idxOf y < (before ++ x :: after).idxOf x ↔ y ∈ before := by
  have hx : x ∉ before := fun hmem => (List.nodup_append.1 h).2.2 x hmem x List.mem_cons_self rfl
  rw [List.idxOf_append_of_notMem hx, List.idxOf_cons_self, Nat.add_zero]
  constructor
  · intro hlt
    by_contra hy
    rw [List.idxOf_append_of_notMem hy] at hlt
    omega
  · intro hy
    rw [List.idxOf_append_of_mem hy]
    exact List.idxOf_lt_length_of_mem hy

/-! ## Depth first -/

/-- List a thing after its inputs, unless it is listed. -/
def visit (inputs : α → List α) : ℕ → List α → α → List α
  | 0, visited, _ => visited
  | fuel + 1, visited, x =>
    if x ∈ visited then visited else (inputs x).foldl (visit inputs fuel) visited ++ [x]

/-- List a thing after its inputs, unless it is listed; fail if it is being visited. -/
def check (inputs : α → List α) : ℕ → List α → List α → α → Option (List α)
  | 0, _, _, _ => none
  | fuel + 1, visiting, visited, x =>
    if x ∈ visiting then none
    else if x ∈ visited then some visited
    else ((inputs x).foldlM (check inputs fuel (x :: visiting)) visited).map (· ++ [x])

/-- What a visit that finds no cycle does. -/
structure Visited (inputs : α → List α) (visiting visited visited' : List α) : Prop where
  extends_ : visited <+: visited'
  ordered : Ordered inputs visited → Ordered inputs visited'
  nodup : visited.Nodup → visited'.Nodup
  fresh : ∀ y ∈ visited', y ∈ visited ∨ y ∉ visiting

omit [DecidableEq α] in
lemma Visited.refl (visiting visited : List α) : Visited inputs visiting visited visited :=
  ⟨List.prefix_rfl, id, id, fun _ h => .inl h⟩

omit [DecidableEq α] in
lemma Visited.trans {visiting v v' v'' : List α} (h : Visited inputs visiting v v')
    (h' : Visited inputs visiting v' v'') : Visited inputs visiting v v'' where
  extends_ := h.extends_.trans h'.extends_
  ordered ho := h'.ordered (h.ordered ho)
  nodup hn := h'.nodup (h.nodup hn)
  fresh y hy := (h'.fresh y hy).elim (h.fresh y) .inr

/-- A visit that finds no cycle lists the thing after its inputs, as one without the test does. -/
lemma check_spec {fuel : ℕ} {visiting visited visited' : List α} {x : α}
    (h : check inputs fuel visiting visited x = some visited') :
    Visited inputs visiting visited visited' ∧ x ∈ visited' ∧
      visit inputs fuel visited x = visited' := by
  induction fuel generalizing visiting visited visited' x with
  | zero => cases h
  | succ fuel ih =>
    rw [check] at h
    split_ifs at h with hvisiting hvisited
    · cases h
      exact ⟨.refl _ _, hvisited, by rw [visit, if_pos hvisited]⟩
    · obtain ⟨middle, hmiddle, rfl⟩ := Option.map_eq_some_iff.1 h
      -- the inputs are visited in turn, with `x` being visited
      have hfold : ∀ ys : List α, ∀ v v' : List α,
          ys.foldlM (check inputs fuel (x :: visiting)) v = some v' →
          Visited inputs (x :: visiting) v v' ∧ (∀ y ∈ ys, y ∈ v') ∧
            ys.foldl (visit inputs fuel) v = v' := by
        intro ys
        induction ys with
        | nil =>
          intro v v' hv
          cases hv
          exact ⟨.refl _ _, fun _ hy => absurd hy List.not_mem_nil, rfl⟩
        | cons y ys ihy =>
          intro v v' hv
          rw [List.foldlM_cons] at hv
          obtain ⟨w, hw, hv⟩ := Option.bind_eq_some_iff.1 hv
          obtain ⟨hfirst, hmem, hvisit⟩ := ih hw
          obtain ⟨hrest, hall, hfold⟩ := ihy w v' hv
          refine ⟨hfirst.trans hrest, List.forall_mem_cons.2 ⟨hrest.extends_.subset hmem, hall⟩, ?_⟩
          rw [List.foldl_cons, hvisit, hfold]
      obtain ⟨hinputs, hall, hvisit⟩ := hfold (inputs x) visited middle hmiddle
      have hnew : x ∉ middle := fun hmem =>
        (hinputs.fresh x hmem).elim hvisited fun hno => hno List.mem_cons_self
      refine ⟨⟨hinputs.extends_.trans (List.prefix_append _ _), fun ho => ?_, fun hn => ?_,
        fun y hy => ?_⟩, List.mem_append_right _ List.mem_cons_self, ?_⟩
      · exact (hinputs.ordered ho).concat hall
      · exact List.nodup_append.2 ⟨hinputs.nodup hn, List.nodup_singleton x, fun a ha b hb heq =>
          hnew (List.mem_singleton.1 hb ▸ heq ▸ ha)⟩
      · obtain hy | hy := List.mem_append.1 hy
        · exact (hinputs.fresh y hy).imp_right fun hno hmem => hno (List.mem_cons_of_mem _ hmem)
        · exact .inr (List.mem_singleton.1 hy ▸ hvisiting)
      · rw [visit, if_neg hvisited, hvisit]

/-- List each of some things after its inputs. -/
def visitAll (inputs : α → List α) (fuel : ℕ) (xs : List α) : List α :=
  xs.foldl (visit inputs fuel) []

/-- List each of some things after its inputs; fail at a cycle. -/
def checkAll (inputs : α → List α) (fuel : ℕ) (xs : List α) : Option (List α) :=
  xs.foldlM (check inputs fuel []) []

/-- Where no cycle is found, the things and their inputs are listed once each, in order. -/
lemma checkAll_spec {fuel : ℕ} {xs l : List α} (h : checkAll inputs fuel xs = some l) :
    Ordered inputs l ∧ l.Nodup ∧ (∀ x ∈ xs, x ∈ l) ∧ visitAll inputs fuel xs = l := by
  have hfold : ∀ v v' : List α, xs.foldlM (check inputs fuel []) v = some v' →
      Visited inputs [] v v' ∧ (∀ x ∈ xs, x ∈ v') ∧ xs.foldl (visit inputs fuel) v = v' := by
    clear h
    induction xs with
    | nil =>
      intro v v' hv
      cases hv
      exact ⟨.refl _ _, fun _ hy => absurd hy List.not_mem_nil, rfl⟩
    | cons x xs ih =>
      intro v v' hv
      rw [List.foldlM_cons] at hv
      obtain ⟨w, hw, hv⟩ := Option.bind_eq_some_iff.1 hv
      obtain ⟨hfirst, hmem, hvisit⟩ := check_spec hw
      obtain ⟨hrest, hall, hfold⟩ := ih w v' hv
      refine ⟨hfirst.trans hrest, List.forall_mem_cons.2 ⟨hrest.extends_.subset hmem, hall⟩, ?_⟩
      rw [List.foldl_cons, hvisit, hfold]
  obtain ⟨hvisited, hall, hvisit⟩ := hfold [] l h
  exact ⟨hvisited.ordered .nil, hvisited.nodup List.nodup_nil, hall, hvisit⟩

/-- What is listed has any property that inputs inherit. -/
lemma visit_within {P : α → Prop} (hP : ∀ x, P x → ∀ y ∈ inputs x, P y) {fuel : ℕ} {visited : List α}
    {x : α} (hvisited : ∀ y ∈ visited, P y) (hx : P x) : ∀ y ∈ visit inputs fuel visited x, P y := by
  induction fuel generalizing visited x with
  | zero => exact hvisited
  | succ fuel ih =>
    rw [visit]
    split_ifs
    · exact hvisited
    · intro y hy
      obtain hy | hy := List.mem_append.1 hy
      · refine List.foldlRecOn (inputs x) (visit inputs fuel)
          (motive := fun v => ∀ y ∈ v, P y) hvisited ?_ y hy
        exact fun v hv z hz => ih hv (hP x hx z hz)
      · exact List.mem_singleton.1 hy ▸ hx

lemma visitAll_within {P : α → Prop} (hP : ∀ x, P x → ∀ y ∈ inputs x, P y) {fuel : ℕ} {xs : List α}
    (hxs : ∀ x ∈ xs, P x) : ∀ y ∈ visitAll inputs fuel xs, P y := by
  refine List.foldlRecOn xs (visit inputs fuel) (motive := fun v => ∀ y ∈ v, P y)
    (fun _ hy => absurd hy List.not_mem_nil) ?_
  exact fun v hv x hx => visit_within hP hv (hxs x hx)

/-! ## In rounds -/

/-- List, round after round, the things whose inputs are all listed; fail when none is. -/
def rounds (inputs : α → List α) : ℕ → List α → List α → Option (List α)
  | 0, done, rest => if rest.isEmpty then some done else none
  | fuel + 1, done, rest =>
    if rest.isEmpty then some done
    else
      let ready := rest.filter fun x => decide (∀ y ∈ inputs x, y ∈ done)
      if ready.isEmpty then none
      else rounds inputs fuel (done ++ ready)
        (rest.filter fun x => !decide (∀ y ∈ inputs x, y ∈ done))

/-- List the things in rounds. -/
def staticOrder (inputs : α → List α) (xs : List α) : Option (List α) :=
  rounds inputs xs.length [] xs

omit [DecidableEq α] in
lemma Ordered.append {l ready : List α} (h : Ordered inputs l)
    (hready : ∀ x ∈ ready, ∀ y ∈ inputs x, y ∈ l) : Ordered inputs (l ++ ready) := by
  induction ready generalizing l with
  | nil => rwa [List.append_nil]
  | cons x ready ih =>
    obtain ⟨hx, hready⟩ := List.forall_mem_cons.1 hready
    rw [List.append_cons]
    exact ih (h.concat hx) fun z hz y hy => List.mem_append_left _ (hready z hz y hy)

/-- What the rounds list: everything, in order. -/
lemma rounds_spec {fuel : ℕ} {done rest l : List α} (h : rounds inputs fuel done rest = some l)
    (hdone : Ordered inputs done) : Ordered inputs l ∧ l.Perm (done ++ rest) := by
  have hnone {done rest : List α} (hrest : rest.isEmpty) (hdone : Ordered inputs done) :
      Ordered inputs done ∧ done.Perm (done ++ rest) := by
    rw [List.isEmpty_iff.1 hrest, List.append_nil]
    exact ⟨hdone, .refl _⟩
  induction fuel generalizing done rest with
  | zero =>
    rw [rounds] at h
    split_ifs at h with hrest
    cases h
    exact hnone hrest hdone
  | succ fuel ih =>
    rw [rounds] at h
    split_ifs at h with hrest
    · cases h
      exact hnone hrest hdone
    · dsimp only at h
      split_ifs at h
      have hready : ∀ z ∈ rest.filter (fun x => decide (∀ y ∈ inputs x, y ∈ done)),
          ∀ y ∈ inputs z, y ∈ done := fun z hz => of_decide_eq_true (List.mem_filter.1 hz).2
      obtain ⟨hordered, hperm⟩ := ih h (hdone.append hready)
      refine ⟨hordered, hperm.trans ?_⟩
      rw [List.append_assoc]
      exact List.Perm.append_left _ (List.filter_append_perm _ _)

/-- Things that can be listed after their inputs are. -/
lemma rounds_isSome {order : List α} (hordered : Ordered inputs order) {fuel : ℕ} {done rest : List α}
    (hall : ∀ x, x ∈ order ↔ x ∈ done ∨ x ∈ rest) (hfuel : rest.length ≤ fuel) :
    (rounds inputs fuel done rest).isSome := by
  induction fuel generalizing done rest with
  | zero =>
    obtain rfl := List.eq_nil_of_length_eq_zero (Nat.le_zero.1 hfuel)
    rfl
  | succ fuel ih =>
    rw [rounds]
    split_ifs with hrest
    · rfl
    · -- the first thing of the order that is left has its inputs done
      obtain ⟨x, hx⟩ := List.exists_mem_of_ne_nil rest fun heq => hrest (List.isEmpty_iff.2 heq)
      obtain ⟨first, hfirst⟩ : ∃ first, order.find? (fun y => decide (y ∈ rest)) = some first :=
        Option.isSome_iff_exists.1 (List.find?_isSome.2 ⟨x, (hall x).2 (.inr hx), decide_eq_true hx⟩)
      obtain ⟨hmem, before, after, horder, hbefore⟩ := List.find?_eq_some_iff_append.1 hfirst
      have hready : ∀ y ∈ inputs first, y ∈ done := by
        intro y hy
        have hb := hordered before first after horder y hy
        refine ((hall y).1 (horder ▸ List.mem_append_left _ hb)).resolve_right fun hr => ?_
        simpa [hr] using hbefore y hb
      have hin : first ∈ rest.filter (fun x => decide (∀ y ∈ inputs x, y ∈ done)) :=
        List.mem_filter.2 ⟨of_decide_eq_true hmem, decide_eq_true hready⟩
      dsimp only
      rw [List.isEmpty_eq_false_iff.2 (List.ne_nil_of_mem hin), if_neg Bool.false_ne_true]
      refine ih (fun y => ?_) ?_
      · rw [hall, List.mem_append, List.mem_filter, List.mem_filter, Bool.not_eq_true',
          decide_eq_false_iff_not, decide_eq_true_iff]
        tauto
      · have hlt : (rest.filter (fun x => !decide (∀ y ∈ inputs x, y ∈ done))).length < rest.length := by
          refine List.length_filter_lt_length_iff_exists.2 ⟨first, of_decide_eq_true hmem, ?_⟩
          simpa using hready
        omega

/-- A static order lists the things once each, after their inputs. -/
lemma staticOrder_spec {xs l : List α} (h : staticOrder inputs xs = some l) :
    Ordered inputs l ∧ l.Perm xs := rounds_spec h .nil

/-- There is a static order where some list of the things is one. -/
lemma staticOrder_isSome {order xs : List α} (hordered : Ordered inputs order)
    (hall : ∀ x, x ∈ order ↔ x ∈ xs) : (staticOrder inputs xs).isSome :=
  rounds_isSome hordered (fun x => by simpa using hall x) (Nat.le_refl _)

end Topological
