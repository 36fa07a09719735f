import Quail.Logical.Condition

/-!
# Normalized conditions

`normalize` is total, and what it returns is flat, negates nothing but tests, keeps the condition's
value on every row, and is normalized to itself. A condition is `Normal` when it is of that form, and
`negate` keeps the form: that is why the second call `normalize` makes for a `Not` changes nothing.
-/

namespace Quail.Logical

open Kleene

variable {E V : Type}

namespace Connective

@[simp] lemma dual_dual {k : Connective} : k.dual.dual = k := by cases k <;> rfl

lemma dual_injective {k k' : Connective} (h : k.dual = k'.dual) : k = k' := by
  cases k <;> cases k' <;> first | rfl | cases h

instance {k : Connective} : Std.Associative k.kernel := by
  cases k
  · exact inferInstanceAs (Std.Associative andKleene)
  · exact inferInstanceAs (Std.Associative orKleene)

/-- De Morgan's laws. -/
lemma invert_kernel {k : Connective} (a b : Kleene) :
    invert (k.kernel a b) = k.dual.kernel (invert a) (invert b) := by
  cases k with
  | and => exact invert_andKleene a b
  | or => exact invert_orKleene a b

end Connective

namespace Condition

/-! ## Operands as lists -/

/-- A partial function over a list succeeds when it does on every element. -/
lemma mapM_eq_some {α β : Type} {f : α → Option β} {xs : List α} {ys : List β} :
    xs.mapM f = some ys ↔ List.Forall₂ (fun x y => f x = some y) xs ys := by
  induction xs generalizing ys with
  | nil =>
    constructor
    · intro h
      cases h
      exact .nil
    · intro h
      cases h
      rfl
  | cons x xs ih =>
    rw [List.mapM_cons]
    constructor
    · intro h
      obtain ⟨y, hy, h⟩ := Option.bind_eq_some_iff.1 h
      obtain ⟨rest, hrest, h⟩ := Option.bind_eq_some_iff.1 h
      cases h
      exact .cons hy (ih.1 hrest)
    · intro h
      cases h with
      | cons hy hrest => rw [hy, ih.2 hrest]; rfl

/-- A choice for every element of a list. -/
lemma exists_forall₂ {α β : Type} {R : α → β → Prop} {xs : List α} (h : ∀ x ∈ xs, ∃ y, R x y) :
    ∃ ys, List.Forall₂ R xs ys := by
  induction xs with
  | nil => exact ⟨[], .nil⟩
  | cons x xs ih =>
    obtain ⟨y, hy⟩ := h x (List.mem_cons_self ..)
    obtain ⟨ys, hys⟩ := ih fun x hx => h x (List.mem_cons_of_mem _ hx)
    exact ⟨y :: ys, .cons hy hys⟩

lemma negateAll_eq {cs : List (Condition E V)} : negateAll cs = cs.map negate := by
  induction cs with
  | nil => rfl
  | cons c cs ih => rw [negateAll, ih, List.map_cons]

lemma evaluateAll_eq {a : Assignment E V} {cs : List (Condition E V)} :
    evaluateAll a cs = cs.mapM (evaluate a) := by
  induction cs with
  | nil => rfl
  | cons c cs ih =>
    rw [evaluateAll, ih, List.mapM_cons]
    cases evaluate a c with
    | none => rfl
    | some mask => cases cs.mapM (evaluate a) <;> rfl

/-- The value of a connective, spelled out. -/
lemma evaluate_connect {a : Assignment E V} {k : Connective} {cs : List (Condition E V)} {v : Kleene} :
    evaluate a (.connect k cs) = some v ↔
      ∃ masks, List.Forall₂ (fun c mask => evaluate a c = some mask) cs masks ∧
        reduce k.kernel masks = some v := by
  rw [evaluate, Option.bind_eq_some_iff]
  simp only [evaluateAll_eq, mapM_eq_some]

/-- What `validate` asks of the tree: every connective has its `minimum_operands`. -/
inductive Valid : Condition E V → Prop
  | test p : Valid (.test p)
  | not c (h : Valid c) : Valid (.not c)
  | connect k cs (hn : 2 ≤ cs.length) (h : ∀ c ∈ cs, Valid c) : Valid (.connect k cs)

/-- A valid condition has a value on every row. -/
theorem Valid.evaluate_isSome {a : Assignment E V} {c : Condition E V} (h : Valid c) :
    ∃ v, evaluate a c = some v := by
  induction h with
  | test p => exact ⟨_, rfl⟩
  | not c _ ih =>
    obtain ⟨v, hv⟩ := ih
    exact ⟨invert v, by rw [evaluate, hv]; rfl⟩
  | connect k cs hn _ ih =>
    obtain ⟨masks, hmasks⟩ := exists_forall₂ ih
    cases hmasks with
    | nil => cases hn
    | cons hc hcs => exact ⟨_, evaluate_connect.2 ⟨_, .cons hc hcs, rfl⟩⟩

/-! ## Negation -/

/-- `negate` inverts the value. -/
theorem evaluate_negate {a : Assignment E V} {c : Condition E V} :
    evaluate a (negate c) = (evaluate a c).map invert := by
  induction c with
  | test p =>
    obtain ⟨expression, comparison, value⟩ := p
    cases comparison
    case isNull => exact congrArg some (a.opposite expression none value)
    case isNotNull =>
      have h : a.value ⟨expression, .isNotNull, value⟩ = invert (a.value ⟨expression, .isNull, none⟩) :=
        a.opposite expression value none
      show some (a.value ⟨expression, .isNull, none⟩) = some (invert _)
      rw [h, invert_invert]
    all_goals rfl
  | not operand =>
    rw [negate, evaluate]
    cases evaluate a operand with
    | none => rfl
    | some v => exact congrArg some (invert_invert v).symm
  | connect k cs ih =>
    have hmasks : (cs.map negate).mapM (evaluate a) = (cs.mapM (evaluate a)).map (List.map invert) := by
      clear k
      induction cs with
      | nil => rfl
      | cons c cs hcs =>
        have hc := ih c (List.mem_cons_self ..)
        have hcs := hcs fun c h => ih c (List.mem_cons_of_mem _ h)
        rw [List.map_cons, List.mapM_cons, List.mapM_cons, hc, hcs]
        cases evaluate a c with
        | none => rfl
        | some mask => cases cs.mapM (evaluate a) <;> rfl
    rw [negate, evaluate, evaluate, evaluateAll_eq, evaluateAll_eq, negateAll_eq, hmasks]
    cases cs.mapM (evaluate a) with
    | none => rfl
    | some masks => exact reduce_map Connective.invert_kernel

/-! ## Normal forms -/

/-- What `normalize` returns: `NOT` over tests that have no negated comparison, and no connective
directly under its like. -/
inductive Normal : Condition E V → Prop
  | test p : Normal (.test p)
  | not p (h : p.comparison.negated = none) : Normal (.not (.test p))
  | connect k cs (h : ∀ c ∈ cs, Normal c) (hk : ∀ c ∈ cs, c.kind ≠ some k) : Normal (.connect k cs)

/-- `NOT` stands directly over tests only. -/
inductive NegatesTests : Condition E V → Prop
  | test p : NegatesTests (.test p)
  | not p : NegatesTests (.not (.test p))
  | connect k cs (h : ∀ c ∈ cs, NegatesTests c) : NegatesTests (.connect k cs)

/-- No connective is directly under the same connective. -/
inductive Flat : Condition E V → Prop
  | test p : Flat (.test p)
  | not c (h : Flat c) : Flat (.not c)
  | connect k cs (h : ∀ c ∈ cs, Flat c) (hk : ∀ c ∈ cs, c.kind ≠ some k) : Flat (.connect k cs)

lemma Normal.negatesTests {c : Condition E V} (h : Normal c) : NegatesTests c := by
  induction h with
  | test p => exact .test p
  | not p => exact .not p
  | connect k cs _ _ ih => exact .connect k cs ih

lemma Normal.flat {c : Condition E V} (h : Normal c) : Flat c := by
  induction h with
  | test p => exact .test p
  | not p => exact .not _ (.test p)
  | connect k cs _ hk ih => exact .connect k cs ih hk

lemma Normal.kind_negate {c : Condition E V} (h : Normal c) : c.negate.kind = c.kind.map .dual := by
  cases h with
  | test p =>
    rw [negate]
    cases p.comparison.negated <;> rfl
  | not p => rfl
  | connect k cs => rfl

/-- A negated comparison is negated back. -/
lemma Normal.negate_test (p : RegularPredicate E V) : Normal (negate (.test p)) := by
  rw [negate]
  cases h : p.comparison.negated with
  | none => exact .not p h
  | some comparison => exact .test _

/-- `negate` keeps normal forms normal. -/
lemma Normal.negate {c : Condition E V} (h : Normal c) : Normal c.negate := by
  induction h with
  | test p => exact Normal.negate_test p
  | not p => exact .test p
  | connect k cs h hk ih =>
    rw [Condition.negate, negateAll_eq]
    apply Normal.connect
    · intro d hd
      obtain ⟨c, hc, rfl⟩ := List.mem_map.1 hd
      exact ih c hc
    · intro d hd hkind
      obtain ⟨c, hc, rfl⟩ := List.mem_map.1 hd
      rw [(h c hc).kind_negate] at hkind
      obtain ⟨k', hk', heq⟩ := Option.map_eq_some_iff.1 hkind
      exact hk c hc (hk'.trans (congrArg some (Connective.dual_injective heq)))

/-! ## Flattening -/

/-- The operands an operand contributes are normal and of another kind. -/
lemma Normal.spread {c d : Condition E V} {k : Connective} (h : Normal c) (hd : d ∈ c.spread k) :
    Normal d ∧ d.kind ≠ some k := by
  cases h with
  | test p =>
    obtain rfl := List.mem_singleton.1 hd
    exact ⟨.test p, nofun⟩
  | not p hp =>
    obtain rfl := List.mem_singleton.1 hd
    exact ⟨.not p hp, nofun⟩
  | connect k' cs h hk =>
    rw [Condition.spread] at hd
    split at hd
    case isTrue heq =>
      subst heq
      exact ⟨h d hd, hk d hd⟩
    case isFalse hne =>
      obtain rfl := List.mem_singleton.1 hd
      refine ⟨.connect k' cs h hk, ?_⟩
      intro heq
      exact hne (Option.some.inj heq)

/-- An operand of another kind stays as it is. -/
lemma spread_of_kind_ne {c : Condition E V} {k : Connective} (h : c.kind ≠ some k) :
    c.spread k = [c] := by
  cases c with
  | test p => rfl
  | not c => rfl
  | connect k' cs =>
    rw [spread, if_neg]
    intro heq
    exact h (congrArg some heq)

lemma flatMap_spread_of_kind_ne {cs : List (Condition E V)} {k : Connective}
    (h : ∀ c ∈ cs, c.kind ≠ some k) : cs.flatMap (spread k) = cs := by
  induction cs with
  | nil => rfl
  | cons c cs ih =>
    have hcs := ih fun c hc => h c (List.mem_cons_of_mem _ hc)
    rw [List.flatMap_cons, spread_of_kind_ne (h c (List.mem_cons_self ..)), hcs]
    rfl

/-- What an operand contributes has the operand's value. -/
lemma evaluate_spread {a : Assignment E V} {c : Condition E V} {k : Connective} {v : Kleene}
    (h : evaluate a c = some v) :
    ∃ masks, List.Forall₂ (fun c mask => evaluate a c = some mask) (c.spread k) masks ∧
      reduce k.kernel masks = some v := by
  by_cases hk : c.kind = some k
  · cases c with
    | test p => cases hk
    | not c => cases hk
    | connect k' cs =>
      obtain rfl := Option.some.inj hk
      rw [spread, if_pos rfl]
      exact evaluate_connect.1 h
  · rw [spread_of_kind_ne hk]
    exact ⟨[v], .cons h .nil, rfl⟩

/-- Flattening the operands of a connective keeps its value. -/
lemma evaluate_flatMap_spread {a : Assignment E V} {k : Connective} {cs : List (Condition E V)}
    {v : Kleene} (h : evaluate a (.connect k cs) = some v) :
    evaluate a (.connect k (cs.flatMap (spread k))) = some v := by
  obtain ⟨masks, hmasks, hv⟩ := evaluate_connect.1 h
  -- the masks of each operand's contribution, which fold to the operand's own mask
  have hparts : ∃ parts : List (List Kleene),
      List.Forall₂ (fun part r => reduce k.kernel part = some r) parts masks ∧
        List.Forall₂ (fun c mask => evaluate a c = some mask) (cs.flatMap (spread k)) parts.flatten := by
    clear h hv
    induction hmasks with
    | nil => exact ⟨[], .nil, .nil⟩
    | cons hc _ ih =>
      obtain ⟨parts, hfold, hall⟩ := ih
      obtain ⟨part, hpart, hr⟩ := evaluate_spread (k := k) hc
      exact ⟨part :: parts, .cons hr hfold, List.rel_append hpart hall⟩
  obtain ⟨parts, hfold, hall⟩ := hparts
  exact evaluate_connect.2 ⟨parts.flatten, hall, (reduce_flatten hfold).trans hv⟩

/-! ## Totality -/

/-- A deeper bound changes no result. -/
lemma normalize_mono {n m : ℕ} {c d : Condition E V} (h : normalize n c = some d) (hnm : n ≤ m) :
    normalize m c = some d := by
  induction n generalizing m c d with
  | zero => cases h
  | succ n ih =>
    cases m with
    | zero => cases hnm
    | succ m =>
      have hnm : n ≤ m := Nat.le_of_succ_le_succ hnm
      cases c with
      | test p => exact h
      | not c =>
        rw [normalize] at h ⊢
        obtain ⟨operand, hop, h⟩ := Option.bind_eq_some_iff.1 h
        refine Option.bind_eq_some_iff.2 ⟨operand, ih hop hnm, ?_⟩
        cases hneg : negate operand with
        | test p => rw [hneg] at h; exact ih h hnm
        | not c' => rw [hneg] at h; exact h
        | connect k cs => rw [hneg] at h; exact ih h hnm
      | connect k cs =>
        rw [normalize] at h ⊢
        obtain ⟨ds, hds, h⟩ := Option.bind_eq_some_iff.1 h
        refine Option.bind_eq_some_iff.2 ⟨ds, ?_, h⟩
        rw [mapM_eq_some] at hds ⊢
        exact hds.imp fun c d hcd => ih hcd hnm

/-- `normalize` returns this condition, at every depth that is large enough. -/
def NormalizesTo (c d : Condition E V) : Prop := ∃ depth, ∀ n ≥ depth, normalize n c = some d

lemma NormalizesTo.of_eq {n : ℕ} {c d : Condition E V} (h : normalize n c = some d) :
    NormalizesTo c d := ⟨n, fun _ hm => normalize_mono h hm⟩

/-- One depth is enough for all the operands of a connective. -/
lemma normalizesTo_operands {cs ds : List (Condition E V)} (h : List.Forall₂ NormalizesTo cs ds) :
    ∃ depth, cs.mapM (normalize depth) = some ds := by
  induction h with
  | nil => exact ⟨0, rfl⟩
  | @cons c d cs ds hc _ ih =>
    obtain ⟨n, hn⟩ := hc
    obtain ⟨m, hm⟩ := ih
    refine ⟨max n m, mapM_eq_some.2 (.cons (hn _ (le_max_left n m)) ?_)⟩
    exact (mapM_eq_some.1 hm).imp fun c d hcd => normalize_mono hcd (le_max_right n m)

lemma NormalizesTo.connect {k : Connective} {cs ds : List (Condition E V)}
    (h : List.Forall₂ NormalizesTo cs ds) :
    NormalizesTo (.connect k cs) (.connect k (ds.flatMap (spread k))) := by
  obtain ⟨depth, hdepth⟩ := normalizesTo_operands h
  apply NormalizesTo.of_eq (n := depth + 1)
  rw [normalize, hdepth]
  rfl

/-- A normal condition is normalized to itself. -/
theorem Normal.normalizesTo {c : Condition E V} (h : Normal c) : NormalizesTo c c := by
  induction h with
  | test p => exact .of_eq (n := 1) rfl
  | not p hp =>
    apply NormalizesTo.of_eq (n := 2)
    simp [normalize, Condition.negate, hp]
  | connect k cs _ hk ih =>
    have hconnect := NormalizesTo.connect (k := k) (List.forall₂_same.2 ih)
    rwa [flatMap_spread_of_kind_ne hk] at hconnect

/-- Normalizing a `Not` negates its normalized operand. -/
lemma NormalizesTo.not {c d : Condition E V} (h : NormalizesTo c d) (hd : Normal d) :
    NormalizesTo (.not c) d.negate := by
  obtain ⟨n, hn⟩ := h
  obtain ⟨m, hm⟩ := hd.negate.normalizesTo
  apply NormalizesTo.of_eq (n := max n m + 1)
  rw [normalize, hn _ (le_max_left n m), Option.bind_eq_bind, Option.bind_some]
  have hagain := hm _ (le_max_right n m)
  cases hneg : d.negate with
  | test p => rw [hneg] at hagain; exact hagain
  | not c' => rfl
  | connect k cs => rw [hneg] at hagain; exact hagain

/-- `normalize` returns one condition at most. -/
lemma NormalizesTo.unique {c d e : Condition E V} (hd : NormalizesTo c d) (he : NormalizesTo c e) :
    d = e := by
  obtain ⟨n, hn⟩ := hd
  obtain ⟨m, hm⟩ := he
  have hn := hn _ (le_max_left n m)
  have hm := hm _ (le_max_right n m)
  exact Option.some.inj (hn.symm.trans hm)

/-- A condition has a normal form, with its value on every row. -/
theorem exists_normal (c : Condition E V) :
    ∃ d, NormalizesTo c d ∧ Normal d ∧
      ∀ (a : Assignment E V) v, evaluate a c = some v → evaluate a d = some v := by
  induction c with
  | test p => exact ⟨.test p, .of_eq (n := 1) rfl, .test p, fun _ _ h => h⟩
  | not c ih =>
    obtain ⟨d, hcd, hd, hvalue⟩ := ih
    refine ⟨d.negate, hcd.not hd, hd.negate, ?_⟩
    intro a v h
    obtain ⟨w, hw, rfl⟩ := Option.map_eq_some_iff.1 h
    rw [evaluate_negate, hvalue a w hw]
    rfl
  | connect k cs ih =>
    obtain ⟨ds, hds⟩ := exists_forall₂ ih
    refine ⟨.connect k (ds.flatMap (spread k)), .connect (hds.imp fun _ _ h => h.1), ?_, ?_⟩
    · have hnormal : ∀ d ∈ ds, Normal d :=
        ((List.forall₂_and_left ds cs).1 (hds.flip.imp fun _ _ h => ⟨h.2.1, h.1⟩)).1
      apply Normal.connect
      · intro e he
        obtain ⟨d, hd, he⟩ := List.mem_flatMap.1 he
        exact ((hnormal d hd).spread he).1
      · intro e he
        obtain ⟨d, hd, he⟩ := List.mem_flatMap.1 he
        exact ((hnormal d hd).spread he).2
    · intro a v h
      obtain ⟨masks, hmasks, hv⟩ := evaluate_connect.1 h
      apply evaluate_flatMap_spread
      refine evaluate_connect.2 ⟨masks, ?_, hv⟩
      clear h hv ih
      induction hds generalizing masks with
      | nil => exact hmasks
      | cons hd _ ih =>
        cases hmasks with
        | cons hc hmasks => exact .cons (hd.2.2 a _ hc) (ih _ hmasks)

/-- `normalize` returns a condition with the same value, negations on tests only and no connective
under its like, and returns it again when it is given it. -/
theorem normalize_spec (c : Condition E V) :
    ∃ d, NormalizesTo c d ∧
      (∀ (a : Assignment E V) v, evaluate a c = some v → evaluate a d = some v) ∧
      NegatesTests d ∧ Flat d ∧ NormalizesTo d d := by
  obtain ⟨d, hcd, hd, hvalue⟩ := exists_normal c
  exact ⟨d, hcd, hvalue, hd.negatesTests, hd.flat, hd.normalizesTo⟩

/-- `NOT (a AND (b AND c IS NULL))` becomes `NOT a OR NOT b OR c IS NOT NULL`. -/
example (a b c : String) :
    normalize 4 (.not (.connect .and [.test ⟨a, .isTrue, none⟩, .connect .and
        [.test ⟨b, .isTrue, none⟩, .test ⟨c, .isNull, none⟩]]) : Condition String ℤ) =
      some (.connect .or [.not (.test ⟨a, .isTrue, none⟩), .not (.test ⟨b, .isTrue, none⟩),
        .test ⟨c, .isNotNull, none⟩]) := rfl

end Condition

end Quail.Logical
