import Mathlib.Algebra.BigOperators.Ring.Finset
import Mathlib.Algebra.Order.BigOperators.Group.Finset
import Mathlib.Algebra.Order.Ring.Defs
import Mathlib.Data.List.Infix
import Mathlib.Tactic.Common

/-!
# The mass of words in a tree

Each step from a node to a child has a weight, and the weights of the steps from one node add up to at most one.
The mass of a word is the product of the weights on its way. Words none of which starts another have a mass of at
most one together, and so do all the words of a set when each keeps what the nearest longer ones do not take.
-/

namespace TreeMass

variable {τ K : Type} [DecidableEq τ] [CommRing K] [PartialOrder K] [IsOrderedRing K]

/-- The product of the weights on the way from a node. -/
def weight (w : List τ → τ → K) : List τ → List τ → K
  | _, [] => 1
  | node, t :: rest => w node t * weight w (node ++ [t]) rest

variable {w : List τ → τ → K} {next : List τ → Finset τ} {node a b : List τ} {words : Finset (List τ)}

omit [DecidableEq τ] [PartialOrder K] [IsOrderedRing K] in
lemma weight_append : weight w node (a ++ b) = weight w node a * weight w (node ++ a) b := by
  induction a generalizing node with
  | nil => rw [List.nil_append, weight, one_mul, List.append_nil]
  | cons t a ih => rw [List.cons_append, weight, weight, ih, mul_assoc, List.append_assoc, List.singleton_append]

omit [DecidableEq τ] in
lemma weight_nonneg (hw : ∀ v t, 0 ≤ w v t) : 0 ≤ weight w node a := by
  induction a generalizing node with
  | nil => exact zero_le_one
  | cons t a ih => exact mul_nonneg (hw node t) ih

/-- Words below a node, none of which starts another, whose steps are steps of the tree. -/
structure Antichain (next : List τ → Finset τ) (node : List τ) (words : Finset (List τ)) : Prop where
  eq_of_prefix : ∀ a ∈ words, ∀ b ∈ words, a <+: b → a = b
  step : ∀ a ∈ words, ∀ b t c, a = b ++ t :: c → t ∈ next (node ++ b)

/-- The words of a set that start with a letter, without it. -/
def under (words : Finset (List τ)) (t : τ) : Finset (List τ) := (words.filter (·.head? = some t)).image List.tail

omit [CommRing K] [PartialOrder K] [IsOrderedRing K] in
lemma mem_under {t : τ} : a ∈ under words t ↔ t :: a ∈ words := by
  simp only [under, Finset.mem_image, Finset.mem_filter]
  constructor
  · intro h
    obtain ⟨b, ⟨hb, hhead⟩, rfl⟩ := h
    cases b with
    | nil => cases hhead
    | cons s b =>
      cases hhead
      exact hb
  · exact fun h => ⟨t :: a, ⟨h, rfl⟩, rfl⟩

omit [CommRing K] [PartialOrder K] [IsOrderedRing K] in
lemma Antichain.under {t : τ} (h : Antichain next node words) : Antichain next (node ++ [t]) (under words t) := by
  refine ⟨fun a ha b hb hab => ?_, fun a ha b s c hsplit => ?_⟩
  · have heq := h.eq_of_prefix _ (mem_under.1 ha) _ (mem_under.1 hb) ((List.prefix_cons_inj t).2 hab)
    exact (List.cons.inj heq).2
  · have hstep := h.step _ (mem_under.1 ha) (t :: b) s c (by rw [hsplit]; rfl)
    rwa [List.append_assoc]

omit [DecidableEq τ] [CommRing K] [PartialOrder K] [IsOrderedRing K] in
/-- The empty word starts every other. -/
lemma Antichain.eq_singleton (h : Antichain next node words) (hnil : [] ∈ words) : words = {[]} :=
  Finset.eq_singleton_iff_unique_mem.2 ⟨hnil, fun _ ha => (h.eq_of_prefix _ hnil _ ha List.nil_prefix).symm⟩

omit [PartialOrder K] [IsOrderedRing K] in
/-- The words that start with a letter have the weight of its step and their mass below it. -/
lemma sum_head {t : τ} : ∑ a ∈ words with a.head? = some t, weight w node a =
    w node t * ∑ a ∈ under words t, weight w (node ++ [t]) a := by
  rw [under, Finset.sum_image, Finset.mul_sum]
  · refine Finset.sum_congr rfl fun a ha => ?_
    obtain ⟨-, hhead⟩ := Finset.mem_filter.1 ha
    cases a with
    | nil => cases hhead
    | cons s a =>
      cases hhead
      rfl
  · intro a ha b hb htail
    obtain ⟨-, ha⟩ := Finset.mem_filter.1 ha
    obtain ⟨-, hb⟩ := Finset.mem_filter.1 hb
    cases a with
    | nil => cases ha
    | cons s a =>
      cases b with
      | nil => cases hb
      | cons r b =>
        cases ha
        cases hb
        exact congrArg _ htail

/-- Words none of which starts another have a mass of at most one. -/
theorem sum_le_one (hw : ∀ v t, 0 ≤ w v t) (hsum : ∀ v, ∑ t ∈ next v, w v t ≤ 1) (n : ℕ)
    (hlength : ∀ a ∈ words, a.length ≤ n) (h : Antichain next node words) : ∑ a ∈ words, weight w node a ≤ 1 := by
  induction n generalizing node words with
  | zero =>
    have hsub : words ⊆ {[]} := by
      intro a ha
      exact Finset.mem_singleton.2 (List.length_eq_zero_iff.1 (Nat.le_zero.1 (hlength a ha)))
    calc ∑ a ∈ words, weight w node a
        ≤ ∑ a ∈ {[]}, weight w node a := Finset.sum_le_sum_of_subset_of_nonneg hsub fun _ _ _ => weight_nonneg hw
      _ = 1 := Finset.sum_singleton ..
      _ ≤ 1 := le_rfl
  | succ n ih =>
    by_cases hnil : [] ∈ words
    · rw [h.eq_singleton hnil, Finset.sum_singleton, weight]
    · have hmaps : ∀ a ∈ words, a.head? ∈ (next node).image some := by
        intro a ha
        cases a with
        | nil => exact absurd ha hnil
        | cons t a =>
          have hstep := h.step _ ha [] t a rfl
          rw [List.append_nil] at hstep
          exact Finset.mem_image_of_mem some hstep
      have hbelow : ∀ t, ∑ a ∈ under words t, weight w (node ++ [t]) a ≤ 1 := by
        intro t
        exact ih (fun a ha => Nat.le_of_succ_le_succ (hlength _ (mem_under.1 ha))) h.under
      calc ∑ a ∈ words, weight w node a
          = ∑ t ∈ next node, w node t * ∑ a ∈ under words t, weight w (node ++ [t]) a := by
            rw [← Finset.sum_fiberwise_of_maps_to hmaps, Finset.sum_image fun _ _ _ _ heq => Option.some.inj heq]
            exact Finset.sum_congr rfl fun t _ => sum_head
        _ ≤ ∑ t ∈ next node, w node t := Finset.sum_le_sum fun t _ => mul_le_of_le_one_right (hw node t) (hbelow t)
        _ ≤ 1 := hsum node

/-- A word of the tree has a mass of at most one. -/
lemma weight_le_one (hw : ∀ v t, 0 ≤ w v t) (hsum : ∀ v, ∑ t ∈ next v, w v t ≤ 1)
    (hstep : ∀ b t c, a = b ++ t :: c → t ∈ next (node ++ b)) : weight w node a ≤ 1 := by
  have hone : ∑ b ∈ {a}, weight w node b ≤ 1 :=
    sum_le_one hw hsum a.length (fun b hb => by rw [Finset.mem_singleton.1 hb]) ⟨?_, ?_⟩
  · rwa [Finset.sum_singleton] at hone
  · intro b hb c hc _
    rw [Finset.mem_singleton.1 hb, Finset.mem_singleton.1 hc]
  · intro b hb
    rw [Finset.mem_singleton.1 hb]
    exact hstep

/-! ## Nested words -/

variable {d e : List τ}

/-- A word of the set is longer than another with no word of the set in between. -/
def Nearest (words : Finset (List τ)) (d e : List τ) : Prop :=
  d <+: e ∧ d ≠ e ∧ ∀ m ∈ words, d <+: m → m <+: e → m = d ∨ m = e

instance : Decidable (Nearest words d e) :=
  inferInstanceAs (Decidable (d <+: e ∧ d ≠ e ∧ ∀ m ∈ words, d <+: m → m <+: e → m = d ∨ m = e))

/-- The words of a set nearest above one, as ways from it. -/
def beyond (words : Finset (List τ)) (d : List τ) : Finset (List τ) :=
  (words.filter (Nearest words d)).image (·.drop d.length)

omit [CommRing K] [PartialOrder K] [IsOrderedRing K] in
lemma mem_beyond : a ∈ beyond words d ↔ d ++ a ∈ words ∧ Nearest words d (d ++ a) := by
  simp only [beyond, Finset.mem_image, Finset.mem_filter]
  constructor
  · intro h
    obtain ⟨e, ⟨he, hnear⟩, rfl⟩ := h
    obtain ⟨rest, rfl⟩ := hnear.1
    rw [List.drop_left]
    exact ⟨he, hnear⟩
  · exact fun h => ⟨d ++ a, h, List.drop_left⟩

omit [CommRing K] [PartialOrder K] [IsOrderedRing K] in
lemma antichain_beyond (hstep : ∀ a ∈ words, ∀ b t c, a = b ++ t :: c → t ∈ next b) :
    Antichain next d (beyond words d) := by
  refine ⟨fun a ha b hb hab => ?_, fun a ha b t c hsplit => ?_⟩
  · obtain ⟨ha, -, hne, -⟩ := mem_beyond.1 ha
    obtain ⟨-, hnear⟩ := mem_beyond.1 hb
    rcases hnear.2.2 _ ha (List.prefix_append d a) ((List.prefix_append_right_inj d).2 hab) with heq | heq
    · exact absurd heq.symm hne
    · exact List.append_cancel_left heq
  · refine hstep _ (mem_beyond.1 ha).1 (d ++ b) t c ?_
    rw [hsplit, List.append_assoc]

omit [PartialOrder K] [IsOrderedRing K] in
/-- The masses of the nearest longer words. -/
lemma sum_beyond : ∑ e ∈ words with Nearest words d e, weight w [] e =
    weight w [] d * ∑ a ∈ beyond words d, weight w d a := by
  rw [beyond, Finset.sum_image, Finset.mul_sum]
  · refine Finset.sum_congr rfl fun e he => ?_
    obtain ⟨rest, rfl⟩ := (Finset.mem_filter.1 he).2.1
    rw [weight_append, List.drop_left, List.nil_append]
  · intro a ha b hb heq
    obtain ⟨rest, rfl⟩ := (Finset.mem_filter.1 ha).2.1
    obtain ⟨more, rfl⟩ := (Finset.mem_filter.1 hb).2.1
    dsimp only at heq
    rw [List.drop_left, List.drop_left] at heq
    rw [heq]

/-- The nearest longer words take at most all of a word's mass. -/
theorem taken_le_one (hw : ∀ v t, 0 ≤ w v t) (hsum : ∀ v, ∑ t ∈ next v, w v t ≤ 1)
    (hstep : ∀ a ∈ words, ∀ b t c, a = b ++ t :: c → t ∈ next b) : ∑ a ∈ beyond words d, weight w d a ≤ 1 :=
  sum_le_one hw hsum ((beyond words d).sup List.length) (fun _ ha => Finset.le_sup ha) (antichain_beyond hstep)

/-- A word with a shorter one in the set is nearest above exactly one of them. -/
lemma exists_nearest (h : ∃ d ∈ words, d <+: e ∧ d ≠ e) : ∃ d ∈ words, Nearest words d e := by
  obtain ⟨d, hd, hmax⟩ := (words.filter fun d => d <+: e ∧ d ≠ e).exists_max_image List.length (by
    obtain ⟨d, hd, hpre⟩ := h
    exact ⟨d, Finset.mem_filter.2 ⟨hd, hpre⟩⟩)
  obtain ⟨hd, hpre, hne⟩ := Finset.mem_filter.1 hd
  refine ⟨d, hd, hpre, hne, fun m hm hdm hme => ?_⟩
  by_cases heq : m = e
  · exact Or.inr heq
  · exact Or.inl (hdm.eq_of_length_le (hmax m (Finset.mem_filter.2 ⟨hm, hme, heq⟩))).symm

omit [DecidableEq τ] in
lemma nearest_unique {d' : List τ} (hd : d ∈ words) (hd' : d' ∈ words) (h : Nearest words d e)
    (h' : Nearest words d' e) : d = d' := by
  rcases List.prefix_or_prefix_of_prefix h.1 h'.1 with hpre | hpre
  · rcases h.2.2 d' hd' hpre h'.1 with heq | heq
    · exact heq.symm
    · exact absurd heq h'.2.1
  · rcases h'.2.2 d hd hpre h.1 with heq | heq
    · exact heq
    · exact absurd heq h.2.1

/-- What each word keeps when the nearest longer ones take their mass is at most one in all. -/
theorem sum_shares_le_one (hw : ∀ v t, 0 ≤ w v t) (hsum : ∀ v, ∑ t ∈ next v, w v t ≤ 1)
    (hstep : ∀ a ∈ words, ∀ b t c, a = b ++ t :: c → t ∈ next b) :
    ∑ d ∈ words, (weight w [] d - ∑ e ∈ words with Nearest words d e, weight w [] e) ≤ 1 := by
  -- each word's mass is taken off once, unless no word is shorter
  have htaken : ∑ d ∈ words, ∑ e ∈ words with Nearest words d e, weight w [] e =
      ∑ e ∈ words with ∃ d ∈ words, d <+: e ∧ d ≠ e, weight w [] e := by
    simp only [Finset.sum_filter]
    rw [Finset.sum_comm]
    refine Finset.sum_congr rfl fun e he => ?_
    split
    · rename_i h
      obtain ⟨d, hd, hnear⟩ := exists_nearest h
      rw [Finset.sum_eq_single d]
      · exact if_pos hnear
      · exact fun d' hd' hne => if_neg fun h' => hne (nearest_unique hd' hd h' hnear)
      · exact fun h => absurd hd h
    · rename_i h
      exact Finset.sum_eq_zero fun d hd => if_neg fun hnear => h ⟨d, hd, hnear.1, hnear.2.1⟩
  rw [Finset.sum_sub_distrib, htaken, ← Finset.sum_filter_add_sum_filter_not words (fun e => ∃ d ∈ words, d <+: e ∧ d ≠ e),
    add_sub_cancel_left]
  refine sum_le_one hw hsum (words.sup List.length) (fun a ha => Finset.le_sup (Finset.mem_filter.1 ha).1) ⟨?_, ?_⟩
  · intro a ha b hb hab
    obtain ⟨ha, -⟩ := Finset.mem_filter.1 ha
    obtain ⟨-, hb⟩ := Finset.mem_filter.1 hb
    by_contra hne
    exact hb ⟨a, ha, hab, hne⟩
  · exact fun a ha b t c hsplit => hstep a (Finset.mem_filter.1 ha).1 b t c hsplit

end TreeMass
