import Quail.Prefix.Index
import Mathlib.Order.Bounds.Basic
import Mathlib.Data.List.Infix
import Mathlib.Algebra.Order.Group.Int
import Mathlib.Data.Nat.Cast.Basic
import Mathlib.Tactic.Ring

/-!
# What a document borrows

The sorted order makes a document share most with its predecessor, so the shared lengths are the
longest prefixes found among all earlier documents, cut before the last token and to whole pages.
The parent a document borrows from comes earlier, has those tokens, and computed the last of those
pages itself.
-/

namespace Quail.Prefix

/-- The length of the prefix two documents share. -/
def Documents.lcp : Documents → ℕ → ℕ → ℕ
  | .ids docs, i, j => commonPrefix (docs.getD i []) (docs.getD j [])
  | .words docs, i, j => commonPrefix (docs.getD i []) (docs.getD j [])

/-- The documents before `i` in the order. -/
def before (order : List ℕ) (i : ℕ) : List ℕ := order.takeWhile fun j => j ≠ i

/-- The longest prefix `i` shares with a document before it; 0 when there is none. -/
def longest (cp : ℕ → ℕ → ℕ) (order : List ℕ) (i : ℕ) : ℕ :=
  ((before order i).map fun j => cp j i).foldr max 0

/-! ## Both common prefixes -/

section common
variable {τ : Type} [DecidableEq τ]

/-- The first true position, or the length when there is none. -/
lemma argmax_or (l : List Bool) :
    (if l.getD (argmax l) false then argmax l else l.length) = l.findIdx id := by
  by_cases h : l.any id = true
  · have hlt : l.findIdx id < l.length := by
      rw [List.findIdx_lt_length]
      simpa using h
    have hget : l.getD (l.findIdx id) false = true := by
      rw [List.getD_eq_getElem?_getD, List.getElem?_eq_getElem hlt]
      exact List.findIdx_getElem (w := hlt)
    rw [argmax, if_pos h, if_pos hget]
  · have hnone : l.findIdx id = l.length := by
      rw [List.findIdx_eq_length]
      simpa using h
    have hget : l.getD 0 false = false := by
      cases l with
      | nil => rfl
      | cons b l => simp_all
    rw [argmax, if_neg h, hget, hnone]
    rfl

lemma findIdx_zipWith (left right : List τ) :
    (List.zipWith (fun x y => decide (x ≠ y)) left right).findIdx id =
      commonPrefix left right := by
  induction left generalizing right with
  | nil => simp
  | cons x xs ih =>
    cases right with
    | nil => simp
    | cons y ys =>
      rw [List.zipWith_cons_cons, List.findIdx_cons]
      by_cases h : x = y
      · subst h
        simpa using ih ys
      · simp [h, CommonPrefix.cons_ne]

lemma arrayCommonPrefix_eq (left right : List τ) :
    arrayCommonPrefix left right = commonPrefix left right := by
  unfold arrayCommonPrefix
  by_cases h0 : min left.length right.length = 0
  · rw [if_pos h0]
    rcases Nat.min_eq_zero_iff.1 h0 with h | h
    · simp [List.eq_nil_of_length_eq_zero h]
    · simp [List.eq_nil_of_length_eq_zero h]
  · have hlen : (List.zipWith (fun x y => decide (x ≠ y)) left right).length =
        min left.length right.length := List.length_zipWith
    have hor := argmax_or (List.zipWith (fun x y => decide (x ≠ y)) left right)
    rw [findIdx_zipWith, hlen] at hor
    rw [if_neg h0, ← List.take_zipWith, List.take_of_length_le hlen.le]
    exact hor

lemma longestCommonPrefixFrom_eq {left right : List τ} {steps index : ℕ}
    (h : steps + index = min left.length right.length) :
    longestCommonPrefixFrom left right (min left.length right.length) steps index =
      index + commonPrefix (left.drop index) (right.drop index) := by
  induction steps generalizing index with
  | zero =>
    rw [longestCommonPrefixFrom, ← h]
    rcases le_total left.length right.length with hle | hle
    · rw [(List.drop_eq_nil_of_le (by omega) : left.drop index = [])]
      simp
    · rw [(List.drop_eq_nil_of_le (by omega) : right.drop index = [])]
      simp
  | succ steps ih =>
    have hl : index < left.length := by omega
    have hr : index < right.length := by omega
    rw [longestCommonPrefixFrom, List.drop_eq_getElem_cons hl, List.drop_eq_getElem_cons hr,
      List.getElem?_eq_getElem hl, List.getElem?_eq_getElem hr]
    by_cases he : left[index] = right[index]
    · rw [if_neg (by simp [he]), ih (by omega), he, CommonPrefix.cons_self]
      omega
    · rw [if_pos (by simp [he]), CommonPrefix.cons_ne he]
      rfl

lemma longestCommonPrefix_eq (left right : List τ) :
    longestCommonPrefix left right = commonPrefix left right := by
  have h : longestCommonPrefixFrom left right (min left.length right.length)
      (min left.length right.length) 0 = _ := longestCommonPrefixFrom_eq (Nat.add_zero _)
  simpa [longestCommonPrefix] using h

end common

lemma Documents.common_eq (docs : Documents) : docs.common = docs.lcp := by
  funext i j
  cases docs with
  | ids docs => exact arrayCommonPrefix_eq _ _
  | words docs => exact longestCommonPrefix_eq _ _

lemma Documents.lcp_trans (docs : Documents) {m i j k : ℕ} (h : m ≤ docs.lcp i j)
    (h' : m ≤ docs.lcp j k) : m ≤ docs.lcp i k := by
  cases docs with
  | ids docs => exact CommonPrefix.trans h h'
  | words docs => exact CommonPrefix.trans h h'

/-! ## The sorted order -/

lemma bigEndian_injective : Function.Injective bigEndian := by
  intro s t h
  have hs := s.toUInt32.toNat_lt
  have ht := t.toUInt32.toNat_lt
  have he : s.toUInt32.toNat = t.toUInt32.toNat := by
    simp only [bigEndian, List.cons.injEq, Fin.ext_iff, Fin.ofNat, and_true] at h
    omega
  have he := UInt32.toNat_inj.1 he
  cases s
  cases t
  exact congrArg _ he

lemma sortedBy_perm {β : Type} [LinearOrder β] [Inhabited β] (keys : List β) :
    (sortedBy keys).Perm (List.range keys.length) := List.perm_insertionSort _ _

lemma sortedBy_pairwise {β : Type} [LinearOrder β] [Inhabited β] (keys : List β) :
    (sortedBy keys).Pairwise fun i j => keys.getD i default ≤ keys.getD j default := by
  have : Std.Total fun i j => keys.getD i default ≤ keys.getD j default :=
    ⟨fun i j => le_total _ _⟩
  have : IsTrans ℕ fun i j => keys.getD i default ≤ keys.getD j default :=
    ⟨fun i j k => le_trans⟩
  exact List.pairwise_insertionSort _ _

lemma Documents.order_perm (docs : Documents) : docs.order.Perm (List.range docs.count) := by
  cases docs with
  | ids docs => simpa [Documents.order, Documents.count] using
      sortedBy_perm (docs.map (List.flatMap bigEndian))
  | words docs => exact sortedBy_perm docs

lemma Documents.order_nodup (docs : Documents) : docs.order.Nodup :=
  docs.order_perm.nodup_iff.2 List.nodup_range

/-- The documents sort by a key that is convex for their common prefixes. -/
lemma Documents.order_convex (docs : Documents) : ∃ le : ℕ → ℕ → Prop, docs.order.Pairwise le ∧
    ∀ i j k, le i j → le j k → docs.lcp i k ≤ docs.lcp j k := by
  cases docs with
  | ids docs =>
    refine ⟨_, sortedBy_pairwise (docs.map (List.flatMap bigEndian)), fun i j k hij hjk => ?_⟩
    have hkey : ∀ i, (docs.map (List.flatMap bigEndian)).getD i default =
        (docs.getD i []).flatMap bigEndian := fun i => by
      simp only [List.getD_eq_getElem?_getD, List.getElem?_map]
      cases docs[i]? <;> rfl
    rw [hkey, hkey] at hij hjk
    have hblocks : ∀ i j, commonPrefix ((docs.getD i []).flatMap bigEndian)
        ((docs.getD j []).flatMap bigEndian) / 4 = (Documents.ids docs).lcp i j := fun i j =>
      CommonPrefix.flatMap (w := 4) (by decide) (fun _ => rfl) bigEndian_injective
    rw [← hblocks i k, ← hblocks j k]
    exact Nat.div_le_div_right (CommonPrefix.convex hij hjk)
  | words docs =>
    exact ⟨_, sortedBy_pairwise docs, fun i j k hij hjk => CommonPrefix.convex hij hjk⟩

/-! ## Walking the order -/

section order
variable {order l l₁ l₂ : List ℕ} {p i : ℕ}

lemma before_eq (h : (l₁ ++ i :: l₂).Nodup) : before (l₁ ++ i :: l₂) i = l₁ := by
  have hi : ∀ j ∈ l₁, j ≠ i := by
    rintro j hj rfl
    exact (List.nodup_append.1 h).2.2 j hj j (List.mem_cons_self ..) rfl
  unfold before
  rw [List.takeWhile_append_of_pos fun j hj => decide_eq_true (hi j hj)]
  simp

/-- What lies after a part of the order is not before its elements. -/
lemma before_part (h : l <+: order) (hnd : order.Nodup) (hi : i ∈ l) :
    before order i = before l i := by
  obtain ⟨t, rfl⟩ := h
  obtain ⟨l₁, l₂, rfl⟩ := List.append_of_mem hi
  have hnd' : (l₁ ++ i :: l₂).Nodup := hnd.sublist (List.sublist_append_left _ _)
  rw [List.append_assoc, List.cons_append] at hnd ⊢
  rw [before_eq hnd, before_eq hnd']

lemma longest_part {cp : ℕ → ℕ → ℕ} (h : l <+: order) (hnd : order.Nodup) (hi : i ∈ l) :
    longest cp order i = longest cp l i := by
  unfold longest
  rw [before_part h hnd hi]

lemma adjacent_snoc : adjacent (l ++ [p, i]) = adjacent (l ++ [p]) ++ [(p, i)] := by
  induction l with
  | nil => rfl
  | cons x l ih =>
    cases l with
    | nil => rfl
    | cons y l => exact congrArg _ ih

/-- A loop over the adjacent pairs keeps what holds of each part of the order it has walked. -/
lemma foldl_adjacent {σ : Type} {step : σ → ℕ × ℕ → σ} {s : σ} (Inv : List ℕ → σ → Prop)
    (hne : order ≠ []) (hfirst : ∀ x, [x] <+: order → Inv [x] s)
    (hstep : ∀ l p i s, l ++ [p, i] <+: order → Inv (l ++ [p]) s →
      Inv (l ++ [p, i]) (step s (p, i))) :
    Inv order ((adjacent order).foldl step s) := by
  suffices h : ∀ m l, l <+: order → l.length = m + 1 → Inv l ((adjacent l).foldl step s) by
    refine h (order.length - 1) order (List.prefix_refl _) ?_
    have := List.length_pos_iff.2 hne
    omega
  intro m
  induction m with
  | zero =>
    intro l hl hlen
    obtain ⟨x, rfl⟩ := List.length_eq_one_iff.1 hlen
    exact hfirst x hl
  | succ m ih =>
    intro l hl hlen
    obtain ⟨l', i, rfl⟩ : ∃ l' i, l = l' ++ [i] :=
      ⟨_, _, (List.dropLast_append_getLast (List.ne_nil_of_length_eq_add_one hlen)).symm⟩
    have hlen' : l'.length = m + 1 := by simpa using hlen
    obtain ⟨l, p, rfl⟩ : ∃ l p, l' = l ++ [p] :=
      ⟨_, _, (List.dropLast_append_getLast (List.ne_nil_of_length_eq_add_one hlen')).symm⟩
    rw [List.append_assoc, List.singleton_append] at hl ⊢
    rw [adjacent_snoc, List.foldl_append]
    have hl' : l ++ [p] <+: order :=
      (List.prefix_append_right_inj l |>.2 ⟨[i], rfl⟩).trans hl
    exact hstep l p i _ hl (ih _ hl' hlen')

/-- Among the documents before it, a document shares most with its predecessor. -/
lemma longest_snoc {cp : ℕ → ℕ → ℕ} {le : ℕ → ℕ → Prop} (hnd : order.Nodup)
    (hle : order.Pairwise le) (hconvex : ∀ i j k, le i j → le j k → cp i k ≤ cp j k)
    (h : l ++ [p, i] <+: order) : longest cp order i = cp p i := by
  have hsub := h.sublist
  have hnd' : ((l ++ [p]) ++ i :: []).Nodup := by simpa using hnd.sublist hsub
  have hle' := hle.sublist hsub
  rw [longest_part h hnd (by simp), show l ++ [p, i] = (l ++ [p]) ++ [i] from by simp]
  unfold longest
  rw [before_eq hnd', List.map_append, List.foldr_append]
  have hbound : ∀ j ∈ l, cp j i ≤ cp p i := fun j hj => by
    rw [List.pairwise_append] at hle'
    refine hconvex j p i (hle'.2.2 j hj p (by simp)) ?_
    exact (List.pairwise_cons.1 hle'.2.1).1 i (by simp)
  generalize hm : cp p i = m at hbound
  simp only [List.map_cons, List.map_nil, List.foldr_cons, List.foldr_nil, hm]
  clear hsub hnd' hle' h
  induction l with
  | nil => simp
  | cons x l ih =>
    rw [List.map_cons, List.foldr_cons, ih fun j hj => hbound j (List.mem_cons_of_mem _ hj)]
    exact max_eq_right (hbound x (List.mem_cons_self ..))

lemma longest_head {cp : ℕ → ℕ → ℕ} (hnd : order.Nodup) (h : [i] <+: order) :
    longest cp order i = 0 := by
  rw [longest_part h hnd (by simp)]
  simp [longest, before]

end order

/-! ## Shared lengths -/

/-- The index shares with a document's predecessor what it shares with any earlier document. -/
theorem shared_eq (docs : Documents) {i : ℕ} (hi : i ∈ docs.order) :
    (PrefixIndex.of docs).shared i =
      min (longest docs.lcp docs.order i) (docs.len i - 1) := by
  have hnd := docs.order_nodup
  obtain ⟨le, hle, hconvex⟩ := docs.order_convex
  refine foldl_adjacent (fun l (shared : ℕ → ℕ) => ∀ j ∈ l,
    shared j = min (longest docs.lcp docs.order j) (docs.len j - 1))
    (List.ne_nil_of_mem hi) ?_ ?_ i hi
  · intro x hx j hj
    obtain rfl := List.mem_singleton.1 hj
    rw [longest_head hnd hx, Nat.zero_min]
  · intro l p i shared hl ih j hj
    show Function.update shared i (min (docs.common p i) (docs.len i - 1)) j = _
    by_cases hji : j = i
    · subst hji
      rw [Function.update_self, docs.common_eq, longest_snoc hnd hle hconvex hl]
    · rw [Function.update_of_ne hji]
      exact ih j (by simpa [hji] using hj)

/-! ## Parents -/

section parents
variable {order : List ℕ} {cp : ℕ → ℕ → ℕ} {shared : ℕ → ℕ} {parent : ℕ → Option ℕ}

/-- What a document's parent is, as far as the part `l` of the order has been walked. -/
structure ParentOk (cp : ℕ → ℕ → ℕ) (shared : ℕ → ℕ) (parent : ℕ → Option ℕ) (l : List ℕ)
    (i : ℕ) : Prop where
  none_iff : parent i = none ↔ shared i = 0
  earlier : ∀ q, parent i = some q → q ∈ before l i
  agrees : ∀ q, parent i = some q → shared i ≤ cp q i
  computes : ∀ q, parent i = some q → parent q = none ∨ shared q < shared i

lemma before_length_lt {l : List ℕ} {q i : ℕ} (hnd : l.Nodup) (hi : i ∈ l) (hq : q ∈ before l i) :
    q ∈ l ∧ (before l q).length < (before l i).length := by
  obtain ⟨l₁, l₂, rfl⟩ := List.append_of_mem hi
  rw [before_eq hnd] at hq ⊢
  obtain ⟨a, b, rfl⟩ := List.append_of_mem hq
  rw [List.append_assoc, List.cons_append] at hnd ⊢
  rw [before_eq hnd]
  refine ⟨by simp, ?_⟩
  rw [List.length_append, List.length_cons]
  omega

/-- Climbing from a document that shares the pages ends at one that has them and is a root or
borrowed less. Each turn goes to an earlier document, so the fuel is not used up. -/
lemma climb_spec {l : List ℕ} {pages i : ℕ}
    (htrans : ∀ m i j k, m ≤ cp i j → m ≤ cp j k → m ≤ cp i k) (hnd : l.Nodup)
    (hok : ∀ j ∈ l, ParentOk cp shared parent l j) (fuel owner : ℕ) (ho : owner ∈ l)
    (hfuel : (before l owner).length < fuel) (hpages : pages ≤ cp owner i) :
    climb parent shared pages fuel owner ∈ l ∧
    pages ≤ cp (climb parent shared pages fuel owner) i ∧
    (parent (climb parent shared pages fuel owner) = none ∨
      shared (climb parent shared pages fuel owner) < pages) := by
  induction fuel generalizing owner with
  | zero => exact absurd hfuel (Nat.not_lt_zero _)
  | succ fuel ih =>
    unfold climb
    cases hp : parent owner with
    | none => exact ⟨ho, hpages, .inl hp⟩
    | some q =>
      by_cases hge : shared owner ≥ pages
      · obtain ⟨hq, hlt⟩ := before_length_lt hnd ho ((hok owner ho).earlier q hp)
        have hcp : pages ≤ cp q i :=
          htrans _ _ _ _ (hge.le.trans ((hok owner ho).agrees q hp)) hpages
        simpa only [if_pos hge] using ih q hq (by omega) hcp
      · simp only [if_neg hge]
        exact ⟨ho, hpages, .inr (not_le.1 hge)⟩

/-- What the loop of `tree` leaves for a part of the order: documents outside it have no parent yet,
those in it have theirs. -/
lemma addParent_ok {l : List ℕ} {p i : ℕ}
    (htrans : ∀ m i j k, m ≤ cp i j → m ≤ cp j k → m ≤ cp i k)
    (hnd : order.Nodup) (hl : l ++ [p, i] <+: order) (hshared : shared i ≤ cp p i)
    (hout : ∀ j, j ∉ l ++ [p] → parent j = none)
    (hok : ∀ j ∈ l ++ [p], ParentOk cp shared parent (l ++ [p]) j) :
    (∀ j, j ∉ l ++ [p, i] → addParent shared order.length parent (p, i) j = none) ∧
    ∀ j ∈ l ++ [p, i],
      ParentOk cp shared (addParent shared order.length parent (p, i)) (l ++ [p, i]) j := by
  have hnd' : (l ++ [p] ++ [i]).Nodup := by simpa using hnd.sublist hl.sublist
  have hi : i ∉ l ++ [p] := fun h =>
    (List.nodup_append.1 hnd').2.2 i h i (List.mem_cons_self ..) rfl
  have hsplit : l ++ [p, i] = l ++ [p] ++ [i] := by simp
  have hbefore : ∀ j ∈ l ++ [p], before (l ++ [p, i]) j = before (l ++ [p]) j := fun j hj =>
    before_part (hsplit ▸ List.prefix_append _ _) (hsplit ▸ hnd') hj
  have hbi : before (l ++ [p, i]) i = l ++ [p] := by
    rw [hsplit]
    exact before_eq hnd'
  have hlen : (l ++ [p]).length < order.length := by
    have := hl.length_le
    simp only [List.length_append, List.length_cons, List.length_nil] at this ⊢
    omega
  -- the documents walked before keep their parents
  have hkeep : ∀ j ∈ l ++ [p], addParent shared order.length parent (p, i) j = parent j := by
    intro j hj
    unfold addParent
    split
    · exact Function.update_of_ne (fun h : j = i => hi (h ▸ hj)) _ _
    · rfl
  obtain ⟨ho, hcp, hcomp⟩ := climb_spec htrans (List.nodup_append.1 hnd').1 hok
    order.length p (by simp) (by
      have := (List.takeWhile_sublist (l := l ++ [p]) fun j => decide (j ≠ p)).length_le
      exact lt_of_le_of_lt this hlen) hshared
  refine ⟨fun j hj => ?_, fun j hj => ?_⟩
  · have hji : j ≠ i := fun h => hj (by simp [h])
    have hjl : j ∉ l ++ [p] := fun h => hj (by rw [hsplit]; exact List.mem_append_left _ h)
    unfold addParent
    split
    · rw [Function.update_of_ne hji, hout j hjl]
    · exact hout j hjl
  · by_cases hjl : j ∈ l ++ [p]
    · have hold := hok j hjl
      refine ⟨?_, ?_, ?_, ?_⟩ <;> rw [hkeep j hjl]
      · exact hold.none_iff
      · rw [hbefore j hjl]
        exact hold.earlier
      · exact hold.agrees
      · intro q hq
        have hql := (before_length_lt (List.nodup_append.1 hnd').1 hjl (hold.earlier q hq)).1
        rw [hkeep q hql]
        exact hold.computes q hq
    · obtain rfl : j = i := by
        rw [hsplit, List.mem_append] at hj
        exact List.mem_singleton.1 (hj.resolve_left hjl)
      by_cases h0 : shared j = 0
      · have hnone : addParent shared order.length parent (p, j) j = none := by
          simp only [addParent, h0, ne_eq, not_true_eq_false, if_false]
          exact hout j hi
        exact ⟨by simp [hnone, h0], by simp [hnone], by simp [hnone], by simp [hnone]⟩
      · have hsome : addParent shared order.length parent (p, j) j =
            some (climb parent shared (shared j) order.length p) := by
          simp [addParent, h0]
        refine ⟨by simp [hsome, h0], ?_, ?_, ?_⟩ <;> rintro q hq <;>
          obtain rfl := Option.some.inj (hsome.symm.trans hq)
        · rw [hbi]
          exact ho
        · exact hcp
        · rw [hkeep _ ho]
          exact hcomp

/-- The parents of the whole order. -/
lemma parents_ok (htrans : ∀ m i j k, m ≤ cp i j → m ≤ cp j k → m ≤ cp i k)
    (hnd : order.Nodup) (hhead : ∀ x, [x] <+: order → shared x = 0)
    (hshared : ∀ l p i, l ++ [p, i] <+: order → shared i ≤ cp p i) {i : ℕ} (hi : i ∈ order) :
    ParentOk cp shared
      ((adjacent order).foldl (addParent shared order.length) fun _ => none) order i := by
  refine (foldl_adjacent (fun l parent => (∀ j, j ∉ l → parent j = none) ∧
    ∀ j ∈ l, ParentOk cp shared parent l j) (List.ne_nil_of_mem hi) ?_ ?_).2 i hi
  · intro x hx
    refine ⟨fun _ _ => rfl, fun j hj => ?_⟩
    obtain rfl := List.mem_singleton.1 hj
    exact ⟨by simp [hhead j hx], nofun, nofun, nofun⟩
  · rintro l p i parent hl ⟨hout, hok⟩
    exact addParent_ok htrans hnd hl (hshared l p i hl) hout hok

end parents

/-! ## The tree -/

/-- The largest multiple of `page` that is at most `bound`. -/
def LargestMultiple (page bound m : ℤ) : Prop := IsGreatest {x | page ∣ x ∧ x ≤ bound} m

lemma largestMultiple_div {page bound : ℕ} (h : 0 < page) :
    LargestMultiple page bound (bound / page * page : ℕ) := by
  refine ⟨⟨?_, ?_⟩, ?_⟩
  · exact Int.natCast_dvd_natCast.2 (Nat.dvd_mul_left ..)
  · exact Int.ofNat_le.2 (Nat.div_mul_le_self ..)
  · rintro x ⟨⟨c, rfl⟩, hx⟩
    rw [Nat.cast_mul, mul_comm]
    refine Int.mul_le_mul_of_nonneg_right ?_ (Int.natCast_nonneg _)
    have hp : (0 : ℤ) < page := Int.natCast_pos.2 h
    rw [Int.natCast_ediv]
    refine (Int.le_ediv_iff_mul_le hp).2 ?_
    rw [mul_comm]
    exact hx

/-- The first `m` tokens of two documents are there and equal. -/
def Documents.Agree : Documents → ℕ → ℕ → ℕ → Prop
  | .ids docs, m, i, j => m ≤ (docs.getD i []).length ∧ m ≤ (docs.getD j []).length ∧
      (docs.getD i []).take m = (docs.getD j []).take m
  | .words docs, m, i, j => m ≤ (docs.getD i []).length ∧ m ≤ (docs.getD j []).length ∧
      (docs.getD i []).take m = (docs.getD j []).take m

lemma Documents.agree_iff {docs : Documents} {m i j : ℕ} :
    docs.Agree m i j ↔ m ≤ docs.lcp i j := by
  cases docs with
  | ids docs => exact CommonPrefix.le_iff.symm
  | words docs => exact CommonPrefix.le_iff.symm

/-- The tree has every document once, each borrows the longest whole pages found before it, and its
parent has those pages and computed the last of them. -/
structure Borrows (docs : Documents) (page : ℕ) (t : PrefixTree) : Prop where
  order : t.order.Perm (List.range docs.count)
  shared : ∀ i < docs.count, LargestMultiple page
    (min (max ((docs.len i : ℤ) - 1) 0) (longest docs.lcp t.order i)) (t.shared i)
  root : ∀ i < docs.count, t.parent i = none ↔ t.shared i = 0
  earlier : ∀ i < docs.count, ∀ q, t.parent i = some q → q ∈ before t.order i
  agrees : ∀ i < docs.count, ∀ q, t.parent i = some q → docs.Agree (t.shared i) q i
  computes : ∀ i < docs.count, ∀ q, t.parent i = some q →
    t.parent q = none ∨ t.shared q < t.shared i
  lastPage : ∀ i < docs.count, ∀ q, t.parent i = some q → t.shared q + page ≤ t.shared i

/-- A multiple below another one is a whole step below it. -/
lemma add_le_of_mul_lt {a b page : ℕ} (h : a * page < b * page) : a * page + page ≤ b * page := by
  have hab : a < b := Nat.lt_of_mul_lt_mul_right h
  calc a * page + page = (a + 1) * page := by ring
    _ ≤ b * page := Nat.mul_le_mul_right _ hab

end Quail.Prefix
