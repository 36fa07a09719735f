import Quail.Decode.Executor

/-!
# Shared pages stay shared

`Shares` says which pages the borrowers of a document have in common, as long as every answer starts before
the parent it borrows from is evicted. Every step keeps it (`Shares.step`), and where it holds the layout of
the running rows is plain paged attention (`Shares.plain`).
-/

namespace Quail.Decode
open Imperative FullAttentionGroup

/-- The documents that borrow from a parent have the pages it has, or had before it was settled, on the
columns they borrow: those of `base`. -/
structure Shares (d : Documents) (x : Executor) (base : ℕ → ℕ → ℕ) : Prop where
  numSlots : x.kv.numSlots = d.numSlots
  pageTokens : x.kv.pageTokens = d.pageTokens
  chosen : ∀ s p n, x.chosen s = some (p, n) →
    d.treeParent s = some p ∧ n = d.treeShared s ∧ x.admitted p = true
  chosenPages : ∀ s p n pages, x.chosen s = some (p, n) → x.moved s = false → x.arena s = some pages →
    ∀ c < n / d.pageTokens, pages.getD c 0 = base p c
  child : ∀ s, 0 < x.kv.borrowed s → d.treeParent s = some (x.kv.parent s) ∧
    x.kv.borrowed s = d.treeShared s ∧ x.admitted (x.kv.parent s) = true
  childPages : ∀ s, ∀ c < x.kv.borrowed s / d.pageTokens, x.kv.pages s c = base (x.kv.parent s) c
  parent : ∀ s, x.kv.parent s = s ∨ d.treeParent s = some (x.kv.parent s)
  lead : ∀ p, d.pageTokens ∣ x.kv.lead p ∧ x.kv.lead p ≤ d.prefixLengths p
  resident : ∀ s pages, x.arena s = some pages → x.admitted s = true ∧
    d.prefixLengths s ≤ pages.length * d.pageTokens ∧
      ∀ c < d.prefixLengths s / d.pageTokens, pages.getD c 0 = base s c
  writing : ∀ s, x.writing s = true → x.admitted s = true ∧ s < d.numSlots ∧ d.prefixLengths s ≤ x.origin s
  running : ∀ s, x.running s = true → ∃ pages, x.arena s = some pages ∧ x.kv.numPages s = pages.length ∧
    ∀ c < pages.length, x.kv.pages s c = pages.getD c 0
  paused : ∀ s, x.paused s = true → x.admitted s = true ∧ x.kv.borrowed s = 0 ∧ x.chosen s = none
  evicted : ∀ v, x.writing v = true → x.paused v = true → x.arena v = none →
    (∀ s, x.kv.parent s = v → x.kv.borrowed s = 0) ∧ ∀ s n, x.chosen s = some (v, n) → x.moved s = true

/-! ## The tables after a call -/

namespace FullAttentionGroup

variable {g : FullAttentionGroup}

lemma setPages_pages {document c : ℕ} {pages : List ℕ} (hc : c < pages.length) :
    (g.setPages document pages).pages document c = pages.getD c 0 := by
  rw [setPages]
  dsimp only
  rw [Function.update_self, List.getD_eq_getElem?_getD, List.getD_eq_getElem?_getD, List.getElem?_eq_getElem hc]
  rfl

lemma setPages_pages_of_ne {document s : ℕ} {pages : List ℕ} (hne : s ≠ document) :
    (g.setPages document pages).pages s = g.pages s := Function.update_of_ne hne _ _

/-- A started slot borrows what it is given, or nothing; the other slots' pages and parents are as before. -/
lemma start_spec (g : FullAttentionGroup) (document : ℕ) (pages : List ℕ) (parent : Option ℕ) (sharedTokens : ℕ) :
    ∃ p n, (g.start document pages parent sharedTokens).parent = Function.update g.parent document p ∧
      (g.start document pages parent sharedTokens).borrowed = Function.update g.borrowed document n ∧
      (p = document ∧ n = 0 ∨ parent = some p ∧ n = sharedTokens ∧ 0 < n) ∧
      (∀ q, (g.start document pages parent sharedTokens).lead q = 0 ∨
        (g.start document pages parent sharedTokens).lead q = g.lead q ∨
        q = p ∧ (g.start document pages parent sharedTokens).lead q = n) ∧
      (g.start document pages parent sharedTokens).pages = (g.setPages document pages).pages ∧
      (g.start document pages parent sharedTokens).numPages = (g.setPages document pages).numPages ∧
      (g.start document pages parent sharedTokens).numSlots = g.numSlots ∧
      (g.start document pages parent sharedTokens).pageTokens = g.pageTokens := by
  have hlead : ∀ q, Function.update g.lead document 0 q = 0 ∨ Function.update g.lead document 0 q = g.lead q := by
    intro q
    rcases eq_or_ne q document with rfl | hne
    · exact Or.inl (Function.update_self ..)
    · exact Or.inr (Function.update_of_ne hne _ _)
  cases parent with
  | none =>
    refine ⟨document, 0, rfl, rfl, Or.inl ⟨rfl, rfl⟩, fun q => ?_, rfl, rfl, rfl, rfl⟩
    exact (hlead q).imp_right Or.inl
  | some p =>
    rcases Nat.eq_zero_or_pos sharedTokens with rfl | hpos
    · refine ⟨document, 0, rfl, rfl, Or.inl ⟨rfl, rfl⟩, fun q => ?_, rfl, rfl, rfl, rfl⟩
      exact (hlead q).imp_right Or.inl
    · rw [start]
      dsimp only
      rw [if_neg hpos.ne']
      refine ⟨p, sharedTokens, Function.update_idem _ _ _, Function.update_idem _ _ _,
        Or.inr ⟨rfl, rfl, hpos⟩, fun q => ?_, rfl, rfl, rfl, rfl⟩
      dsimp only
      rcases eq_or_ne q p with rfl | hne
      · rw [Function.update_self]
        rcases max_choice (Function.update g.lead document 0 q) sharedTokens with hmax | hmax
        · refine Or.imp_right Or.inl ?_
          rw [show (g.setPages document pages).lead = g.lead from rfl, hmax]
          exact hlead q
        · exact Or.inr (Or.inr ⟨rfl, hmax⟩)
      · rw [Function.update_of_ne hne]
        exact (hlead q).imp_right Or.inl

/-- After a `detach`, a slot's lead is what one of its borrowers borrows, or nothing. -/
lemma detach_lead {document p : ℕ} {P : ℕ → Prop} (hzero : P 0)
    (hborrowed : ∀ s, (g.detach document).parent s = p → P ((g.detach document).borrowed s)) :
    P ((g.detach document).lead p) := by
  rw [detach]
  dsimp only
  apply Finset.sup_induction
  · exact hzero
  · intro n hn m hm
    rcases max_choice n m with hmax | hmax
    · rw [hmax]
      exact hn
    · rw [hmax]
      exact hm
  · intro s hs
    exact hborrowed s (Finset.mem_filter.mp hs).2

end FullAttentionGroup

namespace Shares

variable {d : Documents} {x : Executor} {base : ℕ → ℕ → ℕ}

/-! ## The layout of running rows -/

/-- A slot's whole prefix pages are among its pages. -/
lemma column_lt {pages : List ℕ} {s n c : ℕ} (hcapacity : d.prefixLengths s ≤ pages.length * d.pageTokens)
    (hn : n ≤ d.prefixLengths s) (hc : c < n / d.pageTokens) : c < pages.length := by
  have hmul : (c + 1) * d.pageTokens ≤ n := (Nat.le_div_iff_mul_le d.pageTokens_pos).mp hc
  exact Nat.le_of_mul_le_mul_right (hmul.trans (hn.trans hcapacity)) d.pageTokens_pos

lemma tokens_pos {n c : ℕ} (hc : c < n / d.pageTokens) : 0 < n :=
  Nat.pos_of_div_pos (Nat.zero_lt_of_lt hc)

/-- A slot that shares tokens shares those of its group's slot. -/
lemma sharedTokens_eq {g : FullAttentionGroup} {s : ℕ} : g.sharedTokens s = 0 ∨ g.sharedTokens s = g.lead (g.group s) := by
  rw [sharedTokens, group]
  split
  · rename_i h
    exact Or.inr (max_eq_left h)
  · rename_i h
    have hlt := not_le.mp h
    rw [max_eq_right hlt.le]
    rw [asChild] at hlt ⊢
    split
    · rename_i hlead
      exact Or.inr hlead
    · exact Or.inl rfl

/-- A running slot has its group's pages on the columns it shares. -/
lemma group_pages (h : Shares d x base) {s c : ℕ} (hs : x.running s = true)
    (hc : c < x.kv.sharedTokens s / d.pageTokens) : x.kv.pages s c = base (x.kv.group s) c := by
  rw [sharedTokens] at hc
  rw [group]
  split
  · rename_i hle
    rw [max_eq_left hle] at hc
    obtain ⟨pages, harena, -, hpages⟩ := h.running s hs
    obtain ⟨-, hcapacity, hbase⟩ := h.resident s pages harena
    have hprefix : c < d.prefixLengths s / d.pageTokens :=
      hc.trans_le (Nat.div_le_div_right (h.lead s).2)
    rw [hpages c (column_lt hcapacity le_rfl hprefix), hbase c hprefix]
  · rename_i hle
    rw [max_eq_right (not_le.mp hle).le, asChild] at hc
    split at hc
    · exact h.childPages s c hc
    · rw [Nat.zero_div] at hc
      exact absurd hc (Nat.not_lt_zero c)

/-- What running slots share is whole pages of their prefixes. -/
lemma tokens_le (h : Shares d x base) (s : ℕ) :
    d.pageTokens ∣ x.kv.sharedTokens s ∧ x.kv.sharedTokens s ≤ d.prefixLengths s := by
  have hchild : d.pageTokens ∣ x.kv.asChild s ∧ x.kv.asChild s ≤ d.prefixLengths s := by
    rw [asChild]
    split
    · rcases Nat.eq_zero_or_pos (x.kv.borrowed s) with hzero | hpos
      · rw [hzero]
        exact ⟨Nat.dvd_zero _, Nat.zero_le _⟩
      · rw [(h.child s hpos).2.1]
        exact ⟨d.aligned s, d.shared_le s⟩
    · exact ⟨Nat.dvd_zero _, Nat.zero_le _⟩
  rw [sharedTokens]
  rcases max_choice (x.kv.lead s) (x.kv.asChild s) with hmax | hmax
  · rw [hmax]
    exact h.lead s
  · rw [hmax]
    exact hchild

/-- The running rows may share as their groups have them do. -/
lemma consistent (h : Shares d x base) {slots positions : List ℕ} (hrows : x.Rows slots positions) :
    Consistent x.kv slots positions := by
  have hslot : ∀ s ∈ slots, x.running s = true := by
    intro s hs
    obtain ⟨i, hi, rfl⟩ := List.mem_iff_getElem.mp hs
    have hrow := (hrows i hi).1
    rw [List.getD_eq_getElem?_getD, List.getElem?_eq_getElem hi, Option.getD_some] at hrow
    exact hrow
  have hwriting : ∀ s, x.running s = true → x.writing s = true := fun s hs => (Bool.and_eq_true_iff.mp hs).1
  have hgrouped : ∀ s t, x.kv.grouped s t = true → x.kv.sharedTokens s = x.kv.sharedTokens t ∧
      x.kv.group s = x.kv.group t := by
    intro s t hst
    simp only [grouped, Bool.and_eq_true, decide_eq_true_eq] at hst
    obtain ⟨⟨hs, ht⟩, hgroup⟩ := hst
    refine ⟨?_, hgroup⟩
    rw [sharedTokens_eq.resolve_left hs.ne', sharedTokens_eq.resolve_left ht.ne', hgroup]
  constructor
  · rw [h.pageTokens]
    exact d.pageTokens_pos
  · intro s hs
    rw [h.numSlots, group]
    split
    · exact (h.writing s (hwriting s (hslot s hs))).2.1
    · rcases h.parent s with hself | htree
      · rw [hself]
        exact (h.writing s (hwriting s (hslot s hs))).2.1
      · exact d.parent_lt s _ htree
  · intro s _
    rw [h.pageTokens]
    exact (h.tokens_le s).1
  · intro i hi
    obtain ⟨hrunning, horigin⟩ := hrows i hi
    exact ((h.tokens_le _).2.trans (h.writing _ (hwriting _ hrunning)).2.2).trans horigin
  · intro s _ t _ hst
    exact (hgrouped s t hst).1
  · intro s hs t ht hst c hc
    obtain ⟨htokens, hgroup⟩ := hgrouped s t hst
    rw [h.pageTokens] at hc
    rw [h.group_pages (hslot s hs) hc, hgroup]
    rw [htokens] at hc
    exact (h.group_pages (hslot t ht) hc).symm

lemma plain (h : Shares d x base) : x.Plain :=
  fun _ _ _ _ hrows hlayout => rows_reads (h.consistent hrows) hlayout

/-! ## The steps -/

/-- What no step but the one that admits a document says of it: it has no pages, and nothing borrows from it. -/
lemma unseen (h : Shares d x base) {s : ℕ} (hs : x.admitted s = false) :
    x.arena s = none ∧ x.writing s = false ∧ x.paused s = false ∧
      (∀ t n, x.chosen t ≠ some (s, n)) ∧ ∀ t, 0 < x.kv.borrowed t → x.kv.parent t ≠ s := by
  have hfalse : x.admitted s ≠ true := by
    rw [hs]
    exact Bool.false_ne_true
  refine ⟨?_, ?_, ?_, ?_, ?_⟩
  · cases harena : x.arena s with
    | none => rfl
    | some pages => exact absurd (h.resident s pages harena).1 hfalse
  · exact Bool.eq_false_iff.mpr fun hwriting => hfalse (h.writing s hwriting).1
  · exact Bool.eq_false_iff.mpr fun hpaused => hfalse (h.paused s hpaused).1
  · intro t n hchosen
    exact hfalse (h.chosen t s n hchosen).2.2
  · rintro t hpos rfl
    exact hfalse (h.child t hpos).2.2

/-- A document is admitted with its parent's pages on the columns it borrows, or borrows nothing. -/
lemma admission (h : Shares d x base) {document : ℕ} {borrowed fresh : List ℕ} {choice : Option (ℕ × ℕ)}
    (hchoice : ∀ p n, choice = some (p, n) → d.treeParent document = some p ∧ n = d.treeShared document ∧
      x.admitted p = true ∧ x.arena p ≠ none ∧ ∀ c < n / d.pageTokens, (borrowed ++ fresh).getD c 0 = base p c) :
    ∃ base', Shares d (x.admission d document borrowed fresh choice) base' := by
  rw [Executor.admission]
  split
  swap
  · exact ⟨base, h⟩
  rename_i hguard
  obtain ⟨-, hnew, hcapacity⟩ := hguard
  obtain ⟨-, hwriting, hpaused, hchosen, hchild⟩ := h.unseen hnew
  -- What the others borrow from is not the new document.
  refine ⟨Function.update base document fun c => (borrowed ++ fresh).getD c 0, ?_⟩
  have hadmitted : ∀ p, x.admitted p = true → Function.update x.admitted document true p = true := by
    intro p hp
    rcases eq_or_ne p document with rfl | hne
    · rw [Function.update_self]
    · rw [Function.update_of_ne hne]
      exact hp
  have hbase : ∀ p, x.admitted p = true → Function.update base document (fun c => (borrowed ++ fresh).getD c 0) p = base p := by
    intro p hp
    apply Function.update_of_ne
    rintro rfl
    rw [hnew] at hp
    exact Bool.false_ne_true hp
  constructor <;> dsimp only
  · exact h.numSlots
  · exact h.pageTokens
  · intro s p n hs
    rcases eq_or_ne s document with rfl | hne
    · rw [Function.update_self] at hs
      obtain ⟨htree, hn, hp, -⟩ := hchoice p n hs
      exact ⟨htree, hn, hadmitted p hp⟩
    · rw [Function.update_of_ne hne] at hs
      obtain ⟨htree, hn, hp⟩ := h.chosen s p n hs
      exact ⟨htree, hn, hadmitted p hp⟩
  · intro s p n pages hs hmoved harena c hc
    rcases eq_or_ne s document with rfl | hne
    · rw [Function.update_self] at hs harena
      cases harena
      obtain ⟨-, -, hp, -, hpages⟩ := hchoice p n hs
      rw [hbase p hp]
      exact hpages c hc
    · simp only [Function.update_of_ne hne] at hs hmoved harena
      rw [hbase p (h.chosen s p n hs).2.2]
      exact h.chosenPages s p n pages hs hmoved harena c hc
  · intro s hpos
    obtain ⟨htree, hn, hp⟩ := h.child s hpos
    exact ⟨htree, hn, hadmitted _ hp⟩
  · intro s c hc
    rw [hbase _ (h.child s (tokens_pos hc)).2.2]
    exact h.childPages s c hc
  · exact h.parent
  · exact h.lead
  · intro s pages harena
    rcases eq_or_ne s document with rfl | hne
    · rw [Function.update_self] at harena
      cases harena
      refine ⟨Function.update_self .., hcapacity, fun c _ => ?_⟩
      rw [Function.update_self]
    · rw [Function.update_of_ne hne] at harena
      obtain ⟨hs, hrest⟩ := h.resident s pages harena
      rw [hbase s hs]
      exact ⟨hadmitted s hs, hrest⟩
  · intro s hs
    obtain ⟨hseen, hrest⟩ := h.writing s hs
    exact ⟨hadmitted s hseen, hrest⟩
  · intro s hs
    have hne : s ≠ document := by
      rintro rfl
      rw [Executor.running, hwriting] at hs
      exact Bool.false_ne_true hs
    rw [Function.update_of_ne hne]
    exact h.running s hs
  · intro s hs
    have hne : s ≠ document := by
      rintro rfl
      rw [hpaused] at hs
      exact Bool.false_ne_true hs
    obtain ⟨hseen, hborrowed, hnone⟩ := h.paused s hs
    refine ⟨hadmitted s hseen, hborrowed, ?_⟩
    rw [Function.update_of_ne hne]
    exact hnone
  · intro v hv hvpaused harena
    have hne : v ≠ document := by
      rintro rfl
      rw [hwriting] at hv
      exact Bool.false_ne_true hv
    rw [Function.update_of_ne hne] at harena
    obtain ⟨hborrowed, hmoved⟩ := h.evicted v hv hvpaused harena
    refine ⟨hborrowed, fun s n hs => ?_⟩
    rcases eq_or_ne s document with rfl | hns
    · rw [Function.update_self] at hs
      exact absurd harena (hchoice v n hs).2.2.2.1
    · rw [Function.update_of_ne hns] at hs ⊢
      exact hmoved s n hs

/-- An answer starts with the pages its document was admitted with, as its parent has not been evicted since. -/
lemma start (h : Shares d x base) {document position : ℕ} (hmoved : x.moved document = false) :
    Shares d (x.start d document position) base := by
  rw [Executor.start]
  cases harena : x.arena document with
  | none => exact h
  | some pages =>
    dsimp only
    split
    swap
    · exact h
    rename_i hguard
    obtain ⟨-, hlt, hposition⟩ := hguard
    obtain ⟨hadmitted, hcapacity, -⟩ := h.resident document pages harena
    obtain ⟨p, n, hparent, hborrowed, hborrow, hlead, hpages, hnumPages, hnumSlots, hpageTokens⟩ :=
      start_spec x.kv document pages ((x.chosen document).map Prod.fst) (((x.chosen document).map Prod.snd).getD 0)
    -- A borrow is the one the document was admitted with.
    have hchosen : 0 < n → x.chosen document = some (p, n) := by
      intro hpos
      rcases hborrow with ⟨-, rfl⟩ | ⟨hp, hn, -⟩
      · exact absurd hpos (Nat.lt_irrefl 0)
      · obtain ⟨⟨p', n'⟩, hchosen, rfl⟩ := Option.map_eq_some_iff.mp hp
        rw [hchosen] at hn
        rw [hchosen, hn]
        rfl
    have hrunning : ∀ s, s ≠ document → (x.running s = true ↔
        (Function.update x.writing document true s && !x.paused s) = true) := by
      intro s hne
      rw [Function.update_of_ne hne, Executor.running]
    constructor <;> dsimp only
    · rw [hnumSlots]
      exact h.numSlots
    · rw [hpageTokens]
      exact h.pageTokens
    · exact h.chosen
    · exact h.chosenPages
    · intro s hpos
      rw [hparent]
      rw [hborrowed] at hpos ⊢
      rcases eq_or_ne s document with rfl | hne
      · rw [Function.update_self] at hpos ⊢
        rw [Function.update_self]
        exact h.chosen s p n (hchosen hpos)
      · rw [Function.update_of_ne hne] at hpos ⊢
        rw [Function.update_of_ne hne]
        exact h.child s hpos
    · intro s c hc
      rw [hparent, hpages]
      rw [hborrowed] at hc
      rcases eq_or_ne s document with rfl | hne
      · rw [Function.update_self] at hc ⊢
        have hborrows := hchosen (tokens_pos hc)
        have hn := (h.chosen s p n hborrows).2.1
        rw [setPages_pages (column_lt hcapacity (hn.le.trans (d.shared_le s)) hc)]
        exact h.chosenPages s p n pages hborrows hmoved harena c hc
      · rw [Function.update_of_ne hne] at hc ⊢
        rw [setPages_pages_of_ne hne]
        exact h.childPages s c hc
    · intro s
      rw [hparent]
      rcases eq_or_ne s document with rfl | hne
      · rw [Function.update_self]
        rcases hborrow with ⟨rfl, -⟩ | ⟨-, -, hpos⟩
        · exact Or.inl rfl
        · exact Or.inr (h.chosen s p n (hchosen hpos)).1
      · rw [Function.update_of_ne hne]
        exact h.parent s
    · intro q
      rcases hlead q with hzero | hsame | ⟨rfl, hn⟩
      · rw [hzero]
        exact ⟨Nat.dvd_zero _, Nat.zero_le _⟩
      · rw [hsame]
        exact h.lead q
      · rw [hn]
        rcases Nat.eq_zero_or_pos n with rfl | hpos
        · exact ⟨Nat.dvd_zero _, Nat.zero_le _⟩
        · obtain ⟨htree, rfl, -⟩ := h.chosen document q n (hchosen hpos)
          exact ⟨d.aligned document, d.shared_le_parent document q htree⟩
    · exact h.resident
    · intro s hs
      rcases eq_or_ne s document with rfl | hne
      · rw [Function.update_self]
        exact ⟨hadmitted, hlt, hposition⟩
      · rw [Function.update_of_ne hne] at hs ⊢
        exact h.writing s hs
    · intro s hs
      rw [hnumPages, hpages]
      rcases eq_or_ne s document with rfl | hne
      · exact ⟨pages, harena, Function.update_self .., fun c hc => setPages_pages hc⟩
      · rw [setPages_pages_of_ne hne, show (x.kv.setPages document pages).numPages s = x.kv.numPages s from
          Function.update_of_ne hne _ _]
        exact h.running s ((hrunning s hne).mpr hs)
    · intro s hs
      obtain ⟨hseen, hzero, hnone⟩ := h.paused s hs
      refine ⟨hseen, ?_, hnone⟩
      rw [hborrowed]
      rcases eq_or_ne s document with rfl | hne
      · rw [Function.update_self]
        by_contra hpos
        have hborrows := hchosen (Nat.pos_of_ne_zero hpos)
        rw [hnone] at hborrows
        exact absurd hborrows nofun
      · rw [Function.update_of_ne hne]
        exact hzero
    · intro v hv hpaused hnone
      have hne : v ≠ document := by
        rintro rfl
        rw [harena] at hnone
        exact absurd hnone nofun
      rw [Function.update_of_ne hne] at hv
      obtain ⟨hzero, hall⟩ := h.evicted v hv hpaused hnone
      refine ⟨fun s hs => ?_, hall⟩
      rw [hparent] at hs
      rw [hborrowed]
      rcases eq_or_ne s document with rfl | hns
      · rw [Function.update_self] at hs ⊢
        by_contra hpos
        have hborrows := hchosen (Nat.pos_of_ne_zero hpos)
        rw [hs] at hborrows
        rw [hall s n hborrows] at hmoved
        exact Bool.false_ne_true hmoved.symm
      · rw [Function.update_of_ne hns] at hs ⊢
        exact hzero s hs

/-- A running answer has one page more, past those of its prefix. -/
lemma growOne (h : Shares d x base) {added : ℕ × ℕ} : Shares d (x.growOne added) base := by
  obtain ⟨document, page⟩ := added
  rw [Executor.growOne]
  dsimp only
  cases harena : x.arena document with
  | none => exact h
  | some pages =>
    dsimp only
    split
    swap
    · exact h
    rename_i hrunning
    obtain ⟨pages', harena', hnumPages, hpages⟩ := h.running document hrunning
    rw [harena] at harena'
    cases harena'
    obtain ⟨hadmitted, hcapacity, hbase⟩ := h.resident document pages harena
    -- The new page is past the columns that the document shares.
    have hold : ∀ n, n ≤ d.prefixLengths document → ∀ c < n / d.pageTokens,
        (pages ++ [page]).getD c 0 = pages.getD c 0 ∧ (x.kv.addPage document page).pages document c = x.kv.pages document c := by
      intro n hn c hc
      have hlt := column_lt hcapacity hn hc
      refine ⟨?_, ?_⟩
      · rw [List.getD_eq_getElem?_getD, List.getD_eq_getElem?_getD, List.getElem?_append_left hlt]
      · rw [addPage]
        dsimp only
        rw [Function.update_self, hnumPages, Function.update_of_ne hlt.ne]
    have hothers : ∀ s, s ≠ document → (x.kv.addPage document page).pages s = x.kv.pages s :=
      fun s hne => Function.update_of_ne hne _ _
    constructor <;> dsimp only
    · exact h.numSlots
    · exact h.pageTokens
    · exact h.chosen
    · intro s p n pages' hs hmoved hs' c hc
      rcases eq_or_ne s document with rfl | hne
      · rw [Function.update_self] at hs'
        cases hs'
        have hn := (h.chosen s p n hs).2.1.le.trans (d.shared_le s)
        rw [(hold n hn c hc).1]
        exact h.chosenPages s p n pages hs hmoved harena c hc
      · rw [Function.update_of_ne hne] at hs'
        exact h.chosenPages s p n pages' hs hmoved hs' c hc
    · exact h.child
    · intro s c hc
      rcases eq_or_ne s document with rfl | hne
      · have hn := (h.child s (tokens_pos hc)).2.1.le.trans (d.shared_le s)
        rw [(hold _ hn c hc).2]
        exact h.childPages s c hc
      · rw [hothers s hne]
        exact h.childPages s c hc
    · exact h.parent
    · exact h.lead
    · intro s pages' hs
      rcases eq_or_ne s document with rfl | hne
      · rw [Function.update_self] at hs
        cases hs
        refine ⟨hadmitted, ?_, fun c hc => ?_⟩
        · rw [List.length_append]
          exact hcapacity.trans (Nat.mul_le_mul_right _ (Nat.le_add_right _ _))
        · rw [(hold _ le_rfl c hc).1]
          exact hbase c hc
      · rw [Function.update_of_ne hne] at hs
        exact h.resident s pages' hs
    · exact h.writing
    · intro s hs
      rcases eq_or_ne s document with rfl | hne
      · refine ⟨pages ++ [page], Function.update_self .., ?_, fun c hc => ?_⟩
        · rw [addPage, List.length_append]
          dsimp only
          rw [Function.update_self, hnumPages]
          rfl
        · rw [addPage]
          dsimp only
          rw [Function.update_self, hnumPages]
          rcases eq_or_ne c pages.length with rfl | hlast
          · rw [Function.update_self, List.getD_eq_getElem?_getD, List.getElem?_append_right le_rfl, Nat.sub_self]
            rfl
          · rw [List.length_append, List.length_singleton] at hc
            have hlt : c < pages.length := by omega
            rw [Function.update_of_ne hlast, hpages c hlt, List.getD_eq_getElem?_getD, List.getD_eq_getElem?_getD,
              List.getElem?_append_left hlt]
      · rw [Function.update_of_ne hne, hothers s hne, show (x.kv.addPage document page).numPages s = x.kv.numPages s
          from Function.update_of_ne hne _ _]
        exact h.running s hs
    · exact h.paused
    · intro v hv hpaused hnone
      have hne : v ≠ document := by
        rintro rfl
        rw [Function.update_self] at hnone
        exact absurd hnone nofun
      rw [Function.update_of_ne hne] at hnone
      exact h.evicted v hv hpaused hnone

/-- The slots that borrow from an evicted answer borrow nothing from then on. -/
lemma evict (h : Shares d x base) {victim : ℕ} : Shares d (x.evict victim) base := by
  rw [Executor.evict]
  split
  swap
  · exact h
  rename_i hvictim
  rw [Executor.running, Bool.and_eq_true] at hvictim
  have hdetached : ∀ s, x.kv.detached victim s = true ↔ x.kv.parent s = victim ∨ s = victim :=
    fun s => decide_eq_true_iff
  -- A slot is detached and borrows nothing, or is as before.
  have hslot : ∀ s, (x.kv.detached victim s = true ∧ (x.kv.detach victim).parent s = s ∧
        (x.kv.detach victim).borrowed s = 0) ∨
      (¬x.kv.detached victim s = true ∧ (x.kv.detach victim).parent s = x.kv.parent s ∧
        (x.kv.detach victim).borrowed s = x.kv.borrowed s) := by
    intro s
    by_cases hs : x.kv.parent s = victim ∨ s = victim
    · exact Or.inl ⟨(hdetached s).mpr hs, if_pos hs, if_pos hs⟩
    · exact Or.inr ⟨fun hdet => hs ((hdetached s).mp hdet), if_neg hs, if_neg hs⟩
  have hborrows : ∀ s, 0 < (x.kv.detach victim).borrowed s →
      (x.kv.detach victim).parent s = x.kv.parent s ∧ (x.kv.detach victim).borrowed s = x.kv.borrowed s := by
    intro s hpos
    rcases hslot s with ⟨-, -, hzero⟩ | ⟨-, hsame⟩
    · rw [hzero] at hpos
      exact absurd hpos (Nat.lt_irrefl 0)
    · exact hsame
  have hchosen : ∀ s c, (if x.kv.detached victim s then none else x.chosen s) = some c →
      ¬x.kv.detached victim s = true ∧ x.chosen s = some c := by
    intro s c hs
    split at hs
    · exact absurd hs nofun
    · exact ⟨‹_›, hs⟩
  constructor <;> dsimp only
  · exact h.numSlots
  · exact h.pageTokens
  · intro s p n hs
    exact h.chosen s p n (hchosen s _ hs).2
  · intro s p n pages hs hmoved harena c hc
    rcases eq_or_ne s victim with rfl | hne
    · rw [Function.update_self] at harena
      exact absurd harena nofun
    · rw [Function.update_of_ne hne] at harena
      exact h.chosenPages s p n pages (hchosen s _ hs).2 (Bool.or_eq_false_iff.mp hmoved).1 harena c hc
  · intro s hpos
    obtain ⟨hparent, hsame⟩ := hborrows s hpos
    rw [hparent, hsame]
    rw [hsame] at hpos
    exact h.child s hpos
  · intro s c hc
    obtain ⟨hparent, hsame⟩ := hborrows s (tokens_pos hc)
    rw [hparent]
    rw [hsame] at hc
    exact h.childPages s c hc
  · intro s
    rcases hslot s with ⟨-, hself, -⟩ | ⟨-, hsame, -⟩
    · exact Or.inl hself
    · rw [hsame]
      exact h.parent s
  · intro p
    apply detach_lead (P := fun n => d.pageTokens ∣ n ∧ n ≤ d.prefixLengths p)
    · exact ⟨Nat.dvd_zero _, Nat.zero_le _⟩
    · intro s hs
      rcases Nat.eq_zero_or_pos ((x.kv.detach victim).borrowed s) with hzero | hpos
      · rw [hzero]
        exact ⟨Nat.dvd_zero _, Nat.zero_le _⟩
      · obtain ⟨hparent, hsame⟩ := hborrows s hpos
        rw [hsame] at hpos ⊢
        obtain ⟨htree, hshared, -⟩ := h.child s hpos
        rw [← hparent, hs] at htree
        rw [hshared]
        exact ⟨d.aligned s, d.shared_le_parent s p htree⟩
  · intro s pages harena
    rcases eq_or_ne s victim with rfl | hne
    · rw [Function.update_self] at harena
      exact absurd harena nofun
    · rw [Function.update_of_ne hne] at harena
      exact h.resident s pages harena
  · exact h.writing
  · intro s hs
    rw [Executor.running] at hs
    dsimp only at hs
    rcases eq_or_ne s victim with rfl | hne
    · rw [Function.update_self, Bool.not_true, Bool.and_false] at hs
      exact absurd hs Bool.false_ne_true
    · rw [Function.update_of_ne hne] at hs ⊢
      exact h.running s hs
  · intro s hs
    rcases eq_or_ne s victim with rfl | hne
    · have hself := (hdetached s).mpr (Or.inr rfl)
      exact ⟨(h.writing s hvictim.1).1, if_pos (Or.inr rfl), if_pos hself⟩
    · rw [Function.update_of_ne hne] at hs
      obtain ⟨hadmitted, hzero, hnone⟩ := h.paused s hs
      refine ⟨hadmitted, ?_, ?_⟩
      · rcases hslot s with ⟨-, -, hself⟩ | ⟨-, -, hsame⟩
        · exact hself
        · rw [hsame]
          exact hzero
      · rw [hnone, ite_self]
  · intro v hv hpaused hnone
    rcases eq_or_ne v victim with rfl | hne
    · refine ⟨fun s hs => ?_, fun s n hs => ?_⟩
      · rcases hslot s with ⟨-, -, hzero⟩ | ⟨hnot, hparent, -⟩
        · exact hzero
        · rw [hparent] at hs
          exact absurd ((hdetached s).mpr (Or.inl hs)) hnot
      · refine Bool.or_eq_true_iff.mpr (Or.inr (decide_eq_true ?_))
        rw [hs]
        rfl
    · rw [Function.update_of_ne hne] at hpaused hnone
      obtain ⟨hzero, hall⟩ := h.evicted v hv hpaused hnone
      refine ⟨fun s hs => ?_, fun s n hs => ?_⟩
      · rcases hslot s with ⟨-, -, hself⟩ | ⟨-, hparent, hsame⟩
        · exact hself
        · rw [hparent] at hs
          rw [hsame]
          exact hzero s hs
      · exact Bool.or_eq_true_iff.mpr (Or.inl (hall s n (hchosen s _ hs).2))

/-- An evicted answer, which borrows nothing and from which nothing borrows, has pages again. -/
lemma reserve (h : Shares d x base) {victim : ℕ} {pages : List ℕ} :
    ∃ base', Shares d (x.reserve d victim pages) base' := by
  rw [Executor.reserve]
  split
  swap
  · exact ⟨base, h⟩
  rename_i hguard
  obtain ⟨hwriting, hpaused, hnone, hcapacity⟩ := hguard
  obtain ⟨hadmitted, hzero, hchosen⟩ := h.paused victim hpaused
  obtain ⟨hlends, hall⟩ := h.evicted victim hwriting hpaused hnone
  refine ⟨Function.update base victim fun c => pages.getD c 0, ?_⟩
  constructor <;> dsimp only
  · exact h.numSlots
  · exact h.pageTokens
  · exact h.chosen
  · intro s p n pages' hs hmoved harena c hc
    have hp : p ≠ victim := by
      rintro rfl
      rw [hall s n hs] at hmoved
      exact Bool.false_ne_true hmoved.symm
    have hne : s ≠ victim := by
      rintro rfl
      rw [hchosen] at hs
      exact absurd hs nofun
    rw [Function.update_of_ne hne] at harena
    rw [Function.update_of_ne hp]
    exact h.chosenPages s p n pages' hs hmoved harena c hc
  · exact h.child
  · intro s c hc
    have hpos : 0 < x.kv.borrowed s := tokens_pos hc
    have hp : x.kv.parent s ≠ victim := fun hp => hpos.ne' (hlends s hp)
    have hne : s ≠ victim := by
      rintro rfl
      exact hpos.ne' hzero
    rw [setPages_pages_of_ne hne, show (x.kv.setPages victim pages).parent s = x.kv.parent s from rfl,
      Function.update_of_ne hp]
    exact h.childPages s c hc
  · exact h.parent
  · exact h.lead
  · intro s pages' harena
    rcases eq_or_ne s victim with rfl | hne
    · rw [Function.update_self] at harena
      cases harena
      refine ⟨hadmitted, hcapacity, fun c _ => ?_⟩
      rw [Function.update_self]
    · rw [Function.update_of_ne hne] at harena ⊢
      exact h.resident s pages' harena
  · exact h.writing
  · intro s hs
    have hne : s ≠ victim := by
      rintro rfl
      rw [Executor.running] at hs
      dsimp only at hs
      rw [hpaused, Bool.not_true, Bool.and_false] at hs
      exact Bool.false_ne_true hs
    rw [Function.update_of_ne hne, setPages_pages_of_ne hne,
      show (x.kv.setPages victim pages).numPages s = x.kv.numPages s from Function.update_of_ne hne _ _]
    exact h.running s hs
  · exact h.paused
  · intro v hv hvpaused hvnone
    have hne : v ≠ victim := by
      rintro rfl
      rw [Function.update_self] at hvnone
      exact absurd hvnone nofun
    rw [Function.update_of_ne hne] at hvnone
    exact h.evicted v hv hvpaused hvnone

lemma resume (h : Shares d x base) {victim : ℕ} : Shares d (x.resume victim) base := by
  rw [Executor.resume]
  cases harena : x.arena victim with
  | none => exact h
  | some pages =>
    dsimp only
    split
    swap
    · exact h
    rename_i hguard
    obtain ⟨-, hpaused⟩ := hguard
    obtain ⟨-, hzero, -⟩ := h.paused victim hpaused
    constructor <;> dsimp only
    · exact h.numSlots
    · exact h.pageTokens
    · exact h.chosen
    · exact h.chosenPages
    · exact h.child
    · intro s c hc
      have hne : s ≠ victim := by
        rintro rfl
        exact (tokens_pos (d := d) hc).ne' hzero
      rw [setPages_pages_of_ne hne]
      exact h.childPages s c hc
    · exact h.parent
    · exact h.lead
    · exact h.resident
    · exact h.writing
    · intro s hs
      rcases eq_or_ne s victim with rfl | hne
      · exact ⟨pages, harena, Function.update_self .., fun c hc => setPages_pages hc⟩
      · rw [Executor.running] at hs
        dsimp only at hs
        rw [Function.update_of_ne hne] at hs
        rw [setPages_pages_of_ne hne,
          show (x.kv.setPages victim pages).numPages s = x.kv.numPages s from Function.update_of_ne hne _ _]
        exact h.running s hs
    · intro s hs
      rcases eq_or_ne s victim with rfl | hne
      · rw [Function.update_self] at hs
        exact absurd hs Bool.false_ne_true
      · rw [Function.update_of_ne hne] at hs
        exact h.paused s hs
    · intro v hv hvpaused hnone
      have hne : v ≠ victim := by
        rintro rfl
        rw [harena] at hnone
        exact absurd hnone nofun
      rw [Function.update_of_ne hne] at hvpaused
      exact h.evicted v hv hvpaused hnone

/-- Answers may end. -/
lemma finish (h : Shares d x base) {document : ℕ} :
    Shares d { x with writing := Function.update x.writing document false } base := by
  have hwriting : ∀ s, Function.update x.writing document false s = true → x.writing s = true := by
    intro s hs
    rcases eq_or_ne s document with rfl | hne
    · rw [Function.update_self] at hs
      exact absurd hs Bool.false_ne_true
    · rw [Function.update_of_ne hne] at hs
      exact hs
  exact { h with
    writing := fun s hs => h.writing s (hwriting s hs)
    running := fun s hs => by
      have hboth := Bool.and_eq_true_iff.mp hs
      exact h.running s (Bool.and_eq_true_iff.mpr ⟨hwriting s hboth.1, hboth.2⟩)
    evicted := fun v hv => h.evicted v (hwriting v hv) }

/-- A document that writes no answer may be freed. -/
lemma free (h : Shares d x base) {document : ℕ} (hdone : x.writing document = false) :
    Shares d { x with arena := Function.update x.arena document none } base := by
  have harena : ∀ s pages, Function.update x.arena document none s = some pages → x.arena s = some pages := by
    intro s pages hs
    rcases eq_or_ne s document with rfl | hne
    · rw [Function.update_self] at hs
      exact absurd hs nofun
    · rw [Function.update_of_ne hne] at hs
      exact hs
  have hother : ∀ s, x.writing s = true → Function.update x.arena document none s = x.arena s := by
    intro s hs
    apply Function.update_of_ne
    rintro rfl
    rw [hdone] at hs
    exact Bool.false_ne_true hs
  exact { h with
    chosenPages := fun s p n pages hs hmoved hpages => h.chosenPages s p n pages hs hmoved (harena s pages hpages)
    resident := fun s pages hpages => h.resident s pages (harena s pages hpages)
    running := fun s hs => by
      dsimp only
      rw [hother s (Bool.and_eq_true_iff.mp hs).1]
      exact h.running s hs
    evicted := fun v hv hpaused hnone => by
      dsimp only at hv hnone
      rw [hother v hv] at hnone
      exact h.evicted v hv hpaused hnone }

lemma new : Shares d (Executor.new d) fun _ _ => 0 where
  numSlots := rfl
  pageTokens := rfl
  chosen _ _ _ := nofun
  chosenPages _ _ _ _ := nofun
  child _ hpos := absurd hpos (Nat.lt_irrefl 0)
  childPages _ _ _ := rfl
  parent _ := Or.inl rfl
  lead _ := ⟨Nat.dvd_zero _, Nat.zero_le _⟩
  resident _ _ := nofun
  writing _ := nofun
  running _ := nofun
  paused _ := nofun
  evicted _ := nofun

/-- Every step keeps it, where answers start before their parents are evicted. -/
lemma step (h : Shares d x base) (e : Event) (hunmoved : x.Unmoved e) :
    ∃ base', Shares d (Executor.step d x e) base' := by
  cases e with
  | admission document borrows fresh =>
    cases borrows with
    | false => exact h.admission nofun
    | true =>
      rw [Executor.step]
      cases hlender : x.lender d document with
      | none => exact ⟨base, h⟩
      | some found =>
        obtain ⟨p, pages⟩ := found
        obtain ⟨p', htree, hpages⟩ := Option.bind_eq_some_iff.mp hlender
        obtain ⟨pages', harena, heq⟩ := Option.map_eq_some_iff.mp hpages
        cases heq
        obtain ⟨hadmitted, hcapacity, hbase⟩ := h.resident p pages harena
        apply h.admission
        intro p' n heq
        cases heq
        refine ⟨htree, rfl, hadmitted, ?_, fun c hc => ?_⟩
        · rw [harena]
          exact nofun
        · -- The borrowed columns are whole pages of the parent's prefix.
          have hshared := d.shared_le_parent document p htree
          have hlt := column_lt hcapacity hshared hc
          rw [← hbase c (hc.trans_le (Nat.div_le_div_right hshared)), List.getD_eq_getElem?_getD,
            List.getD_eq_getElem?_getD, List.getElem?_append_left (by rw [List.length_take]; omega),
            List.getElem?_take_of_lt hc]
  | start document position => exact ⟨base, h.start hunmoved⟩
  | grow added =>
    refine ⟨base, ?_⟩
    rw [Executor.step]
    split
    · clear hunmoved
      rename_i hnodup
      clear hnodup
      induction added generalizing x with
      | nil => exact h
      | cons a added ih => exact ih h.growOne
    · exact h
  | evict victim => exact ⟨base, h.evict⟩
  | reserve victim pages => exact h.reserve
  | resume victim => exact ⟨base, h.resume⟩
  | finish document => exact ⟨base, h.finish⟩
  | free document =>
    refine ⟨base, ?_⟩
    rw [Executor.step]
    split
    · exact h
    · rename_i hdone
      exact h.free (Bool.not_eq_true _ ▸ hdone)

end Shares

/-- In every run whose answers start before the parents that their documents borrow from are evicted, the
layout of running rows is plain paged attention in every state reached. -/
theorem Executor.reached_plain (d : Documents) (events : List Event)
    (hevents : EachStep (step d) Unmoved (new d) events) : (run (step d) (new d) events).Plain := by
  have hreached := run_invariant (I := fun x => ∃ base, Shares d x base)
    (fun x e hx hunmoved => hx.elim fun _ h => h.step e hunmoved) ⟨_, Shares.new⟩ hevents
  obtain ⟨base, h⟩ := hreached
  exact h.plain

/-- Two documents with pages of two tokens, the second sharing the first page of the first. -/
def Documents.pair : Documents where
  numSlots := 2
  pageTokens := 2
  prefixLengths _ := 4
  treeParent s := if s = 1 then some 0 else none
  treeShared _ := 2
  pageTokens_pos := Nat.zero_lt_two
  aligned _ := ⟨1, rfl⟩
  shared_le _ := by omega
  shared_le_parent _ _ _ := by omega
  parent_ne s p h := by
    split at h
    · cases h
      omega
    · exact absurd h nofun
  parent_lt s p h := by
    split at h
    · cases h
      omega
    · exact absurd h nofun

/-- Both answers start, the second borrowing, the first is evicted and resumes on other pages. -/
theorem Executor.reached_plain_pair :
    (run (step .pair) (new .pair) [.admission 0 false [1, 2, 5], .admission 1 true [3, 4], .start 0 4, .start 1 4,
      .evict 0, .reserve 0 [6, 7, 8], .resume 0]).Plain :=
  reached_plain .pair _ ⟨trivial, trivial, rfl, rfl, trivial, trivial, trivial, trivial⟩

/-- Where the second document's answer starts after the first is evicted, it is grouped with an answer that has
other pages, and reads those. -/
theorem Executor.start_after_evict : ¬∀ (d : Documents) (events : List Event), (run (step d) (new d) events).Plain := by
  intro hplain
  have hrows : (run (step .pair) (new .pair) [.admission 0 false [1, 2, 5], .admission 1 true [3, 4], .start 0 4,
      .evict 0, .reserve 0 [6, 7, 8], .resume 0, .start 1 4]).Rows [0, 1] [4, 4] := by
    intro i hi
    match i, hi with
    | 0, _ => exact ⟨rfl, le_rfl⟩
    | 1, _ => exact ⟨rfl, le_rfl⟩
  obtain ⟨hreads, -⟩ := hplain .pair _ [0, 1] [4, 4] true _ hrows rfl 1 Nat.one_lt_two
  exact absurd hreads (by decide)

end Quail.Decode
