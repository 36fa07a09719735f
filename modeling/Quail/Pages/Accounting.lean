import Quail.Pages.Arena

/-!
# Page accounting

Every page of the arena is either free or held: the count of a page's holders is the number of
resident keys whose block table reads it, and a page is on the free list exactly when that count is
zero. `Counts` is the invariant, with what its preservation needs beside that: no table repeats a
page and no page has two owners. `Counts.acquire` and `Counts.release` are the two ways pages move;
every operation of the arena is one of them or moves none.
-/

set_option linter.unusedSectionVars false

namespace Quail.Pages
open Imperative

variable {κ π : Type} [DecidableEq κ]

/-- A key's share of the holders of a page. -/
def holding (p : Page) (_ : κ) (r : Resident) : ℤ := if p ∈ r.table then 1 else 0

/-- The accounting of the pages: holders are counted, and the rest is free. -/
structure Counts (n : ℕ) (free : List Page) (docs : Dict κ Resident) (holds : Page → ℤ) : Prop where
  holders : ∀ p, holds p = docs.total (holding p)
  freeNodup : free.Nodup
  free_iff : ∀ p, p ∈ free ↔ p < n ∧ holds p = 0
  tableNodup : ∀ k r, docs.get? k = some r → r.table.Nodup
  tableBound : ∀ k r, docs.get? k = some r → ∀ p ∈ r.table, p < n
  oneOwner : ∀ k k' r r' p, docs.get? k = some r → docs.get? k' = some r' →
    p ∈ r.owned → p ∈ r'.owned → k = k'

/-- The pages of the arena are accounted for. -/
def Accounted (s : PageArena κ π) : Prop := Counts s.numPages s.free s.docs s.holds

lemma total_holding_nonneg {docs : Dict κ Resident} (p : Page) : 0 ≤ docs.total (holding p) := by
  refine Dict.total_nonneg fun k r => ?_
  unfold holding
  split <;> omega

/-- A page of a resident key's table has a holder. -/
lemma Counts.holds_pos {n free holds} {docs : Dict κ Resident} (h : Counts n free docs holds)
    {k r p} (hk : docs.get? k = some r) (hp : p ∈ r.table) : 0 < holds p := by
  have hsplit := Dict.total_erase (f := holding p) (d := docs) (k := k)
  have hrest : 0 ≤ (docs.erase k).total (holding p) := total_holding_nonneg p
  have hpart : docs.part (holding p) k = 1 := by simp [Dict.part, hk, holding, hp]
  rw [h.holders p]
  omega

/-- A page of a resident key's table is not free. -/
lemma Counts.not_mem_free {n free holds} {docs : Dict κ Resident} (h : Counts n free docs holds)
    {k r p} (hk : docs.get? k = some r) (hp : p ∈ r.table) : p ∉ free := by
  intro hf
  have := h.holds_pos hk hp
  have := ((h.free_iff p).1 hf).2
  omega

lemma mem_table_of_mem_owned {r : Resident} {p : Page} (h : p ∈ r.owned) : p ∈ r.table :=
  List.mem_append_right _ h

/-- Giving key `k` the record `r'` keeps the accounting when its table gains exactly the pages that
gain a holder: pages another key holds, and pages from the top of the free list. -/
lemma Counts.acquire {n free holds} {docs : Dict κ Resident} (h : Counts n free docs holds)
    {k r' added rest} (shared : List Page) (hfree : free = added ++ rest)
    (hshared : ∀ p ∈ shared, p < n ∧ p ∉ free)
    (hnodup : r'.table.Nodup)
    (hold : ∀ p, holding p k r' - docs.part (holding p) k =
      if p ∈ shared ++ added then 1 else 0)
    (htable : ∀ p ∈ r'.table, p ∈ shared ++ added ∨ ∃ r, docs.get? k = some r ∧ p ∈ r.table)
    (howned : ∀ p ∈ r'.owned, p ∈ added ∨ ∃ r, docs.get? k = some r ∧ p ∈ r.owned) :
    Counts n rest (docs.set k r') (addHolds holds (shared ++ added)) := by
  subst hfree
  have hnd := List.nodup_append.1 h.freeNodup
  have hadded : ∀ p ∈ added, p < n ∧ holds p = 0 := fun p hp =>
    (h.free_iff p).1 (List.mem_append_left _ hp)
  -- a page just taken from the free list is in no table
  have hfresh : ∀ k' r p, docs.get? k' = some r → p ∈ r.table → p ∉ added :=
    fun k' r p hk' hp ha => h.not_mem_free hk' hp (List.mem_append_left _ ha)
  refine ⟨fun p => ?_, hnd.2.1, fun p => ?_, ?_, ?_, ?_⟩
  · have hp := hold p
    rw [Dict.total_set, ← h.holders p]
    unfold addHolds
    split_ifs at hp ⊢ <;> omega
  · have hnn : 0 ≤ holds p := h.holders p ▸ total_holding_nonneg p
    have hiff := h.free_iff p
    rw [List.mem_append] at hiff
    by_cases hg : p ∈ shared ++ added
    · have hrest : p ∉ rest := by
        rcases List.mem_append.1 hg with hs | ha
        · exact fun hr => (hshared p hs).2 (List.mem_append_right _ hr)
        · exact fun hr => hnd.2.2 p ha p hr rfl
      simp only [addHolds, if_pos hg, hrest, false_iff]
      omega
    · have ha : p ∉ added := fun ha => hg (List.mem_append_right _ ha)
      simp only [addHolds, if_neg hg]
      tauto
  · intro k' r hr
    rw [Dict.get?_set] at hr
    split_ifs at hr with hk
    · exact (Option.some.inj hr) ▸ hnodup
    · exact h.tableNodup k' r hr
  · intro k' r hr p hp
    rw [Dict.get?_set] at hr
    split_ifs at hr with hk
    · obtain rfl := Option.some.inj hr
      rcases htable p hp with hg | ⟨r, hr, hp⟩
      · rcases List.mem_append.1 hg with hs | ha
        · exact (hshared p hs).1
        · exact (hadded p ha).1
      · exact h.tableBound k r hr p hp
    · exact h.tableBound k' r hr p hp
  · -- an owner of a page under `k` either had it, or it was free and had no other owner
    have key : ∀ k' r p, k ≠ k' → docs.get? k' = some r → p ∈ r'.owned → p ∉ r.owned := by
      intro k' r p hne hr hp' hp
      rcases howned p hp' with ha | ⟨r0, hr0, hp0⟩
      · exact hfresh k' r p hr (mem_table_of_mem_owned hp) ha
      · exact hne (h.oneOwner k k' r0 r p hr0 hr hp0 hp)
    intro k1 k2 r1 r2 p h1 h2 hp1 hp2
    rw [Dict.get?_set] at h1 h2
    split_ifs at h1 h2 with e1 e2 e2
    · exact e1.symm.trans e2
    · obtain rfl := Option.some.inj h1
      exact absurd hp2 (key k2 r2 p e2 h2 hp1)
    · obtain rfl := Option.some.inj h2
      exact absurd hp1 (key k1 r1 p e1 h1 hp2)
    · exact h.oneOwner k1 k2 r1 r2 p h1 h2 hp1 hp2

/-- Dropping pages of one key keeps the accounting: each loses a holder, and those that had no other
go back to the free list. -/
lemma Counts.release {n free holds} {docs docs' : Dict κ Resident} (h : Counts n free docs holds)
    {k r dropped} (hk : docs.get? k = some r) (hnodup : dropped.Nodup)
    (hdropped : ∀ p ∈ dropped, p ∈ r.table)
    (htotal : ∀ p, docs'.total (holding p) =
      docs.total (holding p) - if p ∈ dropped then 1 else 0)
    (hsub : ∀ k' r', docs'.get? k' = some r' → ∃ r, docs.get? k' = some r ∧
      r'.table.Sublist r.table ∧ r'.owned.Sublist r.owned) :
    Counts n ((dropped.filter fun p => subHolds holds dropped p = 0).reverse ++ free) docs'
      (subHolds holds dropped) := by
  have hpos : ∀ p ∈ dropped, 0 < holds p := fun p hp => h.holds_pos hk (hdropped p hp)
  have hnot : ∀ p ∈ dropped, p ∉ free := fun p hp => h.not_mem_free hk (hdropped p hp)
  refine ⟨fun p => ?_, ?_, fun p => ?_, ?_, ?_, ?_⟩
  · rw [htotal, ← h.holders p]
    unfold subHolds
    split <;> omega
  · rw [List.nodup_append]
    refine ⟨List.nodup_reverse.2 (hnodup.filter _), h.freeNodup, ?_⟩
    rintro p hp q hq rfl
    exact hnot p (List.mem_of_mem_filter (List.mem_reverse.1 hp)) hq
  · have hiff := h.free_iff p
    rw [List.mem_append, List.mem_reverse, List.mem_filter, decide_eq_true_eq]
    by_cases hp : p ∈ dropped
    · have := hnot p hp
      have := h.tableBound k r hk p (hdropped p hp)
      tauto
    · simp only [subHolds, if_neg hp]
      tauto
  · intro k' r' hr'
    obtain ⟨r, hr, hs, _⟩ := hsub k' r' hr'
    exact (h.tableNodup k' r hr).sublist hs
  · intro k' r' hr' p hp
    obtain ⟨r, hr, hs, _⟩ := hsub k' r' hr'
    exact h.tableBound k' r hr p (hs.subset hp)
  · intro k1 k2 r1 r2 p h1 h2 hp1 hp2
    obtain ⟨r1', h1', _, s1⟩ := hsub k1 r1 h1
    obtain ⟨r2', h2', _, s2⟩ := hsub k2 r2 h2
    exact h.oneOwner k1 k2 r1' r2' p h1' h2' (s1.subset hp1) (s2.subset hp2)

/-! ## The operations -/

section operations
variable [ToString κ] [LinearOrder π]

@[simp] lemma wp_resident {key : κ} {Q : Resident → PageArena κ π → Prop}
    {E : PyError → PageArena κ π → Prop} {s : PageArena κ π} :
    wp (resident key) Q E s ↔
      (∀ r, s.docs.get? key = some r → Q r s) ∧
      (s.docs.get? key = none → E (.key s!"{key}") s) := by
  unfold resident
  simp only [wp_bind, wp_get]
  cases s.docs.get? key <;> simp

@[simp] lemma wp_needed {tokens : ℤ} {Q : ℤ → PageArena κ π → Prop}
    {E : PyError → PageArena κ π → Prop} {s : PageArena κ π} :
    wp (needed tokens) Q E s ↔
      (s.pageTokens = 0 → E .zeroDivision s) ∧
      (s.pageTokens ≠ 0 → Q (pagesNeeded s.pageTokens tokens) s) := by
  unfold needed
  simp

@[simp] lemma wp_releasePages {pages : List Page} {Q : ℤ → PageArena κ π → Prop}
    {E : PyError → PageArena κ π → Prop} {s : PageArena κ π} :
    wp (releasePages pages) Q E s ↔
      Q (pages.filter fun p => subHolds s.holds pages p = 0).length { s with
        holds := subHolds s.holds pages
        free := (pages.filter fun p => subHolds s.holds pages p = 0).reverse ++ s.free } := by
  unfold releasePages
  simp

/-- A new key takes pages from the free list and borrows pages that a resident key holds. -/
lemma alloc_accounted {key : κ} {tokens : ℤ} {capacity : Option ℤ} {borrowed : List Page}
    {s : PageArena κ π} (h : Accounted s) (hnodup : borrowed.Nodup)
    (hheld : ∀ p ∈ borrowed, p < s.numPages ∧ p ∉ s.free) :
    wp (alloc key tokens capacity borrowed) (fun _ => Accounted) (fun _ => Accounted) s := by
  unfold alloc
  simp only [wp_bind, wp_get, wp_ite, wp_throw, wp_pure, wp_needed, wp_set]
  refine ⟨fun _ => h, fun hk => ⟨fun _ => h, fun _ => ⟨fun _ => h, fun _ => ⟨fun _ => h, fun _ =>
    ⟨fun _ => h, fun _ => ?_⟩⟩⟩⟩⟩
  generalize (pagesNeeded s.pageTokens (capacity.getD tokens) - (borrowed.length : ℤ)).toNat = n
  have hnone : s.docs.get? key = none := Dict.contains_eq_false.1 (Bool.eq_false_iff.2 hk)
  have htaken : ∀ p ∈ s.free.take n, p ∈ s.free := fun p hp => List.mem_of_mem_take hp
  refine Counts.acquire h borrowed (List.take_append_drop n s.free).symm hheld ?_ (fun p => ?_) ?_ ?_
  · refine List.nodup_append.2 ⟨hnodup, h.freeNodup.sublist (List.take_sublist _ _), ?_⟩
    rintro p hp q hq rfl
    exact (hheld p hp).2 (htaken p hq)
  · simp [holding, Resident.table, Dict.part, hnone]
  · exact fun p hp => .inl hp
  · exact fun p hp => .inl hp

/-- What `shared_pages` returns are distinct pages of a resident key. -/
lemma sharedPages_spec {parent : κ} {shared start : ℤ} {s : PageArena κ π} :
    wp (sharedPages parent shared start)
      (fun pages s' => s' = s ∧ ∃ r, s.docs.get? parent = some r ∧ pages.Sublist r.table)
      (fun _ s' => s' = s) s := by
  unfold sharedPages
  simp only [wp_bind, wp_get, wp_ite, wp_throw]
  refine ⟨fun _ => trivial, fun _ => ⟨fun _ => trivial, fun _ => ?_⟩⟩
  cases hr : s.docs.get? parent with
  | none => simp
  | some r =>
    simp only [wp_bind, wp_ite, wp_throw, wp_pure]
    exact ⟨fun _ => trivial, fun _ => ⟨trivial, r, rfl, Slice.between_sublist⟩⟩

/-- Replacing a key's record by one whose table lost the pages that are released. -/
lemma Counts.shrink {n free holds} {docs : Dict κ Resident} (h : Counts n free docs holds)
    {k r} (r' : Resident) (dropped : List Page) (hk : docs.get? k = some r)
    (hperm : (dropped ++ r'.table).Perm r.table)
    (hs : r'.table.Sublist r.table) (ho : r'.owned.Sublist r.owned) :
    Counts n ((dropped.filter fun p => subHolds holds dropped p = 0).reverse ++ free)
      (docs.set k r') (subHolds holds dropped) := by
  have hnd := hperm.symm.nodup (h.tableNodup k r hk)
  have hsplit := List.nodup_append.1 hnd
  refine h.release hk hsplit.1 (fun p hp => hperm.subset (List.mem_append_left _ hp))
    (fun p => ?_) (fun k' r0 hr0 => ?_)
  · have hmem := hperm.mem_iff (a := p)
    have hdisj : p ∈ dropped → p ∉ r'.table := fun hd ht => hsplit.2.2 p hd p ht rfl
    rw [List.mem_append] at hmem
    rw [Dict.total_set, Dict.part, hk, Option.elim_some]
    unfold holding
    split_ifs <;> first | omega | tauto
  · rw [Dict.get?_set] at hr0
    split_ifs at hr0 with he
    · obtain rfl := Option.some.inj hr0
      exact ⟨r, he ▸ hk, hs, ho⟩
    · exact ⟨r0, hr0, .refl _, .refl _⟩

/-- A resident key takes pages from the top of the free list. -/
lemma Counts.extend {n free holds} {docs : Dict κ Resident} (h : Counts n free docs holds)
    {k r rest} (added : List Page) (hk : docs.get? k = some r) (hfree : free = added ++ rest) :
    Counts n rest (docs.set k { r with owned := r.owned ++ added }) (addHolds holds added) := by
  have hfresh : ∀ p ∈ r.table, p ∉ added := fun p hp ha =>
    h.not_mem_free hk hp (hfree ▸ List.mem_append_left _ ha)
  have htable : Resident.table { r with owned := r.owned ++ added } = r.table ++ added :=
    (List.append_assoc ..).symm
  have hnd : added.Nodup := (List.nodup_append.1 (hfree ▸ h.freeNodup)).1
  refine h.acquire [] hfree (fun p hp => nomatch hp) ?_ (fun p => ?_) ?_ ?_
  · rw [htable, List.nodup_append]
    refine ⟨h.tableNodup k r hk, hnd, ?_⟩
    rintro p hp q hq rfl
    exact hfresh p hp hq
  · have := hfresh p
    simp only [holding, htable, List.mem_append, Dict.part, hk, Option.elim_some, List.nil_append]
    split_ifs <;> first | omega | tauto
  · intro p hp
    rw [htable, List.mem_append] at hp
    exact hp.symm.imp id fun hp => ⟨r, hk, hp⟩
  · intro p hp
    exact (List.mem_append.1 hp).symm.imp id fun hp => ⟨r, hk, hp⟩

/-- Removing a key releases its whole table. -/
lemma Counts.remove {n free holds} {docs : Dict κ Resident} (h : Counts n free docs holds)
    {k r} (hk : docs.get? k = some r) :
    Counts n ((r.table.filter fun p => subHolds holds r.table p = 0).reverse ++ free)
      (docs.erase k) (subHolds holds r.table) := by
  refine h.release hk (h.tableNodup k r hk) (fun _ hp => hp) (fun p => ?_) (fun k' r' hr' => ?_)
  · rw [Dict.total_erase, Dict.part, hk, Option.elim_some]
    rfl
  · rw [Dict.get?_erase] at hr'
    split_ifs at hr' with he
    exact ⟨r', hr', .refl _, .refl _⟩

lemma dropLeading_accounted (key : κ) (pages : ℤ) :
    Preserves Accounted (dropLeading (π := π) key pages) := by
  intro s h
  unfold dropLeading
  simp only [wp_bind, wp_resident, wp_modify, wp_releasePages]
  refine ⟨fun r hr => ?_, fun _ => h⟩
  generalize min pages (r.borrowed.length : ℤ) = i
  refine Counts.shrink h _ _ hr ?_ ?_ Slice.after_sublist
  · have hsplit : r.table = Slice.before r.borrowed i ++ (Slice.after r.borrowed i ++
        (Slice.before r.owned (pages - i) ++ Slice.after r.owned (pages - i))) := by
      rw [Slice.split, ← List.append_assoc, Slice.split]
      rfl
    rw [hsplit, Resident.table, List.append_assoc]
    exact (List.perm_append_comm_assoc _ _ _).append_left _
  · exact Slice.after_sublist.append Slice.after_sublist

lemma freeKey_accounted (key : κ) : Preserves Accounted (freeKey (π := π) key) := by
  intro s h
  unfold freeKey dropExtension dropShares forgetRetained
  simp only [wp_bind, wp_get, wp_resident, wp_modify, wp_releasePages]
  exact ⟨fun r hr => Counts.remove h hr, fun _ => h⟩

lemma pin_accounted (key : κ) : Preserves Accounted (pin (π := π) key) := by
  intro s h
  unfold pin forgetRetained
  simp only [wp_bind, wp_resident, wp_modify]
  exact ⟨fun _ _ => h, fun _ => h⟩

/-- Asking for a priority changes nothing. -/
@[simp] lemma wp_retentionPriority {key : κ} {tokens pages : ℤ} {priority : Option π}
    {Q : π → PageArena κ π → Prop} {E : PyError → PageArena κ π → Prop} {s : PageArena κ π} :
    wp (retentionPriority key tokens pages priority) Q E s ↔
      (∀ value, priority = some value → Q value s) ∧
      (priority = none → ∀ value, s.retentionPolicy key tokens (max 1 pages) = .ok value → Q value s) ∧
      (priority = none → ∀ e, s.retentionPolicy key tokens (max 1 pages) = .error e → E e s) := by
  unfold retentionPriority
  cases priority with
  | some value => simp
  | none =>
    simp only [wp_bind, wp_get]
    cases s.retentionPolicy key tokens (max 1 pages) <;> simp

lemma retain_accounted (key : κ) (priority : Option π) :
    Preserves Accounted (retain (π := π) key priority) := by
  intro s h
  unfold retain forgetRetained
  simp only [wp_bind, wp_get, wp_set, wp_resident, wp_modify, wp_retentionPriority]
  exact ⟨fun _ _ => ⟨fun _ _ => h, fun _ _ _ => h, fun _ _ _ => h⟩, fun _ => h⟩

lemma popRetainedVictim_accounted (keep : Finset κ) :
    Preserves Accounted (popRetainedVictim (π := π) keep) := by
  intro s h
  unfold popRetainedVictim forgetRetained
  simp only [wp_bind, wp_get, wp_set]
  split <;> exact h

lemma rewind_accounted (key : κ) (tokens : ℤ) :
    Preserves Accounted (rewind (π := π) key tokens) := by
  intro s h
  unfold rewind
  simp only [wp_bind, wp_get, wp_resident, wp_ite, wp_throw, wp_needed, wp_set, wp_releasePages]
  refine ⟨fun r hr => ⟨fun _ => h, fun _ => ⟨fun _ => h, fun _ => ?_⟩⟩, fun _ => h⟩
  generalize pagesNeeded s.pageTokens tokens - (r.borrowed.length : ℤ) = keep
  have h' := Counts.shrink h { r with owned := Slice.before r.owned keep, tokens }
    (Slice.after r.owned keep) hr ?_ ?_ Slice.before_sublist
  · exact ⟨fun _ => retain_accounted key none _ h', fun _ => h'⟩
  · have hsplit : r.table = (r.borrowed ++ Slice.before r.owned keep) ++ Slice.after r.owned keep := by
      rw [List.append_assoc, Slice.split]
      rfl
    rw [hsplit]
    exact List.perm_append_comm
  · exact (List.Sublist.refl _).append Slice.before_sublist

lemma grow_accounted (key : κ) (capacity : ℤ) :
    Preserves Accounted (grow (π := π) key capacity) := by
  intro s h
  unfold grow
  simp only [wp_bind, wp_get, wp_resident, wp_ite, wp_pure, wp_needed, wp_set]
  refine ⟨fun r hr => ⟨fun _ => h, fun _ => ⟨fun _ => h, fun _ => ⟨fun _ => h, fun _ => ?_⟩⟩⟩,
    fun _ => h⟩
  generalize (pagesNeeded s.pageTokens capacity - (r.borrowed.length : ℤ) -
    (r.owned.length : ℤ)).toNat = n
  exact Counts.extend h _ hr (List.take_append_drop n s.free).symm

/-- Appending pages taken from the free list to resident keys, counted afterwards. -/
lemma appendPages_spec {keys : List κ} {added rest : List Page} {s : PageArena κ π}
    {holds : Page → ℤ} (hlen : keys.length = added.length)
    (hres : ∀ k ∈ keys, s.docs.contains k = true)
    (h : Counts s.numPages (added ++ rest) s.docs holds) :
    wp (appendPages (keys.zip added))
      (fun _ s' => s'.numPages = s.numPages ∧ s'.free = s.free ∧ s'.holds = s.holds ∧
        Counts s.numPages rest s'.docs (addHolds holds added))
      (fun _ _ => False) s := by
  induction keys generalizing added s holds with
  | nil =>
    obtain rfl := List.eq_nil_of_length_eq_zero hlen.symm
    exact ⟨rfl, rfl, rfl, h⟩
  | cons key keys ih =>
    cases added with
    | nil => cases hlen
    | cons page added =>
      rw [List.zip_cons_cons, appendPages]
      simp only [wp_bind, wp_resident, wp_modify]
      refine ⟨fun r hr => ?_, fun hnone => ?_⟩
      · have hmore := h.extend [page] hr (List.cons_append ..)
        refine wp_mono (ih (Nat.succ.inj hlen) (fun k hk => ?_) hmore) ?_ fun _ _ => id
        · rw [Dict.contains_iff_mem_keys, Dict.mem_keys_set, ← Dict.contains_iff_mem_keys]
          exact .inr (hres k (List.mem_cons_of_mem _ hk))
        · rintro _ s' ⟨hn, hf, hh, hc⟩
          refine ⟨hn, hf, hh, ?_⟩
          have hpage : page ∉ added := fun hp =>
            (List.nodup_cons.1 h.freeNodup).1 (List.mem_append_left _ hp)
          convert hc using 1
          funext p
          by_cases hp : p = page
          · subst hp
            simp [addHolds, hpage]
          · simp [addHolds, hp]
      · have hkey := hres key (List.mem_cons_self ..)
        rw [Dict.contains_iff, hnone] at hkey
        obtain ⟨_, hkey⟩ := hkey
        cases hkey

lemma growPages_accounted {keys : List κ} {s : PageArena κ π} (h : Accounted s)
    (hserved : s.free.length < keys.length ∨ ∀ k ∈ keys, s.docs.contains k = true) :
    wp (growPages keys) (fun _ => Accounted) (fun _ => Accounted) s := by
  unfold growPages
  simp only [wp_bind, wp_get, wp_ite, wp_pure, wp_set]
  refine ⟨fun _ => h, fun hlen => ?_⟩
  rw [gt_iff_lt, Nat.not_lt] at hlen
  have hres := hserved.resolve_left (Nat.not_lt.2 hlen)
  have htake : Counts s.numPages (s.free.take keys.length ++ s.free.drop keys.length) s.docs
      s.holds := by
    rw [List.take_append_drop]
    exact h
  refine wp_mono (appendPages_spec (s := { s with free := s.free.drop keys.length })
    (List.length_take_of_le hlen).symm hres htake) ?_ fun _ _ => False.elim
  rintro _ s' ⟨hn, hf, hh, hc⟩
  show Counts s'.numPages s'.free s'.docs (addHolds s'.holds _)
  rw [hn, hf, hh]
  exact hc

/-- The calls that keep the accounting: one that gives pages to keys either finds the free list too
short or names only resident keys. -/
def Call.Served (s : PageArena κ π) : Call κ π → Prop
  | .growPages keys => s.free.length < keys.length ∨ ∀ k ∈ keys, s.docs.contains k = true
  | _ => True

/-- One call keeps the accounting. -/
theorem step_accounted {s : PageArena κ π} {c : Call κ π} (h : Accounted s) (hc : c.Served s) :
    Accounted (c.step s) := by
  refine final_of_wp ?_
  cases c with
  | alloc key tokens capacity borrow =>
    cases borrow with
    | none => exact wp_map.2 (alloc_accounted h List.nodup_nil fun p hp => nomatch hp)
    | some borrow =>
      obtain ⟨parent, shared, start⟩ := borrow
      refine wp_bind.2 (wp_mono sharedPages_spec ?_ fun _ _ hs => hs ▸ h)
      rintro pages _ ⟨rfl, r, hr, hsub⟩
      refine wp_map.2 (alloc_accounted h ((h.tableNodup parent r hr).sublist hsub) fun p hp => ?_)
      have hp := hsub.subset hp
      exact ⟨h.tableBound parent r hr p hp, h.not_mem_free hr hp⟩
  | freeKey key => exact wp_map.2 (freeKey_accounted key s h)
  | rewind key tokens => exact wp_map.2 (rewind_accounted key tokens s h)
  | grow key capacity => exact wp_map.2 (grow_accounted key capacity s h)
  | growPages keys => exact wp_map.2 (growPages_accounted h hc)
  | dropLeading key pages => exact wp_map.2 (dropLeading_accounted key pages s h)
  | retain key priority => exact retain_accounted key priority s h
  | pin key => exact pin_accounted key s h
  | evict keep =>
    refine wp_bind.2 (wp_mono (popRetainedVictim_accounted keep s h) ?_ fun _ _ => id)
    rintro (_ | ⟨key, _, _⟩) s' h'
    · exact h'
    · exact wp_map.2 (freeKey_accounted key s' h')

end operations

/-! ## Runs of the arena -/

lemma new_accounted {n slots : ℕ} {pageTokens : ℤ} {policy : κ → ℤ → ℤ → Except PyError π} :
    Accounted (PageArena.new n pageTokens slots policy) where
  holders _ := rfl
  freeNodup := List.nodup_range
  free_iff p := by simp [PageArena.new]
  tableNodup _ _ hr := by simp [PageArena.new] at hr
  tableBound _ _ hr := by simp [PageArena.new] at hr
  oneOwner _ _ _ _ _ hr := by simp [PageArena.new] at hr

/-- The pages of a key's block table; none when it is not resident. -/
def PageArena.tablePages (s : PageArena κ π) (k : κ) : List Page :=
  (s.docs.get? k).elim [] Resident.table

/-- The pages a key owns. -/
def PageArena.ownedPages (s : PageArena κ π) (k : κ) : List Page :=
  (s.docs.get? k).elim [] Resident.owned

/-- Holders are counted, a page is free exactly when it has none, no table repeats a page, and no
page has two owners. -/
structure PagesCounted (s : PageArena κ π) : Prop where
  holds_eq : ∀ p < s.numPages,
    s.holds p = (s.docs.keys.filter fun k => p ∈ s.tablePages k).length
  free_count : ∀ p < s.numPages, s.free.count p = if s.holds p = 0 then 1 else 0
  table_nodup : ∀ k ∈ s.docs.keys, (s.tablePages k).Nodup
  one_owner : ∀ k k' p, k ∈ s.docs.keys → k' ∈ s.docs.keys →
    p ∈ s.ownedPages k → p ∈ s.ownedPages k' → k = k'

lemma Accounted.counted {s : PageArena κ π} (h : Accounted s) : PagesCounted s where
  holds_eq p _ := by
    rw [h.holders p]
    unfold holding
    rw [Dict.total_indicator]
    congr 2
    refine List.filter_congr fun k hk => ?_
    obtain ⟨r, hr⟩ := Dict.mem_keys_iff.1 hk
    simp [PageArena.tablePages, hr]
  free_count p hp := by
    have hiff := h.free_iff p
    by_cases h0 : s.holds p = 0
    · rw [if_pos h0]
      exact List.count_eq_one_of_mem h.freeNodup (hiff.2 ⟨hp, h0⟩)
    · rw [if_neg h0]
      exact List.count_eq_zero.2 fun hm => h0 (hiff.1 hm).2
  table_nodup k hk := by
    obtain ⟨r, hr⟩ := Dict.mem_keys_iff.1 hk
    simpa [PageArena.tablePages, hr] using h.tableNodup k r hr
  one_owner k k' p hk hk' hp hp' := by
    obtain ⟨r, hr⟩ := Dict.mem_keys_iff.1 hk
    obtain ⟨r', hr'⟩ := Dict.mem_keys_iff.1 hk'
    simp only [PageArena.ownedPages, hr, hr', Option.elim_some] at hp hp'
    exact h.oneOwner k k' r r' p hr hr' hp hp'

/-- From an empty arena, every run whose calls are served keeps the pages counted. -/
theorem run_counted [ToString κ] [LinearOrder π] (n slots : ℕ) (pageTokens : ℤ)
    (policy : κ → ℤ → ℤ → Except PyError π) (calls : List (Call κ π))
    (h : EachStep Call.step Call.Served (PageArena.new n pageTokens slots policy) calls) :
    PagesCounted (run Call.step (PageArena.new n pageTokens slots policy) calls) :=
  (run_invariant (fun _ _ => step_accounted) new_accounted h).counted

/-- A child borrows two pages of a document, grows, and outlives it. -/
theorem run_counted_borrower : PagesCounted (run Call.step
    (PageArena.new 10 16 0 fun (_ : ℕ) _ _ => .ok (0 : ℕ))
    [.alloc 0 40 none none, .alloc 1 50 none (some (0, 32, 0)), .growPages [1], .freeKey 0]) :=
  run_counted _ _ _ _ _ ⟨trivial, trivial, .inr (by decide), trivial, trivial⟩

/-- `grow_pages` takes the pages off the free list before it looks its keys up: a key that is not
resident raises, and the page is neither free nor held. -/
theorem growPages_loses_page : ¬ PagesCounted (run Call.step
    (PageArena.new 1 16 0 fun (_ : ℕ) _ _ => .ok (0 : ℕ)) [.growPages [0]]) := by
  intro h
  have hfree := h.free_count 0 (by decide)
  revert hfree
  decide

end Quail.Pages
