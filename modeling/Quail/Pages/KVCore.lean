import Quail.Pages.Pools

/-!
# What the arena of two pools keeps

`Core` holds of every arena: both pools keep their invariant and have the same keys, each of them with
its row indices, and the counts of holds and readers are positive. `Quiet` is what an operation does
that neither counts holds or readers nor frees a key that has some.
-/

set_option linter.unusedSectionVars false

namespace Quail.Pages
open Imperative

variable {κ π α : Type} [DecidableEq κ] [ToString κ] [LinearOrder π]
variable {s s' s'' : KVArena κ π} {key k : κ} {J : PageArena κ π → Prop}

namespace KVArena

/-- Queued keys will borrow from the key. -/
def isHeld (s : KVArena κ π) (key : κ) : Bool := s.holds.contains key

/-- Groups of the planned chunk read the key. -/
def isRead (s : KVArena κ π) (key : κ) : Bool := s.reading.contains key

/-- The key has a hold or a reader. -/
def InUse (s : KVArena κ π) (key : κ) : Prop := s.isHeld key = true ∨ s.isRead key = true

lemma mem_keep : key ∈ s.keep ↔ s.InUse key := by
  simp [keep, InUse, isHeld, isRead, Dict.contains_iff_mem_keys]

instance : Decidable (s.InUse key) := inferInstanceAs (Decidable (_ ∨ _))

end KVArena

/-- The pools keep their invariant, and what is kept beside them agrees with them. -/
structure Core (J : PageArena κ π → Prop) (s : KVArena κ π) : Prop where
  pool : J s.accounting
  slidingPool : ∀ p, s.sliding = some p → J p
  rows : ∀ k, s.rows.contains k = s.isResident k
  capacityRows : ∀ k, s.capacityRows.contains k = s.isResident k
  slidingDocs : ∀ p, s.sliding = some p → ∀ k, p.docs.contains k = s.isResident k
  holds : ∀ k n, s.holds.get? k = some n → n ≠ 0
  reading : ∀ k n, s.reading.get? k = some n → n ≠ 0

/-- The tables of some keys start with the pages they had; in the sliding pool, unless the key is past
its own pass's `trim_window`. -/
structure KeepsPages (use : κ → Prop) (s s' : KVArena κ π) : Prop where
  trimmed : ∀ k, use k → k ∈ s.trimmed → k ∈ s'.trimmed
  table : ∀ k r, use k → s.accounting.docs.get? k = some r →
    ∃ r', s'.accounting.docs.get? k = some r' ∧ r.table <+: r'.table
  sliding : ∀ p, s.sliding = some p → ∃ p', s'.sliding = some p' ∧
    ∀ k r, use k → p.docs.get? k = some r →
      ∃ r', p'.docs.get? k = some r' ∧ (k ∉ s'.trimmed → r.table <+: r'.table)

lemma KeepsPages.refl {use : κ → Prop} : KeepsPages use s s where
  trimmed _ _ h := h
  table _ r _ hr := ⟨r, hr, List.prefix_rfl⟩
  sliding p hp := ⟨p, hp, fun _ r _ hr => ⟨r, hr, fun _ => List.prefix_rfl⟩⟩

lemma KeepsPages.trans {use : κ → Prop} (h : KeepsPages use s s') (h' : KeepsPages use s' s'') :
    KeepsPages use s s'' where
  trimmed k hk hin := h'.trimmed k hk (h.trimmed k hk hin)
  table k r hk hr := by
    obtain ⟨r', hr', hpre⟩ := h.table k r hk hr
    obtain ⟨r'', hr'', hpre'⟩ := h'.table k r' hk hr'
    exact ⟨r'', hr'', hpre.trans hpre'⟩
  sliding p hp := by
    obtain ⟨p', hp', hkept⟩ := h.sliding p hp
    obtain ⟨p'', hp'', hkept'⟩ := h'.sliding p' hp'
    refine ⟨p'', hp'', fun k r hk hr => ?_⟩
    obtain ⟨r', hr', hpre⟩ := hkept k r hk hr
    obtain ⟨r'', hr'', hpre'⟩ := hkept' k r' hk hr'
    -- a key that was never trimmed was not trimmed on the way
    exact ⟨r'', hr'', fun hno => (hpre fun hin => hno (h'.trimmed k hk hin)).trans (hpre' hno)⟩

lemma KeepsPages.mono {use use' : κ → Prop} (h : KeepsPages use s s') (huse : ∀ k, use' k → use k) :
    KeepsPages use' s s' where
  trimmed k hk := h.trimmed k (huse k hk)
  table k r hk := h.table k r (huse k hk)
  sliding p hp := by
    obtain ⟨p', hp', hkept⟩ := h.sliding p hp
    exact ⟨p', hp', fun k r hk => hkept k r (huse k hk)⟩

lemma Widens.get? {docs docs' : Dict κ Resident} {r : Resident} (h : Widens docs docs')
    (hr : docs.get? k = some r) : ∃ r', docs'.get? k = some r' ∧ r.table <+: r'.table := by
  have hk : docs'.contains k = true := (h.same k).trans (Dict.contains_iff.2 ⟨r, hr⟩)
  obtain ⟨r', hr'⟩ := Dict.contains_iff.1 hk
  exact ⟨r', hr', h.table k r r' hr hr'⟩

lemma Alters.get? {docs docs' : Dict κ Resident} {r : Resident} (h : Alters key docs docs')
    (hr : docs.get? k = some r) :
    ∃ r', docs'.get? k = some r' ∧ (k ≠ key → r.table <+: r'.table) := by
  have hk : docs'.contains k = true := (h.same k).trans (Dict.contains_iff.2 ⟨r, hr⟩)
  obtain ⟨r', hr'⟩ := Dict.contains_iff.1 hk
  refine ⟨r', hr', fun hne => ?_⟩
  rw [h.other k hne, hr] at hr'
  exact Option.some.inj hr' ▸ List.prefix_rfl

/-- Both pools are as they were. -/
lemma KeepsPages.of_same {use : κ → Prop} (htrimmed : ∀ k, use k → k ∈ s.trimmed → k ∈ s'.trimmed)
    (hacc : s'.accounting = s.accounting) (hsliding : s'.sliding = s.sliding) :
    KeepsPages use s s' where
  trimmed := htrimmed
  table _ r _ hr := ⟨r, hacc ▸ hr, List.prefix_rfl⟩
  sliding p hp := ⟨p, hsliding.trans hp, fun _ r _ hr => ⟨r, hr, fun _ => List.prefix_rfl⟩⟩

/-- The every-token tables only widen, and the sliding pool is as it was. -/
lemma KeepsPages.of_widens {use : κ → Prop} (h : Widens s.accounting.docs s'.accounting.docs)
    (hsliding : s'.sliding = s.sliding) (htrimmed : s'.trimmed = s.trimmed) : KeepsPages use s s' where
  trimmed _ _ hin := htrimmed ▸ hin
  table _ _ _ hr := h.get? hr
  sliding p hp := ⟨p, hsliding.trans hp, fun _ r _ hr => ⟨r, hr, fun _ => List.prefix_rfl⟩⟩

/-- No hold, reader or free is counted, and a key with a hold or a reader keeps its pages. -/
structure Quiet (s s' : KVArena κ π) : Prop where
  holds : s'.holds = s.holds
  reading : s'.reading = s.reading
  deferred : s'.deferred = s.deferred
  kept : KeepsPages s.InUse s s'

lemma Quiet.inUse (h : Quiet s s') : s'.InUse k ↔ s.InUse k := by
  rw [KVArena.InUse, KVArena.InUse, KVArena.isHeld, KVArena.isRead, h.holds, h.reading]
  rfl

lemma Quiet.refl : Quiet s s := ⟨rfl, rfl, rfl, .refl⟩

lemma Quiet.trans (h : Quiet s s') (h' : Quiet s' s'') : Quiet s s'' where
  holds := h'.holds.trans h.holds
  reading := h'.reading.trans h.reading
  deferred := h'.deferred.trans h.deferred
  kept := h.kept.trans (h'.kept.mono fun _ hk => h.inUse.2 hk)

/-! ## Programs on the parts -/

@[simp] lemma wp_onAccounting {m : Op κ π α} {Q : α → KVArena κ π → Prop}
    {E : PyError → KVArena κ π → Prop} : wp (onAccounting m) Q E s ↔
      wp m (fun a accounting => Q a { s with accounting })
        (fun e accounting => E e { s with accounting }) s.accounting := wp_onPart

lemma wp_onSliding {m : Op κ π α} {Q : Option α → KVArena κ π → Prop}
    {E : PyError → KVArena κ π → Prop} : wp (onSliding m) Q E s ↔
      (s.sliding = none → Q none s) ∧ ∀ pool, s.sliding = some pool →
        wp m (fun a pool => Q (some a) { s with sliding := some pool })
          (fun e pool => E e { s with sliding := some pool }) pool := by
  unfold wp onSliding
  cases hs : s.sliding with
  | none => simp
  | some pool =>
    dsimp only
    cases hm : m pool <;> simp [hm]

@[simp] lemma wp_lookup {β : Type} {dict : KVArena κ π → Dict κ β} {Q : β → KVArena κ π → Prop}
    {E : PyError → KVArena κ π → Prop} : wp (lookup dict key) Q E s ↔
      (∀ v, (dict s).get? key = some v → Q v s) ∧
        ((dict s).get? key = none → E (.key (toString key)) s) := by
  unfold lookup
  rw [wp_reads]
  cases (dict s).get? key <;> simp

lemma origin_same {tokens : ℤ} :
    wp (origin tokens) (fun _ s' => s' = s) (fun _ s' => s' = s) s := by
  unfold origin
  simp only [wp_bind, wp_get, wp_ite, wp_pure, wp_throw, implies_true, and_self]

/-! ## Changes of one pool -/

/-- The every-token pool changes, with the same keys. -/
lemma Core.onPool {accounting : PageArena κ π} (h : Core J s) (hpool : J accounting)
    (hdocs : ∀ k, accounting.docs.contains k = s.accounting.docs.contains k) :
    Core J { s with accounting } where
  pool := hpool
  slidingPool := h.slidingPool
  rows k := (h.rows k).trans (hdocs k).symm
  capacityRows k := (h.capacityRows k).trans (hdocs k).symm
  slidingDocs p hp k := (h.slidingDocs p hp k).trans (hdocs k).symm
  holds := h.holds
  reading := h.reading

/-! ## Freeing -/

/-- The key leaves both pools, or its free waits. -/
structure FreeEnd (key : κ) (s s' : KVArena κ π) : Prop where
  holds : s'.holds = s.holds
  reading : s'.reading = s.reading
  waits : s.InUse key → s'.deferred = insert key s.deferred ∧ KeepsPages (fun _ => True) s s'
  frees : ¬s.InUse key → s'.deferred = s.deferred ∧ s'.isResident key = false ∧
    KeepsPages (· ≠ key) s s'

lemma contains_erase_iff {β : Type} {dict : Dict κ β} {docs : Dict κ Resident}
    (h : ∀ k, dict.contains k = docs.contains k) (k : κ) :
    (dict.erase key).contains k = (docs.erase key).contains k := by
  rw [Dict.contains_erase, Dict.contains_erase, h k]

/-- The core after a key left both pools. -/
lemma Core.leave {accounting : PageArena κ π} {sliding : Option (PageArena κ π)} (h : Core J s)
    (hpool : J accounting) (hdocs : accounting.docs = s.accounting.docs.erase key)
    (hsliding : ∀ p, sliding = some p → J p ∧ ∀ k, p.docs.contains k = accounting.docs.contains k) :
    Core J { s with
      accounting, sliding
      rows := s.rows.erase key
      capacityRows := s.capacityRows.erase key
      staleRows := s.staleRows.erase key
      slidingRows := s.slidingRows.erase key
      base := s.base.erase key
      slidingStart := s.slidingStart.erase key
      windowFloor := s.windowFloor.erase key
      trimmed := s.trimmed.erase key } where
  pool := hpool
  slidingPool p hp := (hsliding p hp).1
  rows k := (contains_erase_iff h.rows k).trans (congrArg (·.contains k) hdocs).symm
  capacityRows k := (contains_erase_iff h.capacityRows k).trans (congrArg (·.contains k) hdocs).symm
  slidingDocs p hp := (hsliding p hp).2
  holds := h.holds
  reading := h.reading

lemma freeKey_spec (hJ : PoolInvariant J) (h : Core J s) :
    wp (KVArena.freeKey key) (fun _ s' => Core J s' ∧ FreeEnd key s s')
      (fun _ s' => Core J s' ∧ FreeEnd key s s') s := by
  unfold KVArena.freeKey
  simp only [wp_bind, wp_get, wp_ite, wp_set, wp_pure, wp_modify, wp_lookup, wp_discard, wp_onSliding,
    wp_onAccounting]
  refine ⟨fun huse => ⟨?_, rfl, rfl, fun _ => ⟨rfl, .of_widens .refl rfl rfl⟩, fun hno =>
    absurd huse hno⟩, fun hno => ?_⟩
  · exact ⟨h.pool, h.slidingPool, h.rows, h.capacityRows, h.slidingDocs, h.holds, h.reading⟩
  have hother : ∀ {docs : Dict κ Resident} {k : κ} {r : Resident}, k ≠ key → docs.get? k = some r →
      ∃ r', (docs.erase key).get? k = some r' ∧ r.table <+: r'.table := fun hk hr =>
    ⟨_, (Dict.get?_erase_ne (Ne.symm hk)).trans hr, List.prefix_rfl⟩
  have hfree : ∀ s' : KVArena κ π, s'.holds = s.holds → s'.reading = s.reading →
      s'.deferred = s.deferred → s'.trimmed = s.trimmed.erase key →
      s'.accounting.docs = s.accounting.docs.erase key →
      (∀ p, s.sliding = some p → ∃ p', s'.sliding = some p' ∧ p'.docs = p.docs.erase key) →
      FreeEnd key s s' := by
    intro s' hholds hreading hdeferred htrimmed hdocs hsliding
    refine ⟨hholds, hreading, fun huse => absurd huse hno, fun _ => ⟨hdeferred, ?_, fun k hk hin => ?_,
      fun k r hk hr => ?_, fun p hp => ?_⟩⟩
    · rw [KVArena.isResident, hdocs, Dict.contains_erase]
      simp
    · rw [htrimmed]
      exact Finset.mem_erase.2 ⟨hk, hin⟩
    · rw [hdocs]
      exact hother hk hr
    · obtain ⟨p', hp', hdocs'⟩ := hsliding p hp
      refine ⟨p', hp', fun k r hk hr => ?_⟩
      obtain ⟨r', hr', hpre⟩ := hother hk hr
      exact ⟨r', hdocs' ▸ hr', fun _ => hpre⟩
  cases hres : s.isResident key with
  | false =>
    -- a key that is not resident has no row indices: the first lookup raises
    have hrows := Dict.contains_eq_false.1 ((h.rows key).trans hres)
    refine ⟨fun v hv => ?_, fun _ => ⟨⟨h.pool, h.slidingPool, h.rows, h.capacityRows, h.slidingDocs,
      h.holds, h.reading⟩, rfl, rfl, fun huse => absurd huse hno, fun _ => ⟨rfl, hres, ?_⟩⟩⟩
    · rw [hrows] at hv
      cases hv
    · exact .of_same (fun k hk hin => Finset.mem_erase.2 ⟨hk, hin⟩) rfl rfl
  | true =>
    have hrows := (h.rows key).trans hres
    have hcapacity := (h.capacityRows key).trans hres
    have hraise : s.accounting.docs.contains key ≠ false := fun hno =>
      Bool.false_ne_true (hno.symm.trans hres)
    refine ⟨fun _ _ => ⟨fun _ _ => ⟨fun hnone => ?_, fun pool hpool => ?_⟩, fun hno => ?_⟩, fun hno => ?_⟩
    · refine wp_mono (wp_and (hJ.freeKey key _ h.pool) freeKey_docs) ?_ fun _ _ h =>
        absurd h.2.1 hraise
      rintro _ accounting ⟨hacc, _, hdocs⟩
      have hnone' : ∀ p, s.sliding ≠ some p := fun p hp => by
        rw [hnone] at hp
        cases hp
      exact ⟨h.leave hacc hdocs fun p hp => absurd hp (hnone' p), hfree _ rfl rfl rfl rfl hdocs fun p hp =>
        absurd hp (hnone' p)⟩
    · refine wp_mono (wp_and (hJ.freeKey key _ (h.slidingPool pool hpool)) freeKey_docs) ?_
        fun _ _ hno => absurd ((h.slidingDocs pool hpool key).symm.trans hno.2.1) hraise
      rintro _ p' ⟨hp', _, hdocs'⟩
      refine wp_mono (wp_and (hJ.freeKey key _ h.pool) freeKey_docs) ?_ fun _ _ h =>
        absurd h.2.1 hraise
      rintro _ accounting ⟨hacc, _, hdocs⟩
      refine ⟨h.leave hacc hdocs fun p hp => ?_, hfree _ rfl rfl rfl rfl hdocs fun p hp => ?_⟩
      · obtain rfl := Option.some.inj hp
        refine ⟨hp', fun k => ?_⟩
        rw [hdocs', contains_erase_iff (h.slidingDocs pool hpool), hdocs]
      · obtain rfl := Option.some.inj (hpool.symm.trans hp)
        exact ⟨p', rfl, hdocs'⟩
    · rw [Dict.contains_eq_false.2 hno] at hcapacity
      cases hcapacity
    · rw [Dict.contains_eq_false.2 hno] at hrows
      cases hrows

/-- Freeing a key without holds or readers frees no key that has some. -/
lemma FreeEnd.quiet (h : FreeEnd key s s') (hno : ¬s.InUse key) : Quiet s s' where
  holds := h.holds
  reading := h.reading
  deferred := (h.frees hno).1
  kept := (h.frees hno).2.2.mono fun _ huse heq => hno (heq ▸ huse)

/-! ## Eviction -/

lemma evictKey_spec (hJ : PoolInvariant J) (h : Core J s) (hno : ¬s.InUse key) :
    wp (evictKey key) (fun _ s' => Core J s' ∧ Quiet s s') (fun _ s' => Core J s' ∧ Quiet s s') s := by
  unfold evictKey
  simp only [wp_bind, wp_onAccounting, wp_resident]
  refine ⟨fun _ _ => ?_, fun _ => ⟨h, .refl⟩⟩
  refine wp_mono (freeKey_spec hJ h) ?_ ?_
  · rintro _ s' ⟨hcore, hfree⟩
    have hquiet := hfree.quiet hno
    exact ⟨⟨hcore.pool, hcore.slidingPool, hcore.rows, hcore.capacityRows, hcore.slidingDocs,
      hcore.holds, hcore.reading⟩, hquiet.holds, hquiet.reading, hquiet.deferred, hquiet.kept.trimmed,
      hquiet.kept.table, hquiet.kept.sliding⟩
  · rintro _ s' ⟨hcore, hfree⟩
    exact ⟨hcore, hfree.quiet hno⟩

/-- Keys that are held or read are not evicted. -/
lemma evictTurns_spec (hJ : PoolInvariant J) {satisfied : KVArena κ π → Except PyError Bool}
    {keep : Finset κ} {turns : ℕ} {keys : List κ} (h : Core J s)
    (hkeep : ∀ k, k ∈ keep ↔ s.InUse k) :
    wp (evictTurns satisfied keep turns keys) (fun _ s' => Core J s' ∧ Quiet s s')
      (fun _ s' => Core J s' ∧ Quiet s s') s := by
  induction turns generalizing s keys with
  | zero => exact ⟨h, .refl⟩
  | succ turns ih =>
    rw [evictTurns]
    simp only [wp_bind, wp_reads, wp_ite, wp_pure, wp_onAccounting]
    refine ⟨fun _ _ => ⟨fun _ => ⟨h, .refl⟩, fun _ => ?_⟩, fun _ _ => ⟨h, .refl⟩⟩
    refine wp_mono (wp_and (hJ.popRetainedVictim keep _ h.pool) popRetainedVictim_docs) ?_
      (fun _ _ h => h.2.elim)
    rintro victim accounting ⟨hpool, hdocs, hvictim⟩
    have hpopped := h.onPool hpool fun k => congrArg (·.contains k) hdocs
    have hquiet : Quiet s { s with accounting } :=
      ⟨rfl, rfl, rfl, .of_widens (hdocs ▸ .refl) rfl rfl⟩
    cases victim with
    | none => exact ⟨hpopped, hquiet⟩
    | some victim =>
      obtain ⟨key, pages, tokens⟩ := victim
      simp only [wp_bind, wp_discard]
      have hno : ¬({ s with accounting } : KVArena κ π).InUse key := fun huse =>
        hvictim _ rfl ((hkeep key).2 (hquiet.inUse.1 huse))
      refine wp_mono (evictKey_spec hJ hpopped hno) ?_ ?_
      · rintro _ s' ⟨hcore, hs'⟩
        have hall := hquiet.trans hs'
        refine wp_mono (ih hcore fun k => (hkeep k).trans hall.inUse.symm) ?_ ?_
        · exact fun _ _ h' => ⟨h'.1, hall.trans h'.2⟩
        · exact fun _ _ h' => ⟨h'.1, hall.trans h'.2⟩
      · rintro _ s' ⟨hcore, hs'⟩
        exact ⟨hcore, hquiet.trans hs'⟩

lemma evictUntil_spec (hJ : PoolInvariant J) {satisfied : KVArena κ π → Except PyError Bool}
    (h : Core J s) : wp (evictUntil satisfied) (fun _ s' => Core J s' ∧ Quiet s s')
      (fun _ s' => Core J s' ∧ Quiet s s') s := by
  unfold evictUntil
  rw [wp_bind, wp_get]
  exact evictTurns_spec hJ h fun _ => KVArena.mem_keep

end Quail.Pages
